import Tkeycoin.ScriptReading
import Tkeycoin.Lockstep
import Tkeycoin.StackLimit

/-! One push written in two ways: when the script means the same. -/
namespace Tkeycoin

open ActionLogic Interpreter Script

namespace PushEncoding

/-- The frame an encoding leaves: short data is kept as a number behind a direct
push and PUSHDATA1, as bytes behind PUSHDATA2 and PUSHDATA4. -/
def frameOf (d : ScriptData) : PushKind → StackFrame
  | .direct => numberOrData d
  | .pushData1 => numberOrData d
  | .pushData2 => .data d
  | .pushData4 => .data d

/-- Encodings that turn short data into a number. -/
def narrow (k : PushKind) : Prop := k = .direct ∨ k = .pushData1

/-- The two encodings leave the same bytes. -/
def SameFrame (d : ScriptData) (k₁ k₂ : PushKind) : Prop :=
  (narrow k₁ ↔ narrow k₂) ∨ 4 < d.length ∨ ScriptNum.serialize (ScriptNum.setVch d) = d

/-- The same frame, or a short number and its bytes. -/
def Alike (f f' : StackFrame) : Prop :=
  f = f' ∨ ∃ n, n.getvch.length ≤ 4 ∧
    ((f = .number n ∧ f' = .data n.getvch) ∨ (f = .data n.getvch ∧ f' = .number n))

theorem frameOf_alike {d : ScriptData} {k₁ k₂ : PushKind} (h : SameFrame d k₁ k₂) :
    Alike (frameOf d k₁) (frameOf d k₂) := by
  by_cases hd : d.length ≤ 4
  · by_cases hround : ScriptNum.serialize (ScriptNum.setVch d) = d
    · have hn : (ScriptNum.mk (ScriptNum.setVch d)).getvch = d := hround
      have hdata : StackFrame.data d = .data (ScriptNum.mk (ScriptNum.setVch d)).getvch := by rw [hn]
      have hnumber : numberOrData d = .number ⟨ScriptNum.setVch d⟩ := if_pos hd
      have hlen : (ScriptNum.mk (ScriptNum.setVch d)).getvch.length ≤ 4 := by rw [hn]; exact hd
      cases k₁ <;> cases k₂ <;>
        first
        | exact .inl rfl
        | exact .inr ⟨_,hlen,.inl ⟨hnumber,hdata⟩⟩
        | exact .inr ⟨_,hlen,.inr ⟨hdata,hnumber⟩⟩
    · have hsame : narrow k₁ ↔ narrow k₂ := by
        rcases h with h | h | h
        · exact h
        · omega
        · exact absurd h hround
      cases k₁ <;> cases k₂ <;> first | exact .inl rfl | simp [narrow] at hsame
  · have hnumber : numberOrData d = .data d := if_neg hd
    cases k₁ <;> cases k₂ <;> simp [frameOf,hnumber,Alike]

section Positions

/-- Positions of two scripts that differ in the push: before it, up to the push
itself, or at the same bytes behind it. -/
def Aligned (e₁ e₂ post p q : Bytes) : Prop :=
  NoneOf signatureOpCodes p ∧ p.length ≤ MAX_SCRIPT_SIZE ∧ q.length ≤ MAX_SCRIPT_SIZE ∧
    (p = q ∨ ∃ x, p = x ++ (e₁ ++ post) ∧ q = x ++ (e₂ ++ post) ∧ Boundary p (e₁ ++ post))

theorem boundary_suffix {p q : Bytes} (h : Boundary p q) : ∃ x, p = x ++ q := by
  induction h using Relation.ReflTransGen.head_induction_on with
  | refl => exact ⟨[],rfl⟩
  | head hf _ ih =>
    obtain ⟨i,hi⟩ := hf
    obtain ⟨c,rfl,-,-⟩ := getScriptOp_local hi
    obtain ⟨x,rfl⟩ := ih
    exact ⟨c ++ x,by simp⟩

theorem noneOf_follows {opCodes : List OpCode} {p q : Bytes} {i : OpCode × ScriptData}
    (h : NoneOf opCodes p) (hi : getScriptOp p = (some i,q)) : i.1 ∉ opCodes ∧ NoneOf opCodes q :=
  ⟨h p .refl i q hi,fun r hr => h r (.head ⟨i,hi⟩ hr)⟩

theorem noneOf_of_follows {opCodes : List OpCode} {p q : Bytes} {i : OpCode × ScriptData}
    (hi : getScriptOp p = (some i,q)) (hn : i.1 ∉ opCodes) (h : NoneOf opCodes q) : NoneOf opCodes p := by
  intro r hr j r' hj
  rcases Relation.ReflTransGen.cases_head hr with rfl | ⟨q',⟨k,hk⟩,hr'⟩
  · obtain ⟨rfl,-⟩ : i = j ∧ q = r' := by simpa [hi] using hj
    exact hn
  · obtain ⟨-,rfl⟩ : i = k ∧ q = q' := by simpa [hi] using hk
    exact h r hr' j r' hj

theorem noneOf_nil (opCodes : List OpCode) : NoneOf opCodes [] := by
  intro q hq i r hi
  rcases Relation.ReflTransGen.cases_head hq with rfl | ⟨q',⟨k,hk⟩,-⟩
  · simp [getScriptOp] at hi
  · simp [getScriptOp] at hk

variable {e₁ e₂ post p q : Bytes}

/-- Aligned positions are those of the push or read the same instruction. -/
theorem aligned_read (h : Aligned e₁ e₂ post p q) :
    (p = e₁ ++ post ∧ q = e₂ ++ post) ∨
      match getScriptOp p,getScriptOp q with
      | (some i,p'),(some j,q') => i = j ∧ Aligned e₁ e₂ post p' q' ∧ i.1 ∉ signatureOpCodes
      | (none,_),(none,_) => True
      | _,_ => False := by
  obtain ⟨hnone,hp,hq,rfl | ⟨x,hpx,hqx,hb⟩⟩ := h
  · refine .inr ?_
    rcases hi : getScriptOp p with ⟨_ | i,p'⟩
    · trivial
    · have hl := (getScriptOp_length hi).le
      have hn := noneOf_follows hnone hi
      exact ⟨rfl,⟨hn.2,hl.trans hp,hl.trans hq,.inl rfl⟩,hn.1⟩
  · rcases Relation.ReflTransGen.cases_head hb with heq | ⟨p',⟨i,hi⟩,hb'⟩
    · have hx : x = [] := by simpa [heq] using hpx
      exact .inl ⟨heq,by simpa [hx] using hqx⟩
    · refine .inr ?_
      obtain ⟨c,hc,-,hlocal⟩ := getScriptOp_local hi
      obtain ⟨x',rfl⟩ := boundary_suffix hb'
      have hx : x = c ++ x' := by
        rw [hpx,← List.append_assoc c] at hc
        exact List.append_cancel_right hc
      have hq' : q = c ++ (x' ++ (e₂ ++ post)) := by rw [hqx,hx,List.append_assoc]
      have hread : getScriptOp q = (some i,x' ++ (e₂ ++ post)) := by
        rw [hq'] at hq ⊢
        exact hlocal _ (lt_of_le_of_lt hq (by decide))
      have hn := noneOf_follows hnone hi
      rw [hi,hread]
      exact ⟨rfl,⟨hn.2,(getScriptOp_length hi).le.trans hp,(getScriptOp_length hread).le.trans hq,
        .inr ⟨x',rfl,rfl,hb'⟩⟩,hn.1⟩

end Positions

/-- No flag is set. -/
abbrev plain (checker : SignatureChecker) (sigversion : SigVersion) (crypto : Crypto) : Env :=
  .ofFlags .empty checker sigversion crypto

theorem plain_isSet (checker : SignatureChecker) (sigversion : SigVersion) (crypto : Crypto)
    (flag : ScriptVerifyFlags) : (plain checker sigversion crypto).isSet flag = false := by
  cases flag <;> rfl

section Correspond

variable (checker : SignatureChecker) (sigversion : SigVersion) (crypto : Crypto)

/-- The correspondence between a script and the one with the other push. -/
def correspondence (e₁ e₂ post : Bytes) :
    Correspondence (plain checker sigversion crypto) (plain checker sigversion crypto) where
  lax := False
  frame := Alike
  position p q := Aligned e₁ e₂ post p.1 q.1
  refl f := .inl rfl
  asData := by
    rintro f f' (rfl | ⟨n,-,⟨rfl,rfl⟩ | ⟨rfl,rfl⟩⟩) <;> rfl
  castToBool := by
    rintro f f' (rfl | ⟨n,-,⟨rfl,rfl⟩ | ⟨rfl,rfl⟩⟩)
    · rfl
    · exact (StackFrame.castToBool_getvch n).symm
    · exact StackFrame.castToBool_getvch n
  asNumber := by
    have hdata (n : ScriptNum) (hn : n.getvch.length ≤ 4) :
        (StackFrame.data n.getvch).asNumber false = (StackFrame.number n).asNumber false := by
      have hsize : ¬ n.getvch.length > ScriptNum.nDefaultMaxNumSize := Nat.not_lt.mpr hn
      simp only [StackFrame.asNumber,ScriptNum.ofData,if_neg hsize]
      simp [ScriptNum.getvch,ScriptNum.setVch_serialize]
    rintro f f' hf
    rw [plain_isSet]
    rcases hf with rfl | ⟨n,hn,⟨rfl,rfl⟩ | ⟨rfl,rfl⟩⟩
    · exact ExceptMatch.refl _ _
    · exact hdata n hn ▸ ExceptMatch.refl _ _
    · exact hdata n hn ▸ ExceptMatch.refl _ _
  minimalIf h := absurd h (by simp [plain_isSet])
  toData := False.elim
  separator h := h
  weaker _ := id
  strict := .inr fun _ => id
  checker := rfl
  sigversion := rfl
  crypto := rfl

end Correspond

section Round

variable {checker : SignatureChecker} {sigversion : SigVersion} {crypto : Crypto}
  {d : ScriptData} {k k₁ k₂ : PushKind}

theorem pushNumberOrData_plain (s : Interpreter) :
    (pushNumberOrData (plain checker sigversion crypto) d).run s =
      .ok () { s with _stack := numberOrData d :: s._stack } := by
  rw [pushNumberOrData_run,if_neg (by simp [plain_isSet])]

theorem dispatch_push (hk : k ≠ .direct) (s : Interpreter) :
    (dispatch (plain checker sigversion crypto) (k.opCode d) d).run s =
      .ok () { s with _stack := frameOf d k :: s._stack } := by
  cases k with
  | direct => exact absurd rfl hk
  | pushData1 =>
    change (opPushData1 (plain checker sigversion crypto) d).run s = _
    rw [opPushData1,if_neg (by simp [plain_isSet])]
    exact pushNumberOrData_plain s
  | pushData2 =>
    change (opPushData2 (plain checker sigversion crypto) d).run s = _
    rw [opPushData2,if_neg (by simp [plain_isSet])]
    rfl
  | pushData4 =>
    change (opPushData4 (plain checker sigversion crypto) d).run s = _
    rw [opPushData4,if_neg (by simp [plain_isSet])]
    rfl

/-- Carrying out a push: only a direct one goes past the size limits. -/
theorem carryOut_push (h : k.Fits d) (s : Interpreter) :
    (carryOut (plain checker sigversion crypto) (k.opCode d) d).run s =
      if mustExecuted s = true then
        if k = .direct then .ok () { s with _stack := frameOf d k :: s._stack }
        else sizeLimits.run { s with _stack := frameOf d k :: s._stack }
      else sizeLimits.run s := by
  have hcond : ¬ (OpCode.opIf ≤ k.opCode d ∧ k.opCode d ≤ OpCode.opEndIf) := fun hc =>
    absurd (UInt8.le_trans hc.1 (PushKind.opCode_le h)) (by decide)
  rw [carryOut_run,if_neg hcond]
  by_cases hm : mustExecuted s = true
  · rw [if_pos hm,if_pos hm]
    by_cases hk : k = .direct
    · rw [if_pos ((PushKind.opCode_lt_iff h).mpr hk),if_pos hk,hk]
      exact (opPushData_run _ _ d s).2 (by simp [refused,plain_isSet])
    · rw [if_neg (fun hlt => hk ((PushKind.opCode_lt_iff h).mp hlt)),if_neg hk]
      exact run_bind_ok (dispatch_push hk s)
  · rw [if_neg hm,if_neg hm]

/-- Reading a push. -/
theorem step_push {env : Env} (h : k.Fits d) (post : Bytes) {s : Interpreter}
    (hcur : s._curScriptPosition = k.encode d ++ post)
    (hlen : (k.encode d ++ post).length ≤ MAX_SCRIPT_SIZE) :
    (step env).run s =
      if d.length > MAX_SCRIPT_ELEMENT_SIZE then .error (.script .pushSize) { s with _curScriptPosition := post }
      else (carryOut env (k.opCode d) d).run
        { s with _curScriptPosition := post } := by
  have hread := PushKind.getScriptOp_encode h post (lt_of_le_of_lt hlen (by decide))
  have hop : ¬ k.opCode d > OpCode.op16 := fun hc =>
    absurd (UInt8.lt_of_lt_of_le hc (PushKind.opCode_le h)) (by decide)
  rw [step,run_bind_andThen,fetch_run,hcur,hread]
  simp only [fetched]
  split_ifs <;> rfl

/-- Where the encodings leave alike frames, and the size limits do not tell them
apart, a round at the push corresponds. -/
theorem step_push_matches {post : Bytes} (h₁ : k₁.Fits d) (h₂ : k₂.Fits d) (hframe : SameFrame d k₁ k₂)
    {s t : Interpreter}
    (h : (correspondence checker sigversion crypto (k₁.encode d) (k₂.encode d) post).Rel s t)
    (hs : s._curScriptPosition = k₁.encode d ++ post) (ht : t._curScriptPosition = k₂.encode d ++ post)
    (hlimit : (k₁ = .direct ↔ k₂ = .direct) ∨ (mustExecuted s = true → depth s < MAX_STACK_SIZE)) :
    Matches False (correspondence checker sigversion crypto (k₁.encode d) (k₂.encode d) post).Rel
      (fun _ _ => True) ((step (plain checker sigversion crypto)).run s)
      ((step (plain checker sigversion crypto)).run t) := by
  rw [step_push h₁ post hs (hs ▸ h.position.2.1),step_push h₂ post ht (ht ▸ h.position.2.2.1)]
  by_cases hsize : d.length > MAX_SCRIPT_ELEMENT_SIZE
  · rw [if_pos hsize,if_pos hsize]
    exact .inr rfl
  rw [if_neg hsize,if_neg hsize,carryOut_push h₁,carryOut_push h₂]
  have hlen₁ : (k₁.encode d ++ post).length ≤ MAX_SCRIPT_SIZE := hs ▸ h.position.2.1
  have hread := PushKind.getScriptOp_encode h₁ post (lt_of_le_of_lt hlen₁ (by decide))
  have hpost : post.length ≤ MAX_SCRIPT_SIZE := (getScriptOp_length hread).le.trans hlen₁
  have hpos : Aligned (k₁.encode d) (k₂.encode d) post post post :=
    ⟨(noneOf_follows (hs ▸ h.position.1) hread).2,hpost,hpost,.inl rfl⟩
  have hstack := List.Forall₂.cons (frameOf_alike hframe) h.stack
  have hm : mustExecuted { s with _curScriptPosition := post } =
      mustExecuted { t with _curScriptPosition := post } := by
    rw [mustExecuted,mustExecuted,h.flags]
  rw [← hm]
  by_cases hexec : mustExecuted { s with _curScriptPosition := post } = true
  · rw [if_pos hexec,if_pos hexec]
    have hsizes (hroom : depth s < MAX_STACK_SIZE) :
        (sizeLimits.run { s with _curScriptPosition := post, _stack := frameOf d k₁ :: s._stack } =
          .ok () { s with _curScriptPosition := post, _stack := frameOf d k₁ :: s._stack }) ∧
        (sizeLimits.run { t with _curScriptPosition := post, _stack := frameOf d k₂ :: t._stack } =
          .ok () { t with _curScriptPosition := post, _stack := frameOf d k₂ :: t._stack }) := by
      have hl := h.stack.length_eq
      have hl' := h.altStack.length_eq
      simp only [depth] at hroom
      constructor <;> rw [sizeLimits_run,if_neg (by simp only [List.length_cons]; omega)]
    by_cases hd₁ : k₁ = .direct <;> by_cases hd₂ : k₂ = .direct
    · rw [if_pos hd₁,if_pos hd₂]
      exact ⟨trivial,h.opCount,hstack,h.altStack,h.flags,hpos⟩
    · have hroom := (hlimit.resolve_left fun hiff => hd₂ (hiff.mp hd₁)) hexec
      rw [if_pos hd₁,if_neg hd₂,(hsizes hroom).2]
      exact ⟨trivial,h.opCount,hstack,h.altStack,h.flags,hpos⟩
    · have hroom := (hlimit.resolve_left fun hiff => hd₁ (hiff.mpr hd₂)) hexec
      rw [if_neg hd₁,if_pos hd₂,(hsizes hroom).1]
      exact ⟨trivial,h.opCount,hstack,h.altStack,h.flags,hpos⟩
    · rw [if_neg hd₁,if_neg hd₂]
      exact Correspondence.sizeLimits_sim _ _ ⟨h.opCount,hstack,h.altStack,h.flags,hpos⟩
  · rw [if_neg hexec,if_neg hexec]
    exact Correspondence.sizeLimits_sim _ _ ⟨h.opCount,h.stack,h.altStack,h.flags,hpos⟩

/-- A push in a script without signature opcodes, and the script with the other push. -/
structure Replacement (d : ScriptData) (k₁ k₂ : PushKind) (pre post : Bytes) : Prop where
  boundary : Boundary (pre ++ (k₁.encode d ++ post)) (k₁.encode d ++ post)
  noSignature : NoneOf signatureOpCodes (pre ++ (k₁.encode d ++ post))
  size₁ : (pre ++ (k₁.encode d ++ post)).length ≤ MAX_SCRIPT_SIZE
  size₂ : (pre ++ (k₂.encode d ++ post)).length ≤ MAX_SCRIPT_SIZE

/-- The run does not come to execute the push with full stacks. -/
def Room (env : Env) (d : ScriptData) (k : PushKind) (pre post : Bytes) (s₀ : Interpreter) : Prop :=
  ∀ s, Reached env (pre ++ (k.encode d ++ post)) s₀ s → s._curScriptPosition = k.encode d ++ post →
    mustExecuted s = true → depth s < MAX_STACK_SIZE

theorem sameMeaning {pre post : Bytes} {s₀ : Interpreter} (h₁ : k₁.Fits d) (h₂ : k₂.Fits d)
    (hframe : SameFrame d k₁ k₂) (hr : Replacement d k₁ k₂ pre post)
    (hlimit : (k₁ = .direct ↔ k₂ = .direct) ∨ Room (plain checker sigversion crypto) d k₁ pre post s₀) :
    SameMeaning (execute (plain checker sigversion crypto) (pre ++ (k₁.encode d ++ post)) s₀)
      (execute (plain checker sigversion crypto) (pre ++ (k₂.encode d ++ post)) s₀) := by
  let C := correspondence checker sigversion crypto (k₁.encode d) (k₂.encode d) post
  have hsame (l : Stack) : List.Forall₂ C.frame l l := List.forall₂_same.mpr fun f _ => C.refl f
  have hstart : C.Rel (start (pre ++ (k₁.encode d ++ post)) s₀) (start (pre ++ (k₂.encode d ++ post)) s₀) :=
    ⟨rfl,hsame _,hsame _,rfl,hr.noSignature,hr.size₁,hr.size₂,.inr ⟨pre,rfl,rfl,hr.boundary⟩⟩
  refine C.sameMeaning_of_matches id (C.body_matches hr.size₁ hr.size₂ hstart ?_ ?_)
  · intro s t hR
    rcases hR.position.2.2.2 with heq | ⟨x,hs,ht,-⟩
    · rw [more,more]
      exact congrArg (· != []) heq
    · change s._curScriptPosition = _ at hs
      change t._curScriptPosition = _ at ht
      have hne (k : PushKind) : x ++ (k.encode d ++ post) ≠ [] := by simp [PushKind.encode]
      rw [more,more,hs,ht,bne_iff_ne.mpr (hne k₁),bne_iff_ne.mpr (hne k₂)]
  · intro s t hreach hR
    rcases aligned_read hR.position with ⟨hs,ht⟩ | hread
    · exact step_push_matches h₁ h₂ hframe hR hs ht (hlimit.imp id fun hroom => hroom s hreach hs)
    · refine C.step_matches hR ?_
      change match getScriptOp s._curScriptPosition,getScriptOp t._curScriptPosition with
        | (some i,p'),(some j,q') => i = j ∧ Aligned _ _ post p' q' ∧ i.1 ∉ signatureOpCodes
        | (none,_),(none,_) => True
        | _,_ => False at hread
      revert hread
      rcases getScriptOp s._curScriptPosition with ⟨_ | i,p'⟩ <;>
        rcases getScriptOp t._curScriptPosition with ⟨_ | j,q'⟩
      · exact id
      · exact id
      · exact id
      · exact fun hread => ⟨hread.1,hread.2.1,fun hsig => absurd hsig hread.2.2⟩

theorem encode_length (k : PushKind) (d : ScriptData) : (k.encode d).length = 1 + k.width + d.length := by
  simp only [PushKind.encode,List.length_cons,List.length_append,leBytes_length]
  omega

/-- A script of `n` times `OP_0` and the push. -/
theorem replacement_op0 (n : ℕ) (h₁ : k₁.Fits d) (hd : d.length ≤ MAX_SCRIPT_ELEMENT_SIZE)
    (hn : n ≤ MAX_STACK_SIZE) :
    Replacement d k₁ k₂ (List.replicate n 0x00) [] := by
  have hlen (k : PushKind) : (List.replicate n 0x00 ++ (k.encode d ++ [])).length ≤ MAX_SCRIPT_SIZE := by
    have hw : k.width ≤ 4 := by cases k <;> decide
    have hd' : d.length ≤ 520 := hd
    have hn' : n ≤ 1000 := hn
    simp only [List.length_append,List.length_replicate,List.length_nil,encode_length,MAX_SCRIPT_SIZE]
    omega
  have hshort : (k₁.encode d ++ []).length < 2^32 := by
    have hall := hlen k₁
    simp only [List.length_append,List.length_nil,MAX_SCRIPT_SIZE] at hall ⊢
    omega
  have hread := PushKind.getScriptOp_encode h₁ [] hshort
  have hzero (rest : Bytes) : getScriptOp (0x00 :: rest) = (some (OpCode.op0,[]),rest) := by
    simp [getScriptOp,operandSize,OpCode.op0,OpCode.opPushData1,OpCode.opPushData4]
  have hop : k₁.opCode d ∉ signatureOpCodes := fun hmem => by
    have hle := PushKind.opCode_le h₁
    simp only [signatureOpCodes,List.mem_cons,List.not_mem_nil,or_false] at hmem
    rcases hmem with h | h | h | h <;> rw [h] at hle <;> exact absurd hle (by decide)
  refine ⟨?_,?_,hlen k₁,hlen k₂⟩
  · clear hlen hn
    induction n with
    | zero => exact .refl
    | succ n ih => exact .head ⟨_,hzero _⟩ ih
  · clear hlen hn
    induction n with
    | zero => exact noneOf_of_follows hread hop (noneOf_nil _)
    | succ n ih => exact noneOf_of_follows (hzero _) (by decide) ih

variable (checker sigversion crypto) in
/-- An executed push with or without room for its frame. -/
theorem step_executed_push (h : k.Fits d) (hd : d.length ≤ MAX_SCRIPT_ELEMENT_SIZE) {post : Bytes}
    {s : Interpreter} (hcur : s._curScriptPosition = k.encode d ++ post)
    (hlen : (k.encode d ++ post).length ≤ MAX_SCRIPT_SIZE) (hm : mustExecuted s = true) :
    (step (plain checker sigversion crypto)).run s =
      if depth s < MAX_STACK_SIZE ∨ k = .direct then
        .ok () { s with _curScriptPosition := post, _stack := frameOf d k :: s._stack }
      else .error (.script .stackSize)
        { s with _curScriptPosition := post, _stack := frameOf d k :: s._stack } := by
  have hm' : mustExecuted { s with _curScriptPosition := post } = true := hm
  rw [step_push h post hcur hlen,if_neg (by omega),carryOut_push h,if_pos hm']
  by_cases hk : k = .direct
  · rw [if_pos hk,if_pos (.inr hk)]
  · have hcount : (frameOf d k :: s._stack).length + s._altStack.length = depth s + 1 := by
      simp only [depth,List.length_cons]
      omega
    rw [if_neg hk,sizeLimits_run]
    by_cases hroom : depth s < MAX_STACK_SIZE
    · have hle : ¬ (frameOf d k :: s._stack).length + s._altStack.length > MAX_STACK_SIZE := by omega
      exact (if_neg hle).trans (if_pos (Or.inl hroom)).symm
    · have hgt : (frameOf d k :: s._stack).length + s._altStack.length > MAX_STACK_SIZE := by omega
      exact (if_pos hgt).trans (if_neg fun hc => hc.elim hroom hk).symm

variable (checker sigversion crypto) in
/-- What such a script comes to: with the stack full a direct push goes past the limit. -/
theorem execute_op0_push (n : ℕ) (h : k.Fits d) (hd : d.length ≤ MAX_SCRIPT_ELEMENT_SIZE)
    (hn : n ≤ MAX_STACK_SIZE) :
    ∃ t, execute (plain checker sigversion crypto) (List.replicate n 0x00 ++ (k.encode d ++ [])) fresh =
        (if n < MAX_STACK_SIZE ∨ k = .direct then .returned true .ok t else .returned false .stackSize t) ∧
      t._stack = frameOf d k :: List.replicate n (.number ⟨0⟩) := by
  have hrep : Replacement d k k (List.replicate n 0x00) [] := replacement_op0 n h hd hn
  have hlen := hrep.size₁
  have hshort : n + (k.encode d ++ []).length ≤ MAX_SCRIPT_SIZE := by simpa using hlen
  have hr := reached_op0 (plain checker sigversion crypto) n (k.encode d ++ []) hshort
  obtain ⟨s,hr,hcur,hstack,halt,hflags⟩ : ∃ s, Reached (plain checker sigversion crypto)
      (List.replicate n 0x00 ++ (k.encode d ++ [])) fresh s ∧ s._curScriptPosition = k.encode d ++ [] ∧
      s._stack = List.replicate n (.number ⟨0⟩) ∧ s._altStack = [] ∧
      s._conditionalExecutionFlags = [] := ⟨_,hr,rfl,rfl,rfl,rfl⟩
  have hmore : more s = true := by simp [more,hcur,PushKind.encode]
  have hdepth : depth s = n := by simp [depth,hstack,halt]
  have hstep := step_executed_push checker sigversion crypto h hd hcur (by omega) (by simp [mustExecuted,hflags])
  rw [hdepth,hstack] at hstep
  by_cases hk : n < MAX_STACK_SIZE ∨ k = .direct
  · rw [if_pos hk] at hstep
    have hend := execute_of_end ⟨hr.1,hr.2.tail ⟨hmore,hstep⟩⟩ rfl hflags
    exact ⟨_,hend.trans (if_pos hk).symm,rfl⟩
  · rw [if_neg hk] at hstep
    exact ⟨_,(execute_of_step_error hr hmore hstep).trans (if_neg hk).symm,rfl⟩

/-- Unlike encodings of short data leave unlike bytes. -/
theorem frameOf_asData_ne (h : ¬ SameFrame d k₁ k₂) : (frameOf d k₁).asData ≠ (frameOf d k₂).asData := by
  simp only [SameFrame,not_or,not_lt] at h
  obtain ⟨hkind,hd,hround⟩ := h
  have hnumber : (numberOrData d).asData ≠ d := by
    rw [numberOrData,if_pos hd]
    exact hround
  cases k₁ <;> cases k₂ <;>
    first
    | exact hnumber
    | exact hnumber.symm
    | simp [narrow] at hkind

/-- A script of the push alone tells unlike frames apart. -/
theorem sameFrame_of_sameMeaning {d : ScriptData} {k₁ k₂ : PushKind} (h₁ : k₁.Fits d) (h₂ : k₂.Fits d)
    (checker : SignatureChecker) (sigversion : SigVersion) (crypto : Crypto)
    (h : d.length ≤ MAX_SCRIPT_ELEMENT_SIZE → SameMeaning
      (execute (plain checker sigversion crypto) ([] ++ (k₁.encode d ++ [])) fresh)
      (execute (plain checker sigversion crypto) ([] ++ (k₂.encode d ++ [])) fresh)) :
    SameFrame d k₁ k₂ := by
  by_contra hne
  have hd : d.length ≤ MAX_SCRIPT_ELEMENT_SIZE :=
    (Nat.not_lt.mp fun hlt => hne (.inr (.inl hlt))).trans (by decide)
  obtain ⟨s,hs,hstack⟩ := execute_op0_push checker sigversion crypto 0 h₁ hd (by decide)
  obtain ⟨t,ht,hstack'⟩ := execute_op0_push checker sigversion crypto 0 h₂ hd (by decide)
  rw [if_pos (.inl (by decide))] at hs ht
  have hmean : SameMeaning (.returned true .ok s) (.returned true .ok t) := hs ▸ ht ▸ h hd
  have hbytes := (hmean.2.2 rfl).1
  rw [hstack,hstack'] at hbytes
  exact frameOf_asData_ne hne (List.cons.inj hbytes).1

/-- A thousand frames in front of the push tell direct pushes from the others. -/
theorem direct_iff_of_sameMeaning {d : ScriptData} {k₁ k₂ : PushKind} (h₁ : k₁.Fits d) (h₂ : k₂.Fits d)
    (checker : SignatureChecker) (sigversion : SigVersion) (crypto : Crypto)
    (h : ∀ pre post s₀, Replacement d k₁ k₂ pre post →
      SameMeaning (execute (plain checker sigversion crypto) (pre ++ (k₁.encode d ++ post)) s₀)
        (execute (plain checker sigversion crypto) (pre ++ (k₂.encode d ++ post)) s₀)) :
    k₁ = .direct ↔ k₂ = .direct := by
  by_contra hne
  have hd : d.length ≤ MAX_SCRIPT_ELEMENT_SIZE := by
    have hlt : d.length < 76 := by
      by_cases hk : k₁ = .direct
      · exact (hk ▸ h₁ : PushKind.Fits d .direct)
      · by_cases hk' : k₂ = .direct
        · exact (hk' ▸ h₂ : PushKind.Fits d .direct)
        · exact absurd (iff_of_false hk hk') hne
    exact hlt.le.trans (by decide)
  obtain ⟨n,hn⟩ : ∃ n, n = MAX_STACK_SIZE := ⟨_,rfl⟩
  obtain ⟨s,hs,-⟩ := execute_op0_push checker sigversion crypto n h₁ hd hn.le
  obtain ⟨t,ht,-⟩ := execute_op0_push checker sigversion crypto n h₂ hd hn.le
  have hmean := h (List.replicate n 0x00) [] fresh (replacement_op0 n h₁ hd hn.le)
  rw [hs,ht] at hmean
  by_cases hk : k₁ = .direct <;> by_cases hk' : k₂ = .direct
  · exact hne (iff_of_true hk hk')
  · simp [hk,hk',hn,SameMeaning] at hmean
  · simp [hk,hk',hn,SameMeaning] at hmean
  · exact hne (iff_of_false hk hk')

/-- Two encodings of one push mean the same in every script that has room for its
frame exactly when they leave the same bytes, and in every script at all exactly
when moreover both or neither of them go past the stack limit. -/
theorem sameMeaning_iff (checker : SignatureChecker) (sigversion : SigVersion) (crypto : Crypto)
    (d : ScriptData) (k₁ k₂ : PushKind) (h₁ : k₁.Fits d) (h₂ : k₂.Fits d) :
    ((∀ pre post s₀, Replacement d k₁ k₂ pre post →
        Room (plain checker sigversion crypto) d k₁ pre post s₀ →
        SameMeaning (execute (plain checker sigversion crypto) (pre ++ (k₁.encode d ++ post)) s₀)
          (execute (plain checker sigversion crypto) (pre ++ (k₂.encode d ++ post)) s₀)) ↔
      SameFrame d k₁ k₂) ∧
    ((∀ pre post s₀, Replacement d k₁ k₂ pre post →
        SameMeaning (execute (plain checker sigversion crypto) (pre ++ (k₁.encode d ++ post)) s₀)
          (execute (plain checker sigversion crypto) (pre ++ (k₂.encode d ++ post)) s₀)) ↔
      SameFrame d k₁ k₂ ∧ (k₁ = .direct ↔ k₂ = .direct)) := by
  have hroom : Room (plain checker sigversion crypto) d k₁ [] [] fresh := by
    intro s hr hcur _
    rcases hr.start_or_left with rfl | hlt
    · exact (by decide : 0 < MAX_STACK_SIZE)
    · simp [left,hcur,start] at hlt
  have hempty (hd : d.length ≤ MAX_SCRIPT_ELEMENT_SIZE) : Replacement d k₁ k₂ [] [] :=
    replacement_op0 0 h₁ hd (by decide)
  refine ⟨⟨fun h => ?_,fun hf pre post s₀ hr hr' => sameMeaning h₁ h₂ hf hr (.inr hr')⟩,
    ⟨fun h => ⟨?_,direct_iff_of_sameMeaning h₁ h₂ checker sigversion crypto h⟩,
      fun hf pre post s₀ hr => sameMeaning h₁ h₂ hf.1 hr (.inl hf.2)⟩⟩
  · exact sameFrame_of_sameMeaning h₁ h₂ checker sigversion crypto fun hd => h [] [] fresh (hempty hd) hroom
  · exact sameFrame_of_sameMeaning h₁ h₂ checker sigversion crypto fun hd => h [] [] fresh (hempty hd)

theorem sameMeaning_iff_five_bytes :
    SameMeaning
      (execute (plain refusing .base ⟨id,id,id⟩) ([] ++ (PushKind.pushData1.encode [1,2,3,4,5] ++ [])) fresh)
      (execute (plain refusing .base ⟨id,id,id⟩) ([] ++ (PushKind.pushData2.encode [1,2,3,4,5] ++ [])) fresh) :=
  (sameMeaning_iff refusing .base ⟨id,id,id⟩ [1,2,3,4,5] .pushData1 .pushData2 (by decide)
    (by decide)).2.mpr ⟨.inr (.inl (by decide)),by decide⟩ [] [] fresh
    (replacement_op0 0 (by decide) (by decide) (by decide))

/-- Behind a direct push the negative zero is the empty byte string. -/
theorem negative_zero_encodings :
    Replacement [0x80] .direct .pushData2 [] [] ∧
      ¬ SameMeaning
        (execute (plain refusing .base ⟨id,id,id⟩) ([] ++ (PushKind.direct.encode [0x80] ++ [])) fresh)
        (execute (plain refusing .base ⟨id,id,id⟩) ([] ++ (PushKind.pushData2.encode [0x80] ++ [])) fresh) := by
  have hdirect : execute (plain refusing .base ⟨id,id,id⟩) ([] ++ (PushKind.direct.encode [0x80] ++ [])) fresh =
      .returned true .ok ⟨0,[.number ⟨0⟩],[],[],[],[0x01,0x80]⟩ := by decide +kernel
  have hbytes : execute (plain refusing .base ⟨id,id,id⟩) ([] ++ (PushKind.pushData2.encode [0x80] ++ [])) fresh =
      .returned true .ok ⟨0,[.data [0x80]],[],[],[],[0x4d,0x01,0x00,0x80]⟩ := by decide +kernel
  refine ⟨replacement_op0 0 (by decide) (by decide) (by decide),fun h => ?_⟩
  rw [hdirect,hbytes] at h
  exact absurd (h.2.2 rfl).1 (by decide)

end Round

end PushEncoding
end Tkeycoin
