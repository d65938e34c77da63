import Tkeycoin.Lockstep

/-! Verification flags are soft forks: what a run with more flags accepts, a run
with fewer accepts with the same bytes on its stacks. -/
namespace Tkeycoin

open ActionLogic Interpreter

namespace Flags

variable {E : Type} [FlagType E]

/-- The flags of one set together with those of another. -/
def union (A B : Flags E) : Flags E := ⟨A._flags ||| B._flags⟩

theorem isSet_union_left (A B : Flags E) (flag : E) (h : A.isSet flag = true) :
    (A.union B).isSet flag = true := by
  obtain ⟨i,hA,hc⟩ := (isSet_iff A flag).mp h
  exact (isSet_iff _ flag).mpr ⟨i,by simp [union,hA],hc⟩

end Flags

namespace SoftFork

/-- Equal frames, or a number on the right that a check on the left has written out. -/
def Converted (f f' : StackFrame) : Prop :=
  f = f' ∨ ∃ n, f = .data n.getvch ∧ f' = .number n

/-- A single byte other than one is refused by MINIMALIF as bytes and so as a number. -/
theorem notMinimalIf_getvch (n : ScriptNum) (h : notMinimalIf (.number n) = true) :
    notMinimalIf (.data n.getvch) = true := by
  have hlen := ScriptNum.two_le_length_getvch (by simpa [notMinimalIf] using h)
  simp only [notMinimalIf,Bool.or_eq_true,decide_eq_true_eq]
  omega

variable {env env' : Env}

/-- The correspondence between a run with more flags and one with fewer. -/
def correspondence (hw : ∀ flag, env'.isSet flag = true → env.isSet flag = true)
    (hchecker : env.checker = env'.checker) (hsigversion : env.sigversion = env'.sigversion)
    (hcrypto : env.crypto = env'.crypto) : Correspondence env env' where
  lax := True
  frame := Converted
  position := Eq
  refl f := .inl rfl
  asData := by
    rintro f f' (rfl | ⟨n,rfl,rfl⟩) <;> rfl
  castToBool := by
    rintro f f' (rfl | ⟨n,rfl,rfl⟩)
    · rfl
    · exact StackFrame.castToBool_getvch n
  asNumber := by
    rintro f f' (rfl | ⟨n,rfl,rfl⟩)
    · cases f with
      | number n => exact ExceptMatch.refl _ _
      | data d => exact ofData_match (hw _) (.inl trivial) d _
    · refine ExceptMatch.of_lax trivial fun a ha => ?_
      simp only [StackFrame.asNumber,ScriptNum.ofData] at ha
      split_ifs at ha
      rw [ScriptNum.getvch,ScriptNum.setVch_serialize] at ha
      exact ha
  minimalIf := by
    rintro - f f' (rfl | ⟨n,rfl,rfl⟩)
    · exact ⟨id,.inl trivial⟩
    · exact ⟨notMinimalIf_getvch n,.inl trivial⟩
  toData := by
    rintro - f f' (rfl | ⟨n,rfl,rfl⟩)
    · cases f with
      | number n => exact .inr ⟨n,rfl,rfl⟩
      | data d => exact .inl rfl
    · exact .inr ⟨n,rfl,rfl⟩
  separator := by
    rintro p q rfl
    rfl
  weaker := hw
  strict := .inl trivial
  checker := hchecker
  sigversion := hsigversion
  crypto := hcrypto

variable (C : Correspondence env env')

/-- States at one position of one script read the same instruction. -/
theorem step_of_position_eq (hpos : ∀ p q, C.position p q ↔ p = q) {s t : Interpreter}
    (h : C.Rel s t) :
    Matches C.lax C.Rel (fun _ _ => True) ((step env).run s) ((step env').run t) := by
  have hp := (hpos _ _).mp h.position
  simp only [Prod.mk.injEq] at hp
  refine C.step_matches h ?_
  rw [← hp.1,← hp.2]
  rcases Script.getScriptOp s._curScriptPosition with ⟨_ | i,next⟩
  · trivial
  · exact ⟨rfl,(hpos _ _).mpr rfl,fun _ p q hpq => ((hpos p q).mp hpq) ▸ rfl⟩

/-- What is accepted under some flags is accepted under fewer, with the same bytes. -/
theorem execute_of_weaker (hw : ∀ flag, env'.isSet flag = true → env.isSet flag = true)
    (hchecker : env.checker = env'.checker) (hsigversion : env.sigversion = env'.sigversion)
    (hcrypto : env.crypto = env'.crypto) {script : Bytes} {s₀ s : Interpreter} {code : ScriptError}
    (h : execute env script s₀ = .returned true code s) :
    ∃ t, execute env' script s₀ = .returned true code t ∧ SameBytes s t := by
  let C := correspondence hw hchecker hsigversion hcrypto
  have hlen := (execute_true h).1.1
  have hsame (l : Stack) : List.Forall₂ C.frame l l := List.forall₂_same.mpr fun f _ => C.refl f
  have hstart : C.Rel (start script s₀) (start script s₀) := ⟨rfl,hsame _,hsame _,rfl,rfl⟩
  have hm := C.body_matches hlen hlen hstart
    (fun s t hR => by
      have hp : (s._curScriptPosition,_) = (t._curScriptPosition,_) := hR.position
      simp only [Prod.mk.injEq] at hp
      rw [more,more,hp.1])
    (fun s t _ hR => step_of_position_eq C (fun _ _ => Iff.rfl) hR)
  obtain ⟨t,ht,hR⟩ := C.execute_true_of_matches hm h
  exact ⟨t,ht,C.sameBytes hR⟩

/-- Flags are soft forks: a script accepted under two sets of flags together is
accepted under the first alone, and leaves the same byte strings. -/
theorem accepted_without_flags (A B : Flags ScriptVerifyFlags) (checker : SignatureChecker)
    (sigversion : SigVersion) (crypto : Crypto) (script : Bytes) (s₀ s : Interpreter)
    (h : execute (.ofFlags (A.union B) checker sigversion crypto) script s₀ = .returned true .ok s) :
    ∃ t, execute (.ofFlags A checker sigversion crypto) script s₀ = .returned true .ok t ∧
      SameBytes s t := by
  have hw : ∀ flag, (Env.ofFlags A checker sigversion crypto).isSet flag = true →
      (Env.ofFlags (A.union B) checker sigversion crypto).isSet flag = true :=
    fun flag => A.isSet_union_left B flag
  exact execute_of_weaker hw rfl rfl rfl h

theorem accepted_without_flags_multisig :
    ∃ t, execute (.ofFlags .empty refusing .base ⟨id,id,id⟩) [0x00,0x00,0x00,0xae] fresh =
        .returned true .ok t ∧
      SameBytes ⟨1,[.number ⟨1⟩],[],[],[],[0x00,0x00,0x00,0xae]⟩ t :=
  accepted_without_flags .empty ⟨0b01010000⟩ refusing .base ⟨id,id,id⟩ [0x00,0x00,0x00,0xae] fresh _
    (by decide +kernel)

end SoftFork
end Tkeycoin
