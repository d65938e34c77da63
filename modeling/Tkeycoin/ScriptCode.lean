import Tkeycoin.Deletion
import Tkeycoin.ScriptWriting
import Tkeycoin.SignatureSerializer

/-! The script in the bytes a signature commits to: its size, and the script without its separators. -/
namespace Tkeycoin

open Script

namespace CTransactionSignatureSerializer

/-- `OP_CODESEPARATOR` where an instruction starts. -/
def separators (scriptCode : Bytes) : ℕ := (deletion [OpCode.opCodeSeparator] scriptCode).1

/-- The script without them. -/
def withoutSeparators (scriptCode : Bytes) : Bytes := (deletion [OpCode.opCodeSeparator] scriptCode).2

/-- The bytes behind the position where the reading that fails has given up. -/
def unread (scriptCode : Bytes) : Bytes := (getScriptOp (readAll scriptCode).2).2

section Positions

variable {p q : Bytes} {i : OpCode × ScriptData}

theorem operandSize_suffix {opcode : OpCode} {n : ℕ} (h : operandSize opcode p = some (n,q)) :
    ∃ c, p = c ++ q := by
  obtain ⟨field,hp,-⟩ := operandSize_local h
  exact ⟨field,hp⟩

/-- A reading that fails has not gone back either. -/
theorem getScriptOp_none (h : getScriptOp p = (none,q)) : ∃ c, p = c ++ q := by
  cases p with
  | nil =>
    obtain rfl : [] = q := congrArg Prod.snd h
    exact ⟨[],rfl⟩
  | cons opcode pc =>
    simp only [getScriptOp] at h
    split_ifs at h with hpush
    · rcases hsize : operandSize opcode pc with _ | ⟨n,pc'⟩
      · simp only [hsize] at h
        obtain rfl : pc = q := congrArg Prod.snd h
        exact ⟨[opcode],rfl⟩
      · simp only [hsize] at h
        split_ifs at h
        · obtain rfl : pc' = q := congrArg Prod.snd h
          obtain ⟨c,hc⟩ := operandSize_suffix hsize
          exact ⟨opcode :: c,congrArg (opcode :: ·) hc⟩
        · simp at h
    · simp at h

/-- An instruction starts with its opcode. -/
theorem getScriptOp_head (h : getScriptOp p = (some i,q)) : ∃ pc, p = i.1 :: pc := by
  cases p with
  | nil => simp [getScriptOp] at h
  | cons opcode pc =>
    refine ⟨pc,congrArg (· :: pc) ?_⟩
    simp only [getScriptOp] at h
    split_ifs at h
    · rcases hsize : operandSize opcode pc with _ | ⟨n,pc'⟩
      · simp [hsize] at h
      · simp only [hsize] at h
        split_ifs at h
        · simp at h
        · have hi := Option.some.inj (congrArg Prod.fst h)
          exact congrArg Prod.fst hi
    · have hi := Option.some.inj (congrArg Prod.fst h)
      exact congrArg Prod.fst hi

theorem getScriptOp_separator (rest : Bytes) :
    getScriptOp ([OpCode.opCodeSeparator] ++ rest) = (some (OpCode.opCodeSeparator,[]),rest) :=
  getScriptOp_above (by decide) rest

theorem not_separator (hnone : ¬ [OpCode.opCodeSeparator] <+: p) (h : getScriptOp p = (some i,q)) :
    i.1 ≠ OpCode.opCodeSeparator := by
  intro heq
  obtain ⟨pc,rfl⟩ := getScriptOp_head h
  exact hnone ⟨pc,by rw [heq]; rfl⟩

theorem unread_some (h : getScriptOp p = (some i,q)) : unread p = unread q := by
  rw [unread,readAll_some h,unread]

theorem unread_none (h : getScriptOp p = (none,q)) : unread p = q := by
  rw [unread,readAll_none h,h]

end Positions

section Loops

variable {p : Bytes} {l : List Piece}

/-- The first loop counts the separators. -/
theorem countSeparators_eq (h : Scanned [OpCode.opCodeSeparator] p l) (fuel : ℕ) (hfuel : p.length < fuel) :
    countSeparators fuel p = l.count .occurrence := by
  induction h generalizing fuel with
  | nil =>
    cases fuel with
    | zero => simp at hfuel
    | succ fuel => rfl
  | @occurrence rest l _ ih =>
    cases fuel with
    | zero => simp at hfuel
    | succ fuel =>
      have hrest := ih fuel (by simpa using hfuel)
      simp only [countSeparators,getScriptOp_separator,hrest,if_true,List.count_cons_self]
      exact Nat.add_comm 1 _
  | @instruction c rest i l hnone hread _ ih =>
    cases fuel with
    | zero => simp at hfuel
    | succ fuel =>
      have hlen := getScriptOp_length hread
      have hrest := ih fuel (by omega)
      simp only [countSeparators,hread,hrest,if_neg (not_separator hnone hread)]
      simp
  | @rest p q _ _ hread =>
    cases fuel with
    | zero => simp at hfuel
    | succ fuel =>
      simp only [countSeparators,hread]
      simp

/-- The second loop writes what it has passed, and of the script without its separators only the bytes
behind the last reading are missing. -/
theorem writeScriptCode_eq (h : Scanned [OpCode.opCodeSeparator] p l) (fuel : ℕ) (hfuel : p.length < fuel)
    (c : Bytes) :
    ∃ written, writeScriptCode fuel (c ++ p) p = c ++ written ∧
      l.flatMap Piece.kept = written ++ unread p := by
  induction h generalizing fuel c with
  | nil =>
    cases fuel with
    | zero => simp at hfuel
    | succ fuel =>
      refine ⟨[],?_,(unread_none rfl).symm⟩
      cases c <;> simp [writeScriptCode,getScriptOp]
  | @occurrence rest l _ ih =>
    cases fuel with
    | zero => simp at hfuel
    | succ fuel =>
      obtain ⟨written,hwrite,hkept⟩ := ih fuel (by simpa using hfuel) []
      have hgap : (c ++ ([OpCode.opCodeSeparator] ++ rest)).length - rest.length - 1 = c.length := by
        simp only [List.length_append,List.length_singleton]
        omega
      refine ⟨written,?_,?_⟩
      · simp only [writeScriptCode,getScriptOp_separator,if_true,hgap,List.take_left]
        exact congrArg (c ++ ·) hwrite
      · rw [unread_some (getScriptOp_separator rest),← hkept]
        rfl
  | @instruction c' rest i l hnone hread _ ih =>
    cases fuel with
    | zero => simp at hfuel
    | succ fuel =>
      have hlen := getScriptOp_length hread
      obtain ⟨written,hwrite,hkept⟩ := ih fuel (by omega) (c ++ c')
      refine ⟨c' ++ written,?_,?_⟩
      · simp only [writeScriptCode,hread,if_neg (not_separator hnone hread)]
        rw [← List.append_assoc,hwrite,List.append_assoc]
      · rw [unread_some hread,List.flatMap_cons,hkept,List.append_assoc]
        rfl
  | @rest p q hne _ hread =>
    cases fuel with
    | zero => simp at hfuel
    | succ fuel =>
      obtain ⟨passed,rfl⟩ := getScriptOp_none hread
      have hnil : c ++ (passed ++ q) ≠ [] := by simp [hne]
      have hgap : (c ++ (passed ++ q)).length - q.length = (c ++ passed).length := by
        simp only [List.length_append]
        omega
      refine ⟨passed,?_,?_⟩
      · simp only [writeScriptCode,hread,if_pos hnil,hgap]
        rw [← List.append_assoc,List.take_left]
      · rw [unread_none hread]
        simp [Piece.kept]

/-- The separators and the other bytes make up the script. -/
theorem kept_length (h : Scanned [OpCode.opCodeSeparator] p l) :
    (l.flatMap Piece.kept).length + l.count .occurrence = p.length := by
  induction h with
  | nil => rfl
  | occurrence _ ih =>
    simp only [List.flatMap_cons,Piece.kept,List.count_cons_self,List.length_append,List.length_singleton,
      List.nil_append]
    omega
  | instruction _ _ _ ih =>
    simp only [List.flatMap_cons,Piece.kept,List.length_append]
    rw [List.count_cons_of_ne (by simp)]
    omega
  | rest _ _ _ => simp [Piece.kept]

end Loops

/-- What is written of a script: a count of all its bytes but the separators, and of these bytes the ones
that were read. -/
theorem serializeScriptCode_eq (scriptCode : Bytes) :
    ∃ written, serializeScriptCode scriptCode =
        Serialization.uintV (UInt64.ofNat (scriptCode.length - separators scriptCode % 2^32)) ++ written ∧
      withoutSeparators scriptCode = written ++ unread scriptCode := by
  have hscan : Scanned [OpCode.opCodeSeparator] scriptCode (pieces [OpCode.opCodeSeparator] scriptCode) :=
    scanned_pieces (by simp) scriptCode
  have hfuel := Nat.lt_succ_self scriptCode.length
  obtain ⟨written,hwrite,hkept⟩ := writeScriptCode_eq hscan _ hfuel []
  refine ⟨written,?_,hkept⟩
  simp only [serializeScriptCode,countSeparators_eq hscan _ hfuel]
  exact congrArg (_ ++ ·) hwrite

theorem withoutSeparators_length (scriptCode : Bytes) :
    (withoutSeparators scriptCode).length + separators scriptCode = scriptCode.length :=
  kept_length (scanned_pieces (by simp) scriptCode)

/-- The size written is that of the script without its separators, and the bytes behind it are this
script, exactly if the script can be read to its end and its separators can be counted. -/
theorem serializeScriptCode_iff (scriptCode : ByteVector) :
    serializeScriptCode scriptCode.1 =
        Serialization.uintV (UInt64.ofNat (withoutSeparators scriptCode.1).length) ++
          withoutSeparators scriptCode.1 ↔
      unread scriptCode.1 = [] ∧ separators scriptCode.1 < 2^32 := by
  obtain ⟨written,hwrite,hkept⟩ := serializeScriptCode_eq scriptCode.1
  have hsize := withoutSeparators_length scriptCode.1
  have hbound := scriptCode.2
  have hmod := Nat.mod_le (separators scriptCode.1) (2^32)
  constructor
  · intro h
    rw [hwrite] at h
    obtain ⟨hcount,hbytes⟩ := Serialization.uintV_count _ _ _ _ (by omega) (by omega) h
    refine ⟨?_,?_⟩
    · rw [hkept] at hbytes
      simpa using hbytes
    · have hwrap : separators scriptCode.1 % 2^32 = separators scriptCode.1 := by omega
      rw [← hwrap]
      exact Nat.mod_lt _ (by decide)
  · rintro ⟨hread,hcount⟩
    rw [hread,List.append_nil] at hkept
    rw [hwrite,Nat.mod_eq_of_lt hcount,hkept,← hkept,← hsize,Nat.add_sub_cancel]

/-- A push that stops short is left out behind a size that counts it. -/
theorem truncated_push :
    serializeScriptCode [0x05,0xab] = [2,0x05] ∧ withoutSeparators [0x05,0xab] = [0x05,0xab] ∧
      serializeScriptCode [0x05,0xab] ≠ Serialization.uintV 2 ++ [0x05,0xab] := by
  decide

end CTransactionSignatureSerializer
end Tkeycoin
