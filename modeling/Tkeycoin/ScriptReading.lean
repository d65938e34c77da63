import Tkeycoin.Script
import Mathlib.Logic.Relation

/-! Reading a script instruction by instruction, and the encodings of a push. -/
namespace Tkeycoin
namespace Script

theorem operandSize_local {opcode : OpCode} {pc q : Bytes} {n : ℕ}
    (h : operandSize opcode pc = some (n,q)) :
    ∃ field, pc = field ++ q ∧ ∀ q', operandSize opcode (field ++ q') = some (n,q') := by
  unfold operandSize at h
  split_ifs at h with hdirect hshort
  · obtain ⟨rfl,rfl⟩ : opcode.toNat = n ∧ pc = q := by simpa using h
    exact ⟨[],rfl,fun q' => by simp [operandSize,hdirect]⟩
  · obtain ⟨rfl,rfl⟩ : leValue (pc.take (lengthWidth opcode)) = n ∧ pc.drop (lengthWidth opcode) = q := by
      simpa using h
    have hfield : (pc.take (lengthWidth opcode)).length = lengthWidth opcode := by
      simp only [List.length_take]
      omega
    refine ⟨pc.take (lengthWidth opcode),(List.take_append_drop _ _).symm,fun q' => ?_⟩
    have hlong : ¬ (pc.take (lengthWidth opcode) ++ q').length < lengthWidth opcode := by
      rw [List.length_append,hfield]
      omega
    rw [operandSize,if_neg hdirect,if_neg hlong,List.take_left' hfield,List.drop_left' hfield]

/-- What is read depends on the bytes up to the next instruction only. -/
theorem getScriptOp_local {p r : Bytes} {i : OpCode × ScriptData} (h : getScriptOp p = (some i,r)) :
    ∃ c, p = c ++ r ∧ c ≠ [] ∧ ∀ r', (c ++ r').length < 2^32 → getScriptOp (c ++ r') = (some i,r') := by
  cases p with
  | nil => simp [getScriptOp] at h
  | cons opcode pc =>
    by_cases hpush : opcode ≤ OpCode.opPushData4
    · simp only [getScriptOp,if_pos hpush] at h
      cases ho : operandSize opcode pc with
      | none => simp [ho] at h
      | some nq =>
        obtain ⟨n,q⟩ := nq
        obtain ⟨field,rfl,hfield⟩ := operandSize_local ho
        simp only [ho] at h
        split at h
        · simp at h
        · rename_i hsize
          obtain ⟨rfl,rfl⟩ : (opcode,q.take n) = i ∧ q.drop n = r := by simpa using h
          have hn : (q.take n).length = n := by
            have := Nat.mod_le q.length (2^32)
            simp only [List.length_take]
            omega
          refine ⟨opcode :: (field ++ q.take n),by simp,by simp,fun r' hlen => ?_⟩
          have henough : ¬ (q.take n ++ r').length % 2^32 < n := by
            simp only [List.length_cons,List.length_append,hn] at hlen ⊢
            rw [Nat.mod_eq_of_lt (by omega)]
            omega
          rw [List.cons_append,List.append_assoc]
          simp only [getScriptOp,if_pos hpush,hfield]
          rw [if_neg henough,List.take_left' hn,List.drop_left' hn]
    · simp only [getScriptOp,if_neg hpush,Prod.mk.injEq,Option.some.injEq] at h
      obtain ⟨rfl,rfl⟩ := h
      exact ⟨[opcode],rfl,by simp,fun r' _ => by simp [getScriptOp,hpush]⟩

/-- The ways to push a byte string: its length as the opcode, or a length field of
one, two or four bytes behind a PUSHDATA opcode. -/
inductive PushKind
  | direct | pushData1 | pushData2 | pushData4
  deriving DecidableEq

namespace PushKind

def opCode (d : ScriptData) : PushKind → OpCode
  | direct => UInt8.ofNat d.length
  | pushData1 => OpCode.opPushData1
  | pushData2 => OpCode.opPushData2
  | pushData4 => OpCode.opPushData4

/-- The width of the length field. -/
def width : PushKind → ℕ
  | direct => 0
  | pushData1 => 1
  | pushData2 => 2
  | pushData4 => 4

/-- The byte string is short enough for the encoding. -/
def Fits (d : ScriptData) : PushKind → Prop
  | direct => d.length < OpCode.opPushData1.toNat
  | k => d.length < 256 ^ k.width

instance (d : ScriptData) : (k : PushKind) → Decidable (k.Fits d)
  | direct => inferInstanceAs (Decidable (d.length < _))
  | pushData1 => inferInstanceAs (Decidable (d.length < _))
  | pushData2 => inferInstanceAs (Decidable (d.length < _))
  | pushData4 => inferInstanceAs (Decidable (d.length < _))

def encode (k : PushKind) (d : ScriptData) : Bytes := k.opCode d :: (leBytes k.width d.length ++ d)

theorem opCode_direct {d : ScriptData} (h : direct.Fits d) : (direct.opCode d).toNat = d.length := by
  have hlt : d.length < 76 := h
  rw [opCode,UInt8.toNat_ofNat',Nat.mod_eq_of_lt (by omega)]

theorem opCode_lt_iff {k : PushKind} {d : ScriptData} (h : k.Fits d) :
    k.opCode d < OpCode.opPushData1 ↔ k = direct := by
  cases k with
  | direct => exact iff_of_true (UInt8.lt_iff_toNat_lt.mpr ((opCode_direct h).symm ▸ h)) rfl
  | pushData1 => exact iff_of_false (by rw [opCode]; decide) (by decide)
  | pushData2 => exact iff_of_false (by rw [opCode]; decide) (by decide)
  | pushData4 => exact iff_of_false (by rw [opCode]; decide) (by decide)

theorem opCode_le {k : PushKind} {d : ScriptData} (h : k.Fits d) : k.opCode d ≤ OpCode.opPushData4 := by
  cases k with
  | direct =>
    have hlt := UInt8.lt_iff_toNat_lt.mp ((opCode_lt_iff h).mpr rfl)
    exact UInt8.le_iff_toNat_le.mpr (hlt.le.trans (by decide))
  | pushData1 => rw [opCode]; decide
  | pushData2 => rw [opCode]; decide
  | pushData4 => rw [opCode]; decide

theorem operandSize_encode {k : PushKind} {d : ScriptData} (h : k.Fits d) (q : Bytes) :
    operandSize (k.opCode d) (leBytes k.width d.length ++ q) = some (d.length,q) := by
  by_cases hk : k = direct
  · subst hk
    rw [operandSize,if_pos ((opCode_lt_iff h).mpr rfl),opCode_direct h]
    rfl
  · have hwidth : lengthWidth (k.opCode d) = k.width := by
      cases k <;> first | rfl | exact absurd rfl hk
    have hsize : d.length < 256 ^ k.width := by
      cases k <;> first | exact h | exact absurd rfl hk
    have hlen := leBytes_length k.width d.length
    have hlong : ¬ (leBytes k.width d.length ++ q).length < k.width := by
      rw [List.length_append,hlen]
      omega
    rw [operandSize,if_neg (fun hlt => hk ((opCode_lt_iff h).mp hlt)),hwidth,if_neg hlong,
      List.take_left' hlen,List.drop_left' hlen,leValue_leBytes,Nat.mod_eq_of_lt hsize]

/-- Every encoding is read back as its opcode and the byte string. -/
theorem getScriptOp_encode {k : PushKind} {d : ScriptData} (h : k.Fits d) (post : Bytes)
    (hlen : (k.encode d ++ post).length < 2^32) :
    getScriptOp (k.encode d ++ post) = (some (k.opCode d,d),post) := by
  have henough : ¬ (d ++ post).length % 2^32 < d.length := by
    simp only [encode,List.length_cons,List.length_append] at hlen ⊢
    rw [Nat.mod_eq_of_lt (by omega)]
    omega
  rw [encode,List.cons_append,List.append_assoc]
  simp only [getScriptOp,if_pos (opCode_le h),operandSize_encode h]
  rw [if_neg henough,List.take_left,List.drop_left]

end PushKind

/-- One instruction leads from one position to another. -/
def Follows (p q : Bytes) : Prop := ∃ i, getScriptOp p = (some i,q)

/-- A position is the start of an instruction of a script, or its end. -/
abbrev Boundary := Relation.ReflTransGen Follows

/-- No instruction read from a position on has a signature opcode. -/
def NoneOf (opCodes : List OpCode) (p : Bytes) : Prop :=
  ∀ q, Boundary p q → ∀ i r, getScriptOp q = (some i,r) → i.1 ∉ opCodes

end Script
end Tkeycoin
