import Tkeycoin.Flags
import Mathlib

/-! Flag values as sets of bit positions: what of a list of constants a value keeps. -/
namespace Tkeycoin
namespace Flags

variable {E : Type} [FlagType E]

/-- The bits of a constant, as the integer it is. -/
def bits (flag : E) : Set ℕ := {i | (FlagType.toInt flag).testBit i = true}

/-- The bits of all constants of a list. -/
def allBits (constants : List E) : Set ℕ := {i | ∃ c ∈ constants, i ∈ bits c}

/-- The bits of a word. -/
def wordBits {w : ℕ} (word : BitVec w) : Set ℕ := {i | word.getLsbD i = true}

/-- The bits there is room for. -/
def room (E : Type) [FlagType E] : Set ℕ := Set.Iio (width E)

theorem wordBits_cast (flag : E) : wordBits (cast flag : BitVec (width E)) = bits flag ∩ room E := by
  ext i
  simp only [wordBits,cast,bits,room,Set.mem_ofPred_eq,Set.mem_inter_iff,Set.mem_Iio,
    BitVec.getLsbD_ofNat,Bool.and_eq_true,decide_eq_true_eq]
  exact and_comm

theorem wordBits_injective {w : ℕ} {v v' : BitVec w} (h : wordBits v = wordBits v') : v = v' := by
  apply BitVec.eq_of_getLsbD_eq
  intro i _
  have hi : v.getLsbD i = true ↔ v'.getLsbD i = true := Set.ext_iff.mp h i
  exact Bool.eq_iff_iff.mpr hi

theorem wordBits_or {w : ℕ} (v v' : BitVec w) : wordBits (v ||| v') = wordBits v ∪ wordBits v' := by
  ext i
  simp [wordBits]

@[simp] theorem wordBits_zero {w : ℕ} : wordBits 0#w = ∅ := by
  ext i
  simp [wordBits]

theorem wordBits_subset_room (flags : Flags E) : wordBits flags._flags ⊆ room E := by
  intro i hi
  simp only [room,Set.mem_Iio]
  exact BitVec.lt_of_getLsbD hi

@[simp] theorem allBits_nil : allBits ([] : List E) = ∅ := by
  ext i
  simp [allBits]

@[simp] theorem allBits_cons (flag : E) (constants : List E) :
    allBits (flag :: constants) = bits flag ∪ allBits constants := by
  ext i
  simp [allBits]

theorem foldl_or_bits (constants : List E) (flags : Flags E) :
    wordBits (constants.foldl or flags)._flags =
      wordBits flags._flags ∪ allBits constants ∩ room E := by
  induction constants generalizing flags with
  | nil => simp
  | cons flag constants ih =>
    rw [List.foldl_cons,ih]
    simp only [or,wordBits_or,wordBits_cast,allBits_cons]
    rw [Set.union_inter_distrib_right,Set.union_assoc]

/-- A value keeps the bits of its constants that there is room for. -/
theorem ofList_bits (constants : List E) :
    wordBits (ofList constants)._flags = allBits constants ∩ room E := by
  rw [ofList,foldl_or_bits]
  simp [empty]

theorem isSet_iff_bits (flags : Flags E) (flag : E) :
    flags.isSet flag = true ↔ (wordBits flags._flags ∩ bits flag).Nonempty := by
  have hroom := wordBits_subset_room flags
  have hcast : wordBits flags._flags ∩ bits flag = wordBits flags._flags ∩ wordBits (cast flag) := by
    rw [wordBits_cast,Set.inter_comm (bits flag),← Set.inter_assoc,Set.inter_eq_left.mpr hroom]
  rw [isSet_iff,hcast]
  rfl

theorem mask_bits (flags : Flags E) (m : BitVec (width E)) : wordBits (flags.mask m)._flags = ∅ := by
  simp [mask,empty]

/-- A flag is set exactly if it shares a bit with some constant of the list. -/
def TestsBits (constants : List E) (flag : E) : Prop :=
  (ofList constants).isSet flag = true ↔ ∃ c ∈ constants, (bits flag ∩ bits c).Nonempty

/-- Lists of different bits make different values. -/
def Distinguishes (constants constants' : List E) : Prop :=
  allBits constants ≠ allBits constants' → ofList constants ≠ ofList constants'

/-- A mask keeps the bits that are in it. -/
def MasksBits (constants : List E) (m : BitVec (width E)) : Prop :=
  wordBits ((ofList constants).mask m)._flags = allBits constants ∩ wordBits m

variable (constants constants' : List E) (flag : E) (m : BitVec (width E))

theorem testsBits_iff : TestsBits constants flag ↔
    ((allBits constants ∩ bits flag).Nonempty → (allBits constants ∩ bits flag ∩ room E).Nonempty) := by
  have hshares : (∃ c ∈ constants, (bits flag ∩ bits c).Nonempty) ↔
      (allBits constants ∩ bits flag).Nonempty := by
    constructor
    · rintro ⟨c,hc,i,hi,hic⟩
      exact ⟨i,⟨c,hc,hic⟩,hi⟩
    · rintro ⟨i,⟨c,hc,hic⟩,hi⟩
      exact ⟨c,hc,i,hi,hic⟩
  have hroom : wordBits (ofList constants)._flags ∩ bits flag =
      allBits constants ∩ bits flag ∩ room E := by
    rw [ofList_bits,Set.inter_right_comm]
  rw [TestsBits,isSet_iff_bits,hshares,hroom]
  exact ⟨fun h => h.mpr,fun h => ⟨fun hne => hne.mono Set.inter_subset_left,h⟩⟩

theorem distinguishes_iff : Distinguishes constants constants' ↔
    (allBits constants ≠ allBits constants' →
      allBits constants ∩ room E ≠ allBits constants' ∩ room E) := by
  have hvalues : ofList constants = ofList constants' ↔
      allBits constants ∩ room E = allBits constants' ∩ room E := by
    rw [← ofList_bits,← ofList_bits]
    constructor
    · intro h
      rw [h]
    · intro h
      exact congrArg Flags.mk (wordBits_injective h)
  rw [Distinguishes,ne_eq,ne_eq,hvalues]

theorem masksBits_iff : MasksBits constants m ↔ Disjoint (allBits constants) (wordBits m) := by
  rw [MasksBits,mask_bits,Set.disjoint_iff_inter_eq_empty]
  exact eq_comm

/-- A test is right unless all bits shared lie beyond the word, two values differ unless their lists
differ beyond the word only, and a mask is right where nothing is to be kept. -/
theorem faithful_iff :
    (TestsBits constants flag ↔
        ((allBits constants ∩ bits flag).Nonempty →
          (allBits constants ∩ bits flag ∩ room E).Nonempty)) ∧
      (Distinguishes constants constants' ↔
        (allBits constants ≠ allBits constants' →
          allBits constants ∩ room E ≠ allBits constants' ∩ room E)) ∧
      (MasksBits constants m ↔ Disjoint (allBits constants) (wordBits m)) :=
  ⟨testsBits_iff constants flag,distinguishes_iff constants constants',masksBits_iff constants m⟩

/-- A script flag that a value was made with is not set in it. -/
theorem highFlag_not_tested :
    ¬ TestsBits [ScriptVerifyFlags.checkLockTimeVerify] ScriptVerifyFlags.checkLockTimeVerify := by
  have hset : (ofList [ScriptVerifyFlags.checkLockTimeVerify]).isSet .checkLockTimeVerify = false := by
    decide
  have hshared : (bits ScriptVerifyFlags.checkLockTimeVerify ∩
      bits ScriptVerifyFlags.checkLockTimeVerify).Nonempty := by
    have hnine : 9 ∈ bits ScriptVerifyFlags.checkLockTimeVerify := rfl
    exact ⟨9,hnine,hnine⟩
  rw [Set.inter_self] at hshared
  simp [TestsBits,hset,hshared]

/-- Of a list of script flags the tests see those of the first eight positions. -/
theorem isSet_script_iff {k : ℕ} {flag : ScriptVerifyFlags} (flags : List ScriptVerifyFlags)
    (hflag : FlagType.toInt flag = 2^k) :
    (ofList flags).isSet flag = true ↔ k < 8 ∧ ∃ c ∈ flags, k ∈ bits c := by
  have hbits : bits flag = {k} := by
    ext i
    simp only [bits,hflag,Nat.testBit_two_pow,decide_eq_true_eq,Set.mem_ofPred_eq,
      Set.mem_singleton_iff]
    exact eq_comm
  rw [isSet_iff_bits,ofList_bits,hbits,Set.inter_singleton_nonempty]
  exact and_comm

end Flags
end Tkeycoin
