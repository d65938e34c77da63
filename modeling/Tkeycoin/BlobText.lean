import Tkeycoin.BlobOrder
import Tkeycoin.Hex
import Tkeycoin.HttpRequest
import Tkeycoin.ScriptNum

/-! The text of a blob, and the blob of a text. -/
namespace Tkeycoin

theorem leValue_eq_ofDigits (b : Bytes) : leValue b = Nat.ofDigits 256 (b.map UInt8.toNat) := by
  induction b with
  | nil => rfl
  | cons byte b ih => rw [leValue,ih,List.map_cons,Nat.ofDigits_cons]

namespace Blob

variable {BITS : ℕ}

/-- `str()`, from `crbegin` on. -/
def str (b : Blob BITS) : Bytes := b.reversed.flatMap fun byte => Hex.padded 2 byte.toNat

/-- The loop that fills the blob, with the digits from `srcIt` back to `last`. -/
def fill : ℕ → Bytes → Bytes
  | 0, _ => []
  | left+1, [] => List.replicate (left+1) 0
  | left+1, [low] => Hex.digitToInt low :: fill left []
  | left+1, low :: high :: digits => (Hex.digitToInt low ||| (Hex.digitToInt high <<< 4)) :: fill left digits

theorem fill_length (left : ℕ) (digits : Bytes) : (fill left digits).length = left := by
  induction left, digits using fill.induct with
  | case1 digits => rfl
  | case2 left => simp [fill]
  | case3 left low ih => rw [fill,List.length_cons,ih]
  | case4 left low high digits ih => rw [fill,List.length_cons,ih]

/-- Behind `0x` or `0X`, if it stands here. -/
def skipMark : Bytes → Bytes
  | 0x30 :: c :: srcIt => if c = 0x78 ∨ c = 0x58 then srcIt else 0x30 :: c :: srcIt
  | srcIt => srcIt

/-- `Blob(const T& data)` of a string `str`, behind which there are a NUL and whatever follows it. What is
pointed to is looked at without regard to the end of the string, but for the end of the digits. -/
def ofText (BITS : ℕ) (str tail : Bytes) : Blob BITS :=
  let srcIt := (str ++ 0 :: tail).dropWhile isspace
  let last := (skipMark srcIt).dropWhile (· = 0x30)
  let digits := (last.take (last.length - (0 :: tail).length)).takeWhile Hex.isDigit
  ⟨fill ((BITS + 7) / 8) digits.reverse,fill_length _ _⟩

/-- The hexadecimal digits of a text behind white space and a mark, up to another character. -/
def digitsOf (str : Bytes) : Bytes := (skipMark (str.dropWhile isspace)).takeWhile Hex.isDigit

section Skipping

/-- What is skipped of a string ends in front of a character that is not skipped. -/
theorem dropWhile_append_stop {p : UInt8 → Bool} {c : UInt8} (hc : p c = false) (s tail : Bytes) :
    (s ++ c :: tail).dropWhile p = s.dropWhile p ++ c :: tail := by
  induction s with
  | nil => simp [hc]
  | cons x s ih =>
    cases hx : p x with
    | true => simp [hx,ih]
    | false => simp [hx]

theorem skipMark_append (s tail : Bytes) : skipMark (s ++ 0 :: tail) = skipMark s ++ 0 :: tail := by
  cases s with
  | nil => rfl
  | cons x s =>
    by_cases hx : x = 0x30
    · subst hx
      cases s with
      | nil => simp [skipMark]
      | cons c s =>
        simp only [List.cons_append,skipMark]
        split_ifs <;> rfl
    · have hskip (t : Bytes) : skipMark (x :: t) = x :: t := by
        rw [skipMark]
        intro c srcIt h
        exact hx (List.cons.inj h).1
      rw [List.cons_append,hskip,hskip,List.cons_append]

end Skipping

theorem digit_pair {low high : UInt8} (hlow : low.toNat < 16) (hhigh : high.toNat < 16) :
    (low ||| (high <<< 4)).toNat = low.toNat + 16 * high.toNat := by
  have hall : ∀ i j : Fin 16, (UInt8.ofNat i ||| (UInt8.ofNat j <<< 4)).toNat = i + 16 * j := by decide +kernel
  have h := hall ⟨low.toNat,hlow⟩ ⟨high.toNat,hhigh⟩
  simpa using h

/-- The digits that there is room for make the bytes of the number. -/
theorem leValue_fill (left : ℕ) (digits : Bytes) (h : ∀ c ∈ digits, Hex.isDigit c = true) :
    leValue (fill left digits) =
      Nat.ofDigits 16 (digits.map fun c => (Hex.digitToInt c).toNat) % 256 ^ left := by
  induction left, digits using fill.induct with
  | case1 digits => simp [fill,leValue,Nat.mod_one]
  | case2 left =>
    rw [fill,leValue_eq_ofDigits,List.map_replicate]
    simp [Nat.ofDigits_replicate_zero]
  | case3 left low ih =>
    have hlow := Hex.digitToInt_lt (h low List.mem_cons_self)
    have hpow : 256 ≤ 256 ^ (left + 1) := Nat.le_self_pow (by omega) 256
    rw [fill,leValue,ih (by simp)]
    simp only [List.map_nil,List.map_cons,Nat.ofDigits_nil,Nat.ofDigits_singleton,Nat.zero_mod]
    rw [Nat.mod_eq_of_lt (by omega)]
    omega
  | case4 left low high digits ih =>
    have hlow := Hex.digitToInt_lt (h low List.mem_cons_self)
    have hhigh := Hex.digitToInt_lt (h high (List.mem_cons_of_mem _ List.mem_cons_self))
    have hrest : ∀ c ∈ digits, Hex.isDigit c = true :=
      fun c hc => h c (List.mem_cons_of_mem _ (List.mem_cons_of_mem _ hc))
    rw [fill,leValue,ih hrest,digit_pair hlow hhigh]
    simp only [List.map_cons,Nat.ofDigits_cons]
    generalize Nat.ofDigits 16 (digits.map fun c => (Hex.digitToInt c).toNat) = n
    have hdiv : ((Hex.digitToInt low).toNat + 16 * ((Hex.digitToInt high).toNat + 16 * n)) / 256 = n := by omega
    rw [pow_succ',Nat.mod_mul,hdiv]
    omega

/-- Zeros in front do not change the number. -/
theorem number_dropWhile (s : Bytes) :
    Hex.number ((s.dropWhile (· = 0x30)).takeWhile Hex.isDigit) = Hex.number (s.takeWhile Hex.isDigit) := by
  induction s with
  | nil => rfl
  | cons x s ih =>
    by_cases hx : x = 0x30
    · have hdigit : Hex.isDigit 0x30 = true := by decide
      have hnumber (digits : Bytes) : Hex.number (0x30 :: digits) = Hex.number digits := by
        have happend := Hex.number_append [0x30] digits
        have hzero : Hex.number [0x30] = 0 := by decide
        rwa [hzero,Nat.mul_zero,Nat.zero_add] at happend
      subst hx
      rw [List.dropWhile_cons_of_pos (by simp),ih,List.takeWhile_cons_of_pos hdigit,hnumber]
    · rw [List.dropWhile_cons_of_neg (by simpa using hx)]

/-- A text makes the blob of the number of its digits, as far as there is room for it. -/
theorem ofText_value (BITS : ℕ) (str tail : Bytes) :
    (ofText BITS str tail).value = Hex.number (digitsOf str) % 256 ^ ((BITS + 7) / 8) := by
  have hspace : isspace 0 = false := by decide
  have hzero : decide ((0 : UInt8) = 0x30) = false := by decide
  have hlast : (skipMark ((str ++ 0 :: tail).dropWhile isspace)).dropWhile (· = 0x30) =
      (skipMark (str.dropWhile isspace)).dropWhile (· = 0x30) ++ 0 :: tail := by
    rw [dropWhile_append_stop hspace,skipMark_append,dropWhile_append_stop hzero]
  have hdigits (s : Bytes) : (s ++ 0 :: tail).take ((s ++ 0 :: tail).length - (0 :: tail).length) = s := by
    rw [List.length_append,Nat.add_sub_cancel,List.take_left]
  change leValue (fill _ _) = _
  rw [hlast,hdigits,leValue_fill _ _ fun c hc => List.mem_takeWhile_imp (List.mem_reverse.mp hc),digitsOf,
    ← number_dropWhile,Hex.number,Radix.value_eq,List.map_reverse]

/-- A hexadecimal digit is no white space, and not part of a mark but for a zero. -/
theorem isDigit_plain {c : UInt8} (h : Hex.isDigit c = true) : isspace c = false ∧ c ≠ 0x78 ∧ c ≠ 0x58 := by
  have hall : ∀ c, Hex.isDigit c = true → isspace c = false ∧ c ≠ 0x78 ∧ c ≠ 0x58 :=
    ScriptNum.forall_byte (by decide)
  exact hall c h

theorem digitsOf_digits {s : Bytes} (h : ∀ c ∈ s, Hex.isDigit c = true) : digitsOf s = s := by
  have hspace : s.dropWhile isspace = s := by
    cases s with
    | nil => rfl
    | cons x s => rw [List.dropWhile_cons_of_neg (by simp [(isDigit_plain (h x List.mem_cons_self)).1])]
  have hmark : skipMark s = s := by
    rw [skipMark.eq_def]
    split
    · rename_i c srcIt
      have hc := isDigit_plain (h c (List.mem_cons_of_mem _ List.mem_cons_self))
      rw [if_neg (not_or.mpr hc.2)]
    · rfl
  rw [digitsOf,hspace,hmark,List.takeWhile_eq_self_iff.mpr h]

theorem byte_lt (byte : UInt8) : byte.toNat < 16 ^ 2 := byte.toNat_lt

theorem number_bytes (b : Bytes) : Hex.number (b.flatMap fun byte => Hex.padded 2 byte.toNat) = beValue b := by
  induction b with
  | nil => rfl
  | cons byte b ih =>
    have hlen : (b.flatMap fun byte => Hex.padded 2 byte.toNat).length = 2 * b.length := by
      simp [List.length_flatMap,Hex.padded_length (by decide : 0 < 2) (byte_lt _),Nat.mul_comm]
    rw [List.flatMap_cons,Hex.number_append,ih,hlen,Hex.number_padded (by decide) (byte_lt byte),beValue_cons,
      pow_mul]
    ring

/-- The text of a blob makes that blob again, and any text the blob of the number of its hexadecimal digits
(behind white space and a mark, up to the first character that is none) as far as there is room for it. -/
theorem text_roundTrip (BITS : ℕ) : (∀ (b : Blob BITS) (tail : Bytes), ofText BITS b.str tail = b) ∧
    ∀ str tail : Bytes,
      (ofText BITS str tail).value = Hex.number (digitsOf str) % 256 ^ ((BITS + 7) / 8) := by
  refine ⟨fun b tail => ?_,fun str tail => ofText_value BITS str tail⟩
  have hdigits : ∀ c ∈ b.str, Hex.isDigit c = true := by
    intro c hc
    obtain ⟨byte,-,hbyte⟩ := List.mem_flatMap.mp hc
    exact Hex.padded_isDigit (by decide) (byte_lt byte) c hbyte
  have hlt : b.value < 256 ^ ((BITS + 7) / 8) := by
    have h := leValue_lt b.toList
    rwa [b.toList_length] at h
  apply value_inj.mp
  rw [ofText_value,digitsOf_digits hdigits,str,number_bytes,beValue_reversed,Nat.mod_eq_of_lt hlt]

end Blob
end Tkeycoin
