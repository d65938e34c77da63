import Tkeycoin.Radix
import Tkeycoin.HttpRequest

/-! Base58: the buffers of both conversions hold the number read so far in the base written. -/
namespace Tkeycoin
namespace Base58

/-- All alphanumeric characters except for "0", "I", "O", and "l". -/
def alphabet : Bytes :=
  ['1','2','3','4','5','6','7','8','9',
    'A','B','C','D','E','F','G','H','J','K','L','M','N','P','Q','R','S','T','U','V','W','X','Y','Z',
    'a','b','c','d','e','f','g','h','i','j','k','m','n','o','p','q','r','s','t','u','v','w','x','y',
    'z'].map (fun c => UInt8.ofNat c.toNat)

def map : List Int8 := [
  -1, -1, -1, -1, -1, -1, -1, -1, -1, -1, -1, -1, -1, -1, -1, -1,
  -1, -1, -1, -1, -1, -1, -1, -1, -1, -1, -1, -1, -1, -1, -1, -1,
  -1, -1, -1, -1, -1, -1, -1, -1, -1, -1, -1, -1, -1, -1, -1, -1,
  -1, 0, 1, 2, 3, 4, 5, 6, 7, 8, -1, -1, -1, -1, -1, -1,
  -1, 9, 10, 11, 12, 13, 14, 15, 16, -1, 17, 18, 19, 20, 21, -1,
  22, 23, 24, 25, 26, 27, 28, 29, 30, 31, 32, -1, -1, -1, -1, -1,
  -1, 33, 34, 35, 36, 37, 38, 39, 40, 41, 42, 43, -1, 44, 45, 46,
  47, 48, 49, 50, 51, 52, 53, 54, 55, 56, 57, -1, -1, -1, -1, -1,
  -1, -1, -1, -1, -1, -1, -1, -1, -1, -1, -1, -1, -1, -1, -1, -1,
  -1, -1, -1, -1, -1, -1, -1, -1, -1, -1, -1, -1, -1, -1, -1, -1,
  -1, -1, -1, -1, -1, -1, -1, -1, -1, -1, -1, -1, -1, -1, -1, -1,
  -1, -1, -1, -1, -1, -1, -1, -1, -1, -1, -1, -1, -1, -1, -1, -1,
  -1, -1, -1, -1, -1, -1, -1, -1, -1, -1, -1, -1, -1, -1, -1, -1,
  -1, -1, -1, -1, -1, -1, -1, -1, -1, -1, -1, -1, -1, -1, -1, -1,
  -1, -1, -1, -1, -1, -1, -1, -1, -1, -1, -1, -1, -1, -1, -1, -1,
  -1, -1, -1, -1, -1, -1, -1, -1, -1, -1, -1, -1, -1, -1, -1, -1]

/-- No byte indexes beyond the table. -/
theorem map_length : map.length = 256 := by decide +kernel

/-- What ends a conversion without a result: a signed number beyond its type, `assert(carry == 0)`,
a read behind the memory there is, a vector of a size that no vector has. -/
inductive Fault
  | overflow
  | assertion
  | outOfRange
  | lengthError
  deriving DecidableEq

@[simp] theorem ok_bind {α β : Type} (a : α) (f : α → Except Fault β) : (.ok a >>= f) = f a := rfl

@[simp] theorem error_bind {α β : Type} (e : Fault) (f : α → Except Fault β) :
    (.error e >>= f) = .error e := rfl

theorem bind_ok {α β : Type} {x : Except Fault α} {f : α → Except Fault β} {b : β}
    (h : x >>= f = .ok b) : ∃ a, x = .ok a ∧ f a = .ok b := by
  cases x with
  | error e => exact absurd h (by simp)
  | ok a => exact ⟨a,rfl,h⟩

/-- `++` of an `int`. -/
def increment (n : ℕ) : Except Fault ℕ := if n + 1 < 2^31 then .ok (n+1) else .error .overflow

/-- `left * factor / 100000 + 1`, with `left` a difference of iterators. -/
def estimate (left : ℤ) (factor : ℕ) : Except Fault ℤ :=
  if -2^63 ≤ left*factor ∧ left*factor < 2^63 then .ok ((left*factor).tdiv 100000 + 1)
  else .error .overflow

/-- The constructor of a vector of zeros. A negative size stands for one above all sizes. -/
def allocate (width : ℕ) (size : ℤ) : Except Fault ℕ :=
  if 0 ≤ size ∧ size*width < 2^63 then .ok size.toNat else .error .lengthError

/-- The loop over a buffer from its last element on, until nothing is carried and `length` elements
are done. It gives back the elements, the carry and the count. -/
def carryLoop {δ : Type} (step : UInt32 → δ → UInt32 × δ) (length : ℕ) :
    UInt32 → ℕ → List δ → Except Fault (List δ × UInt32 × ℕ)
  | carry, i, [] => .ok ([],carry,i)
  | carry, i, d :: digits =>
    if carry ≠ 0 ∨ i < length then do
      let (carry,d) := step carry d
      let i ← increment i
      let (digits,carry,i) ← carryLoop step length carry i digits
      .ok (d :: digits,carry,i)
    else .ok (d :: digits,carry,i)

/-- The body of both loops over the input, on the length and the buffer. -/
def addDigit {δ : Type} (step : UInt32 → δ → UInt32 × δ) (s : ℕ × List δ) (carry : UInt32) :
    Except Fault (ℕ × List δ) := do
  let (digits,carry,i) ← carryLoop step s.1 carry 0 s.2
  if carry ≠ 0 then .error .assertion
  .ok (i,digits)

/-- An integral type of one byte, converted to `uint32_t`. -/
class OneByte (α : Type) where
  toUInt32 : α → UInt32

instance : OneByte UInt8 := ⟨UInt8.toUInt32⟩

/-- `char` is signed. -/
instance : OneByte Int8 := ⟨fun c => c.toInt32.toUInt32⟩

open OneByte

/-- "b58 = b58 * 256 + ch" in one element. -/
def encodeStep (carry : UInt32) (d : UInt8) : UInt32 × UInt8 :=
  let carry := carry + d.toUInt32 <<< 8
  (carry / 58,(carry % 58).toUInt8)

def encodeBase58 {α : Type} [OneByte α] (data : List α) : Except Fault Bytes := do
  let zeroes := (data.takeWhile (fun c => toUInt32 c = 0)).length
  let cur := data.dropWhile (fun c => toUInt32 c = 0)
  let size ← allocate 1 (← estimate cur.length 136566)
  let (length,b58) ← (cur.map toUInt32).foldlM (addDigit encodeStep) (0,List.replicate size 0)
  let it := (b58.reverse.drop (size - length)).dropWhile (· = 0)
  .ok (List.replicate zeroes 49 ++ it.map (fun d => alphabet.getD d.toNat 0))

/-- Multiplication by 58 in one element. -/
def decodeStep (carry d : UInt32) : UInt32 × UInt32 :=
  let carry := carry + 58*d
  (carry >>> 8,carry &&& 0xff)

/-- `while (p(*psz)) psz++`, on what there is from `psz` on. -/
def skipWhile (p : UInt8 → Bool) : Bytes → Except Fault Bytes
  | [] => .error .outOfRange
  | c :: psz => if p c then skipWhile p psz else .ok (c :: psz)

/-- The leading '1's are counted in an `int`. -/
def countOnes : ℕ → Bytes → Except Fault (ℕ × Bytes)
  | _, [] => .error .outOfRange
  | zeroes, c :: psz =>
    if c = 49 then do
      let zeroes ← increment zeroes
      countOnes zeroes psz
    else .ok (zeroes,c :: psz)

/-- The entry of the table, converted to `uint32_t`. -/
def digitOf (c : UInt8) : UInt32 := (map.getD c.toNat 0).toInt32.toUInt32

/-- The loop over the characters. It gives nothing where `false` is returned. -/
def decodeDigits : ℕ × List UInt32 → Bytes → Except Fault (Option (Bytes × ℕ × List UInt32))
  | _, [] => .error .outOfRange
  | s, c :: psz =>
    if c ≠ 0 ∧ ¬isspace c then
      if digitOf c = -1 then .ok none
      else do
        let s ← addDigit decodeStep s (digitOf c)
        decodeDigits s psz
    else .ok (some (c :: psz,s))

/-- `DecodeBase58`, on a view and the memory behind it. It gives the vector where `true` is returned. -/
def decodeBase58 (str behind : Bytes) : Except Fault (Option Bytes) := do
  let psz ← skipWhile (fun c => c ≠ 0 && isspace c) (str ++ behind)
  let (zeroes,psz) ← countOnes 0 psz
  let size ← allocate 4 (← estimate (psz.length - behind.length) 73322)
  match ← decodeDigits (0,List.replicate size 0) psz with
  | none => .ok none
  | some (psz,length,b256) =>
    let psz ← skipWhile isspace psz
    if psz.head? ≠ some 0 then .ok none
    else
      let it := (b256.reverse.drop (size - length)).dropWhile (· = 0)
      .ok (some (List.replicate zeroes 0 ++ it.map UInt32.toUInt8))

/-- One of the two conversions: to digits of the type `δ` in a base, with what is in the buffer
multiplied by the base of what is read. -/
structure Conversion (δ : Type) where
  base : ℕ
  factor : ℕ
  toNat : δ → ℕ
  step : UInt32 → δ → UInt32 × δ
  one_lt : 1 < base
  pos : 0 < factor
  room : 2^32 / base + factor*base ≤ 2^32
  step_fst : ∀ carry d, carry.toNat + factor * toNat d < 2^32 →
    (step carry d).1.toNat = (carry.toNat + factor * toNat d) / base
  step_snd : ∀ carry d, carry.toNat + factor * toNat d < 2^32 →
    toNat (step carry d).2 = (carry.toNat + factor * toNat d) % base

theorem encodeStep_mod (carry : UInt32) (d : UInt8) :
    (carry + d.toUInt32 <<< 8).toNat = (carry.toNat + 256 * d.toNat) % 2^32 := by
  have hd := d.toNat_lt
  have h8 : (8 : UInt32).toNat % 32 = 8 := rfl
  simp only [UInt32.toNat_add,UInt32.toNat_shiftLeft,UInt8.toNat_toUInt32,Nat.shiftLeft_eq,h8]
  omega

theorem encodeStep_sum {carry : UInt32} {d : UInt8} (h : carry.toNat + 256 * d.toNat < 2^32) :
    (carry + d.toUInt32 <<< 8).toNat = carry.toNat + 256 * d.toNat := by
  rw [encodeStep_mod,Nat.mod_eq_of_lt h]

def toBase58 : Conversion UInt8 where
  base := 58
  factor := 256
  toNat := UInt8.toNat
  step := encodeStep
  one_lt := by norm_num
  pos := by norm_num
  room := by norm_num
  step_fst carry d h := by simp [encodeStep,UInt32.toNat_div,encodeStep_sum h]
  step_snd carry d h := by
    have h58 : (58 : UInt32).toNat = 58 := rfl
    simp only [encodeStep,UInt32.toNat_toUInt8,UInt32.toNat_mod,encodeStep_sum h,h58]
    omega

theorem decodeStep_sum {carry d : UInt32} (h : carry.toNat + 58 * d.toNat < 2^32) :
    (carry + 58*d).toNat = carry.toNat + 58 * d.toNat := by
  have h58 : (58 : UInt32).toNat = 58 := rfl
  simp only [UInt32.toNat_add,UInt32.toNat_mul,h58]
  omega

def toBase256 : Conversion UInt32 where
  base := 256
  factor := 58
  toNat := UInt32.toNat
  step := decodeStep
  one_lt := by norm_num
  pos := by norm_num
  room := by norm_num
  step_fst carry d h := by
    have h8 : (8 : UInt32).toNat % 32 = 8 := rfl
    simp only [decodeStep,UInt32.toNat_shiftRight,decodeStep_sum h,Nat.shiftRight_eq_div_pow,h8]
  step_snd carry d h := by
    have hmask : (0xff : UInt32).toNat = 2^8 - 1 := rfl
    simp only [decodeStep,UInt32.toNat_and,decodeStep_sum h,hmask,Nat.and_two_pow_sub_one_eq_mod]

@[simp] theorem toBase58_base : toBase58.base = 58 := rfl
@[simp] theorem toBase58_factor : toBase58.factor = 256 := rfl
@[simp] theorem toBase256_base : toBase256.base = 256 := rfl
namespace Conversion

variable {δ : Type} (K : Conversion δ)

/-- A result of the loop with an `int` is that of the pass, where this counts within its range. -/
def Computes (r : Except Fault (List δ × UInt32 × ℕ)) (p : List ℕ × ℕ × ℕ) : Prop :=
  match r with
  | .ok (digits,carry,i) => (digits.map K.toNat,carry.toNat,i) = p ∧ i < 2^31
  | .error e => e = .overflow ∧ 2^31 ≤ p.2.2

theorem carryLoop_computes (length : ℕ) (carry : UInt32) {i : ℕ} {digits : List δ}
    (hdigits : ∀ d ∈ digits, K.toNat d < K.base) (hcarry : carry.toNat + K.factor*K.base ≤ 2^32)
    (hi : i < 2^31) : K.Computes (carryLoop K.step length carry i digits)
      (Radix.pass K.base K.factor length carry.toNat i (digits.map K.toNat)) := by
  induction digits generalizing carry i with
  | nil => exact ⟨rfl,hi⟩
  | cons d digits ih =>
    by_cases hgo : carry ≠ 0 ∨ i < length
    · have hd := Nat.mul_lt_mul_of_pos_left (hdigits d (by simp)) K.pos
      have hsum : carry.toNat + K.factor * K.toNat d < 2^32 := by omega
      have hnext : (K.step carry d).1.toNat + K.factor*K.base ≤ 2^32 := by
        rw [K.step_fst carry d hsum]
        have := Nat.div_le_div_right (c := K.base) hsum.le
        have := K.room
        omega
      have hgo' : carry.toNat ≠ 0 ∨ i < length := by
        simpa [← UInt32.toNat_inj] using hgo
      rw [carryLoop,if_pos hgo,List.map_cons,Radix.pass,if_pos hgo']
      by_cases hroom : i+1 < 2^31
      · have hrest := ih _ (fun x hx => hdigits x (by simp [hx])) hnext hroom
        rw [K.step_fst carry d hsum] at hrest
        simp only [increment,if_pos hroom]
        cases hloop : carryLoop K.step length (K.step carry d).1 (i+1) digits with
        | ok r =>
          rw [hloop] at hrest
          obtain ⟨hpass,hcount⟩ := hrest
          rw [← hpass,← K.step_snd carry d hsum]
          simp only [bind,Except.bind,hloop]
          exact ⟨rfl,hcount⟩
        | error e =>
          rw [hloop] at hrest
          simp only [bind,Except.bind,hloop]
          exact hrest
      · have hcount := Radix.le_pass_count (B := K.base) (m := K.factor) length
          ((carry.toNat + K.factor * K.toNat d) / K.base) (i+1) (digits.map K.toNat)
        simp only [increment,if_neg hroom]
        exact ⟨rfl,by dsimp only; omega⟩
    · have hgo' : ¬(carry.toNat ≠ 0 ∨ i < length) := by
        simpa [← UInt32.toNat_inj] using hgo
      rw [carryLoop,if_neg hgo,List.map_cons,Radix.pass,if_neg hgo']
      exact ⟨rfl,hi⟩

/-- The length and the buffer hold a number. -/
def Holds (size v : ℕ) (s : ℕ × List δ) : Prop :=
  s.1 = (Nat.digits K.base v).length ∧ s.2.map K.toNat = Radix.lowDigits K.base size v

/-- A result that holds `v`, where this fits the buffer and its digits are counted within `int`. -/
def Makes (size v : ℕ) (r : Except Fault (ℕ × List δ)) : Prop :=
  match r with
  | .ok s => K.Holds size v s ∧ v < K.base ^ size ∧ (Nat.digits K.base v).length < 2^31
  | .error e => v < K.base ^ size → e = .overflow ∧ 2^31 ≤ (Nat.digits K.base v).length

theorem addDigit_makes {size v : ℕ} {s : ℕ × List δ} (carry : UInt32) (hs : K.Holds size v s)
    (hv : v < K.base ^ size) (hcarry : carry.toNat + K.factor*K.base ≤ 2^32) :
    K.Makes size (K.factor*v + carry.toNat) (addDigit K.step s carry) := by
  have hdigits : ∀ d ∈ s.2, K.toNat d < K.base := by
    intro d hd
    apply Radix.lowDigits_lt K.one_lt size v
    rw [← hs.2]
    exact List.mem_map_of_mem hd
  have hloop := K.carryLoop_computes s.1 carry hdigits hcarry (i := 0) (by norm_num)
  rw [hs.2,hs.1,Radix.pass_lowDigits K.one_lt K.pos _ _ hv (by omega)] at hloop
  rw [addDigit,hs.1]
  cases hr : carryLoop K.step (Nat.digits K.base v).length carry 0 s.2 with
  | ok r =>
    rw [hr] at hloop
    obtain ⟨hpass,hcount⟩ := hloop
    simp only [Prod.mk.injEq,Nat.zero_add] at hpass
    obtain ⟨hbuffer,hout,hlength⟩ := hpass
    by_cases hfit : K.factor*v + carry.toNat < K.base ^ size
    · have hmin := (Nat.digits_length_le_iff K.one_lt _).mpr hfit
      have hzero : r.2.1 = 0 := by
        rw [← UInt32.toNat_inj,hout,Nat.div_eq_of_lt hfit]
        rfl
      rw [Nat.min_eq_right hmin] at hlength
      simp only [bind,Except.bind,hzero]
      exact ⟨⟨hlength,hbuffer⟩,hfit,by omega⟩
    · have hne : r.2.1 ≠ 0 := by
        intro hzero
        rw [hzero] at hout
        have := Nat.div_pos (Nat.not_lt.mp hfit) (Nat.pow_pos (by have := K.one_lt; omega))
        simp at hout
        omega
      simp only [bind,Except.bind]
      rw [if_pos hne]
      exact fun h => absurd h hfit
  | error e =>
    rw [hr] at hloop
    obtain ⟨he,hcount⟩ := hloop
    simp only [bind,Except.bind]
    refine fun hfit => ⟨he,?_⟩
    simp only [Nat.zero_add] at hcount
    omega

/-- The loop over the input. -/
theorem addDigits_makes {size v : ℕ} {s : ℕ × List δ} (carries : List UInt32) (hs : K.Holds size v s)
    (hv : v < K.base ^ size) (hcount : (Nat.digits K.base v).length < 2^31)
    (hcarries : ∀ c ∈ carries, c.toNat + K.factor*K.base ≤ 2^32) :
    K.Makes size (Radix.extend K.factor v (carries.map UInt32.toNat))
      (carries.foldlM (addDigit K.step) s) := by
  induction carries generalizing v s with
  | nil => exact ⟨hs,hv,hcount⟩
  | cons carry carries ih =>
    have hstep := K.addDigit_makes carry hs hv (hcarries carry (by simp))
    have hgrows := Radix.le_extend K.pos (K.factor*v + carry.toNat) (carries.map UInt32.toNat)
    rw [List.foldlM_cons,List.map_cons,Radix.extend_cons]
    cases hr : addDigit K.step s carry with
    | ok r =>
      rw [hr] at hstep
      exact ih hstep.1 hstep.2.1 hstep.2.2 (fun c hc => hcarries c (by simp [hc]))
    | error e =>
      rw [hr] at hstep
      intro hfit
      obtain ⟨he,hlong⟩ := hstep (by omega)
      exact ⟨he,hlong.trans (Nat.le_length_digits_le _ _ _ hgrows)⟩

/-- What is read from the buffer in the end. -/
theorem Holds.trimmed {size v : ℕ} {s : ℕ × List δ} (hs : K.Holds size v s) (hv : v < K.base ^ size)
    (zero : δ → Bool) (hzero : ∀ d, zero d = decide (K.toNat d = 0)) :
    ((s.2.reverse.drop (size - s.1)).dropWhile zero).map K.toNat = (Nat.digits K.base v).reverse := by
  rw [← Radix.trimmed K.one_lt hv,← hs.2,← hs.1,← List.map_reverse,← List.map_drop,List.dropWhile_map]
  congr 2
  funext d
  exact hzero d

end Conversion

section Encoding

variable {α : Type} [OneByte α]

/-- The value of an element as the encoder takes it. -/
def byteOf (c : α) : ℕ := (toUInt32 c).toNat

def charOf (d : ℕ) : UInt8 := alphabet.getD d 0

/-- The Base58 form of bytes. -/
def encoded (bytes : List ℕ) : Bytes := (Radix.recode 256 58 bytes).map charOf

theorem estimate_ok {left factor : ℕ} (h : left*factor < 2^63) :
    estimate left factor = .ok ((left * factor / 100000 + 1 : ℕ) : ℤ) := by
  rw [estimate,if_pos (by omega)]
  congr 1

theorem allocate_ok {left factor width : ℕ} (hwidth : width ≤ 4) (h : left*factor < 2^63) :
    allocate width ((left * factor / 100000 + 1 : ℕ) : ℤ) = .ok (left * factor / 100000 + 1) := by
  have hsize : (left * factor / 100000 + 1) * width ≤ (left * factor / 100000 + 1) * 4 :=
    Nat.mul_le_mul_left _ hwidth
  rw [allocate,if_pos (by constructor <;> norm_cast <;> omega),Int.toNat_natCast]

theorem encode_fits (n : ℕ) : 256 ^ n ≤ 58 ^ (n * 136566 / 100000 + 1) :=
  calc 256 ^ n ≤ 58 ^ (n * 859 / 629 + 1) :=
        Radix.pow_le_pow_of_ratio (by norm_num) (by norm_num) (by decide +kernel) n
    _ ≤ 58 ^ (n * 136566 / 100000 + 1) := Nat.pow_le_pow_right (by norm_num) (by omega)

theorem isZero_byteOf (c : α) : decide (toUInt32 c = 0) = decide (byteOf c = 0) := by
  apply decide_eq_decide.mpr
  simp [byteOf,← UInt32.toNat_inj]

theorem zeros_map (data : List α) :
    (data.takeWhile (fun c => toUInt32 c = 0)).length = Radix.zeros (data.map byteOf) := by
  rw [Radix.zeros,List.takeWhile_map,List.length_map]
  congr 2
  funext c
  exact isZero_byteOf c

theorem behindZeros_map (data : List α) :
    (data.dropWhile (fun c => toUInt32 c = 0)).map byteOf = Radix.behindZeros (data.map byteOf) := by
  rw [Radix.behindZeros,List.dropWhile_map]
  congr 2
  funext c
  exact isZero_byteOf c

theorem holds_zero (size : ℕ) : toBase58.Holds size 0 (0,List.replicate size 0) := by
  simp [Conversion.Holds,toBase58]

theorem encodeLoop_makes (cur : List α) (hcur : ∀ c ∈ cur, byteOf c < 256) (size : ℕ) :
    toBase58.Makes size (Radix.value 256 (cur.map byteOf))
      ((cur.map toUInt32).foldlM (addDigit encodeStep) (0,List.replicate size 0)) := by
  have hmakes := toBase58.addDigits_makes (cur.map toUInt32) (holds_zero size)
    (Nat.pow_pos (by norm_num [toBase58])) (by simp) (by
      intro c hc
      obtain ⟨x,hx,rfl⟩ := List.mem_map.mp hc
      have := hcur x hx
      simp only [toBase58,byteOf] at this ⊢
      omega)
  rwa [List.map_map] at hmakes

theorem encode_output {size v : ℕ} {s : ℕ × List UInt8} (hs : toBase58.Holds size v s)
    (hv : v < 58 ^ size) : ((s.2.reverse.drop (size - s.1)).dropWhile (· = 0)).map
      (fun d => alphabet.getD d.toNat 0) = (Nat.digits 58 v).reverse.map charOf := by
  have htrimmed := hs.trimmed toBase58 hv (fun d => d = 0) (by
    intro d
    apply decide_eq_decide.mpr
    simp [toBase58,← UInt8.toNat_inj])
  rw [toBase58_base] at htrimmed
  rw [← htrimmed,List.map_map]
  rfl

/-- The encoder on elements that are bytes: it fails only where it counts more than an `int` does. -/
theorem encodeBase58_eq (data : List α) (hbytes : ∀ c ∈ data, byteOf c < 256) :
    encodeBase58 data =
      if (Nat.digits 58 (Radix.value 256 (data.map byteOf))).length < 2^31 then
        .ok (encoded (data.map byteOf))
      else .error .overflow := by
  have hcur := behindZeros_map data
  have hzeroes := zeros_map data
  have hmem : ∀ c ∈ data.dropWhile (fun c => toUInt32 c = 0), byteOf c < 256 :=
    fun c hc => hbytes c ((List.dropWhile_sublist _).subset hc)
  rw [encodeBase58]
  generalize data.dropWhile (fun c => toUInt32 c = 0) = cur at hcur hmem
  generalize (data.takeWhile (fun c => toUInt32 c = 0)).length = zeroes at hzeroes
  have hlt : ∀ d ∈ cur.map byteOf, d < 256 := by simpa using hmem
  have hvalue : Radix.value 256 (cur.map byteOf) = Radix.value 256 (data.map byteOf) := by
    rw [hcur,Radix.value_behindZeros]
  rw [← hvalue,encoded,Radix.recode,← hvalue,← hzeroes]
  by_cases hroom : cur.length * 136566 < 2^63
  · have hfit := (Radix.value_lt (by norm_num) hlt).trans_le (encode_fits (cur.map byteOf).length)
    rw [List.length_map] at hfit
    rw [estimate_ok hroom,ok_bind,allocate_ok (by norm_num) hroom,ok_bind]
    generalize cur.length * 136566 / 100000 + 1 = size at hfit
    have hmakes := encodeLoop_makes cur hmem size
    generalize (cur.map toUInt32).foldlM (addDigit encodeStep) (0,List.replicate size 0) = r at hmakes
    cases r with
    | ok s =>
      obtain ⟨hs,_,hcount⟩ := hmakes
      rw [ok_bind,if_pos (by simpa using hcount),List.map_append,List.map_replicate,← encode_output hs hfit]
      rfl
    | error e =>
      obtain ⟨he,hcount⟩ := hmakes hfit
      rw [error_bind,if_neg (by simpa using hcount),he]
  · have hlong := Radix.length_le_digits (C := 58) (by norm_num) (by norm_num) hlt
      (by rw [hcur]; exact Radix.behindZeros_head _)
    rw [List.length_map] at hlong
    rw [if_neg (by omega),estimate,if_neg (by push_cast; omega)]
    rfl

end Encoding

end Base58
end Tkeycoin
