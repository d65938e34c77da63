import Mathlib.Data.Nat.Digits.Lemmas
import Mathlib.Data.List.TakeWhile

/-! Numbers in a buffer of digits: multiplication in place, the digits without leading zeros, and
how many digits of one base hold those of another. -/
namespace Tkeycoin
namespace Radix

/-- The `size` low digits, least significant first. -/
def lowDigits (B : ℕ) : ℕ → ℕ → List ℕ
  | 0, _ => []
  | size+1, v => v % B :: lowDigits B size (v / B)

variable {B m length : ℕ}

@[simp] theorem lowDigits_length (size v : ℕ) : (lowDigits B size v).length = size := by
  induction size generalizing v with
  | zero => rfl
  | succ size ih => simp [lowDigits,ih]

@[simp] theorem lowDigits_zero (size : ℕ) : lowDigits B size 0 = List.replicate size 0 := by
  induction size with
  | zero => rfl
  | succ size ih => simp [lowDigits,ih,List.replicate_succ]

theorem ofDigits_lowDigits (size v : ℕ) : Nat.ofDigits B (lowDigits B size v) = v % B ^ size := by
  induction size generalizing v with
  | zero => simp [lowDigits,Nat.mod_one]
  | succ size ih => simp [lowDigits,Nat.ofDigits_cons,ih,pow_succ',Nat.mod_mul]

theorem lowDigits_lt (hB : 1 < B) (size v : ℕ) : ∀ d ∈ lowDigits B size v, d < B := by
  induction size generalizing v with
  | zero => simp [lowDigits]
  | succ size ih =>
    intro d hd
    simp only [lowDigits,List.mem_cons] at hd
    cases hd with
    | inl h => rw [h]; exact Nat.mod_lt _ (by omega)
    | inr h => exact ih _ d h

/-- Multiplication by `m` and addition of a carry, from the least significant digit on. It ends where
nothing is carried and `length` digits are done. -/
def pass (B m length : ℕ) : ℕ → ℕ → List ℕ → List ℕ × ℕ × ℕ
  | carry, i, [] => ([],carry,i)
  | carry, i, d :: digits =>
    if carry ≠ 0 ∨ i < length then
      let r := pass B m length ((carry + m*d) / B) (i+1) digits
      ((carry + m*d) % B :: r.1,r.2)
    else (d :: digits,carry,i)

theorem le_pass_count (length carry i : ℕ) (digits : List ℕ) :
    i ≤ (pass B m length carry i digits).2.2 := by
  induction digits generalizing carry i with
  | nil => simp [pass]
  | cons d digits ih =>
    rw [pass]
    split
    · exact (Nat.le_succ i).trans (ih _ (i+1))
    · simp

theorem digits_length_pos {v : ℕ} (hv : v ≠ 0) : 0 < (Nat.digits B v).length := by
  apply List.length_pos_iff.mpr
  exact Nat.digits_ne_nil_iff_ne_zero.mpr hv

theorem digits_length_div (hB : 1 < B) (v : ℕ) :
    (Nat.digits B (v / B)).length = (Nat.digits B v).length - 1 := by
  by_cases hv : v = 0
  · simp [hv]
  · rw [Nat.digits_eq_cons_digits_div hB hv]
    simp

/-- The pass computes in the buffer what does not fit it modulo its size, and carries the rest out. -/
theorem pass_lowDigits (hB : 1 < B) (hm : 0 < m) {size v : ℕ} (carry i : ℕ) (hv : v < B ^ size)
    (hlength : length - i = (Nat.digits B v).length) :
    pass B m length carry i (lowDigits B size v) = (lowDigits B size (m*v+carry),
      (m*v+carry) / B ^ size,i + min size (Nat.digits B (m*v+carry)).length) := by
  induction size generalizing v carry i with
  | zero =>
    have hz : v = 0 := by simpa using hv
    simp [lowDigits,pass,hz]
  | succ size ih =>
    have hsplit : m * (v / B) + (carry + m * (v % B)) / B = (m*v+carry) / B := by
      have hsum : m*v + carry = carry + m * (v % B) + B * (m * (v / B)) := by
        calc m*v + carry = m * (v % B + B * (v / B)) + carry := by rw [Nat.mod_add_div]
          _ = carry + m * (v % B) + B * (m * (v / B)) := by ring
      rw [hsum,Nat.add_mul_div_left _ _ (by omega)]
      omega
    have hdigit : (carry + m * (v % B)) % B = (m*v+carry) % B := by
      rw [Nat.add_comm carry,Nat.add_mod,Nat.mul_mod,Nat.mod_mod,← Nat.mul_mod,← Nat.add_mod]
    by_cases hgo : carry ≠ 0 ∨ i < length
    · have hne : m*v+carry ≠ 0 := by
        intro h
        have hcarry : carry = 0 := by omega
        have hz : m * v = 0 := by omega
        have hv0 : v = 0 := by
          cases Nat.mul_eq_zero.mp hz with
          | inl h => omega
          | inr h => exact h
        subst hv0
        simp only [Nat.digits_zero,List.length_nil] at hlength
        omega
      have hpos := digits_length_pos (B := B) hne
      have hrest := ih ((carry + m * (v % B)) / B) (i+1) (v := v / B)
        (Nat.div_lt_of_lt_mul (by rwa [← pow_succ'])) (by rw [digits_length_div hB]; omega)
      rw [hsplit,digits_length_div hB] at hrest
      rw [lowDigits,pass,if_pos hgo,hrest]
      simp only [hdigit,lowDigits,Nat.div_div_eq_div_mul,← pow_succ',Prod.mk.injEq,true_and]
      omega
    · have hcarry : carry = 0 := by omega
      have hv0 : v = 0 := by
        by_contra h
        have := digits_length_pos (B := B) h
        omega
      subst hv0 hcarry
      rw [lowDigits,pass,if_neg hgo]
      simp [lowDigits]

theorem lowDigits_eq (hB : 1 < B) {size v : ℕ} (hv : v < B ^ size) : lowDigits B size v =
    Nat.digits B v ++ List.replicate (size - (Nat.digits B v).length) 0 := by
  have hcount := (Nat.digits_length_le_iff hB v).mpr hv
  apply Nat.ofDigits_inj_of_len_eq hB
  · simp [hcount]
  · exact lowDigits_lt hB size v
  · intro d hd
    cases List.mem_append.mp hd with
    | inl h => exact Nat.digits_lt_base hB h
    | inr h => rw [List.eq_of_mem_replicate h]; omega
  · rw [ofDigits_lowDigits,Nat.mod_eq_of_lt hv,Nat.ofDigits_append_replicate_zero,Nat.ofDigits_digits]

/-- What is left of a buffer, read from its most significant end, behind the unused digits and the
zeros. -/
theorem trimmed (hB : 1 < B) {size v : ℕ} (hv : v < B ^ size) :
    ((lowDigits B size v).reverse.drop (size - (Nat.digits B v).length)).dropWhile (· = 0) =
      (Nat.digits B v).reverse := by
  rw [lowDigits_eq hB hv,List.reverse_append,List.reverse_replicate,List.drop_left' (by simp)]
  by_cases hv0 : v = 0
  · simp [hv0]
  · have hne := Nat.digits_ne_nil_iff_ne_zero (b := B).mpr hv0
    have hlast := Nat.getLast_digit_ne_zero B hv0
    rw [← List.dropLast_append_getLast hne,List.reverse_append,List.reverse_singleton,
      List.singleton_append,List.dropWhile_cons_of_neg (by simpa using hlast)]

/-- The number a list of digits makes of the one before it, most significant digit first. -/
def extend (B : ℕ) (v : ℕ) (digits : List ℕ) : ℕ := digits.foldl (fun v d => B*v+d) v

@[simp] theorem extend_nil (v : ℕ) : extend B v [] = v := rfl

@[simp] theorem extend_cons (v d : ℕ) (digits : List ℕ) :
    extend B v (d :: digits) = extend B (B*v+d) digits := rfl

theorem extend_eq (v : ℕ) (digits : List ℕ) :
    extend B v digits = B ^ digits.length * v + Nat.ofDigits B digits.reverse := by
  induction digits generalizing v with
  | nil => simp
  | cons d digits ih =>
    rw [extend_cons,ih,Nat.ofDigits_reverse_cons,List.length_cons]
    ring

theorem le_extend (hB : 0 < B) (v : ℕ) (digits : List ℕ) : v ≤ extend B v digits := by
  rw [extend_eq]
  have := Nat.le_mul_of_pos_left v (Nat.pow_pos (n := digits.length) hB)
  omega

theorem extend_lt_extend {C : ℕ} (hB : 0 < B) (hBC : B ≤ C) {v w : ℕ} (h : v < w) (digits : List ℕ) :
    extend B v digits < extend C w digits := by
  induction digits generalizing v w with
  | nil => exact h
  | cons d digits ih =>
    have hmul : B*v < C*w := Nat.lt_of_lt_of_le (Nat.mul_lt_mul_of_pos_left h hB) (Nat.mul_le_mul_right w hBC)
    exact ih (Nat.add_lt_add_right hmul d)

/-- The number a list of digits stands for, most significant first. -/
def value (B : ℕ) (digits : List ℕ) : ℕ := extend B 0 digits

theorem value_eq (digits : List ℕ) : value B digits = Nat.ofDigits B digits.reverse := by
  simp [value,extend_eq]

/-- Two digits or more stand for more in a larger base. -/
theorem value_lt_value {C : ℕ} (hB : 0 < B) (hBC : B < C) {d : ℕ} (hd : d ≠ 0) (e : ℕ) (digits : List ℕ) :
    value B (d :: e :: digits) < value C (d :: e :: digits) := by
  have hlt : B*(B*0+d)+e < C*(C*0+d)+e := by
    rw [Nat.mul_zero,Nat.mul_zero,Nat.zero_add]
    exact Nat.add_lt_add_right (Nat.mul_lt_mul_of_pos_right hBC (Nat.pos_of_ne_zero hd)) e
  exact extend_lt_extend hB (Nat.le_of_lt hBC) hlt digits

theorem value_lt (hB : 1 < B) {digits : List ℕ} (h : ∀ d ∈ digits, d < B) :
    value B digits < B ^ digits.length := by
  rw [value_eq,← List.length_reverse]
  exact Nat.ofDigits_lt_base_pow_length hB (by simpa using h)

theorem value_digits (v : ℕ) : value B (Nat.digits B v).reverse = v := by
  rw [value_eq,List.reverse_reverse,Nat.ofDigits_digits]

/-- Digits without a zero in front are those of their number. -/
theorem digits_value (hB : 1 < B) {digits : List ℕ} (h : ∀ d ∈ digits, d < B)
    (hhead : digits.head? ≠ some 0) : (Nat.digits B (value B digits)).reverse = digits := by
  rw [value_eq,Nat.digits_ofDigits B hB _ (by simpa using h),List.reverse_reverse]
  intro hne
  rw [List.getLast_reverse]
  intro hzero
  apply hhead
  rw [← hzero]
  exact (List.head?_eq_some_head _)

/-- A smaller base takes as many digits or more. -/
theorem digits_length_le {C : ℕ} (hC : 1 < C) (hCB : C ≤ B) (v : ℕ) :
    (Nat.digits B v).length ≤ (Nat.digits C v).length := by
  apply (Nat.digits_length_le_iff (hC.trans_le hCB) v).mpr
  calc v < C ^ (Nat.digits C v).length := Nat.lt_base_pow_length_digits hC
    _ ≤ B ^ (Nat.digits C v).length := Nat.pow_le_pow_left hCB _

theorem length_le_digits {C : ℕ} (hC : 1 < C) (hCB : C ≤ B) {digits : List ℕ} (h : ∀ d ∈ digits, d < B)
    (hhead : digits.head? ≠ some 0) : digits.length ≤ (Nat.digits C (value B digits)).length := by
  have hsame := congrArg List.length (digits_value (hC.trans_le hCB) h hhead)
  rw [List.length_reverse] at hsame
  rw [← hsame]
  exact digits_length_le hC hCB _

/-- The leading zeros of a list of digits, and what is behind them. -/
def zeros (digits : List ℕ) : ℕ := (digits.takeWhile (· = 0)).length

def behindZeros (digits : List ℕ) : List ℕ := digits.dropWhile (· = 0)

theorem zeros_append (digits : List ℕ) :
    List.replicate (zeros digits) 0 ++ behindZeros digits = digits := by
  have hzeros : digits.takeWhile (· = 0) = List.replicate (zeros digits) 0 := by
    apply List.eq_replicate_iff.mpr
    refine ⟨rfl,fun d hd => ?_⟩
    simpa using List.mem_takeWhile_imp hd
  rw [← hzeros,behindZeros,List.takeWhile_append_dropWhile]

theorem zeros_replicate_append (n : ℕ) (digits : List ℕ) (h : digits.head? ≠ some 0) :
    zeros (List.replicate n 0 ++ digits) = n ∧ behindZeros (List.replicate n 0 ++ digits) = digits := by
  have htake : digits.takeWhile (· = 0) = [] ∧ digits.dropWhile (· = 0) = digits := by
    cases digits with
    | nil => simp
    | cons d digits =>
      have hd : d ≠ 0 := by simpa using h
      simp [hd]
  constructor
  · rw [zeros,List.takeWhile_append_of_pos (by simp),htake.1]
    simp
  · rw [behindZeros,List.dropWhile_append_of_pos (by simp),htake.2]

theorem behindZeros_head (digits : List ℕ) : (behindZeros digits).head? ≠ some 0 := by
  intro h
  have := List.head?_dropWhile_not (· = 0) digits
  rw [← behindZeros,h] at this
  simp at this

theorem value_behindZeros (digits : List ℕ) : value B (behindZeros digits) = value B digits := by
  conv_rhs => rw [← zeros_append digits]
  rw [value_eq,value_eq,List.reverse_append,List.reverse_replicate,Nat.ofDigits_append_replicate_zero]

theorem digits_reverse_head (v : ℕ) : (Nat.digits B v).reverse.head? ≠ some 0 := by
  intro h
  rw [List.head?_reverse] at h
  by_cases hv : v = 0
  · simp [hv] at h
  · rw [List.getLast?_eq_some_getLast (Nat.digits_ne_nil_iff_ne_zero.mpr hv)] at h
    exact Nat.getLast_digit_ne_zero B hv (Option.some.inj h)

/-- The same number in another base, with as many zeros in front. -/
def recode (A B : ℕ) (digits : List ℕ) : List ℕ :=
  List.replicate (zeros digits) 0 ++ (Nat.digits B (value A digits)).reverse

theorem zeros_recode (A : ℕ) (digits : List ℕ) : zeros (recode A B digits) = zeros digits :=
  (zeros_replicate_append _ _ (digits_reverse_head _)).1

theorem value_recode (A : ℕ) (digits : List ℕ) : value B (recode A B digits) = value A digits := by
  rw [← value_behindZeros,recode,(zeros_replicate_append _ _ (digits_reverse_head _)).2,value_digits]

theorem recode_lt (A : ℕ) (hB : 1 < B) (digits : List ℕ) : ∀ d ∈ recode A B digits, d < B := by
  intro d hd
  cases List.mem_append.mp hd with
  | inl h => rw [List.eq_of_mem_replicate h]; omega
  | inr h => exact Nat.digits_lt_base hB (List.mem_reverse.mp h)

/-- Nothing is lost between two bases. -/
theorem recode_recode {A : ℕ} (hA : 1 < A) {digits : List ℕ} (h : ∀ d ∈ digits, d < A) :
    recode B A (recode A B digits) = digits := by
  have hdigits : ∀ d ∈ behindZeros digits, d < A :=
    fun d hd => h d ((List.dropWhile_sublist _).subset hd)
  rw [recode,zeros_recode,value_recode,← value_behindZeros,
    digits_value hA hdigits (behindZeros_head digits),zeros_append]

/-- The digits of a base fit a buffer of another in the proportion of their logarithms. -/
theorem pow_le_pow_of_ratio {C p q : ℕ} (hq : 0 < q) (hC : 0 < C) (h : B ^ q ≤ C ^ p) (n : ℕ) :
    B ^ n ≤ C ^ (n * p / q + 1) := by
  have hpow : (B ^ n) ^ q ≤ (C ^ (n * p / q + 1)) ^ q := by
    calc (B ^ n) ^ q = (B ^ q) ^ n := by rw [← pow_mul,← pow_mul,Nat.mul_comm]
      _ ≤ (C ^ p) ^ n := Nat.pow_le_pow_left h n
      _ = C ^ (n * p) := by rw [← pow_mul,Nat.mul_comm]
      _ ≤ C ^ ((n * p / q + 1) * q) := Nat.pow_le_pow_right hC (by
          have := Nat.div_add_mod (n*p) q
          have := Nat.mod_lt (n*p) hq
          nlinarith)
      _ = (C ^ (n * p / q + 1)) ^ q := pow_mul _ _ _
  exact (Nat.pow_le_pow_iff_left (by omega)).mp hpow

end Radix
end Tkeycoin
