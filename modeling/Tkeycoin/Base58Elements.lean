import Tkeycoin.Base58RoundTrip
import Tkeycoin.ScriptNum

/-! `EncodeBase58` on elements of the type `char`: bytes from 128 on are taken as what is 256 less. -/
namespace Tkeycoin
namespace Base58

namespace Conversion

variable {δ : Type} (K : Conversion δ)

/-- A carry that the first element takes in as `t`, whatever it was. -/
theorem addDigit_first {size v t : ℕ} {s : ℕ × List δ} {carry : UInt32} {next : ℕ × List δ}
    (hs : K.Holds (size+1) v s) (hv : v < K.base ^ (size+1)) (hcarry : carry ≠ 0) (ht : t ≠ 0)
    (hroom : t / K.base + K.factor*K.base ≤ 2^32)
    (hfst : ∀ d, K.toNat d = v % K.base → (K.step carry d).1.toNat = t / K.base)
    (hsnd : ∀ d, K.toNat d = v % K.base → K.toNat (K.step carry d).2 = t % K.base)
    (h : addDigit K.step s carry = .ok next) :
    K.Holds (size+1) (K.base * (K.factor * (v / K.base)) + t) next ∧
      K.base * (K.factor * (v / K.base)) + t < K.base ^ (size+1) := by
  have hbase := K.one_lt
  obtain ⟨length,buffer⟩ := s
  obtain ⟨hlength,hbuffer⟩ := hs
  simp only at hlength hbuffer
  cases buffer with
  | nil => simp [Radix.lowDigits] at hbuffer
  | cons d digits =>
    obtain ⟨hd,hdigits⟩ := List.cons.inj hbuffer
    have hdiv : (K.base * (K.factor * (v / K.base)) + t) / K.base = K.factor * (v / K.base) + t / K.base := by
      rw [Nat.mul_add_div (by omega)]
    have hmod : (K.base * (K.factor * (v / K.base)) + t) % K.base = t % K.base := by
      rw [Nat.mul_add_mod]
    have hne : K.base * (K.factor * (v / K.base)) + t ≠ 0 := by omega
    generalize K.base * (K.factor * (v / K.base)) + t = made at hdiv hmod hne ⊢
    obtain ⟨r,hloop,h⟩ := bind_ok h
    rw [carryLoop,if_pos (.inl hcarry)] at hloop
    obtain ⟨i,hi,hloop⟩ := bind_ok hloop
    obtain ⟨rest,hrest,hr⟩ := bind_ok hloop
    rw [increment,if_pos (by norm_num)] at hi
    cases hi
    have hlt : ∀ x ∈ digits, K.toNat x < K.base := by
      intro x hx
      apply Radix.lowDigits_lt K.one_lt size (v / K.base)
      rw [← hdigits]
      exact List.mem_map_of_mem hx
    have hcomputes := K.carryLoop_computes length (K.step carry d).1 (i := 1) hlt
      (by rw [hfst d hd]; exact hroom) (by norm_num)
    rw [hrest,hdigits,hfst d hd,Radix.pass_lowDigits hbase K.pos _ _
      (Nat.div_lt_of_lt_mul (by rwa [← pow_succ'])) (by rw [hlength,Radix.digits_length_div hbase]),
      ← hdiv] at hcomputes
    obtain ⟨hpass,_⟩ := hcomputes
    simp only [Prod.mk.injEq] at hpass
    obtain ⟨hdone,hout,hcount⟩ := hpass
    cases hr
    by_cases hzero : rest.2.1 = 0
    · simp only [hzero] at h
      cases h
      have hsmall : made / K.base < K.base ^ size := by
        rw [hzero] at hout
        exact (Nat.div_eq_zero_iff_lt (Nat.pow_pos (by omega))).mp hout.symm
      have hfit : made < K.base ^ (size+1) := by
        rw [pow_succ]
        exact Nat.lt_mul_of_div_lt hsmall (by omega)
      have hmin := (Nat.digits_length_le_iff hbase _).mpr hsmall
      have hpos := Radix.digits_length_pos (B := K.base) hne
      have hmore := Radix.digits_length_div hbase made
      refine ⟨⟨by rw [hcount]; omega,?_⟩,hfit⟩
      rw [List.map_cons,hdone,hsnd d hd,← hmod]
      rfl
    · simp only [ne_eq,hzero,not_false_eq_true,if_true] at h
      exact absurd h (by simp)

end Conversion

theorem char_toUInt32 (b : UInt8) : byteOf b.toInt8 =
    if b < 128 then b.toNat else 2^32 - 256 + b.toNat := by
  revert b
  exact ScriptNum.forall_byte (by decide)

/-- The number in the buffer after an element that the sign extends: 256 too little, or too much by
2^32 as well where the last digit of the number before it is zero. -/
def extended (v : ℕ) (b : UInt8) : ℕ :=
  if v % 58 = 0 then 256*v + (2^32 - 256 + b.toNat) else 256*v - 256 + b.toNat

theorem addDigit_extended {size v : ℕ} {s next : ℕ × List UInt8} {b : UInt8} (hb : 128 ≤ b)
    (hs : toBase58.Holds (size+1) v s) (hv : v < 58 ^ (size+1))
    (h : addDigit encodeStep s (OneByte.toUInt32 b.toInt8) = .ok next) :
    toBase58.Holds (size+1) (extended v b) next ∧ extended v b < 58 ^ (size+1) := by
  have hbyte := char_toUInt32 b
  rw [if_neg (by simpa using hb)] at hbyte
  have hlow : 128 ≤ b.toNat := by simpa [UInt8.le_iff_toNat_le] using hb
  have hhigh := b.toNat_lt
  generalize hcarry : OneByte.toUInt32 b.toInt8 = carry at h
  have hnat : carry.toNat = 2^32 - 256 + b.toNat := by rw [← hcarry]; exact hbyte
  have hne : carry ≠ 0 := by
    intro hzero
    rw [hzero] at hnat
    simp only [UInt32.toNat_zero] at hnat
    omega
  -- What the lowest element takes in: the sum wraps around unless its digit is zero.
  let t := if v % 58 = 0 then 2^32 - 256 + b.toNat else 256 * (v % 58) - 256 + b.toNat
  have hdigit := Nat.mod_lt v (by norm_num : 58 > 0)
  have hsum : ∀ d : UInt8, d.toNat = v % 58 → (carry + d.toUInt32 <<< 8).toNat = t := by
    intro d hd
    rw [encodeStep_mod,hnat,hd]
    simp only [t]
    split <;> omega
  have ht : t ≠ 0 ∧ t < 2^32 := by
    simp only [t]
    split <;> omega
  have hmade : 58 * (256 * (v / 58)) + t = extended v b := by
    simp only [t,extended]
    split <;> omega
  have hfirst := toBase58.addDigit_first (t := t) hs hv hne ht.1 (by simp; omega)
    (fun d hd => by
      have h58 : (58 : UInt32).toNat = 58 := rfl
      simp only [toBase58,encodeStep,UInt32.toNat_div,hsum d hd,h58])
    (fun d hd => by
      have h58 : (58 : UInt32).toNat = 58 := rfl
      simp only [toBase58,encodeStep,UInt32.toNat_toUInt8,UInt32.toNat_mod,hsum d hd,h58]
      omega) h
  rwa [toBase58_base,toBase58_factor,hmade] at hfirst

/-- The number in the buffer after one element of the type `char`. -/
def taken (v : ℕ) (b : UInt8) : ℕ := if b < 128 then 256*v + b.toNat else extended v b

/-- Behind an element from 128 on the two numbers are apart, and stay so; their last bytes agree. -/
def Apart (v w : ℕ) (high : Bool) : Prop := v % 256 = w % 256 ∧ (v = w ↔ high = false)

theorem apart_step {v w : ℕ} {high : Bool} (h : Apart v w high) (b : UInt8) :
    Apart (taken v b) (256*w + b.toNat) (high || decide (128 ≤ b)) := by
  have hb := b.toNat_lt
  obtain ⟨hmod,hsame⟩ := h
  by_cases hlow : b < 128
  · have hnot : decide (128 ≤ b) = false := by simpa using hlow
    rw [taken,if_pos hlow,hnot,Bool.or_false]
    exact ⟨by omega,by rw [← hsame]; omega⟩
  · have hbig : 128 ≤ b.toNat := by simpa [UInt8.lt_iff_toNat_lt] using hlow
    have hyes : decide (128 ≤ b) = true := by simpa using hlow
    rw [taken,if_neg hlow,hyes,Bool.or_true,extended]
    by_cases hdigit : v % 58 = 0
    · rw [if_pos hdigit]
      exact ⟨by omega,by simp only [Bool.true_eq_false,iff_false]; omega⟩
    · rw [if_neg hdigit]
      exact ⟨by omega,by simp only [Bool.true_eq_false,iff_false]; omega⟩

theorem addDigit_taken {size v : ℕ} {s next : ℕ × List UInt8} {b : UInt8}
    (hs : toBase58.Holds (size+1) v s) (hv : v < 58 ^ (size+1))
    (h : addDigit encodeStep s (OneByte.toUInt32 b.toInt8) = .ok next) :
    toBase58.Holds (size+1) (taken v b) next ∧ taken v b < 58 ^ (size+1) := by
  by_cases hlow : b < 128
  · have hbyte := char_toUInt32 b
    rw [if_pos hlow,byteOf] at hbyte
    have hb := b.toNat_lt
    have hmakes := toBase58.addDigit_makes (OneByte.toUInt32 b.toInt8) hs hv
      (by rw [hbyte]; simp; omega)
    rw [taken,if_pos hlow]
    have hstep : addDigit toBase58.step s (OneByte.toUInt32 b.toInt8) = .ok next := h
    rw [hstep,hbyte] at hmakes
    exact ⟨hmakes.1,hmakes.2.1⟩
  · rw [taken,if_neg hlow]
    exact addDigit_extended (by simpa using hlow) hs hv h

/-- The run of the encoder over elements of the type `char`. -/
theorem signed_run {size : ℕ} (bs : Bytes) {v w : ℕ} {high : Bool} {s next : ℕ × List UInt8}
    (hs : toBase58.Holds (size+1) v s) (hv : v < 58 ^ (size+1)) (h : Apart v w high)
    (hrun : (bs.map fun b => OneByte.toUInt32 b.toInt8).foldlM (addDigit encodeStep) s = .ok next) :
    ∃ v', toBase58.Holds (size+1) v' next ∧ v' < 58 ^ (size+1) ∧
      Apart v' (Radix.extend 256 w (bs.map UInt8.toNat)) (high || bs.any (fun b => 128 ≤ b)) := by
  induction bs generalizing v w high s with
  | nil =>
    cases hrun
    exact ⟨v,hs,hv,by simpa using h⟩
  | cons b bs ih =>
    rw [List.map_cons,List.foldlM_cons] at hrun
    obtain ⟨s₁,hstep,hrun⟩ := bind_ok hrun
    obtain ⟨hs₁,hv₁⟩ := addDigit_taken hs hv hstep
    obtain ⟨v',hs',hv',h'⟩ := ih hs₁ hv₁ (apart_step h b) hrun
    refine ⟨v',hs',hv',?_⟩
    rwa [Bool.or_assoc] at h'

theorem char_isZero (b : UInt8) : decide (OneByte.toUInt32 b.toInt8 = 0) = decide (b = 0) := by
  have hbyte := char_toUInt32 b
  apply decide_eq_decide.mpr
  rw [← UInt32.toNat_inj,← UInt8.toNat_inj]
  rw [byteOf] at hbyte
  rw [hbyte]
  by_cases hlow : b < 128
  · rw [if_pos hlow]
    rfl
  · have hbig : 128 ≤ b.toNat := by simpa [UInt8.lt_iff_toNat_lt] using hlow
    rw [if_neg hlow]
    simp only [UInt32.toNat_zero,UInt8.toNat_zero]
    omega

theorem any_behindZeros (bs : Bytes) :
    (bs.dropWhile (· = 0)).any (fun b => 128 ≤ b) = bs.any (fun b => 128 ≤ b) := by
  induction bs with
  | nil => rfl
  | cons b bs ih =>
    by_cases hb : b = 0
    · rw [List.dropWhile_cons_of_pos (by simpa using hb),ih,List.any_cons,hb]
      rfl
    · rw [List.dropWhile_cons_of_neg (by simpa using hb)]

/-- The buffer is never empty. -/
theorem encode_size {n : ℕ} {f : ℕ → Except Fault Bytes} {str : Bytes}
    (h : (estimate n 136566 >>= fun e => allocate 1 e >>= f) = .ok str) : ∃ size, f (size+1) = .ok str := by
  by_cases hroom : n * 136566 < 2^63
  · rw [estimate_ok hroom,ok_bind,allocate_ok (by norm_num) hroom,ok_bind] at h
    exact ⟨_,h⟩
  · rw [estimate,if_neg (by push_cast; omega)] at h
    exact absurd h (by simp)

/-- A string that is made from elements of the type `char` stands for the number of the bytes exactly if
none of them is 128 or more. -/
theorem encodeBase58_char {bs str : Bytes} (h : encodeBase58 (bs.map UInt8.toInt8) = .ok str) :
    number58 str = number256 bs ↔ bs.any (fun b => 128 ≤ b) = false := by
  have hzero : ((fun c => decide (OneByte.toUInt32 c = 0)) ∘ UInt8.toInt8) = fun b => decide (b = 0) := by
    funext b
    exact char_isZero b
  rw [encodeBase58,List.dropWhile_map,List.takeWhile_map,hzero] at h
  obtain ⟨size,h⟩ := encode_size h
  obtain ⟨s,hrun,h⟩ := bind_ok h
  rw [List.map_map] at hrun
  have hapart : Apart 0 0 false := ⟨rfl,by simp⟩
  obtain ⟨v,hs,hv,happart⟩ := signed_run (bs.dropWhile (· = 0)) (holds_zero (size+1))
    (Nat.pow_pos (by norm_num)) hapart hrun
  have hnumber : Radix.extend 256 0 ((bs.dropWhile (· = 0)).map UInt8.toNat) = number256 bs := by
    have hdrop : (bs.dropWhile (· = 0)).map UInt8.toNat = Radix.behindZeros (bs.map UInt8.toNat) := by
      have hp : (fun d => decide (d = 0)) ∘ UInt8.toNat = fun b => decide (b = 0) := by
        funext b
        exact decide_eq_decide.mpr (by simp [← UInt8.toNat_inj])
      rw [Radix.behindZeros,List.dropWhile_map,hp]
    rw [hdrop]
    exact Radix.value_behindZeros _
  rw [hnumber,Bool.false_or,any_behindZeros] at happart
  have hstr := Except.ok.inj h
  rw [← hstr,encode_output hs hv,number58_digits]
  exact happart.2

/-- Both element types give the same string exactly if no byte is 128 or more (and the digits of the
number are counted within an `int`). -/
theorem sameString_iff (bs : Bytes) :
    (∃ str, encodeBase58 (bs.map UInt8.toInt8) = .ok str ∧ encodeBase58 bs = .ok str) ↔
      (∀ b ∈ bs, b < 128) ∧ (Nat.digits 58 (number256 bs)).length < 2^31 := by
  constructor
  · rintro ⟨str,hchar,hbyte⟩
    rw [encodeBase58_uint8] at hbyte
    by_cases hcount : (Nat.digits 58 (number256 bs)).length < 2^31
    · rw [if_pos hcount] at hbyte
      cases hbyte
      have hlow := (encodeBase58_char hchar).mp (number58_encoded bs)
      refine ⟨fun b hb => ?_,hcount⟩
      have := List.any_eq_false.mp hlow b hb
      simpa using this
    · rw [if_neg hcount] at hbyte
      exact absurd hbyte (by simp)
  · rintro ⟨hlow,hcount⟩
    have hsame : (bs.map UInt8.toInt8).map byteOf = bs.map UInt8.toNat := by
      rw [List.map_map]
      apply List.map_congr_left
      intro b hb
      exact (char_toUInt32 b).trans (if_pos (hlow b hb))
    refine ⟨encoded (bs.map UInt8.toNat),?_,?_⟩
    · rw [encodeBase58_eq _ (by
        intro c hc
        obtain ⟨b,hb,rfl⟩ := List.mem_map.mp hc
        rw [char_toUInt32,if_pos (hlow b hb)]
        exact b.toNat_lt),hsame]
      exact if_pos hcount
    · rw [encodeBase58_uint8]
      exact if_pos hcount

/-- The byte 128 as a `char` makes the assertion fail. -/
theorem high_char_fails : ¬∀ bs : Bytes, ∃ str, encodeBase58 (bs.map UInt8.toInt8) = .ok str ∧
    encodeBase58 bs = .ok str := by
  intro h
  obtain ⟨str,hchar,_⟩ := h [128]
  have hfails : encodeBase58 ([128].map UInt8.toInt8) = .error .assertion := by decide +kernel
  rw [hfails] at hchar
  exact absurd hchar (by simp)

end Base58
end Tkeycoin
