import Tkeycoin.MinimalPush

/-! The byte form of a script number is the shortest one, and the minimality check accepts no other. -/
namespace Tkeycoin
namespace ScriptNum

instance (vch : Bytes) : Decidable (signBit vch) :=
  inferInstanceAs (Decidable (∃ back ∈ vch.getLast?, back &&& 0x80 ≠ 0))

/-- The number a byte string stands for, with no bound on its length. -/
def denoted (vch : Bytes) : ℤ :=
  if signBit vch then -(unsignedMagnitude vch : ℤ) else unsignedMagnitude vch

theorem denoted_natAbs (vch : Bytes) : (denoted vch).natAbs = unsignedMagnitude vch := by
  rw [denoted]
  split_ifs <;> simp

theorem setVch_denoted (vch : Bytes) : setVch vch = Int64.ofInt (denoted vch) := by
  by_cases h : signBit vch
  · rw [(setVch_eq vch).1 h,denoted,if_pos h]
  · rw [(setVch_eq vch).2 h,denoted,if_neg h]

section Size

/-- One bit of the bytes is the sign. -/
theorem two_mul_unsignedMagnitude_lt (vch : Bytes) : 2 * unsignedMagnitude vch < 256 ^ vch.length := by
  by_cases hne : vch = []
  · subst hne
    decide
  have hlt := unsignedMagnitude_lt vch hne
  have hlen : 0 < vch.length := List.length_pos_iff.mpr hne
  have hpow : 256 ^ vch.length = 2 * 2 ^ (8 * vch.length - 1) := by
    calc 256 ^ vch.length = (2 ^ 8) ^ vch.length := rfl
      _ = 2 ^ (8 * vch.length) := (pow_mul 2 8 _).symm
      _ = 2 ^ (8 * vch.length - 1 + 1) := by rw [Nat.sub_add_cancel (by omega)]
      _ = 2 * 2 ^ (8 * vch.length - 1) := pow_succ' 2 _
  omega

/-- The check on the last two bytes asks whether one byte less would do. -/
theorem nonMinimal_iff (vch : Bytes) (hne : vch ≠ []) :
    nonMinimal vch = true ↔ 2 * unsignedMagnitude vch < 256 ^ (vch.length - 1) := by
  induction vch with
  | nil => exact absurd rfl hne
  | cons byte rest ih =>
    rcases rest with _ | ⟨back,_ | ⟨c,rest⟩⟩
    · have hlow := and_0x7f_eq_zero_iff byte
      simp only [nonMinimal,List.reverse_singleton,beq_iff_eq,hlow,unsignedMagnitude,List.length_singleton]
      omega
    · have hback := and_0x7f_eq_zero_iff back
      have hbyte := and_0x80_eq_zero_iff byte
      simp only [nonMinimal,List.reverse_cons,List.reverse_nil,List.nil_append,List.cons_append,
        Bool.and_eq_true,beq_iff_eq,hback,hbyte,unsignedMagnitude,List.length_cons,List.length_nil]
      omega
    · have hrest := ih (by simp)
      have hb := byte.toNat_lt
      have hpow : 256 ^ (c :: rest).length = 2 * (128 * 256 ^ rest.length) := by
        rw [List.length_cons,pow_succ]
        omega
      simp only [List.length_cons,Nat.add_sub_cancel] at hrest hpow ⊢
      rw [nonMinimal_cons,hrest,unsignedMagnitude_cons byte,pow_succ 256 (rest.length+1),hpow]
      omega

theorem nonMinimal_cons_false (byte : UInt8) {rest : Bytes} (hne : rest ≠ []) (h : nonMinimal rest = false) :
    nonMinimal (byte :: rest) = false := by
  rcases rest with _ | ⟨back,_ | ⟨c,rest⟩⟩
  · exact absurd rfl hne
  · have hback : ¬ (back &&& 0x7f = 0) := by simpa [nonMinimal] using h
    simp [nonMinimal,hback]
  · rw [nonMinimal_cons]
    exact h

/-- The loop stops before it would write an empty byte. -/
theorem absBytes_getLast (fuel a : ℕ) (ha : a < 256 ^ fuel) (h0 : a ≠ 0) :
    (absBytes fuel a).getLast? ≠ some 0 := by
  induction fuel generalizing a with
  | zero =>
    simp only [pow_zero] at ha
    omega
  | succ fuel ih =>
    rw [absBytes,if_neg h0]
    have hdiv : a / 256 < 256 ^ fuel := by
      rw [pow_succ] at ha
      omega
    by_cases hhigh : a / 256 = 0
    · have hlow : UInt8.ofNat a ≠ 0 := by
        intro hz
        have hmod : a % 256 = 0 := by simpa using congrArg UInt8.toNat hz
        omega
      rw [hhigh,absBytes_zero]
      simpa using hlow
    · have hrest := ih (a / 256) hdiv hhigh
      rcases hbytes : absBytes fuel (a / 256) with _ | ⟨byte,rest⟩
      · rcases fuel with _ | fuel
        · simp only [pow_zero] at hdiv
          omega
        · exact absurd hbytes (absBytes_ne_nil fuel _ hhigh)
      · rw [hbytes] at hrest
        simpa [List.getLast?_cons_cons] using hrest

/-- A last byte that is not empty stays so when it takes the sign. -/
theorem signed_last (back : UInt8) (hne : back ≠ 0) (h80 : back &&& 0x80 = 0) :
    ¬ ((back ||| 0x80) &&& 0x7f = 0) ∧ ¬ (back &&& 0x7f = 0) := by
  revert back
  exact forall_byte (by decide)

theorem nonMinimal_putSign (neg : Bool) (bytes : Bytes) (h : bytes.getLast? ≠ some 0) :
    nonMinimal (putSign neg bytes) = false := by
  induction bytes using putSign.induct neg with
  | case1 => rfl
  | case2 back h80 => simp [putSign,h80,nonMinimal]
  | case3 back h80 hneg =>
    have hlast := signed_last back (by simpa using h) (by simpa using h80)
    rw [putSign,if_neg h80,if_pos hneg]
    simpa [nonMinimal] using hlast.1
  | case4 back h80 hneg =>
    have hlast := signed_last back (by simpa using h) (by simpa using h80)
    rw [putSign,if_neg h80,if_neg hneg]
    simpa [nonMinimal] using hlast.2
  | case5 byte rest hne ih =>
    have hr : rest ≠ [] := hne
    have hlast : rest.getLast? ≠ some 0 := by
      rwa [List.getLast?_cons_of_ne_nil hr] at h
    rw [putSign_cons neg byte hr]
    exact nonMinimal_cons_false byte (putSign_spec neg rest hr).2.2 (ih hlast)

/-- What the encoder writes is in minimal form. -/
theorem nonMinimal_serialize (v : Int64) : nonMinimal (serialize v) = false := by
  rw [serialize]
  split_ifs with hv
  · rfl
  · have ha : v.toInt.natAbs ≠ 0 := by
      intro h
      apply hv
      rw [← Int64.toInt_inj]
      simpa using h
    exact nonMinimal_putSign _ _ (absBytes_getLast 8 _ (natAbs_toInt_lt v) ha)

end Size

/-- Up to eight bytes a number keeps its value in 64 bits. -/
theorem toInt_ofInt_of_magnitude {v : ℤ} {n : ℕ} (hn : n ≤ 8) (hv : 2 * v.natAbs < 256 ^ n) :
    (Int64.ofInt v).toInt = v := by
  have hpow : 256 ^ n ≤ 256 ^ 8 := Nat.pow_le_pow_right (by decide) hn
  have h64 : 256 ^ 8 = 2 * 2 ^ 63 := by norm_num
  exact Int64.toInt_ofInt_of_le (by omega) (by omega)

theorem denoted_toInt {vch : Bytes} (h : vch.length ≤ 8) :
    (Int64.ofInt (denoted vch)).toInt = denoted vch := by
  apply toInt_ofInt_of_magnitude h
  rw [denoted_natAbs]
  exact two_mul_unsignedMagnitude_lt vch

/-- A byte string in minimal form is the encoding of what it denotes, and only such a one is. -/
theorem nonMinimal_eq_false_iff {vch : Bytes} (h : vch.length ≤ 8) :
    nonMinimal vch = false ↔ vch = serialize (Int64.ofInt (denoted vch)) := by
  rw [← setVch_denoted]
  constructor
  · intro hmin
    exact (serialize_setVch h hmin).symm
  · intro heq
    rw [heq]
    exact nonMinimal_serialize _

/-- The bytes written for a number denote it. -/
theorem denoted_serialize {v : ℤ} {n : ℕ} (hn : n ≤ 8) (hv : 2 * v.natAbs < 256 ^ n) :
    denoted (serialize (Int64.ofInt v)) = v := by
  have hvalue := toInt_ofInt_of_magnitude hn hv
  by_cases hzero : Int64.ofInt v = 0
  · have hv0 : v = 0 := by
      rw [← hvalue,hzero]
      rfl
    simp [hv0,serialize,denoted,signBit,unsignedMagnitude]
  have ha : (Int64.ofInt v).toInt.natAbs ≠ 0 := by
    intro h
    apply hzero
    rw [← Int64.toInt_inj]
    simpa using h
  have hspec := putSign_spec (Int64.ofInt v < 0) _ (absBytes_ne_nil 7 _ ha)
  have hmag : unsignedMagnitude (serialize (Int64.ofInt v)) = v.natAbs := by
    rw [serialize,if_neg hzero,hspec.1,leValue_absBytes 8 _ (natAbs_toInt_lt _),hvalue]
  have hsign : signBit (serialize (Int64.ofInt v)) ↔ v < 0 := by
    rw [serialize,if_neg hzero,hspec.2.1,decide_eq_true_eq,Int64.lt_iff_toInt_lt,Int64.toInt_zero,hvalue]
  simp only [denoted,hmag,hsign]
  split_ifs <;> omega

/-- The encoding has no more bytes than the number needs. -/
theorem serialize_length_le {v : ℤ} {n : ℕ} (hn : n ≤ 8) (hv : 2 * v.natAbs < 256 ^ n) :
    (serialize (Int64.ofInt v)).length ≤ n := by
  have hden := congrArg Int.natAbs (denoted_serialize hn hv)
  rw [denoted_natAbs] at hden
  by_cases hne : serialize (Int64.ofInt v) = []
  · simp [hne]
  have hmin := (nonMinimal_iff _ hne).not.mp (by simp [nonMinimal_serialize])
  rw [hden] at hmin
  have hpow : 256 ^ ((serialize (Int64.ofInt v)).length - 1) < 256 ^ n := by omega
  have hlt := (Nat.pow_lt_pow_iff_right (by decide)).mp hpow
  omega

/-- Any other byte string for the same number is longer. -/
theorem serialize_shortest {v : ℤ} {n : ℕ} (hn : n ≤ 8) (hv : 2 * v.natAbs < 256 ^ n) {vch : Bytes}
    (hden : denoted vch = v) (hne : vch ≠ serialize (Int64.ofInt v)) :
    (serialize (Int64.ofInt v)).length < vch.length := by
  have hmag : v.natAbs = unsignedMagnitude vch := by rw [← hden,denoted_natAbs]
  by_cases h8 : vch.length ≤ 8
  · have hlong : nonMinimal vch = true := by
      rw [← Bool.not_eq_false,nonMinimal_eq_false_iff h8,hden]
      exact hne
    have hnil : vch ≠ [] := by
      rintro rfl
      cases hlong
    have hsize := (nonMinimal_iff vch hnil).mp hlong
    rw [← hmag] at hsize
    have hle := serialize_length_le (n := vch.length - 1) (by omega) hsize
    have hpos : 0 < vch.length := List.length_pos_iff.mpr hnil
    omega
  · have hle := serialize_length_le hn hv
    omega

/-- Decoding undoes encoding, the encoding is the shortest byte string for its number, and under the
minimality requirement a byte string decodes exactly when it is the encoding of its number. -/
theorem decode_encode (n : ℕ) (hn : n ≤ 8) :
    (∀ v : ℤ, 2 * v.natAbs < 256 ^ n →
      (Int64.ofInt v).toInt = v ∧
      (∀ fRequireMinimal,
        ofData (serialize (Int64.ofInt v)) fRequireMinimal n = .ok ⟨Int64.ofInt v⟩) ∧
      ∀ vch, denoted vch = v → vch ≠ serialize (Int64.ofInt v) →
        (serialize (Int64.ofInt v)).length < vch.length) ∧
    ∀ vch : Bytes, vch.length ≤ n →
      (Int64.ofInt (denoted vch)).toInt = denoted vch ∧
      ofData vch true n =
        if vch = serialize (Int64.ofInt (denoted vch)) then .ok ⟨Int64.ofInt (denoted vch)⟩
        else .error .convertionToNumber := by
  constructor
  · intro v hv
    refine ⟨toInt_ofInt_of_magnitude hn hv,?_,fun vch => serialize_shortest hn hv⟩
    intro fRequireMinimal
    have hlen := serialize_length_le hn hv
    rw [ofData,if_neg (by omega),nonMinimal_serialize,Bool.and_false,setVch_serialize]
    rfl
  · intro vch hlen
    refine ⟨denoted_toInt (hlen.trans hn),?_⟩
    rw [ofData,if_neg (by omega),Bool.true_and,setVch_denoted]
    by_cases hmin : nonMinimal vch = false
    · rw [if_pos ((nonMinimal_eq_false_iff (hlen.trans hn)).mp hmin),hmin]
      rfl
    · have hother := (nonMinimal_eq_false_iff (hlen.trans hn)).not.mp hmin
      rw [if_neg hother,if_pos (by simpa using hmin)]

/-- Numbers of four bytes: the largest one has four, and one above it takes a fifth. -/
theorem decode_encode_four :
    ofData (serialize (Int64.ofInt (2^31-1))) true 4 = .ok ⟨Int64.ofInt (2^31-1)⟩ ∧
      ofData [0x80] true 4 = .error .convertionToNumber :=
  ⟨((decode_encode 4 (by decide)).1 (2^31-1) (by decide)).2.1 true,
    ((decode_encode 4 (by decide)).2 [0x80] (by decide)).2.trans (if_neg (by decide +kernel))⟩

end ScriptNum
end Tkeycoin
