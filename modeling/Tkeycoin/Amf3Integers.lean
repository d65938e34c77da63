import Tkeycoin.JsonSymbols
import Tkeycoin.Scanning

/-! Integers of `Amf3Serializer`: one decoder reads what two encoders write. -/
namespace Tkeycoin
namespace Amf3

open Scanner TextStream

/-- A decoder that may throw an `Amf3Exeption` with some text. -/
abbrev Decoder (α : Type) := Scanner Bytes α

/-- How an encoder stops early: by an `Amf3Exeption`, or with undefined behaviour. -/
inductive Fault
  | thrown (msg : Bytes) | undefined
  deriving DecidableEq

def Fault.tooLarge : Fault := .thrown (text "Too large integer value")

/-- A value, and seven or eight bits behind it. -/
def septet (value : UInt32) (u8 : UInt8) : UInt32 := (value <<< 7) ||| (u8 &&& 0x7f).toUInt32
def octet (value : UInt32) (u8 : UInt8) : UInt32 := (value <<< 8) ||| u8.toUInt32

/-- The rounds of the loop with so many bytes to come behind this one. A byte that is not there is `0xff`. -/
def decodeBytes : ℕ → UInt32 → Decoder UInt32
  | 0, value => do
    if ← eof then raise (text "Unexpected out of data during parse u29-integer value")
    else
      let u8 ← getChar
      pure (octet value (u8.getD 0xff))
  | byte+1, value => do
    if ← eof then raise (text "Unexpected out of data during parse u29-integer value")
    else
      let u8 ← getChar
      let value := septet value (u8.getD 0xff)
      if u8.getD 0xff &&& 0x80 = 0 then pure value else decodeBytes byte value

def decodeHeadlessInteger : Decoder UInt32 := decodeBytes 3 0

/-- The cast to `uint32_t`. -/
def cut (v : ℤ) : ℕ := (v % 2^32).toNat

/-- Seven bits of an integer. -/
def low7 (n : ℕ) : UInt8 := UInt8.ofNat n &&& 0x7f

def encodeHeadlessInteger (v : ℤ) : Except Fault Bytes :=
  let intVal := cut v
  if intVal ≤ 0x0000007f then .ok [low7 intVal]
  else if intVal ≤ 0x00003fff then .ok [low7 (intVal >>> 7) ||| 0x80,low7 intVal]
  else if intVal ≤ 0x001fffff then
    .ok [low7 (intVal >>> 14) ||| 0x80,low7 (intVal >>> 7) ||| 0x80,low7 intVal]
  else if intVal ≤ 0x3fffffff then
    .ok [low7 (intVal >>> 22) ||| 0x80,low7 (intVal >>> 15) ||| 0x80,low7 (intVal >>> 8) ||| 0x80,
      UInt8.ofNat intVal]
  else .error .tooLarge

/-- The loop with so many bytes to come behind this one. -/
def encodeBytes : ℕ → ℕ → Bytes
  | 0, intVal => [low7 intVal]
  | byte+1, intVal => if intVal >>> 7 ≠ 0 then (0x80 ||| low7 intVal) :: encodeBytes byte (intVal >>> 7) else [low7 intVal]

/-- The `double` next to a natural number. -/
def double (n : ℕ) : ℕ :=
  let shift := n.log2 - 52
  let kept := n / 2^shift
  let rest := n % 2^shift
  (if 2^shift < 2 * rest ∨ 2^shift = 2 * rest ∧ kept % 2 = 1 then kept + 1 else kept) * 2^shift

/-- The bits of a `double`. -/
def doubleBits (d : ℕ) : ℕ := if d = 0 then 0 else (1023 + d.log2) * 2^52 + (d * 2^52 / 2^d.log2 - 2^52)

def integerToken : UInt8 := 4
def floatToken : UInt8 := 5

/-- `htobe64` takes the value as an integer, and what it gives is a value again. -/
def encodeFloat (d : ℕ) : Bytes := floatToken :: leBytes 8 (doubleBits (double (beValue (leBytes 8 d))))

def encodeInteger (v : ℤ) : Bytes := integerToken :: encodeBytes 3 (cut v)

/-- `encodeNumber` of a `SInt`. A large one goes through `encodeNumber` of a `SFloat`, which casts it back. -/
def encodeNumber (v : ℤ) : Except Fault Bytes :=
  if v < 1 <<< 29 then .ok (encodeInteger v)
  else
    let value := double v.toNat
    if value ≥ 2^63 then .error .undefined
    else if value < 1 <<< 29 then .ok (encodeInteger value)
    else .ok (encodeFloat value)

section Bits

theorem toNat_low7 (n : ℕ) : (low7 n).toNat = n % 128 := by
  rw [low7,UInt8.toNat_and,UInt8.toNat_ofNat']
  change n % 256 &&& 127 = n % 128
  rw [Nat.and_two_pow_sub_one_eq_mod _ 7]
  omega

/-- The byte of seven bits with others behind them. -/
theorem toNat_more (n : ℕ) : (low7 n ||| 0x80).toNat = 128 + n % 128 := by
  have hor := Nat.two_pow_add_eq_or_of_lt (i := 7) (Nat.mod_lt n (by decide : 0 < 128)) 1
  rw [UInt8.toNat_or,toNat_low7,Nat.or_comm]
  exact hor.symm

theorem toNat_septet {value : UInt32} (h : value.toNat < 2^25) (u8 : UInt8) :
    (septet value u8).toNat = value.toNat * 128 + u8.toNat % 128 := by
  have hor := Nat.two_pow_add_eq_or_of_lt (i := 7) (Nat.mod_lt u8.toNat (by decide : 0 < 128)) value.toNat
  have hshift : value.toNat <<< 7 % 2^32 = 2^7 * value.toNat := by
    rw [Nat.shiftLeft_eq]
    omega
  rw [septet,UInt32.toNat_or,UInt32.toNat_shiftLeft,UInt8.toNat_toUInt32,UInt8.toNat_and]
  change value.toNat <<< 7 % 2^32 ||| (u8.toNat &&& 127) = _
  rw [hshift,Nat.and_two_pow_sub_one_eq_mod _ 7,← hor]
  omega

theorem toNat_octet {value : UInt32} (h : value.toNat < 2^24) (u8 : UInt8) :
    (octet value u8).toNat = value.toNat * 256 + u8.toNat := by
  have hor := Nat.two_pow_add_eq_or_of_lt (i := 8) u8.toNat_lt value.toNat
  have hshift : value.toNat <<< 8 % 2^32 = 2^8 * value.toNat := by
    rw [Nat.shiftLeft_eq]
    omega
  rw [octet,UInt32.toNat_or,UInt32.toNat_shiftLeft,UInt8.toNat_toUInt32]
  change value.toNat <<< 8 % 2^32 ||| u8.toNat = _
  rw [hshift,← hor]
  omega

theorem and_0x80 : ∀ u8 : UInt8, u8 &&& 0x80 = 0 ↔ u8.toNat < 128 :=
  ScriptNum.forall_byte (by decide)

end Bits

section Decoding

variable {data rest : Bytes} {value w : UInt32} {c : UInt8} {byte : ℕ} {Q : TextStream → Prop}

theorem decodeBytes_last : Gives (Before data (c :: rest)) (decodeBytes 0 value) (octet value c) (Before data rest) :=
  Gives.bind eof_gives (Gives.bind getChar_gives Gives.pure)

theorem decodeBytes_ends (hc : c.toNat < 128) : Gives (Before data (c :: rest)) (decodeBytes (byte + 1) value)
    (septet value c) (Before data rest) := by
  apply Gives.bind eof_gives
  apply Gives.bind getChar_gives
  simp only [Option.getD_some,if_pos ((and_0x80 c).mpr hc)]
  exact Gives.pure

theorem decodeBytes_goes (hc : 128 ≤ c.toNat) (hrest : Gives (Before data rest) (decodeBytes byte (septet value c)) w Q) :
    Gives (Before data (c :: rest)) (decodeBytes (byte + 1) value) w Q := by
  apply Gives.bind eof_gives
  apply Gives.bind getChar_gives
  simp only [Option.getD_some,if_neg (fun h => absurd ((and_0x80 c).mp h) (Nat.not_lt.mpr hc))]
  exact hrest

/-- Wherever they stand, exactly these bytes are decoded, as this integer. -/
def Reads (written : Bytes) (n : ℕ) : Prop :=
  ∃ w : UInt32, w.toNat = n ∧ ∀ data rest : Bytes,
    Gives (Before data (written ++ rest)) decodeHeadlessInteger w (Before data rest)

theorem Reads.unique {written : Bytes} {m n : ℕ} (hm : Reads written m) (hn : Reads written n) : m = n := by
  obtain ⟨v,rfl,hv⟩ := hm
  obtain ⟨w,rfl,hw⟩ := hn
  have hstart : Before written (written ++ []) (.ofBytes written) := by
    rw [List.append_nil]
    exact before_ofBytes written
  obtain ⟨t,ht,-⟩ := hv written [] _ hstart
  obtain ⟨u,hu,-⟩ := hw written [] _ hstart
  obtain ⟨hsame,-⟩ := Prod.mk.inj (Except.ok.inj (ht.symm.trans hu))
  rw [hsame]

theorem reads_one {a : UInt8} (ha : a.toNat < 128) : Reads [a] a.toNat := by
  refine ⟨septet 0 a,?_,fun data rest => decodeBytes_ends ha⟩
  rw [toNat_septet (by decide)]
  change 0 * 128 + a.toNat % 128 = a.toNat
  omega

theorem reads_two {a b : UInt8} (ha : 128 ≤ a.toNat) (hb : b.toNat < 128) :
    Reads [a,b] (a.toNat % 128 * 2^7 + b.toNat) := by
  refine ⟨septet (septet 0 a) b,?_,fun data rest => decodeBytes_goes ha (decodeBytes_ends hb)⟩
  have h₁ : (septet 0 a).toNat = a.toNat % 128 := by
    rw [toNat_septet (by decide)]
    exact Nat.zero_add _
  rw [toNat_septet (by omega),h₁]
  omega

theorem reads_three {a b c : UInt8} (ha : 128 ≤ a.toNat) (hb : 128 ≤ b.toNat) (hc : c.toNat < 128) :
    Reads [a,b,c] (a.toNat % 128 * 2^14 + b.toNat % 128 * 2^7 + c.toNat) := by
  refine ⟨septet (septet (septet 0 a) b) c,?_,
    fun data rest => decodeBytes_goes ha (decodeBytes_goes hb (decodeBytes_ends hc))⟩
  have h₁ : (septet 0 a).toNat = a.toNat % 128 := by
    rw [toNat_septet (by decide)]
    exact Nat.zero_add _
  have h₂ : (septet (septet 0 a) b).toNat = a.toNat % 128 * 128 + b.toNat % 128 := by
    rw [toNat_septet (by omega),h₁]
  rw [toNat_septet (by omega),h₂]
  omega

theorem reads_four {a b c d : UInt8} (ha : 128 ≤ a.toNat) (hb : 128 ≤ b.toNat) (hc : 128 ≤ c.toNat) :
    Reads [a,b,c,d] (a.toNat % 128 * 2^22 + b.toNat % 128 * 2^15 + c.toNat % 128 * 2^8 + d.toNat) := by
  refine ⟨octet (septet (septet (septet 0 a) b) c) d,?_,
    fun data rest => decodeBytes_goes ha (decodeBytes_goes hb (decodeBytes_goes hc decodeBytes_last))⟩
  have h₁ : (septet 0 a).toNat = a.toNat % 128 := by
    rw [toNat_septet (by decide)]
    exact Nat.zero_add _
  have h₂ : (septet (septet 0 a) b).toNat = a.toNat % 128 * 128 + b.toNat % 128 := by
    rw [toNat_septet (by omega),h₁]
  have h₃ : (septet (septet (septet 0 a) b) c).toNat =
      (a.toNat % 128 * 128 + b.toNat % 128) * 128 + c.toNat % 128 := by
    rw [toNat_septet (by omega),h₂]
  rw [toNat_octet (by omega),h₃]
  omega

end Decoding

section Encoding

theorem encodeHeadlessInteger_reads {v : ℤ} (h : cut v < 2^30) :
    ∃ written, encodeHeadlessInteger v = .ok written ∧ Reads written (cut v % 2^29) := by
  simp only [encodeHeadlessInteger]
  have hlast : (low7 (cut v)).toNat < 128 := by
    rw [toNat_low7]
    exact Nat.mod_lt _ (by decide)
  have hmore (n : ℕ) : 128 ≤ (low7 n ||| 0x80).toNat := by
    rw [toNat_more]
    exact Nat.le_add_right _ _
  split_ifs with h₁ h₂ h₃ h₄
  · refine ⟨_,rfl,?_⟩
    convert reads_one hlast using 1
    rw [toNat_low7]
    omega
  · refine ⟨_,rfl,?_⟩
    convert reads_two (hmore _) hlast using 1
    rw [toNat_more,toNat_low7,Nat.shiftRight_eq_div_pow]
    omega
  · refine ⟨_,rfl,?_⟩
    convert reads_three (hmore _) (hmore _) hlast using 1
    rw [toNat_more,toNat_more,toNat_low7,Nat.shiftRight_eq_div_pow,Nat.shiftRight_eq_div_pow]
    omega
  · refine ⟨_,rfl,?_⟩
    convert reads_four (hmore _) (hmore _) (hmore _) using 1
    rw [toNat_more,toNat_more,toNat_more,UInt8.toNat_ofNat',Nat.shiftRight_eq_div_pow,Nat.shiftRight_eq_div_pow,
      Nat.shiftRight_eq_div_pow]
    omega
  · omega

theorem encodeHeadlessInteger_throws {v : ℤ} (h : 2^30 ≤ cut v) : encodeHeadlessInteger v = .error .tooLarge := by
  rw [encodeHeadlessInteger,if_neg (by omega),if_neg (by omega),if_neg (by omega),if_neg (by omega)]

/-- What is read of an integer whose groups come in the other order. -/
def mirrored (n : ℕ) : ℕ :=
  if n < 2^7 then n
  else if n < 2^14 then n % 128 * 2^7 + n / 2^7
  else if n < 2^21 then n % 128 * 2^14 + n / 2^7 % 128 * 2^7 + n / 2^14
  else n % 128 * 2^22 + n / 2^7 % 128 * 2^15 + n / 2^14 % 128 * 2^8 + n / 2^21 % 128

theorem encodeBytes_reads (n : ℕ) : Reads (encodeBytes 3 n) (mirrored n) := by
  have hlast (n : ℕ) : (low7 n).toNat < 128 := by
    rw [toNat_low7]
    exact Nat.mod_lt _ (by decide)
  have hmore (n : ℕ) : 128 ≤ (0x80 ||| low7 n).toNat ∧ (0x80 ||| low7 n).toNat % 128 = n % 128 := by
    rw [UInt8.or_comm,toNat_more]
    omega
  have hshift (n : ℕ) : n >>> 7 = n / 2^7 := Nat.shiftRight_eq_div_pow _ _
  rw [encodeBytes,encodeBytes,encodeBytes,encodeBytes,mirrored]
  simp only [hshift]
  by_cases h₁ : n < 2^7
  · rw [if_neg (by omega),if_pos h₁]
    convert reads_one (hlast n) using 1
    rw [toNat_low7]
    omega
  · rw [if_pos (by omega),if_neg h₁]
    by_cases h₂ : n < 2^14
    · rw [if_neg (by omega),if_pos h₂]
      convert reads_two (hmore n).1 (hlast _) using 1
      rw [(hmore n).2,toNat_low7]
      omega
    · rw [if_pos (by omega),if_neg h₂]
      by_cases h₃ : n < 2^21
      · rw [if_neg (by omega),if_pos h₃]
        convert reads_three (hmore n).1 (hmore _).1 (hlast _) using 1
        rw [(hmore n).2,(hmore _).2,toNat_low7]
        omega
      · rw [if_pos (by omega),if_neg h₃]
        convert reads_four (hmore n).1 (hmore _).1 (hmore _).1 using 1
        rw [(hmore n).2,(hmore _).2,(hmore _).2,toNat_low7]
        omega

/-- Four groups are never the same in the other order, as the last byte has eight bits. -/
theorem four_groups {a b c d e : ℕ} (ha : a < 128) (hb : b < 128) (hc : c < 128) (hd : d < 128) (he : e < 2)
    (hfour : 0 < d + e) : a * 4194304 + b * 32768 + c * 256 + d ≠
      a + b * 128 + c * 16384 + d * 2097152 + e * 268435456 := by
  intro h
  have hlast : a = d := by omega
  rw [hlast] at h
  clear ha hlast
  have hrest : d * 16384 + b * 256 + 2 * c = b + c * 128 + e * 2097152 := by
    apply Nat.eq_of_mul_eq_mul_left (by decide : 0 < 128)
    linarith
  clear h
  obtain ⟨f,hf⟩ : ∃ f, 2 * c = b + 128 * f := ⟨2 * c / 128,by omega⟩
  obtain ⟨g,hg⟩ : ∃ g, 2 * b + f = c + 128 * g := ⟨(2 * b + f) / 128,by omega⟩
  have htop : d + g = 128 * e := by omega
  clear hrest
  have hbits : (f = 0 ∨ f = 1) ∧ (g = 0 ∨ g = 1) := by omega
  rcases hbits with ⟨rfl | rfl,rfl | rfl⟩ <;> omega

theorem mirrored_four {n : ℕ} (hlow : 2^21 ≤ n) (hhigh : n < 2^29) : mirrored n ≠ n := by
  rw [mirrored,if_neg (by omega),if_neg (by omega),if_neg (by omega)]
  have hmod (m : ℕ) : m % 128 < 128 := Nat.mod_lt _ (by decide)
  have h₁ : n / 2^14 = n / 2^7 / 2^7 := by rw [Nat.div_div_eq_div_mul,← Nat.pow_add]
  have h₂ : n / 2^21 = n / 2^14 / 2^7 := by rw [Nat.div_div_eq_div_mul,← Nat.pow_add]
  have h₃ : n / 2^28 = n / 2^21 / 2^7 := by rw [Nat.div_div_eq_div_mul,← Nat.pow_add]
  have hgroups := four_groups (hmod n) (hmod (n / 2^7)) (hmod (n / 2^14)) (hmod (n / 2^21))
    (by omega : n / 2^28 < 2) (by omega)
  omega

theorem mirrored_iff {n : ℕ} (hhigh : n < 2^29) : mirrored n = n ↔ n < 128 ∨ (n < 2^14 ∧ n % 128 = n / 128) ∨
    (2^14 ≤ n ∧ n < 2^21 ∧ n % 128 = n / 2^14) := by
  by_cases hfour : 2^21 ≤ n
  · exact iff_of_false (mirrored_four hfour hhigh) (by omega)
  · rw [mirrored]
    split_ifs <;> omega

end Encoding

section Doubles

theorem double_small {n : ℕ} (h : n.log2 ≤ 52) : double n = n := by
  simp only [double,Nat.sub_eq_zero_of_le h,Nat.pow_zero,Nat.mod_one,Nat.div_one,Nat.mul_one]
  rw [if_neg (by omega)]

theorem double_bounds {n : ℕ} (hn : n ≠ 0) (h : 52 ≤ n.log2) : 2^52 ≤ double n ∧ double n ≤ 2^(n.log2 + 1) := by
  obtain ⟨shift,hshift⟩ := Nat.exists_eq_add_of_le h
  have hlow : 2^n.log2 ≤ n := Nat.log2_self_le hn
  have hhigh : n < 2^(n.log2 + 1) := Nat.lt_log2_self
  have hpow : 0 < 2^shift := Nat.two_pow_pos shift
  have hkept : 2^52 ≤ n / 2^shift := by
    rw [Nat.le_div_iff_mul_le hpow,← Nat.pow_add,← hshift]
    exact hlow
  have hbelow : n / 2^shift < 2^53 := by
    rw [Nat.div_lt_iff_lt_mul hpow,← Nat.pow_add]
    convert hhigh using 2
    omega
  simp only [double,hshift,Nat.add_sub_cancel_left]
  have htop : 2^(52 + shift + 1) = 2^53 * 2^shift := by
    rw [← Nat.pow_add]
    congr 1
    omega
  rw [htop]
  split_ifs
  · exact ⟨by nlinarith,Nat.mul_le_mul_right _ hbelow⟩
  · exact ⟨by nlinarith,Nat.mul_le_mul_right _ (Nat.le_of_lt hbelow)⟩

/-- The largest integers are next to `2^63`. -/
theorem double_lt {n : ℕ} (hhigh : n < 2^63) : double n < 2^63 ↔ n < 2^63 - 512 := by
  by_cases hsmall : n < 2^62
  · apply iff_of_true
    · by_cases hlog : n.log2 ≤ 52
      · rw [double_small hlog]
        exact hhigh
      · have hne : n ≠ 0 := fun h => hlog (by rw [h]; decide)
        have htop : n.log2 < 62 := (Nat.log2_lt hne).mpr hsmall
        have hle := (double_bounds hne (by omega)).2
        exact hle.trans_lt (Nat.pow_lt_pow_right (by decide) (by omega))
    · omega
  · have hne : n ≠ 0 := by omega
    have hlog : n.log2 = 62 := by
      apply Nat.le_antisymm
      · exact Nat.lt_succ_iff.mp ((Nat.log2_lt hne).mpr hhigh)
      · exact (Nat.le_log2 hne).mpr (Nat.not_lt.mp hsmall)
    simp only [double,hlog]
    split_ifs <;> omega

theorem le_double {n : ℕ} (h : 2^29 ≤ n) : 2^29 ≤ double n := by
  by_cases hlog : n.log2 ≤ 52
  · rwa [double_small hlog]
  · have hbound := (double_bounds (n := n) (by omega) (by omega)).1
    omega

end Doubles

/-- Which encoder writes an integer. -/
inductive Place
  | number | headless

/-- An integer in 29 bits that is read as it was. -/
def Kept (v : ℤ) (written : Bytes) : Prop := 0 ≤ v ∧ v < 2^29 ∧ Reads written v.toNat

/-- It is read as it was, written as a number of another form, or refused. -/
def RoundTrips (v : ℤ) : Place → Prop
  | .number => match encodeNumber v with
    | .ok (token :: written) => token = integerToken → Kept v written
    | .ok [] => False
    | .error fault => fault = .tooLarge
  | .headless => match encodeHeadlessInteger v with
    | .ok written => Kept v written
    | .error fault => fault = .tooLarge

/-- One group, two or three that are the same from both ends, or a `double` below `2^63`. As a length or a reference
29 bits, or what makes 31 or 32 bits. -/
def Fits (v : ℤ) : Place → Prop
  | .number => (0 ≤ v ∧ v < 2^7) ∨ (0 ≤ v ∧ v < 2^14 ∧ v % 2^7 = v / 2^7) ∨
      (2^14 ≤ v ∧ v < 2^21 ∧ v % 2^7 = v / 2^14) ∨ (2^29 ≤ v ∧ v < 2^63 - 2^9)
  | .headless => (0 ≤ v ∧ v < 2^29) ∨ 2^30 ≤ v % 2^32

section Places

variable {v : ℤ}

theorem kept_iff {written : Bytes} {n : ℕ} (h : Reads written n) : Kept v written ↔ (n : ℤ) = v ∧ v < 2^29 := by
  constructor
  · rintro ⟨hzero,hbound,hreads⟩
    have hsame := h.unique hreads
    exact ⟨by omega,hbound⟩
  · rintro ⟨rfl,hbound⟩
    exact ⟨Int.natCast_nonneg n,hbound,h⟩

theorem headless_iff : RoundTrips v .headless ↔ Fits v .headless := by
  rw [RoundTrips,Fits]
  by_cases hlarge : cut v < 2^30
  · obtain ⟨written,hwritten,hreads⟩ := encodeHeadlessInteger_reads hlarge
    rw [hwritten]
    refine (kept_iff hreads).trans ?_
    rw [cut] at *
    omega
  · rw [encodeHeadlessInteger_throws (Nat.not_lt.mp hlarge)]
    apply iff_of_true rfl
    rw [cut] at hlarge
    omega

theorem number_iff (hhigh : v < 2^63) : RoundTrips v .number ↔ Fits v .number := by
  have hshift : (1 <<< 29 : ℤ) = 2^29 := rfl
  have hnat : 1 <<< 29 = 2^29 := rfl
  rw [RoundTrips,Fits,encodeNumber,hshift,hnat]
  by_cases hlarge : v < 2^29
  · rw [if_pos hlarge]
    have hkept := kept_iff (v := v) (encodeBytes_reads (cut v))
    refine (forall_prop_of_true rfl).trans (hkept.trans ?_)
    by_cases hzero : 0 ≤ v
    · obtain ⟨n,rfl⟩ := Int.eq_ofNat_of_zero_le hzero
      have hcut : cut n = n := by
        rw [cut]
        omega
      have hiff := mirrored_iff (n := n) (by omega)
      rw [hcut]
      omega
    · apply iff_of_false
      · intro h
        omega
      · omega
  · have hlow : 2^29 ≤ v.toNat := by omega
    have hdouble := double_lt (n := v.toNat) (by omega)
    have hform := le_double hlow
    rw [if_neg hlarge]
    by_cases htop : double v.toNat ≥ 2^63
    · simp only [if_pos htop]
      apply iff_of_false nofun
      omega
    · simp only [if_neg htop,if_neg (Nat.not_lt.mpr hform)]
      apply iff_of_true
      · intro h
        exact absurd h (by decide)
      · omega

end Places

/-- Which integers of 64 bits each encoder writes as it should. -/
theorem roundTrips_integer_iff (v : Int64) (place : Place) : RoundTrips v.toInt place ↔ Fits v.toInt place := by
  cases place with
  | number => exact number_iff v.toInt_lt
  | headless => exact headless_iff

/-- The first integer with two groups comes back as 1. -/
theorem number_128 : ¬ ∀ (v : Int64) (place : Place), RoundTrips v.toInt place := by
  intro h
  obtain ⟨-,-,hreads⟩ : Kept 128 [0x80,1] := h 128 .number rfl
  exact absurd (hreads.unique (reads_two (a := 0x80) (b := 1) (by decide) (by decide))) (by decide)

end Amf3
end Tkeycoin
