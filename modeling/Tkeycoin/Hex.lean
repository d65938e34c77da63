import Tkeycoin.LittleEndian
import Tkeycoin.Radix

/-! Hexadecimal text: the digits that `Hex` knows, and those that a stream writes with `std::hex`. -/
namespace Tkeycoin
namespace Hex

def noDigit : UInt8 := 0xff

/-- An element of `_hexMap`. -/
def hexMap (i : ℕ) : UInt8 :=
  if i < 48 then 0xff
  else if i ≤ 57 then UInt8.ofNat (i - 48)
  else if i < 65 then 0xff
  else if i ≤ 70 then UInt8.ofNat (i - 65 + 10)
  else if i < 97 then 0xff
  else if i ≤ 102 then UInt8.ofNat (i - 97 + 10)
  else noDigit

def digitToInt (chr : UInt8) : UInt8 := hexMap chr.toNat

def isDigit (chr : UInt8) : Bool := hexMap chr.toNat ≠ noDigit

/-- A digit as a stream writes it. -/
def symbol (d : ℕ) : UInt8 := if d < 10 then UInt8.ofNat (48 + d) else UInt8.ofNat (87 + d)

/-- What `os << std::hex << n` writes. -/
def written (n : ℕ) : Bytes := if n = 0 then [48] else (Nat.digits 16 n).reverse.map symbol

/-- What it writes behind `std::setfill('0') << std::setw(width)`. -/
def padded (width n : ℕ) : Bytes := List.replicate (width - (written n).length) 48 ++ written n

theorem hexMap_cases (i : ℕ) : hexMap i = noDigit ∨ (hexMap i).toNat < 16 := by
  unfold hexMap noDigit
  split_ifs
  all_goals first
    | exact .inl rfl
    | right; rw [UInt8.toNat_ofNat']; omega

theorem digitToInt_lt {chr : UInt8} (h : isDigit chr = true) : (digitToInt chr).toNat < 16 := by
  rw [isDigit,decide_eq_true_eq] at h
  exact (hexMap_cases chr.toNat).resolve_left h

/-- A digit that is written is one, and read as what it was. -/
theorem symbol_spec {d : ℕ} (hd : d < 16) : isDigit (symbol d) = true ∧ (digitToInt (symbol d)).toNat = d := by
  have hall : ∀ i : Fin 16, isDigit (symbol i) = true ∧ (digitToInt (symbol i)).toNat = i := by decide
  exact hall ⟨d,hd⟩

/-- A number that fits has as many digits as the width says. -/
theorem padded_eq {width n : ℕ} (hwidth : 0 < width) (hn : n < 16 ^ width) :
    padded width n = (Radix.lowDigits 16 width n).reverse.map symbol := by
  have hzero : symbol 0 = 48 := by decide
  rw [Radix.lowDigits_eq (by decide) hn,List.reverse_append,List.reverse_replicate,List.map_append,
    List.map_replicate,hzero,padded,written]
  split_ifs with h
  · subst h
    obtain ⟨w,rfl⟩ := Nat.exists_eq_add_of_lt hwidth
    simp [List.replicate_succ']
  · simp

theorem padded_length {width n : ℕ} (hwidth : 0 < width) (hn : n < 16 ^ width) : (padded width n).length = width := by
  rw [padded_eq hwidth hn]
  simp

theorem written_symbols (n : ℕ) : ∀ c ∈ written n, ∃ d < 16, c = symbol d := by
  intro c hc
  rw [written] at hc
  split_ifs at hc
  · exact ⟨0,by decide,List.mem_singleton.mp hc⟩
  · obtain ⟨d,hd,rfl⟩ := List.mem_map.mp hc
    exact ⟨d,Nat.digits_lt_base (by decide) (List.mem_reverse.mp hd),rfl⟩

theorem padded_symbols (width n : ℕ) : ∀ c ∈ padded width n, ∃ d < 16, c = symbol d := by
  intro c hc
  rcases List.mem_append.mp hc with h | h
  · exact ⟨0,by decide,(List.mem_replicate.mp h).2⟩
  · exact written_symbols n c h

/-- A number that does not fit is as wide as it is. -/
theorem padded_of_le {width n : ℕ} (hn : 16 ^ width ≤ n) : padded width n = padded (width + 1) n := by
  have hzero : n ≠ 0 := Nat.ne_of_gt (Nat.lt_of_lt_of_le (Nat.pow_pos (by decide)) hn)
  have hlt : 16 ^ width < 16 ^ (written n).length := by
    rw [written,if_neg hzero,List.length_map,List.length_reverse]
    exact Nat.lt_of_le_of_lt hn (Nat.lt_base_pow_length_digits (by decide))
  have hwidth : width < (written n).length := (Nat.pow_lt_pow_iff_right (by decide)).mp hlt
  rw [padded,padded,Nat.sub_eq_zero_of_le (Nat.le_of_lt hwidth),Nat.sub_eq_zero_of_le hwidth]

/-- The last digit stands behind those of what is in front of it. -/
theorem padded_succ {width n : ℕ} (hwidth : 0 < width) (hn : n < 16 ^ (width + 1)) :
    padded (width + 1) n = padded width (n / 16) ++ [symbol (n % 16)] := by
  have hdiv : n / 16 < 16 ^ width := by
    rw [pow_succ] at hn
    exact Nat.div_lt_of_lt_mul (by rwa [Nat.mul_comm])
  rw [padded_eq (Nat.succ_pos width) hn,padded_eq hwidth hdiv,Radix.lowDigits,List.reverse_cons,List.map_append,
    List.map_singleton]

theorem padded_isDigit {width n : ℕ} (hwidth : 0 < width) (hn : n < 16 ^ width) :
    ∀ c ∈ padded width n, isDigit c = true := by
  intro c hc
  rw [padded_eq hwidth hn] at hc
  obtain ⟨d,hd,rfl⟩ := List.mem_map.mp hc
  exact (symbol_spec (Radix.lowDigits_lt (by decide) width n d (List.mem_reverse.mp hd))).1

/-- The number that digits stand for. -/
def number (digits : Bytes) : ℕ := Radix.value 16 (digits.map fun c => (digitToInt c).toNat)

theorem map_symbol {digits : List ℕ} (h : ∀ d ∈ digits, d < 16) :
    (digits.map symbol).map (fun c => (digitToInt c).toNat) = digits := by
  rw [List.map_map]
  conv_rhs => rw [← List.map_id digits]
  exact List.map_congr_left fun d hd => (symbol_spec (h d hd)).2

theorem number_padded {width n : ℕ} (hwidth : 0 < width) (hn : n < 16 ^ width) : number (padded width n) = n := by
  rw [number,padded_eq hwidth hn,map_symbol fun d hd =>
      Radix.lowDigits_lt (by decide) width n d (List.mem_reverse.mp hd),
    Radix.value_eq,List.reverse_reverse,Radix.ofDigits_lowDigits,Nat.mod_eq_of_lt hn]

theorem number_append (high low : Bytes) : number (high ++ low) = 16 ^ low.length * number high + number low := by
  rw [number,number,number,Radix.value_eq,Radix.value_eq,Radix.value_eq,List.map_append,List.reverse_append,
    Nat.ofDigits_append,List.length_reverse,List.length_map]
  ring

end Hex
end Tkeycoin
