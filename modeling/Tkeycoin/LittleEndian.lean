import Mathlib.Tactic.Common
import Mathlib.Tactic.Ring

/-! Byte strings and little-endian numbers in them. -/
namespace Tkeycoin

abbrev Bytes := List UInt8

/-- The low `width` bytes of a number, least significant first. -/
def leBytes : ℕ → ℕ → Bytes
  | 0, _ => []
  | width+1, n => UInt8.ofNat n :: leBytes width (n / 256)

def leValue : Bytes → ℕ
  | [] => 0
  | byte :: rest => byte.toNat + 256 * leValue rest

@[simp] theorem leBytes_length (width n : ℕ) : (leBytes width n).length = width := by
  induction width generalizing n with
  | zero => rfl
  | succ width ih => simp [leBytes,ih]

theorem leValue_leBytes (width n : ℕ) : leValue (leBytes width n) = n % 256 ^ width := by
  induction width generalizing n with
  | zero => simp [leBytes,leValue,Nat.mod_one]
  | succ width ih =>
    have hb : (UInt8.ofNat n).toNat = n % 256 := by simp
    rw [leBytes,leValue,ih,hb,pow_succ,Nat.mul_comm (256 ^ width) 256,Nat.mod_mul]

/-- Numbers that fit the width are told apart by their bytes. -/
theorem leBytes_injective {width n m : ℕ} (hn : n < 256 ^ width) (hm : m < 256 ^ width)
    (h : leBytes width n = leBytes width m) : n = m := by
  have h₁ := congrArg leValue h
  rwa [leValue_leBytes,leValue_leBytes,Nat.mod_eq_of_lt hn,Nat.mod_eq_of_lt hm] at h₁

theorem leValue_lt (b : Bytes) : leValue b < 256 ^ b.length := by
  induction b with
  | nil => simp [leValue]
  | cons byte rest ih =>
    have hb := byte.toNat_lt
    rw [leValue,List.length_cons,pow_succ]
    omega

/-- Bytes are those of their number. -/
theorem leBytes_leValue (b : Bytes) : leBytes b.length (leValue b) = b := by
  induction b with
  | nil => rfl
  | cons byte rest ih =>
    have hb := byte.toNat_lt
    have hlow : UInt8.ofNat (leValue (byte :: rest)) = byte := by
      rw [← UInt8.toNat_inj,leValue]
      simp
    have hhigh : leValue (byte :: rest) / 256 = leValue rest := by
      rw [leValue]
      omega
    rw [List.length_cons,leBytes,hlow,hhigh,ih]

theorem leValue_append (low high : Bytes) : leValue (low ++ high) = leValue low + 256 ^ low.length * leValue high := by
  induction low with
  | nil => simp [leValue]
  | cons byte low ih =>
    rw [List.cons_append,leValue,ih,leValue,List.length_cons,pow_succ]
    ring

/-- The number whose bytes come with the highest first. -/
def beValue (data : Bytes) : ℕ := leValue data.reverse

theorem beValue_cons (byte : UInt8) (b : Bytes) : beValue (byte :: b) = beValue b + 256 ^ b.length * byte.toNat := by
  rw [beValue,List.reverse_cons,leValue_append,List.length_reverse,beValue]
  simp [leValue]

theorem beValue_lt (b : Bytes) : beValue b < 256 ^ b.length := by
  rw [beValue,← List.length_reverse]
  exact leValue_lt b.reverse

theorem beValue_append (high low : Bytes) :
    beValue (high ++ low) = beValue low + 256 ^ low.length * beValue high := by
  rw [beValue,List.reverse_append,leValue_append,List.length_reverse,beValue,beValue]

end Tkeycoin
