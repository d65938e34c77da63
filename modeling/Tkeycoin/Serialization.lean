import Tkeycoin.LittleEndian
import Tkeycoin.PrefixCode
import Mathlib.Data.Vector.Basic

/-! What `::Serialize` hands to `std::ostream::write`, type by type. -/
namespace Tkeycoin

/-- `Blob<BITS>`: an array of bytes. -/
abbrev Blob (BITS : ℕ) := List.Vector UInt8 ((BITS + 7) / 8)

abbrev uint256 := Blob 256

/-- `std::vector<uint8_t>`: its size is a `size_t`. -/
abbrev ByteVector := {b : Bytes // b.length < 2^64}

namespace Serialization

def uint8 (n : UInt8) : Bytes := [n]

def uint16 (n : UInt16) : Bytes := leBytes 2 n.toNat

def uint32 (n : UInt32) : Bytes := leBytes 4 n.toNat

def uint64 (n : UInt64) : Bytes := leBytes 8 n.toNat

def int32 (n : Int32) : Bytes := uint32 n.toUInt32

def int64 (n : Int64) : Bytes := uint64 n.toUInt64

def blob {BITS : ℕ} (b : Blob BITS) : Bytes := b.toList

/-- `VariableLengthInteger::Serialize`. -/
def uintV (_value : UInt64) : Bytes :=
  if _value < 253 then uint8 _value.toUInt8
  else if _value ≤ 0xffff then uint8 253 ++ uint16 _value.toUInt16
  else if _value ≤ 0xffffffff then uint8 254 ++ uint32 _value.toUInt32
  else uint8 255 ++ uint64 _value

/-- A vector of bytes behind its size. -/
def sizeAnd (b : ByteVector) : Bytes := uintV (UInt64.ofNat b.1.length) ++ b.1

theorem uint32_prefixCode : PrefixCode uint32 := by
  refine PrefixCode.of_width (fun n => leBytes_length 4 n.toNat) fun n m h => ?_
  exact UInt32.toNat_inj.mp (leBytes_injective n.toNat_lt m.toNat_lt h)

theorem uint64_prefixCode : PrefixCode uint64 := by
  refine PrefixCode.of_width (fun n => leBytes_length 8 n.toNat) fun n m h => ?_
  exact UInt64.toNat_inj.mp (leBytes_injective n.toNat_lt m.toNat_lt h)

theorem int32_prefixCode : PrefixCode int32 :=
  uint32_prefixCode.comp fun ⟨_⟩ ⟨_⟩ h => congrArg Int32.ofUInt32 h

theorem int64_prefixCode : PrefixCode int64 :=
  uint64_prefixCode.comp fun ⟨_⟩ ⟨_⟩ h => congrArg Int64.ofUInt64 h

theorem blob_prefixCode {BITS : ℕ} : PrefixCode (@blob BITS) :=
  PrefixCode.of_width List.Vector.toList_length Subtype.val_injective

/-- The first byte of a variable-length integer: the number itself or a tag. -/
def uintVTag (n : UInt64) : UInt8 :=
  if n < 253 then n.toUInt8 else if n ≤ 0xffff then 253 else if n ≤ 0xffffffff then 254 else 255

/-- What follows it. -/
def uintVRest (n : UInt64) : Bytes :=
  if n < 253 then [] else if n ≤ 0xffff then uint16 n.toUInt16
  else if n ≤ 0xffffffff then uint32 n.toUInt32 else uint64 n

theorem uintV_eq (n : UInt64) : uintV n = uintVTag n :: uintVRest n := by
  unfold uintV uintVTag uintVRest
  split_ifs <;> rfl

/-- The first byte tells which of the four forms a number has. -/
theorem uintV_cases (n : UInt64) :
    (n.toNat < 253 ∧ (uintVTag n).toNat = n.toNat ∧ uintVRest n = leBytes 0 n.toNat) ∨
      ((253 ≤ n.toNat ∧ n.toNat < 256 ^ 2) ∧ (uintVTag n).toNat = 253 ∧ uintVRest n = leBytes 2 n.toNat) ∨
      ((256 ^ 2 ≤ n.toNat ∧ n.toNat < 256 ^ 4) ∧ (uintVTag n).toNat = 254 ∧
        uintVRest n = leBytes 4 n.toNat) ∨
      (256 ^ 4 ≤ n.toNat ∧ (uintVTag n).toNat = 255 ∧ uintVRest n = leBytes 8 n.toNat) := by
  unfold uintVTag uintVRest uint16 uint32 uint64
  simp only [UInt64.lt_iff_toNat_lt,UInt64.le_iff_toNat_le]
  have h253 : (253 : UInt64).toNat = 253 := rfl
  have hffff : (0xffff : UInt64).toNat = 0xffff := rfl
  have hffffffff : (0xffffffff : UInt64).toNat = 0xffffffff := rfl
  rw [h253,hffff,hffffffff]
  split_ifs with h₁ h₂ h₃
  · refine .inl ⟨h₁,?_,rfl⟩
    rw [UInt64.toNat_toUInt8]
    omega
  · refine .inr (.inl ⟨by omega,rfl,?_⟩)
    rw [UInt64.toNat_toUInt16,Nat.mod_eq_of_lt (by omega)]
  · refine .inr (.inr (.inl ⟨by omega,rfl,?_⟩))
    rw [UInt64.toNat_toUInt32,Nat.mod_eq_of_lt (by omega)]
  · exact .inr (.inr (.inr ⟨by omega,rfl,rfl⟩))

theorem uintV_prefixCode : PrefixCode uintV := by
  intro a b x y h
  rw [uintV_eq,uintV_eq] at h
  obtain ⟨htag,hrest⟩ := List.cons.inj h
  -- equal first bytes leave a form of one width on both sides
  have same (w : ℕ) (ha : uintVRest a = leBytes w a.toNat) (hb : uintVRest b = leBytes w b.toNat)
      (hla : a.toNat < 256 ^ w) (hlb : b.toNat < 256 ^ w) : a = b ∧ x = y := by
    rw [ha,hb] at hrest
    obtain ⟨hab,hxy⟩ := List.append_inj hrest (by simp)
    exact ⟨UInt64.toNat_inj.mp (leBytes_injective hla hlb hab),hxy⟩
  have htag' : (uintVTag a).toNat = (uintVTag b).toNat := congrArg UInt8.toNat htag
  rcases uintV_cases a with ⟨ha,hta,hra⟩ | ⟨ha,hta,hra⟩ | ⟨ha,hta,hra⟩ | ⟨ha,hta,hra⟩ <;>
    rcases uintV_cases b with ⟨hb,htb,hrb⟩ | ⟨hb,htb,hrb⟩ | ⟨hb,htb,hrb⟩ | ⟨hb,htb,hrb⟩
  all_goals try omega
  · rw [hra,hrb] at hrest
    exact ⟨UInt64.toNat_inj.mp (by omega),hrest⟩
  · exact same 2 hra hrb ha.2 hb.2
  · exact same 4 hra hrb ha.2 hb.2
  · exact same 8 hra hrb a.toNat_lt b.toNat_lt

/-- Sizes below 2^64 as variable-length integers. -/
theorem uintV_count (n m : ℕ) (x y : Bytes) (hn : n < 2^64) (hm : m < 2^64)
    (h : uintV (UInt64.ofNat n) ++ x = uintV (UInt64.ofNat m) ++ y) : n = m ∧ x = y := by
  obtain ⟨hnm,hxy⟩ := uintV_prefixCode _ _ x y h
  have htoNat := congrArg UInt64.toNat hnm
  rw [UInt64.toNat_ofNat',UInt64.toNat_ofNat',Nat.mod_eq_of_lt hn,Nat.mod_eq_of_lt hm] at htoNat
  exact ⟨htoNat,hxy⟩

theorem sizeAnd_prefixCode : PrefixCode sizeAnd := by
  rintro ⟨b,hb⟩ ⟨c,hc⟩ x y h
  simp only [sizeAnd,List.append_assoc] at h
  have hbyte (_ : ℕ) : PrefixCode fun byte : UInt8 => [byte] :=
    PrefixCode.of_width (fun _ => rfl) fun _ _ h => by simpa using h
  have hblocks : uintV (UInt64.ofNat b.length) ++ (blocks (fun _ byte => [byte]) 0 b ++ x) =
      uintV (UInt64.ofNat c.length) ++ (blocks (fun _ byte => [byte]) 0 c ++ y) := by
    rw [blocks_self,blocks_self]
    exact h
  obtain ⟨rfl,hxy⟩ := counted_blocks_inj uintV_count hbyte 0 hb hc hblocks
  exact ⟨rfl,hxy⟩

end Serialization
end Tkeycoin
