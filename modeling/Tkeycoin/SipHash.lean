import Tkeycoin.BlobOrder

/-! `CSipHasher`, and SipHash-2-4 of a 256-bit number written out. -/
namespace Tkeycoin

/-- `GetUint64(pos)`. No caller reads behind the blob, where a byte would be zero here. -/
def Blob.getUint64 {BITS : ℕ} (b : Blob BITS) (pos : ℕ) : UInt64 :=
  let ptr (i : ℕ) : UInt64 := ((b.toList.drop (pos * 8)).getD i 0).toUInt64
  ptr 0 ||| (ptr 1 <<< 8) ||| (ptr 2 <<< 16) ||| (ptr 3 <<< 24) ||| (ptr 4 <<< 32) ||| (ptr 5 <<< 40) |||
    (ptr 6 <<< 48) ||| (ptr 7 <<< 56)

namespace SipHash

/-- `v[4]`. -/
structure State where
  v0 : UInt64
  v1 : UInt64
  v2 : UInt64
  v3 : UInt64
  deriving DecidableEq

def ROTL (x b : UInt64) : UInt64 := (x <<< b) ||| (x >>> (64 - b))

def SIPROUND (v : State) : State :=
  let v0 := v.v0 + v.v1
  let v1 := ROTL v.v1 13
  let v1 := v1 ^^^ v0
  let v0 := ROTL v0 32
  let v2 := v.v2 + v.v3
  let v3 := ROTL v.v3 16
  let v3 := v3 ^^^ v2
  let v0 := v0 + v3
  let v3 := ROTL v3 21
  let v3 := v3 ^^^ v0
  let v2 := v2 + v1
  let v1 := ROTL v1 17
  let v1 := v1 ^^^ v2
  let v2 := ROTL v2 32
  ⟨v0,v1,v2,v3⟩

/-- A word taken into the state. -/
def compress (v : State) (data : UInt64) : State :=
  let v := { v with v3 := v.v3 ^^^ data }
  let v := SIPROUND (SIPROUND v)
  { v with v0 := v.v0 ^^^ data }

/-- An `int` that runs over, or an `assert` that fails. -/
inductive Fault
  | overflow
  | assertion
  deriving DecidableEq

/-- `CSipHasher`. The `int` starts at zero and is only added to. -/
structure CSipHasher where
  v : State
  tmp : UInt64
  count : ℕ
  deriving DecidableEq

namespace CSipHasher

def new (k0 k1 : UInt64) : CSipHasher where
  v := ⟨0x736f6d6570736575 ^^^ k0,0x646f72616e646f6d ^^^ k1,0x6c7967656e657261 ^^^ k0,0x7465646279746573 ^^^ k1⟩
  tmp := 0
  count := 0

/-- A sum that an `int` holds. -/
def checked (n : ℕ) : Except Fault ℕ := if n < 2 ^ 31 then .ok n else .error .overflow

/-- `Write(uint64_t data)`. -/
def writeWord (h : CSipHasher) (data : UInt64) : Except Fault CSipHasher := do
  if h.count % 8 = 0 then
    let count ← checked (h.count + 8)
    .ok { h with v := compress h.v data,count := count }
  else .error .assertion

/-- A turn of the loop of `Write(const unsigned char* data, size_t size)`. -/
def writeByte (h : CSipHasher) (byte : UInt8) : Except Fault CSipHasher := do
  let t := h.tmp ||| (byte.toUInt64 <<< (8 * UInt64.ofNat (h.count % 8)))
  let c ← checked (h.count + 1)
  if c &&& 7 = 0 then .ok ⟨compress h.v t,0,c⟩ else .ok ⟨h.v,t,c⟩

/-- `Write(const unsigned char* data, size_t size)`. -/
def write (h : CSipHasher) (data : Bytes) : Except Fault CSipHasher := data.foldlM writeByte h

def finalize (h : CSipHasher) : UInt64 :=
  let t := h.tmp ||| (UInt64.ofNat h.count <<< 56)
  let v := compress h.v t
  let v := { v with v2 := v.v2 ^^^ 0xff }
  let v := SIPROUND (SIPROUND (SIPROUND (SIPROUND v)))
  v.v0 ^^^ v.v1 ^^^ v.v2 ^^^ v.v3

theorem checked_ok {n : ℕ} (h : n < 2 ^ 31) : checked n = .ok n := if_pos h

theorem checked_overflow {n : ℕ} (h : 2 ^ 31 ≤ n) : checked n = .error .overflow := if_neg (Nat.not_lt.mpr h)

end CSipHasher

/-- `SipHashUint256`. -/
def sipHashUint256 (k0 k1 : UInt64) (val : uint256) : UInt64 :=
  let d := val.getUint64 0
  let v : State := ⟨0x736f6d6570736575 ^^^ k0,0x646f72616e646f6d ^^^ k1,0x6c7967656e657261 ^^^ k0,
    0x7465646279746573 ^^^ k1 ^^^ d⟩
  let v := SIPROUND (SIPROUND v)
  let v := { v with v0 := v.v0 ^^^ d }
  let d := val.getUint64 1
  let v := { v with v3 := v.v3 ^^^ d }
  let v := SIPROUND (SIPROUND v)
  let v := { v with v0 := v.v0 ^^^ d }
  let d := val.getUint64 2
  let v := { v with v3 := v.v3 ^^^ d }
  let v := SIPROUND (SIPROUND v)
  let v := { v with v0 := v.v0 ^^^ d }
  let d := val.getUint64 3
  let v := { v with v3 := v.v3 ^^^ d }
  let v := SIPROUND (SIPROUND v)
  let v := { v with v0 := v.v0 ^^^ d }
  let v := { v with v3 := v.v3 ^^^ ((4 : UInt64) <<< 59) }
  let v := SIPROUND (SIPROUND v)
  let v := { v with v0 := v.v0 ^^^ ((4 : UInt64) <<< 59) }
  let v := { v with v2 := v.v2 ^^^ 0xff }
  let v := SIPROUND (SIPROUND (SIPROUND (SIPROUND v)))
  v.v0 ^^^ v.v1 ^^^ v.v2 ^^^ v.v3

/-- `SipHashUint256Extra`. -/
def sipHashUint256Extra (k0 k1 : UInt64) (val : uint256) (extra : UInt32) : UInt64 :=
  let d := val.getUint64 0
  let v : State := ⟨0x736f6d6570736575 ^^^ k0,0x646f72616e646f6d ^^^ k1,0x6c7967656e657261 ^^^ k0,
    0x7465646279746573 ^^^ k1 ^^^ d⟩
  let v := SIPROUND (SIPROUND v)
  let v := { v with v0 := v.v0 ^^^ d }
  let d := val.getUint64 1
  let v := { v with v3 := v.v3 ^^^ d }
  let v := SIPROUND (SIPROUND v)
  let v := { v with v0 := v.v0 ^^^ d }
  let d := val.getUint64 2
  let v := { v with v3 := v.v3 ^^^ d }
  let v := SIPROUND (SIPROUND v)
  let v := { v with v0 := v.v0 ^^^ d }
  let d := val.getUint64 3
  let v := { v with v3 := v.v3 ^^^ d }
  let v := SIPROUND (SIPROUND v)
  let v := { v with v0 := v.v0 ^^^ d }
  let d := ((36 : UInt64) <<< 56) ||| extra.toUInt64
  let v := { v with v3 := v.v3 ^^^ d }
  let v := SIPROUND (SIPROUND v)
  let v := { v with v0 := v.v0 ^^^ d }
  let v := { v with v2 := v.v2 ^^^ 0xff }
  let v := SIPROUND (SIPROUND (SIPROUND (SIPROUND v)))
  v.v0 ^^^ v.v1 ^^^ v.v2 ^^^ v.v3

section Words

/-- The word that up to eight bytes fill. -/
def word (part : Bytes) : UInt64 := UInt64.ofNat (leValue part)

def wordAt (b : Bytes) (pos : ℕ) : UInt64 := word ((b.drop (pos * 8)).take 8)

/-- A byte put behind those that there are of a word. -/
theorem word_snoc {part : Bytes} (hpart : part.length < 8) (byte : UInt8) :
    word part ||| (byte.toUInt64 <<< (8 * UInt64.ofNat part.length)) = word (part ++ [byte]) := by
  have hpow : 256 ^ part.length * 256 ≤ 2 ^ 64 := by
    rw [← pow_succ,show (2 : ℕ) ^ 64 = 256 ^ 8 by decide]
    exact Nat.pow_le_pow_right (by decide) hpart
  have hbase : 256 ^ part.length = 2 ^ (8 * part.length) := by rw [Nat.pow_mul]
  have hlow := leValue_lt part
  have hbyte := byte.toNat_lt
  have hmul : 256 ^ part.length * (byte.toNat + 1) ≤ 256 ^ part.length * 256 := Nat.mul_le_mul_left _ (by omega)
  have hvalue : leValue (part ++ [byte]) = leValue part + 256 ^ part.length * byte.toNat := by
    rw [leValue_append]
    simp [leValue]
  have hcount : (8 * UInt64.ofNat part.length).toNat = 8 * part.length := by
    rw [UInt64.toNat_mul,UInt64.toNat_ofNat']
    simp
    omega
  rw [Nat.mul_add] at hmul
  apply UInt64.toNat_inj.mp
  rw [UInt64.toNat_or,UInt64.toNat_shiftLeft,hcount,word,word,UInt64.toNat_ofNat',UInt64.toNat_ofNat',hvalue,
    Nat.mod_eq_of_lt (by omega : 8 * part.length < 64),Nat.shiftLeft_eq,UInt8.toNat_toUInt64,
    Nat.mod_eq_of_lt (by omega : leValue part < 2 ^ 64),← hbase,Nat.mul_comm byte.toNat,
    Nat.mod_eq_of_lt (by omega),Nat.mod_eq_of_lt (by omega),Nat.or_comm,Nat.add_comm,hbase]
  exact (Nat.two_pow_add_eq_or_of_lt (hbase ▸ hlow) byte.toNat).symm

theorem word_uint64 (data : UInt64) : word (Serialization.uint64 data) = data := by
  apply UInt64.toNat_inj.mp
  have hlt := data.toNat_lt
  rw [word,Serialization.uint64,leValue_leBytes,UInt64.toNat_ofNat',Nat.mod_mod_of_dvd _ (by decide)]
  exact Nat.mod_eq_of_lt hlt

theorem wordAt_append {a : Bytes} {pos : ℕ} (hpos : (pos + 1) * 8 ≤ a.length) (b : Bytes) :
    wordAt (a ++ b) pos = wordAt a pos := by
  have hfits : pos * 8 ≤ a.length := by omega
  rw [wordAt,List.drop_append_of_le_length hfits,List.take_append_of_le_length,wordAt]
  rw [List.length_drop]
  omega

/-- The bytes that `GetUint64` joins are those of a word. -/
theorem getUint64_eq {BITS : ℕ} (b : Blob BITS) {pos : ℕ} (hpos : (pos + 1) * 8 ≤ b.toList.length) :
    b.getUint64 pos = wordAt b.toList pos := by
  have hlen : ((b.toList.drop (pos * 8)).take 8).length = 8 := by
    rw [List.length_take,List.length_drop]
    omega
  have hget : ∀ i < 8, (b.toList.drop (pos * 8)).getD i 0 = ((b.toList.drop (pos * 8)).take 8).getD i 0 := by
    intro i hi
    rw [List.getD_eq_getElem?_getD,List.getD_eq_getElem?_getD,List.getElem?_take_of_lt hi]
  unfold Blob.getUint64 wordAt
  simp only [hget _ (by decide : 0 < 8),hget _ (by decide : 1 < 8),hget _ (by decide : 2 < 8),
    hget _ (by decide : 3 < 8),hget _ (by decide : 4 < 8),hget _ (by decide : 5 < 8),hget _ (by decide : 6 < 8),
    hget _ (by decide : 7 < 8)]
  match (b.toList.drop (pos * 8)).take 8, hlen with
  | [b0,b1,b2,b3,b4,b5,b6,b7], _ =>
    have h0 : b0.toUInt64 = word [b0] := by simp [word,leValue]
    have hbytes : [b0,b1,b2,b3,b4,b5,b6,b7] = [b0] ++ [b1] ++ [b2] ++ [b3] ++ [b4] ++ [b5] ++ [b6] ++ [b7] := rfl
    simp only [List.getD_cons_zero,List.getD_cons_succ]
    rw [hbytes,← word_snoc (by simp),← word_snoc (by simp),← word_snoc (by simp),← word_snoc (by simp),
      ← word_snoc (by simp),← word_snoc (by simp),← word_snoc (by simp),h0]
    rfl

end Words

section Absorbing

variable (k0 k1 : UInt64)

/-- The hasher that bytes leave behind: their whole words are in the state, the rest is a word begun. -/
def after (written : Bytes) : CSipHasher where
  v := ((List.range (written.length / 8)).map (wordAt written)).foldl compress (CSipHasher.new k0 k1).v
  tmp := word (written.drop (written.length / 8 * 8))
  count := written.length

example : (after 0x0706050403020100 0x0f0e0d0c0b0a0908 []).finalize = 0x726fdb47dd0e0e31 := by decide

/-- The words of what was written stay when more is written. -/
theorem words_append (a b : Bytes) :
    (List.range (a.length / 8)).map (wordAt (a ++ b)) = (List.range (a.length / 8)).map (wordAt a) := by
  apply List.map_congr_left
  intro pos hpos
  have hlt := List.mem_range.mp hpos
  exact wordAt_append (by omega) b

/-- The bytes of a word that is begun. -/
def begun (written : Bytes) : Bytes := written.drop (written.length / 8 * 8)

theorem begun_length (written : Bytes) : (begun written).length = written.length % 8 := by
  rw [begun,List.length_drop]
  omega

/-- Bytes that do not fill the word begun. -/
theorem after_begun {a b : Bytes} (h : a.length % 8 + b.length < 8) :
    after k0 k1 (a ++ b) = ⟨(after k0 k1 a).v,word (begun a ++ b),a.length + b.length⟩ := by
  have hsame : (a ++ b).length / 8 = a.length / 8 := by
    rw [List.length_append]
    omega
  rw [after,hsame,words_append,List.drop_append_of_le_length (by omega),List.length_append]
  rfl

/-- Bytes that fill it. -/
theorem after_filled {a b : Bytes} (h : a.length % 8 + b.length = 8) :
    after k0 k1 (a ++ b) = ⟨compress (after k0 k1 a).v (word (begun a ++ b)),0,a.length + b.length⟩ := by
  have hnext : (a ++ b).length / 8 = a.length / 8 + 1 := by
    rw [List.length_append]
    omega
  have hword : wordAt (a ++ b) (a.length / 8) = word (begun a ++ b) := by
    rw [wordAt,List.drop_append_of_le_length (by omega),List.take_of_length_le]
    · rfl
    · change (begun a ++ b).length ≤ 8
      rw [List.length_append,begun_length]
      omega
  have hrest : (a ++ b).drop ((a.length / 8 + 1) * 8) = [] := by
    apply List.drop_of_length_le
    rw [List.length_append]
    omega
  rw [after,hnext,List.range_succ,List.map_append,words_append,List.foldl_append,hrest,List.length_append]
  rw [List.map_singleton,hword]
  rfl

/-- A hasher to which bytes were written, as long as they can be counted. -/
def fed (written : Bytes) : Except Fault CSipHasher :=
  (CSipHasher.checked written.length).map fun _ => after k0 k1 written

theorem fed_eq {written : Bytes} (h : written.length < 2 ^ 31) : fed k0 k1 written = .ok (after k0 k1 written) := by
  rw [fed,CSipHasher.checked_ok h]
  rfl

theorem fed_overflow {written : Bytes} (h : 2 ^ 31 ≤ written.length) : fed k0 k1 written = .error .overflow := by
  rw [fed,CSipHasher.checked_overflow h]
  rfl

theorem writeByte_after {written : Bytes} (hfits : written.length + 1 < 2 ^ 31) (byte : UInt8) :
    (after k0 k1 written).writeByte byte = .ok (after k0 k1 (written ++ [byte])) := by
  have htmp : (after k0 k1 written).tmp ||| (byte.toUInt64 <<< (8 * UInt64.ofNat (written.length % 8)))
      = word (begun written ++ [byte]) := by
    have hbegun : (begun written).length < 8 := by
      rw [begun_length]
      omega
    rw [← begun_length]
    exact word_snoc hbegun byte
  have hand : (written.length + 1) &&& 7 = (written.length + 1) % 8 := Nat.and_two_pow_sub_one_eq_mod _ 3
  have hstep : (after k0 k1 written).writeByte byte
      = if (written.length + 1) % 8 = 0
        then .ok ⟨compress (after k0 k1 written).v (word (begun written ++ [byte])),0,written.length + 1⟩
        else .ok ⟨(after k0 k1 written).v,word (begun written ++ [byte]),written.length + 1⟩ := by
    have hcount : CSipHasher.checked ((after k0 k1 written).count + 1) = .ok (written.length + 1) :=
      CSipHasher.checked_ok hfits
    rw [← htmp,← hand,CSipHasher.writeByte,hcount]
    rfl
  rw [hstep]
  split_ifs with hfull
  · rw [after_filled _ _ (by rw [List.length_singleton]; omega),List.length_singleton]
  · rw [after_begun _ _ (by rw [List.length_singleton]; omega),List.length_singleton]

/-- What is done to a hasher that cannot count its bytes is not done. -/
theorem fed_bind {written more : Bytes} {f : CSipHasher → Except Fault CSipHasher}
    (hok : written.length + more.length < 2 ^ 31 → f (after k0 k1 written) = .ok (after k0 k1 (written ++ more)))
    (hover : written.length < 2 ^ 31 → 2 ^ 31 ≤ written.length + more.length →
      f (after k0 k1 written) = .error .overflow) :
    (fed k0 k1 written).bind f = fed k0 k1 (written ++ more) := by
  have hlen : (written ++ more).length = written.length + more.length := List.length_append
  by_cases hbefore : written.length < 2 ^ 31
  · rw [fed_eq _ _ hbefore]
    by_cases hbehind : written.length + more.length < 2 ^ 31
    · rw [fed_eq _ _ (by omega)]
      exact hok hbehind
    · rw [fed_overflow _ _ (by omega)]
      exact hover hbefore (by omega)
  · rw [fed_overflow _ _ (by omega),fed_overflow _ _ (by omega)]
    rfl

theorem writeByte_fed (written : Bytes) (byte : UInt8) :
    (fed k0 k1 written).bind (·.writeByte byte) = fed k0 k1 (written ++ [byte]) := by
  apply fed_bind
  · intro hfits
    exact writeByte_after _ _ hfits byte
  · intro hbefore hbehind
    have hcount : CSipHasher.checked ((after k0 k1 written).count + 1) = .error .overflow :=
      CSipHasher.checked_overflow hbehind
    rw [CSipHasher.writeByte,hcount]
    rfl

/-- The loop over bytes leaves what they leave. -/
theorem write_fed (written data : Bytes) : (fed k0 k1 written).bind (·.write data) = fed k0 k1 (written ++ data) := by
  induction data generalizing written with
  | nil =>
    rw [List.append_nil]
    cases fed k0 k1 written <;> rfl
  | cons byte data ih =>
    have hstep : (fed k0 k1 written).bind (·.write (byte :: data))
        = ((fed k0 k1 written).bind (·.writeByte byte)).bind (·.write data) := by
      cases fed k0 k1 written <;> rfl
    rw [hstep,writeByte_fed,ih,List.append_assoc,List.singleton_append]

theorem begun_nil {written : Bytes} (haligned : written.length % 8 = 0) : begun written = [] := by
  apply List.eq_nil_of_length_eq_zero
  rw [begun_length]
  exact haligned

theorem after_word {written : Bytes} (haligned : written.length % 8 = 0) (data : UInt64) :
    after k0 k1 (written ++ Serialization.uint64 data)
      = ⟨compress (after k0 k1 written).v data,0,written.length + 8⟩ := by
  have hlen : (Serialization.uint64 data).length = 8 := leBytes_length 8 data.toNat
  rw [after_filled _ _ (by omega),begun_nil haligned,List.nil_append,word_uint64,hlen]

/-- A word at a whole number of words is its eight bytes. -/
theorem writeWord_fed {written : Bytes} (haligned : written.length % 8 = 0) (data : UInt64) :
    (fed k0 k1 written).bind (·.writeWord data) = fed k0 k1 (written ++ Serialization.uint64 data) := by
  have hlen : (Serialization.uint64 data).length = 8 := leBytes_length 8 data.toNat
  have hassert : (after k0 k1 written).count % 8 = 0 := haligned
  apply fed_bind
  · intro hfits
    have htmp : (after k0 k1 written).tmp = 0 := by
      change word (begun written) = 0
      rw [begun_nil haligned]
      rfl
    have hcount : CSipHasher.checked ((after k0 k1 written).count + 8) = .ok (written.length + 8) :=
      CSipHasher.checked_ok (hlen ▸ hfits)
    rw [after_word _ _ haligned,CSipHasher.writeWord,if_pos hassert,hcount,← htmp]
    rfl
  · intro hbefore hbehind
    have hcount : CSipHasher.checked ((after k0 k1 written).count + 8) = .error .overflow :=
      CSipHasher.checked_overflow (hlen ▸ hbehind)
    rw [CSipHasher.writeWord,if_pos hassert,hcount]
    rfl

/-- Elsewhere it is refused. -/
theorem writeWord_begun {written : Bytes} (hbegun : written.length % 8 ≠ 0) (hcount : written.length < 2 ^ 31)
    (data : UInt64) : (fed k0 k1 written).bind (·.writeWord data) = .error .assertion := by
  rw [fed_eq _ _ hcount]
  exact if_neg hbegun

end Absorbing

/-- A call of one `Write` or the other. -/
inductive Write
  | word (data : UInt64)
  | bytes (data : Bytes)
  deriving DecidableEq

namespace Write

def apply (h : CSipHasher) : Write → Except Fault CSipHasher
  | word data => h.writeWord data
  | bytes data => h.write data

/-- The bytes that are written. -/
def content : Write → Bytes
  | word data => Serialization.uint64 data
  | bytes data => data

end Write

def run (h : CSipHasher) (writes : List Write) : Except Fault CSipHasher := writes.foldlM Write.apply h

/-- The digest behind some writes. -/
def digest (k0 k1 : UInt64) (writes : List Write) : Except Fault UInt64 :=
  (run (CSipHasher.new k0 k1) writes).map CSipHasher.finalize

section Runs

variable (k0 k1 : UInt64)

theorem run_nil (written : Bytes) : (fed k0 k1 written).bind (run · []) = fed k0 k1 written := by
  cases fed k0 k1 written <;> rfl

theorem run_cons (written : Bytes) (w : Write) (writes : List Write) :
    (fed k0 k1 written).bind (run · (w :: writes)) = ((fed k0 k1 written).bind w.apply).bind (run · writes) := by
  cases fed k0 k1 written <;> rfl

theorem run_bytes (written data : Bytes) (writes : List Write) :
    (fed k0 k1 written).bind (run · (.bytes data :: writes)) = (fed k0 k1 (written ++ data)).bind (run · writes) := by
  rw [run_cons,← write_fed]
  rfl

theorem run_word {written : Bytes} (haligned : written.length % 8 = 0) (data : UInt64) (writes : List Write) :
    (fed k0 k1 written).bind (run · (.word data :: writes))
      = (fed k0 k1 (written ++ Serialization.uint64 data)).bind (run · writes) := by
  rw [run_cons,← writeWord_fed _ _ haligned]
  rfl

/-- Whatever is written in whatever pieces, the hasher is that of all the bytes, unless a word comes
where it may not. -/
theorem run_fed (writes : List Write) (written : Bytes) :
    (fed k0 k1 written).bind (run · writes) = .error .assertion ∨
    (fed k0 k1 written).bind (run · writes) = fed k0 k1 (written ++ writes.flatMap Write.content) := by
  induction writes generalizing written with
  | nil =>
    rw [run_nil,List.flatMap_nil,List.append_nil]
    exact .inr rfl
  | cons w writes ih =>
    rw [List.flatMap_cons,← List.append_assoc]
    cases w with
    | bytes data =>
      rw [run_bytes]
      exact ih (written ++ data)
    | word data =>
      by_cases haligned : written.length % 8 = 0
      · rw [run_word _ _ haligned]
        exact ih (written ++ Serialization.uint64 data)
      · by_cases hcount : written.length < 2 ^ 31
        · left
          have hrefused : (fed k0 k1 written).bind (Write.apply · (.word data)) = .error .assertion :=
            writeWord_begun _ _ haligned hcount data
          rw [run_cons,hrefused]
          rfl
        · right
          rw [fed_overflow _ _ (by omega),fed_overflow]
          · rfl
          · simp only [List.length_append]
            omega

end Runs

section Specialised

variable (k0 k1 : UInt64)

/-- Four words are the bytes of a 256-bit number. -/
theorem words_join (val : uint256) :
    Serialization.uint64 (val.getUint64 0) ++ Serialization.uint64 (val.getUint64 1)
      ++ Serialization.uint64 (val.getUint64 2) ++ Serialization.uint64 (val.getUint64 3) = val.toList := by
  have hlen : val.toList.length = 32 := val.toList_length
  have hword : ∀ pos < 4, Serialization.uint64 (val.getUint64 pos) = (val.toList.drop (pos * 8)).take 8 := by
    intro pos hpos
    have hpart : ((val.toList.drop (pos * 8)).take 8).length = 8 := by
      rw [List.length_take,List.length_drop]
      omega
    have hlt : leValue ((val.toList.drop (pos * 8)).take 8) < 2 ^ 64 := by
      have h := leValue_lt ((val.toList.drop (pos * 8)).take 8)
      rwa [hpart] at h
    have hbytes := leBytes_leValue ((val.toList.drop (pos * 8)).take 8)
    rw [hpart] at hbytes
    rw [getUint64_eq val (by omega),Serialization.uint64,wordAt,word,UInt64.toNat_ofNat',Nat.mod_eq_of_lt hlt,hbytes]
  rw [hword 0 (by decide),hword 1 (by decide),hword 2 (by decide),hword 3 (by decide)]
  have hlast : (val.toList.drop (3 * 8)).take 8 = val.toList.drop (3 * 8) := by
    apply List.take_of_length_le
    rw [List.length_drop]
    omega
  have hjoin : ∀ pos, (val.toList.drop (pos * 8)).take 8 ++ val.toList.drop ((pos + 1) * 8)
      = val.toList.drop (pos * 8) := by
    intro pos
    rw [Nat.add_mul,← List.drop_drop]
    exact List.take_append_drop 8 (val.toList.drop (pos * 8))
  rw [hlast,List.append_assoc,hjoin 2,List.append_assoc,hjoin 1,hjoin 0,Nat.zero_mul,List.drop_zero]

/-- The hasher behind a 256-bit number. -/
theorem after_uint256 (val : uint256) :
    after k0 k1 val.toList = ⟨compress (compress (compress (compress (CSipHasher.new k0 k1).v (val.getUint64 0))
      (val.getUint64 1)) (val.getUint64 2)) (val.getUint64 3),0,32⟩ := by
  have hlen : ∀ data : UInt64, (Serialization.uint64 data).length = 8 := fun data => leBytes_length 8 data.toNat
  have hfirst := @after_word k0 k1 [] rfl (val.getUint64 0)
  rw [List.nil_append] at hfirst
  rw [← words_join,after_word,after_word,after_word,hfirst]
  · simp only [List.length_append,hlen]
    rfl
  · rw [hlen]
  · rw [List.length_append,hlen,hlen]
  · rw [List.length_append,List.length_append,hlen,hlen,hlen]

theorem finalize_uint256 (val : uint256) : (after k0 k1 val.toList).finalize = sipHashUint256 k0 k1 val := by
  have hcount : (0 : UInt64) ||| (UInt64.ofNat 32 <<< 56) = (4 : UInt64) <<< 59 := by decide
  rw [after_uint256,CSipHasher.finalize,hcount]
  rfl

theorem finalize_uint256_extra (val : uint256) (extra : UInt32) :
    (after k0 k1 (val.toList ++ Serialization.uint32 extra)).finalize = sipHashUint256Extra k0 k1 val extra := by
  have hlen : val.toList.length = 32 := val.toList_length
  have hextra : (Serialization.uint32 extra).length = 4 := leBytes_length 4 extra.toNat
  have hword : word (Serialization.uint32 extra) = extra.toUInt64 := by
    apply UInt64.toNat_inj.mp
    have hlt := extra.toNat_lt
    rw [word,Serialization.uint32,leValue_leBytes,UInt64.toNat_ofNat',UInt32.toNat_toUInt64,
      Nat.mod_eq_of_lt (by omega)]
    exact Nat.mod_eq_of_lt hlt
  have hlast : extra.toUInt64 ||| (UInt64.ofNat 36 <<< 56) = ((36 : UInt64) <<< 56) ||| extra.toUInt64 :=
    UInt64.or_comm _ _
  rw [after_begun _ _ (by omega),begun_nil (by omega),List.nil_append,hword,hlen,hextra,after_uint256,
    CSipHasher.finalize,hlast]
  rfl

theorem digest_fed {writes : List Write} {written : Bytes} (hcount : written.length < 2 ^ 31)
    (hrun : (fed k0 k1 []).bind (run · writes) = fed k0 k1 written) :
    digest k0 k1 writes = .ok (after k0 k1 written).finalize := by
  have hrun' : run (CSipHasher.new k0 k1) writes = fed k0 k1 written := hrun
  rw [digest,hrun',fed_eq _ _ hcount]
  rfl

/-- Pieces are written as the whole is. -/
theorem run_pieces (h : CSipHasher) (pieces : List Bytes) :
    run h (pieces.map .bytes) = run h [.bytes pieces.flatten] := by
  induction pieces generalizing h with
  | nil => rfl
  | cons piece pieces ih =>
    have hwhole : h.write (piece :: pieces).flatten = (h.write piece).bind (·.write pieces.flatten) :=
      List.foldlM_append
    have hstep : run h ((piece :: pieces).map .bytes) = (h.write piece).bind (run · (pieces.map .bytes)) := rfl
    have hsingle : ∀ (h : CSipHasher) (data : Bytes), run h [.bytes data] = h.write data := by
      intro h data
      change (h.write data).bind Except.ok = h.write data
      cases h.write data <;> rfl
    rw [hstep,hsingle,hwhole]
    cases h.write piece with
    | error fault => rfl
    | ok next =>
      have hnext := ih next
      rw [hsingle] at hnext
      exact hnext

/-- The functions written out give what the hasher gives, fed with words or with bytes, and it is the same
in whatever pieces the bytes come. -/
theorem specialised :
    (∀ val : uint256,
      digest k0 k1 [.word (val.getUint64 0),.word (val.getUint64 1),.word (val.getUint64 2),.word (val.getUint64 3)]
        = .ok (sipHashUint256 k0 k1 val) ∧
      digest k0 k1 [.bytes val.toList] = .ok (sipHashUint256 k0 k1 val)) ∧
    (∀ (val : uint256) (extra : UInt32),
      digest k0 k1 [.word (val.getUint64 0),.word (val.getUint64 1),.word (val.getUint64 2),.word (val.getUint64 3),
        .bytes (Serialization.uint32 extra)] = .ok (sipHashUint256Extra k0 k1 val extra) ∧
      digest k0 k1 [.bytes (val.toList ++ Serialization.uint32 extra)]
        = .ok (sipHashUint256Extra k0 k1 val extra)) ∧
    (∀ (h : CSipHasher) (pieces : List Bytes), run h (pieces.map .bytes) = run h [.bytes pieces.flatten]) ∧
    ∀ writes : List Write,
      run (CSipHasher.new k0 k1) writes = .error .assertion ∨
      run (CSipHasher.new k0 k1) writes = run (CSipHasher.new k0 k1) [.bytes (writes.flatMap Write.content)] := by
  have hlen : ∀ data : UInt64, (Serialization.uint64 data).length = 8 := fun data => leBytes_length 8 data.toNat
  have hval : ∀ val : uint256, val.toList.length = 32 := fun val => val.toList_length
  have hextra : ∀ extra : UInt32, (Serialization.uint32 extra).length = 4 := fun extra => leBytes_length 4 extra.toNat
  have hwords : ∀ (val : uint256) (writes : List Write),
      (fed k0 k1 []).bind (run · (.word (val.getUint64 0) :: .word (val.getUint64 1) :: .word (val.getUint64 2)
        :: .word (val.getUint64 3) :: writes)) = (fed k0 k1 val.toList).bind (run · writes) := by
    intro val writes
    rw [run_word,run_word,run_word,run_word,List.nil_append,words_join]
    · simp [hlen]
    · simp [hlen]
    · simp [hlen]
    · rfl
  split_ands
  · intro val
    rw [← finalize_uint256]
    constructor
    · apply digest_fed _ _ (by rw [hval]; decide)
      rw [hwords,run_nil]
    · apply digest_fed _ _ (by rw [hval]; decide)
      rw [run_bytes,run_nil,List.nil_append]
  · intro val extra
    have hcount : (val.toList ++ Serialization.uint32 extra).length < 2 ^ 31 := by
      rw [List.length_append,hval,hextra]
      decide
    rw [← finalize_uint256_extra]
    constructor
    · apply digest_fed _ _ hcount
      rw [hwords,run_bytes,run_nil]
    · apply digest_fed _ _ hcount
      rw [run_bytes,run_nil,List.nil_append]
  · exact run_pieces
  · intro writes
    have hwhole : run (CSipHasher.new k0 k1) [.bytes (writes.flatMap Write.content)]
        = fed k0 k1 ([] ++ writes.flatMap Write.content) := by
      rw [← run_nil,← run_bytes]
      rfl
    rw [hwhole]
    exact run_fed k0 k1 writes []

end Specialised

end SipHash
end Tkeycoin
