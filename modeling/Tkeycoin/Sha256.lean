import Tkeycoin.BlockStream
import Tkeycoin.Serialization

/-! SHA-256 as `CSHA256` computes it over the pieces written, and the double hash. -/
namespace Tkeycoin

/-- The bytes of a number, most significant first. -/
def beBytes (width n : ℕ) : Bytes := (leBytes width n).reverse

/-- `ReadBE32`. -/
def readBE32 (ptr : Bytes) : UInt32 := UInt32.ofNat (leValue (ptr.take 4).reverse)

namespace Sha256

def Ch (x y z : UInt32) : UInt32 := z ^^^ (x &&& (y ^^^ z))
def Maj (x y z : UInt32) : UInt32 := (x &&& y) ||| (z &&& (x ||| y))
def Sigma0 (x : UInt32) : UInt32 :=
  (x >>> 2 ||| x <<< 30) ^^^ (x >>> 13 ||| x <<< 19) ^^^ (x >>> 22 ||| x <<< 10)
def Sigma1 (x : UInt32) : UInt32 :=
  (x >>> 6 ||| x <<< 26) ^^^ (x >>> 11 ||| x <<< 21) ^^^ (x >>> 25 ||| x <<< 7)
def sigma0 (x : UInt32) : UInt32 := (x >>> 7 ||| x <<< 25) ^^^ (x >>> 18 ||| x <<< 14) ^^^ (x >>> 3)
def sigma1 (x : UInt32) : UInt32 := (x >>> 17 ||| x <<< 15) ^^^ (x >>> 19 ||| x <<< 13) ^^^ (x >>> 10)

/-- The eight words of the state. -/
structure State where
  a : UInt32
  b : UInt32
  c : UInt32
  d : UInt32
  e : UInt32
  f : UInt32
  g : UInt32
  h : UInt32
  deriving DecidableEq

/-- One round. The source renames the words instead of moving them. -/
def Round (s : State) (k : UInt32) : State :=
  let t1 := s.h + Sigma1 s.e + Ch s.e s.f s.g + k
  let t2 := Sigma0 s.a + Maj s.a s.b s.c
  ⟨t1 + t2,s.a,s.b,s.c,s.d + t1,s.e,s.f,s.g⟩

def Initialize : State :=
  ⟨0x6a09e667,0xbb67ae85,0x3c6ef372,0xa54ff53a,0x510e527f,0x9b05688c,0x1f83d9ab,0x5be0cd19⟩

/-- The constants of the rounds. -/
def constants : List UInt32 :=
  [0x428a2f98,0x71374491,0xb5c0fbcf,0xe9b5dba5,0x3956c25b,0x59f111f1,0x923f82a4,0xab1c5ed5,
   0xd807aa98,0x12835b01,0x243185be,0x550c7dc3,0x72be5d74,0x80deb1fe,0x9bdc06a7,0xc19bf174,
   0xe49b69c1,0xefbe4786,0x0fc19dc6,0x240ca1cc,0x2de92c6f,0x4a7484aa,0x5cb0a9dc,0x76f988da,
   0x983e5152,0xa831c66d,0xb00327c8,0xbf597fc7,0xc6e00bf3,0xd5a79147,0x06ca6351,0x14292967,
   0x27b70a85,0x2e1b2138,0x4d2c6dfc,0x53380d13,0x650a7354,0x766a0abb,0x81c2c92e,0x92722c85,
   0xa2bfe8a1,0xa81a664b,0xc24b8b70,0xc76c51a3,0xd192e819,0xd6990624,0xf40e3585,0x106aa070,
   0x19a4c116,0x1e376c08,0x2748774c,0x34b0bcb5,0x391c0cb3,0x4ed8aa4a,0x5b9cca4f,0x682e6ff3,
   0x748f82ee,0x78a5636f,0x84c87814,0x8cc70208,0x90befffa,0xa4506ceb,0xbef9a3f7,0xc67178f2]

/-- The sixteen words ahead, with what `w += sigma1(..) + .. + sigma0(..)` leaves behind them. -/
def expand (w : List UInt32) : List UInt32 :=
  w.tail ++ [w.getD 0 0 + (sigma1 (w.getD 14 0) + w.getD 9 0 + sigma0 (w.getD 1 0))]

def rounds : List UInt32 → List UInt32 → State → State
  | [], _, s => s
  | k :: ks, w, s => rounds ks (expand w) (Round s (k + w.getD 0 0))

/-- The words of a block of 64 bytes. -/
def words : ℕ → Bytes → List UInt32
  | 0, _ => []
  | n+1, chunk => readBE32 chunk :: words n (chunk.drop 4)

/-- One block of `Transform`. -/
def transformBlock (s : State) (chunk : Bytes) : State :=
  let t := rounds constants (words 16 chunk) s
  ⟨s.a + t.a,s.b + t.b,s.c + t.c,s.d + t.d,s.e + t.e,s.f + t.f,s.g + t.g,s.h + t.h⟩

def Transform (s : State) (chunk : Bytes) : ℕ → State
  | 0 => s
  | blocks+1 => Transform (transformBlock s (chunk.take 64)) (chunk.drop 64) blocks

theorem Transform_eq (s : State) (chunk : Bytes) (blocks : ℕ) :
    Transform s chunk blocks = BlockStream.feed transformBlock 64 s chunk blocks := by
  induction blocks generalizing s chunk with
  | zero => rfl
  | succ blocks ih => exact ih _ _

/-- The words of the state as `WriteBE32` leaves them. -/
def State.digest (s : State) : uint256 :=
  ⟨beBytes 4 s.a.toNat ++ beBytes 4 s.b.toNat ++ beBytes 4 s.c.toNat ++ beBytes 4 s.d.toNat ++
    beBytes 4 s.e.toNat ++ beBytes 4 s.f.toNat ++ beBytes 4 s.g.toNat ++ beBytes 4 s.h.toNat,
    by simp [beBytes]⟩

end Sha256

/-- The hasher. Of `buf` the first `bytes % 64` bytes are in use. -/
structure CSHA256 where
  s : Sha256.State
  buf : Bytes
  bytes : UInt64

namespace CSHA256

open Sha256

def new : CSHA256 := ⟨Initialize,[],0⟩

def Reset (c : CSHA256) : CSHA256 := { c with s := Initialize, bytes := 0 }

def bufsize (c : CSHA256) : ℕ := c.bytes.toNat % 64

/-- What `Write` does behind the buffer: whole blocks, then the rest to the buffer. -/
def writeBlocks (c : CSHA256) (data : Bytes) : CSHA256 :=
  let blocks := if data.length ≥ 64 then data.length / 64 else 0
  let rest := data.drop (64 * blocks)
  { s := Transform c.s data blocks
    buf := c.buf.take c.bufsize ++ rest
    bytes := c.bytes + UInt64.ofNat (64 * blocks) + UInt64.ofNat rest.length }

/-- `Write`, which first fills the buffer up if it can. -/
def Write (c : CSHA256) (data : Bytes) : CSHA256 :=
  if c.bufsize ≠ 0 ∧ c.bufsize + data.length ≥ 64 then
    writeBlocks
      { c with
        s := Transform c.s (c.buf.take c.bufsize ++ data.take (64 - c.bufsize)) 1
        bytes := c.bytes + UInt64.ofNat (64 - c.bufsize) }
      (data.drop (64 - c.bufsize))
  else writeBlocks c data

def pad (c : CSHA256) : Bytes :=
  (0x80 :: List.replicate 63 0).take (1 + (119 - c.bytes.toNat % 64) % 64)

def Finalize (c : CSHA256) : uint256 :=
  ((c.Write c.pad).Write (beBytes 8 (c.bytes <<< 3).toNat)).s.digest

/-- The hasher has taken in a string. -/
def Absorbed (c : CSHA256) (data : Bytes) : Prop :=
  BlockStream.absorb transformBlock 64 Initialize data = (c.s,c.buf.take c.bufsize) ∧
    c.bytes = UInt64.ofNat data.length

theorem new_absorbed : new.Absorbed [] := ⟨rfl,rfl⟩

theorem Reset_absorbed (c : CSHA256) : c.Reset.Absorbed [] := ⟨rfl,rfl⟩

section Absorbed

variable {c : CSHA256} {data : Bytes}

theorem bufsize_ofNat {c : CSHA256} {n : ℕ} (h : c.bytes = UInt64.ofNat n) : c.bufsize = n % 64 := by
  rw [bufsize,h,UInt64.toNat_ofNat']
  omega

theorem Absorbed.bufsize_eq (h : c.Absorbed data) : c.bufsize = data.length % 64 :=
  bufsize_ofNat h.2

theorem Absorbed.rest_length (h : c.Absorbed data) : (c.buf.take c.bufsize).length = c.bufsize := by
  have hrest := BlockStream.absorb_rest_length transformBlock (w := 64) Initialize data
  rw [h.1] at hrest
  rw [hrest,h.bufsize_eq]

theorem blocks_eq (n : ℕ) : (if n ≥ 64 then n / 64 else 0) = n / 64 := by
  split_ifs with h
  · rfl
  · rw [Nat.div_eq_of_lt (by omega)]

theorem writeBlocks_absorbed (h : c.Absorbed data) (more : Bytes)
    (hfit : c.bufsize = 0 ∨ c.bufsize + more.length < 64) : (c.writeBlocks more).Absorbed (data ++ more) := by
  have hrest := h.rest_length
  have hbytes : (c.writeBlocks more).bytes = UInt64.ofNat (data ++ more).length := by
    simp only [writeBlocks,h.2,List.length_append,List.length_drop,blocks_eq,← UInt64.ofNat_add]
    congr 1
    have := Nat.div_mul_le_self more.length 64
    omega
  refine ⟨?_,hbytes⟩
  have hsize := h.bufsize_eq
  have hnew := bufsize_ofNat hbytes
  rw [List.length_append] at hnew
  have hbuf : (c.writeBlocks more).buf = c.buf.take c.bufsize ++ more.drop (64 * (more.length / 64)) := by
    simp only [writeBlocks,blocks_eq]
  have hall : (c.writeBlocks more).buf.length = (c.writeBlocks more).bufsize := by
    rw [hbuf,List.length_append,hrest,List.length_drop,hnew]
    omega
  rw [← hall,List.take_length,hbuf,BlockStream.absorb_append transformBlock (by decide),h.1]
  have hs : (c.writeBlocks more).s = BlockStream.feed transformBlock 64 c.s more (more.length / 64) := by
    simp only [writeBlocks,blocks_eq,Transform_eq]
  rw [hs]
  rcases hfit with hzero | hshort
  · rw [hzero,List.take_zero,List.nil_append,List.nil_append]
    rfl
  · have hdiv : more.length / 64 = 0 := Nat.div_eq_of_lt (by omega)
    rw [BlockStream.absorb_short _ _ (by rw [List.length_append,hrest]; exact hshort),hdiv]
    rfl

/-- The buffer filled up to a block. -/
theorem fill_absorbed (h : c.Absorbed data) {more : Bytes} (hlen : c.bufsize + more.length = 64) :
    CSHA256.Absorbed
      { c with
        s := Transform c.s (c.buf.take c.bufsize ++ more) 1
        bytes := c.bytes + UInt64.ofNat more.length }
      (data ++ more) := by
  have hblock : (c.buf.take c.bufsize ++ more).length = 64 := by
    rw [List.length_append,h.rest_length,hlen]
  have hbytes : c.bytes + UInt64.ofNat more.length = UInt64.ofNat (data ++ more).length := by
    rw [h.2,List.length_append,UInt64.ofNat_add]
  refine ⟨?_,hbytes⟩
  have hsize := bufsize_ofNat (c := ⟨Transform c.s (c.buf.take c.bufsize ++ more) 1,c.buf,_⟩) hbytes
  have hmod : (data ++ more).length % 64 = 0 := by
    have := h.bufsize_eq
    rw [List.length_append]
    omega
  rw [hsize,hmod,List.take_zero,BlockStream.absorb_append transformBlock (by decide),h.1,Transform_eq]
  exact BlockStream.absorb_block transformBlock (by decide) c.s hblock

theorem Write_absorbed (h : c.Absorbed data) (more : Bytes) : (c.Write more).Absorbed (data ++ more) := by
  unfold Write
  split_ifs with hfill
  · have hlen : (more.take (64 - c.bufsize)).length = 64 - c.bufsize :=
      List.length_take_of_le (by omega)
    have hsize : c.bufsize < 64 := Nat.mod_lt _ (by decide)
    have hfull : c.bufsize + (more.take (64 - c.bufsize)).length = 64 := by omega
    have hfilled := fill_absorbed h hfull
    rw [hlen] at hfilled
    have hzero := hfilled.bufsize_eq
    rw [List.length_append,hlen] at hzero
    have := h.bufsize_eq
    have hwritten := writeBlocks_absorbed hfilled (more.drop (64 - c.bufsize)) (.inl (by omega))
    rwa [List.append_assoc,List.take_append_drop] at hwritten
  · have hsize : c.bufsize = 0 ∨ c.bufsize + more.length < 64 := by omega
    exact writeBlocks_absorbed h more hsize

/-- The digest of all that was taken in, whatever the pieces. -/
theorem Absorbed.Finalize_eq {c' : CSHA256} (h : c.Absorbed data) (h' : c'.Absorbed data) :
    c.Finalize = c'.Finalize := by
  have hpad : c.pad = c'.pad := by rw [pad,pad,h.2,h'.2]
  have hwritten := Write_absorbed (Write_absorbed h c.pad) (beBytes 8 (c.bytes <<< 3).toNat)
  have hwritten' := Write_absorbed (Write_absorbed h' c'.pad) (beBytes 8 (c'.bytes <<< 3).toNat)
  rw [← hpad,h'.2,← h.2] at hwritten'
  have hs := (Prod.mk.inj (hwritten.1.symm.trans hwritten'.1)).1
  rw [Finalize,Finalize,← hpad,h'.2,← h.2,hs]

end Absorbed

end CSHA256

/-- SHA-256 of a string. -/
def sha256 (data : Bytes) : uint256 := (CSHA256.new.Write data).Finalize

/-- The digest of the empty string. -/
theorem sha256_nil : (sha256 []).toList =
    [0xe3,0xb0,0xc4,0x42,0x98,0xfc,0x1c,0x14,0x9a,0xfb,0xf4,0xc8,0x99,0x6f,0xb9,0x24,
     0x27,0xae,0x41,0xe4,0x64,0x9b,0x93,0x4c,0xa4,0x95,0x99,0x1b,0x78,0x52,0xb8,0x55] := by
  decide +kernel

theorem CSHA256.Absorbed.digest {c : CSHA256} {data : Bytes} (h : c.Absorbed data) :
    c.Finalize = sha256 data :=
  h.Finalize_eq (Write_absorbed new_absorbed data)

/-- A hasher that is reset hashes what is written then. -/
theorem CSHA256.reset_digest (c : CSHA256) (data : Bytes) : (c.Reset.Write data).Finalize = sha256 data :=
  (Write_absorbed c.Reset_absorbed data).digest

/-- The hasher of the double hash. -/
structure CHash256 where
  sha : CSHA256

namespace CHash256

def new : CHash256 := ⟨CSHA256.new⟩

def Write (c : CHash256) (data : Bytes) : CHash256 := ⟨c.sha.Write data⟩

def Finalize (c : CHash256) : uint256 :=
  let buf := c.sha.Finalize
  (c.sha.Reset.Write buf.toList).Finalize

end CHash256

/-- The double hash of a string. -/
def hash256 (data : Bytes) : uint256 := sha256 (sha256 data).toList

theorem CHash256.Finalize_eq {c : CHash256} {data : Bytes} (h : c.sha.Absorbed data) :
    c.Finalize = hash256 data := by
  rw [Finalize,CSHA256.reset_digest,h.digest]
  rfl

end Tkeycoin
