import Tkeycoin.MerkleRoot

/-! `MerkleRoot` as it is computed: in one buffer, every level over the one below. -/
namespace Tkeycoin
namespace MerkleBuffer

/-- What could go wrong in the buffer: iterators into it when it moves, an access beyond its end, an
entry that is read behind the pass that has overwritten it, or no end at all. -/
inductive Trouble
  | reallocation
  | outOfRange
  | overwritten
  | endless
  deriving DecidableEq

/-- `std::vector<uint8_t>`: its bytes and the number of bytes it has room for. -/
structure ByteVec where
  bytes : Bytes
  capacity : ℕ
  room : bytes.length ≤ capacity

/-- `Hasher::OUTPUT_SIZE`. -/
def OUTPUT_SIZE : ℕ := 32

namespace ByteVec

def reserve (v : ByteVec) (n : ℕ) : ByteVec := ⟨v.bytes,max v.capacity n,v.room.trans (Nat.le_max_left _ _)⟩

/-- `resize` to less. -/
def resize (v : ByteVec) (n : ℕ) : ByteVec :=
  ⟨v.bytes.take n,v.capacity,(List.length_take_le' _ _).trans v.room⟩

/-- `std::copy(end() - OUTPUT_SIZE,end(),std::back_inserter(..))`, which must not move the bytes. -/
def appendLast (v : ByteVec) : Except Trouble ByteVec :=
  let last := v.bytes.drop (v.bytes.length - OUTPUT_SIZE)
  if h : (v.bytes ++ last).length ≤ v.capacity then .ok ⟨v.bytes ++ last,v.capacity,h⟩
  else .error .reallocation

/-- What the loop does with an odd number of hashes. -/
def fill (v : ByteVec) : Except Trouble ByteVec :=
  if v.bytes.length / OUTPUT_SIZE % 2 = 1 then v.appendLast else .ok v

/-- The bytes through `data()`. -/
def store (v : ByteVec) (bytes : Bytes) : Except Trouble ByteVec :=
  if h : bytes.length ≤ v.capacity then .ok ⟨bytes,v.capacity,h⟩ else .error .outOfRange

end ByteVec

/-- The bytes at a pointer into the buffer. -/
def load (buffer : Bytes) (pos count : ℕ) : Except Trouble Bytes :=
  if pos + count ≤ buffer.length then .ok ((buffer.drop pos).take count) else .error .outOfRange

/-- Entries of the level below, of which the first `overwritten` bytes are gone. -/
def loadEntries (buffer : Bytes) (overwritten pos count : ℕ) : Except Trouble Bytes :=
  if pos < overwritten then .error .overwritten else load buffer pos count

/-- `Finalize(dst)`. -/
def put (buffer : Bytes) (dst : ℕ) (digest : uint256) : Except Trouble Bytes :=
  if dst + OUTPUT_SIZE ≤ buffer.length then
    .ok (buffer.take dst ++ digest.toList ++ buffer.drop (dst + OUTPUT_SIZE))
  else .error .outOfRange

/-- The inner loop: `src` runs ahead of `dst`. -/
def pass : ℕ → CSHA256 → ℕ → ℕ → Bytes → Except Trouble (CSHA256 × Bytes)
  | 0, _, _, _, _ => .error .endless
  | fuel+1, hasher, src, dst, buffer => do
    let entries ← loadEntries buffer dst src (OUTPUT_SIZE * 2)
    let hasher := hasher.Reset.Write entries
    let buffer ← put buffer dst hasher.Finalize
    let first ← load buffer dst OUTPUT_SIZE
    let hasher := hasher.Reset.Write first
    let buffer ← put buffer dst hasher.Finalize
    let src := src + OUTPUT_SIZE * 2
    let dst := dst + OUTPUT_SIZE
    if src ≥ buffer.length then pure (hasher,buffer) else pass fuel hasher src dst buffer

/-- `while (hashes.size() > Hasher::OUTPUT_SIZE)`. -/
def levels : ℕ → CSHA256 → ByteVec → Except Trouble ByteVec
  | 0, _, _ => .error .endless
  | fuel+1, hasher, hashes =>
    if hashes.bytes.length > OUTPUT_SIZE then do
      let hashes ← hashes.fill
      let (hasher,bytes) ← pass hashes.bytes.length hasher 0 0 hashes.bytes
      let hashes ← hashes.store bytes
      levels fuel hasher (hashes.resize (hashes.bytes.length / 2))
    else pure hashes

/-- `std::copy` into a hash of zeros. -/
def toHash (bytes : Bytes) : Except Trouble uint256 :=
  if h : bytes.length ≤ 32 then
    .ok ⟨bytes ++ List.replicate (32 - bytes.length) 0,by
      rw [List.length_append,List.length_replicate]
      omega⟩
  else .error .outOfRange

/-- `MerkleRoot`. -/
def merkleRoot (hashes : ByteVec) : Except Trouble uint256 := do
  let hashes :=
    if hashes.bytes.length > OUTPUT_SIZE ∧ hashes.bytes.length / OUTPUT_SIZE % 2 = 1 then
      hashes.reserve (hashes.bytes.length + OUTPUT_SIZE)
    else hashes
  let hashes ← levels (hashes.bytes.length + 1) CSHA256.new hashes
  toHash hashes.bytes

/-- Hashes one behind the other. -/
def concat (l : List uint256) : Bytes := l.flatMap List.Vector.toList

/-- The vector of some hashes, with room for more bytes. -/
def ofHashes (l : List uint256) (spare : ℕ) : ByteVec := ⟨concat l,(concat l).length + spare,Nat.le_add_right _ _⟩

section Concat

theorem concat_length (l : List uint256) : (concat l).length = 32 * l.length := by
  induction l with
  | nil => rfl
  | cons a l ih =>
    have ha : a.toList.length = 32 := a.toList_length
    rw [concat,List.flatMap_cons,List.length_append,ha]
    change 32 + (concat l).length = _
    rw [ih,List.length_cons]
    omega

theorem concat_append (l m : List uint256) : concat (l ++ m) = concat l ++ concat m := List.flatMap_append

/-- The last hash is behind all the others. -/
theorem concat_last (l : List uint256) (a : uint256) :
    (concat (l ++ [a])).drop ((concat (l ++ [a])).length - 32) = concat [a] := by
  have ha : (concat [a]).length = 32 := concat_length [a]
  rw [concat_append,List.length_append,ha,Nat.add_sub_cancel]
  exact List.drop_left

end Concat

section Pass

variable {done junk rest tail : Bytes}

theorem put_at (h : 32 ≤ rest.length) (digest : uint256) :
    put (done ++ rest) done.length digest = .ok (done ++ (digest.toList ++ rest.drop 32)) := by
  have hroom : done.length + OUTPUT_SIZE ≤ (done ++ rest).length := by
    rw [List.length_append,OUTPUT_SIZE]
    omega
  rw [put,if_pos hroom,List.take_left,OUTPUT_SIZE,List.drop_append,Nat.add_sub_cancel_left,
    List.drop_eq_nil_of_le (by omega),List.nil_append,List.append_assoc]

theorem load_at (entry : Bytes) : load (done ++ (entry ++ rest)) done.length entry.length = .ok entry := by
  rw [load,if_pos (by simp only [List.length_append]; omega),List.drop_left,List.take_left]

theorem loadEntries_at (entry : Bytes) {overwritten : ℕ} (h : overwritten ≤ done.length) :
    loadEntries (done ++ (entry ++ rest)) overwritten done.length entry.length = .ok entry := by
  rw [loadEntries,if_neg (by omega),load_at]

/-- One round puts a node behind the nodes before it, and reads two entries that are still there. -/
theorem pass_round (fuel : ℕ) (hasher : CSHA256) (hjunk : junk.length = done.length)
    (p : uint256 × uint256) (tail : Bytes) :
    ∃ hasher' : CSHA256,
      pass (fuel+1) hasher (done.length + junk.length) done.length (done ++ (junk ++ (merkleString p ++ tail))) =
        if tail = [] then
          .ok (hasher',(done ++ (merkleNode p).toList) ++ ((junk ++ merkleString p).drop 32 ++ tail))
        else
          pass fuel hasher' (done.length + junk.length + 64) (done.length + 32)
            ((done ++ (merkleNode p).toList) ++ ((junk ++ merkleString p).drop 32 ++ tail)) := by
  have hentries : (merkleString p).length = OUTPUT_SIZE * 2 := by
    simp only [merkleString,List.length_append,List.Vector.toList_length]
    rfl
  have hload : loadEntries (done ++ (junk ++ (merkleString p ++ tail))) done.length
      (done.length + junk.length) (OUTPUT_SIZE * 2) = .ok (merkleString p) := by
    rw [← List.append_assoc,← hentries,← List.length_append]
    exact loadEntries_at _ (by rw [List.length_append]; omega)
  have hdrop : (junk ++ (merkleString p ++ tail)).drop 32 = (junk ++ merkleString p).drop 32 ++ tail := by
    rw [← List.append_assoc]
    exact List.drop_append_of_le_length (by rw [List.length_append,hentries,OUTPUT_SIZE]; omega)
  have hroom : 32 ≤ (junk ++ (merkleString p ++ tail)).length := by
    simp only [List.length_append,hentries,OUTPUT_SIZE]
    omega
  have hfirst := hasher.reset_digest (merkleString p)
  have hsecond := (hasher.Reset.Write (merkleString p)).reset_digest (sha256 (merkleString p)).toList
  have hdigest : (sha256 (merkleString p)).toList.length = OUTPUT_SIZE := List.Vector.toList_length _
  have hput₁ : put (done ++ (junk ++ (merkleString p ++ tail))) done.length (sha256 (merkleString p)) =
      .ok (done ++ ((sha256 (merkleString p)).toList ++ ((junk ++ merkleString p).drop 32 ++ tail))) := by
    rw [put_at hroom,hdrop]
  have hload₁ : load (done ++ ((sha256 (merkleString p)).toList ++ ((junk ++ merkleString p).drop 32 ++ tail)))
      done.length OUTPUT_SIZE = .ok (sha256 (merkleString p)).toList := by
    rw [← hdigest]
    exact load_at _
  have hput₂ : put (done ++ ((sha256 (merkleString p)).toList ++ ((junk ++ merkleString p).drop 32 ++ tail)))
      done.length (merkleNode p) =
      .ok (done ++ ((merkleNode p).toList ++ ((junk ++ merkleString p).drop 32 ++ tail))) := by
    rw [put_at (by rw [List.length_append,hdigest,OUTPUT_SIZE]; omega)]
    exact congrArg (fun x => Except.ok (done ++ ((merkleNode p).toList ++ x))) (List.drop_left' hdigest)
  have hnode : sha256 (sha256 (merkleString p)).toList = merkleNode p := rfl
  refine ⟨(hasher.Reset.Write (merkleString p)).Reset.Write (sha256 (merkleString p)).toList,?_⟩
  simp only [pass,hload,hfirst,hput₁,hload₁,hsecond,hnode,hput₂,Bind.bind,Except.bind]
  have hlen : (done ++ ((merkleNode p).toList ++ ((junk ++ merkleString p).drop 32 ++ tail))).length =
      done.length + junk.length + 64 + tail.length := by
    simp only [List.length_append,List.length_drop,List.Vector.toList_length,hentries,OUTPUT_SIZE]
    omega
  rw [hlen,← List.append_assoc done,OUTPUT_SIZE]
  by_cases htail : tail = []
  · rw [if_pos htail,if_pos (by simp [htail])]
    rfl
  · have hpos := List.length_pos_iff.mpr htail
    rw [if_neg htail,if_neg (by omega)]

/-- The pass leaves the nodes at the front of the buffer. -/
theorem pass_spec (ps : List (uint256 × uint256)) (hne : ps ≠ []) (fuel : ℕ) (hfuel : ps.length ≤ fuel)
    (hasher : CSHA256) (done junk : Bytes) (hjunk : junk.length = done.length) :
    ∃ (hasher' : CSHA256) (junk' : Bytes),
      pass fuel hasher (done.length + junk.length) done.length
          (done ++ (junk ++ concat (MerkleTree.unpair ps))) =
        .ok (hasher',done ++ concat (ps.map merkleNode) ++ junk') ∧
      junk'.length = junk.length + 32 * ps.length := by
  induction ps generalizing fuel hasher done junk with
  | nil => exact absurd rfl hne
  | cons p ps ih =>
    cases fuel with
    | zero => simp at hfuel
    | succ fuel =>
      have hcons : concat (MerkleTree.unpair (p :: ps)) = merkleString p ++ concat (MerkleTree.unpair ps) := by
        simp [concat,MerkleTree.unpair,merkleString]
      obtain ⟨hasher',hround⟩ := pass_round fuel hasher hjunk p (concat (MerkleTree.unpair ps))
      rw [hcons,hround]
      have hjunk' : ((junk ++ merkleString p).drop 32).length = junk.length + 32 := by
        simp only [List.length_drop,List.length_append,merkleString,List.Vector.toList_length]
        rfl
      have hdone' : (done ++ (merkleNode p).toList).length = done.length + 32 := by
        simp only [List.length_append,List.Vector.toList_length]
      have hnodes : done ++ concat ((p :: ps).map merkleNode) =
          done ++ (merkleNode p).toList ++ concat (ps.map merkleNode) := by
        rw [List.map_cons,concat,List.flatMap_cons,List.append_assoc]
        rfl
      by_cases hps : ps = []
      · subst hps
        have hnil : concat (MerkleTree.unpair ([] : List (uint256 × uint256))) = [] := rfl
        refine ⟨hasher',(junk ++ merkleString p).drop 32,?_,?_⟩
        · rw [if_pos hnil,hnodes,hnil,List.append_nil,List.map_nil]
          exact congrArg (fun x => Except.ok (hasher',x ++ _)) (List.append_nil _).symm
        · rw [hjunk',List.length_singleton]
      · have htail : concat (MerkleTree.unpair ps) ≠ [] := by
          obtain ⟨q,qs,rfl⟩ := List.exists_cons_of_ne_nil hps
          intro hnil
          have hlen := congrArg List.length hnil
          rw [concat_length] at hlen
          simp [MerkleTree.unpair] at hlen
        obtain ⟨hasher₂,junk₂,hpass,hlen⟩ := ih hps fuel (by simpa using hfuel) hasher'
          (done ++ (merkleNode p).toList) ((junk ++ merkleString p).drop 32) (by omega)
        have hsrc : (done ++ (merkleNode p).toList).length + ((junk ++ merkleString p).drop 32).length =
            done.length + junk.length + 64 := by
          omega
        rw [hsrc,hdone'] at hpass
        refine ⟨hasher₂,junk₂,?_,?_⟩
        · rw [if_neg htail,hpass,hnodes]
        · rw [hlen,hjunk',List.length_cons]
          omega

end Pass

section Levels

variable {l : List uint256} {v : ByteVec}

/-- An odd level gets its last hash twice, without a move. -/
theorem fill_spec (hv : v.bytes = concat l) (hlong : 2 ≤ l.length)
    (hroom : 32 * (MerkleTree.pad l).length ≤ v.capacity) :
    ∃ v' : ByteVec, v'.bytes = concat (MerkleTree.pad l) ∧ v'.capacity = v.capacity ∧
      v.fill = .ok v' := by
  have hlen : v.bytes.length / OUTPUT_SIZE = l.length := by
    rw [hv,concat_length,OUTPUT_SIZE,Nat.mul_div_cancel_left _ (by decide)]
  rw [ByteVec.fill,hlen]
  by_cases hodd : l.length % 2 = 1
  · obtain ⟨init,a,rfl⟩ := (List.eq_nil_or_concat' l).resolve_left (List.ne_nil_of_length_pos (by omega))
    have hpad : MerkleTree.pad (init ++ [a]) = (init ++ [a]) ++ [a] := by
      rw [MerkleTree.pad,if_pos hodd,List.getLast?_append_cons]
      rfl
    have hlast : v.bytes.drop (v.bytes.length - OUTPUT_SIZE) = concat [a] := by
      rw [hv,OUTPUT_SIZE,concat_last]
    have hbytes : v.bytes ++ concat [a] = concat (MerkleTree.pad (init ++ [a])) := by
      rw [hv,hpad,concat_append (init ++ [a])]
    have hfits : (v.bytes ++ concat [a]).length ≤ v.capacity := by
      rw [hbytes,concat_length]
      exact hroom
    refine ⟨⟨v.bytes ++ concat [a],v.capacity,hfits⟩,hbytes,rfl,?_⟩
    simp only [if_pos hodd,ByteVec.appendLast,hlast,dif_pos hfits]
  · refine ⟨v,?_,rfl,if_neg hodd⟩
    rw [hv,MerkleTree.pad,if_neg hodd]

theorem toHash_short (hv : v.bytes = concat l) (hshort : l.length ≤ 1) :
    toHash v.bytes = .ok (MerkleTree.root merkleNode Blob.null l) := by
  rw [hv,MerkleTree.root,if_pos hshort]
  rcases l with _ | ⟨a,_ | ⟨b,l⟩⟩
  · rfl
  · have hbytes : concat [a] = a.toList := by simp [concat]
    have hlen : a.toList.length = 32 := a.toList_length
    rw [hbytes,toHash,dif_pos hlen.le]
    apply congrArg Except.ok
    apply List.Vector.eq
    change a.toList ++ List.replicate (32 - a.toList.length) 0 = a.toList
    rw [hlen]
    exact List.append_nil _
  · simp at hshort

/-- A level is filled up without a move and replaced by the one above it. -/
theorem levels_round (hv : v.bytes = concat l) (hlong : 2 ≤ l.length)
    (hroom : 32 * (MerkleTree.pad l).length ≤ v.capacity) (fuel : ℕ) (hasher : CSHA256) :
    ∃ (hasher' : CSHA256) (v' : ByteVec), levels (fuel+1) hasher v = levels fuel hasher' v' ∧
      v'.bytes = concat (MerkleTree.level merkleNode l) ∧ v'.capacity = v.capacity := by
  obtain ⟨v₁,hv₁,hcap₁,hfill⟩ := fill_spec hv hlong hroom
  have hpadlen := MerkleTree.pad_length l
  have hpairs := MerkleTree.pairs_length (MerkleTree.pad l)
  have hunpair : concat (MerkleTree.pad l) = concat (MerkleTree.unpair (MerkleTree.pairs (MerkleTree.pad l))) := by
    rw [MerkleTree.unpair_pairs _ (by omega)]
  have hlen₁ : v₁.bytes.length = 32 * (MerkleTree.pad l).length := by rw [hv₁,concat_length]
  obtain ⟨hasher₂,junk,hpass,hjunk⟩ := pass_spec (MerkleTree.pairs (MerkleTree.pad l))
    (List.ne_nil_of_length_pos (by omega)) v₁.bytes.length (by omega) hasher [] [] rfl
  have hbytes : [] ++ concat ((MerkleTree.pairs (MerkleTree.pad l)).map merkleNode) ++ junk =
      concat (MerkleTree.level merkleNode l) ++ junk := rfl
  rw [List.nil_append,List.nil_append,← hunpair,← hv₁,hbytes] at hpass
  simp only [List.length_nil,Nat.zero_add] at hpass hjunk
  have hlevel := concat_length (MerkleTree.level merkleNode l)
  rw [MerkleTree.level_length] at hlevel
  have htotal : (concat (MerkleTree.level merkleNode l) ++ junk).length = v₁.bytes.length := by
    rw [List.length_append]
    omega
  have hfits : (concat (MerkleTree.level merkleNode l) ++ junk).length ≤ v₁.capacity := by
    rw [htotal]
    exact v₁.room
  have hhalf : (concat (MerkleTree.level merkleNode l) ++ junk).length / 2 =
      (concat (MerkleTree.level merkleNode l)).length := by
    rw [htotal]
    omega
  refine ⟨hasher₂,ByteVec.resize ⟨concat (MerkleTree.level merkleNode l) ++ junk,v₁.capacity,hfits⟩
    ((concat (MerkleTree.level merkleNode l) ++ junk).length / 2),?_,?_,hcap₁⟩
  · rw [levels,if_pos (by rw [hv,concat_length,OUTPUT_SIZE]; omega),hfill]
    change (pass v₁.bytes.length hasher 0 0 v₁.bytes >>= _) = _
    rw [hpass]
    change (v₁.store (concat (MerkleTree.level merkleNode l) ++ junk) >>= _) = _
    rw [ByteVec.store,dif_pos hfits]
    rfl
  · change List.take _ _ = _
    rw [hhalf,List.take_left]

theorem levels_spec (l : List uint256) (fuel : ℕ) (hfuel : l.length < fuel) (hasher : CSHA256) (v : ByteVec)
    (hv : v.bytes = concat l) (hroom : 2 ≤ l.length → 32 * (MerkleTree.pad l).length ≤ v.capacity) :
    ∃ v' : ByteVec, levels fuel hasher v = .ok v' ∧
      toHash v'.bytes = .ok (MerkleTree.root merkleNode Blob.null l) := by
  induction fuel generalizing l hasher v with
  | zero => omega
  | succ fuel ih =>
    by_cases hlong : 2 ≤ l.length
    · obtain ⟨hasher',v',hlevels,hv',hcap'⟩ := levels_round hv hlong (hroom hlong) fuel hasher
      have hpadlen := MerkleTree.pad_length l
      rw [MerkleTree.root_step (by omega),hlevels]
      apply ih (MerkleTree.level merkleNode l) _ hasher' v' hv'
      · intro _
        have hpad := MerkleTree.pad_length (MerkleTree.level merkleNode l)
        rw [MerkleTree.level_length] at hpad
        have hcap := hroom hlong
        omega
      · rw [MerkleTree.level_length]
        omega
    · have hshort : l.length ≤ 1 := by omega
      refine ⟨v,?_,toHash_short hv hshort⟩
      rw [levels,if_neg (by rw [hv,concat_length,OUTPUT_SIZE]; omega)]
      rfl

end Levels

/-- In its buffer, however large, the computation never moves the bytes it points to, never goes beyond
them and never reads an entry it has overwritten, and it ends with the root of the tree over the hashes:
null without any, a single hash itself, else the root over the hashes of the padded pairs. -/
theorem merkleRoot_eq_root (l : List uint256) (spare : ℕ) :
    merkleRoot (ofHashes l spare) = .ok (MerkleTree.root merkleNode Blob.null l) := by
  have hsize : (ofHashes l spare).bytes.length = 32 * l.length := concat_length l
  have hpadlen := MerkleTree.pad_length l
  have hstart : ∃ v : ByteVec, v.bytes = concat l ∧ (2 ≤ l.length → 32 * (MerkleTree.pad l).length ≤ v.capacity) ∧
      (if (ofHashes l spare).bytes.length > OUTPUT_SIZE ∧ (ofHashes l spare).bytes.length / OUTPUT_SIZE % 2 = 1 then
        (ofHashes l spare).reserve ((ofHashes l spare).bytes.length + OUTPUT_SIZE) else ofHashes l spare) = v := by
    refine ⟨_,?_,?_,rfl⟩
    · split_ifs <;> rfl
    · intro hlong
      have hcap : (ofHashes l spare).capacity = 32 * l.length + spare :=
        congrArg (· + spare) (concat_length l)
      rw [hsize,OUTPUT_SIZE,Nat.mul_div_cancel_left _ (by decide)]
      split_ifs with hodd
      · change _ ≤ max _ _
        rw [hcap]
        omega
      · rw [hcap]
        omega
  obtain ⟨v,hv,hroom,hreserve⟩ := hstart
  have hfuel : l.length < v.bytes.length + 1 := by
    rw [hv,concat_length]
    omega
  obtain ⟨v',hlevels,hhash⟩ := levels_spec l _ hfuel CSHA256.new v hv hroom
  rw [merkleRoot,hreserve]
  change (levels (v.bytes.length + 1) CSHA256.new v >>= _) = _
  rw [hlevels]
  exact hhash

end MerkleBuffer
end Tkeycoin
