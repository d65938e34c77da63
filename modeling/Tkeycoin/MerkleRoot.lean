import Tkeycoin.BlockHeader
import Tkeycoin.MerkleTree

/-! The Merkle root of the transactions of a block. -/
namespace Tkeycoin

/-- A `Blob` of zeros. -/
def Blob.null {BITS : ℕ} : Blob BITS := List.Vector.replicate _ 0

def Blob.isNull {BITS : ℕ} (b : Blob BITS) : Bool := b = Blob.null

/-- Two hashes as they are hashed together. -/
def merkleString (p : uint256 × uint256) : Bytes := p.1.toList ++ p.2.toList

def merkleNode (p : uint256 × uint256) : uint256 := hash256 (merkleString p)

/-- The hashes of the transactions, one behind the other in the source. -/
def MerkleLeaves (txList : List Transaction) : List uint256 := txList.map Transaction.hash

/-- `MerkleRoot`: of no hashes it is null. -/
def MerkleRoot (hashes : List uint256) : uint256 := MerkleTree.root merkleNode Blob.null hashes

theorem MerkleRoot_nil : MerkleRoot [] = Blob.null := by
  rw [MerkleRoot,MerkleTree.root]
  rfl

/-- The strings that are hashed for the root of a list of transactions. -/
def merkleStrings (txList : List Transaction) : List Bytes :=
  txList.map Transaction.serialize ++
    (MerkleTree.joined merkleNode (MerkleLeaves txList)).map merkleString

/-- No two of these strings have the same hash, and none has the hash that stands for no string. -/
structure CollisionFree (strings : List Bytes) : Prop where
  injective : ∀ x ∈ strings, ∀ y ∈ strings, hash256 x = hash256 y → x = y
  notNull : ∀ x ∈ strings, hash256 x ≠ Blob.null

theorem merkleString_injective {p q : uint256 × uint256} (h : merkleString p = merkleString q) : p = q := by
  have hlen : p.1.toList.length = q.1.toList.length := by simp
  obtain ⟨h₁,h₂⟩ := List.append_inj h hlen
  exact Prod.ext (List.Vector.eq _ _ h₁) (List.Vector.eq _ _ h₂)

/-- No transaction is serialised as two hashes that are joined in the tree of a list. -/
def Unmixed (txList other : List Transaction) : Prop :=
  ∀ tx ∈ txList, ∀ p ∈ MerkleTree.joined merkleNode (MerkleLeaves other), tx.serialize ≠ merkleString p

/-- Padding fills both lists up to the same leaves, over as many levels. -/
def SameLeaves (l m : List Transaction) : Prop :=
  MerkleTree.depth merkleNode (MerkleLeaves l) = MerkleTree.depth merkleNode (MerkleLeaves m) ∧
    MerkleTree.complete (MerkleTree.depth merkleNode (MerkleLeaves l)) (MerkleLeaves l) =
      MerkleTree.complete (MerkleTree.depth merkleNode (MerkleLeaves l)) (MerkleLeaves m)

section Roots

variable {l m : List Transaction}

theorem leaf_mem (l : List Transaction) {a : uint256} (ha : a ∈ MerkleLeaves l) :
    ∃ tx ∈ l, a = hash256 tx.serialize := by
  obtain ⟨tx,htx,rfl⟩ := List.mem_map.mp ha
  exact ⟨tx,htx,rfl⟩

theorem serialize_mem {tx : Transaction} (h : tx ∈ l) : tx.serialize ∈ merkleStrings l :=
  List.mem_append_left _ (List.mem_map_of_mem h)

theorem merkleString_mem {p : uint256 × uint256}
    (h : p ∈ MerkleTree.joined merkleNode (MerkleLeaves l)) : merkleString p ∈ merkleStrings l :=
  List.mem_append_right _ (List.mem_map_of_mem h)

theorem CollisionFree.symm (h : CollisionFree (merkleStrings l ++ merkleStrings m)) :
    CollisionFree (merkleStrings m ++ merkleStrings l) where
  injective x hx y hy := h.injective x (List.mem_append.mpr (List.mem_append.mp hx).symm) y
    (List.mem_append.mpr (List.mem_append.mp hy).symm)
  notNull x hx := h.notNull x (List.mem_append.mpr (List.mem_append.mp hx).symm)

/-- Nodes do not collide if strings do not. -/
theorem CollisionFree.node_injective (h : CollisionFree (merkleStrings l ++ merkleStrings m)) :
    ∀ p ∈ MerkleTree.joined merkleNode (MerkleLeaves l) ++ MerkleTree.joined merkleNode (MerkleLeaves m),
      ∀ q ∈ MerkleTree.joined merkleNode (MerkleLeaves l) ++ MerkleTree.joined merkleNode (MerkleLeaves m),
        merkleNode p = merkleNode q → p = q := by
  have hmem {p : uint256 × uint256} (hp : p ∈ MerkleTree.joined merkleNode (MerkleLeaves l) ++
      MerkleTree.joined merkleNode (MerkleLeaves m)) :
      merkleString p ∈ merkleStrings l ++ merkleStrings m := by
    rcases List.mem_append.mp hp with hp | hp
    · exact List.mem_append_left _ (merkleString_mem hp)
    · exact List.mem_append_right _ (merkleString_mem hp)
  intro p hp q hq hnode
  exact merkleString_injective (h.injective _ (hmem hp) _ (hmem hq) hnode)

/-- Without a transaction that looks like two hashes, equal roots have trees of equal depth. -/
theorem depth_le_of_root_eq (h : CollisionFree (merkleStrings l ++ merkleStrings m))
    (hunmixed : Unmixed l m) (hl : l ≠ [])
    (hroot : MerkleRoot (MerkleLeaves l) = MerkleRoot (MerkleLeaves m)) :
    MerkleTree.depth merkleNode (MerkleLeaves m) ≤ MerkleTree.depth merkleNode (MerkleLeaves l) := by
  by_contra hlt
  obtain ⟨k,hk⟩ := Nat.exists_eq_add_of_lt (Nat.not_le.mp hlt)
  have hne : MerkleLeaves l ≠ [] := by simpa [MerkleLeaves] using hl
  obtain ⟨a,ha,p,hp,hnode⟩ := MerkleTree.leaf_eq_node_of_root_eq hne rfl (k := k) (by omega)
    h.node_injective hroot
  obtain ⟨tx,htx,rfl⟩ := leaf_mem l ha
  have hstring := h.injective _ (List.mem_append_left _ (serialize_mem htx)) _
    (List.mem_append_right _ (merkleString_mem hp)) hnode
  exact hunmixed tx htx p hp hstring

/-- A list with the root of no transactions has none. -/
theorem eq_nil_of_root_null (h : CollisionFree (merkleStrings l))
    (hroot : MerkleRoot (MerkleLeaves l) = Blob.null) : l = [] := by
  cases hdepth : MerkleTree.depth merkleNode (MerkleLeaves l) with
  | zero =>
    have hshort := MerkleTree.depth_eq_zero.mp hdepth
    rw [MerkleRoot,MerkleTree.root,if_pos hshort] at hroot
    cases l with
    | nil => rfl
    | cons tx l => exact absurd hroot (h.notNull _ (serialize_mem List.mem_cons_self))
  | succ n =>
    obtain ⟨p,hp,hnode⟩ := MerkleTree.root_joined hdepth
    exact absurd (hnode.symm.trans hroot) (h.notNull _ (merkleString_mem hp))

/-- Equal roots are those of lists that padding fills up to the same leaves. -/
theorem root_eq_iff_sameLeaves (h : CollisionFree (merkleStrings l ++ merkleStrings m))
    (hl : Unmixed l m) (hm : Unmixed m l) :
    MerkleRoot (MerkleLeaves l) = MerkleRoot (MerkleLeaves m) ↔ SameLeaves l m := by
  constructor
  · intro hroot
    have hsub (k : List Transaction) (hk : ∀ x ∈ merkleStrings k, x ∈ merkleStrings l ++ merkleStrings m) :
        CollisionFree (merkleStrings k) :=
      ⟨fun x hx y hy => h.injective x (hk x hx) y (hk y hy),fun x hx => h.notNull x (hk x hx)⟩
    by_cases hnl : l = []
    · subst hnl
      rw [MerkleLeaves,List.map_nil,MerkleRoot_nil] at hroot
      rw [eq_nil_of_root_null (hsub m fun x hx => List.mem_append_right _ hx) hroot.symm]
      exact ⟨rfl,rfl⟩
    by_cases hnm : m = []
    · subst hnm
      rw [MerkleLeaves.eq_def [],List.map_nil,MerkleRoot_nil] at hroot
      rw [eq_nil_of_root_null (hsub l fun x hx => List.mem_append_left _ hx) hroot]
      exact ⟨rfl,rfl⟩
    have hdepth : MerkleTree.depth merkleNode (MerkleLeaves l) =
        MerkleTree.depth merkleNode (MerkleLeaves m) :=
      Nat.le_antisymm (depth_le_of_root_eq h.symm hm hnm hroot.symm) (depth_le_of_root_eq h hl hnl hroot)
    exact ⟨hdepth,MerkleTree.complete_eq_of_root_eq (by simpa [MerkleLeaves] using hnl)
      (by simpa [MerkleLeaves] using hnm) rfl hdepth.symm h.node_injective hroot⟩
  · rintro ⟨hdepth,hcomplete⟩
    exact MerkleTree.root_eq_of_complete_eq rfl hdepth.symm hcomplete

/-- Lists with the same leaves are equal if they are as long as each other, or neither repeats a hash. -/
theorem SameLeaves.leaves_eq (h : SameLeaves l m)
    (hplain : l.length = m.length ∨ (MerkleLeaves l).Nodup ∧ (MerkleLeaves m).Nodup) :
    MerkleLeaves l = MerkleLeaves m := by
  refine MerkleTree.eq_of_complete_eq h.2 ?_
  rcases hplain with hlength | ⟨hl,hm⟩
  · rw [MerkleLeaves,MerkleLeaves,List.length_map,List.length_map,hlength]
  · exact Nat.le_antisymm (MerkleTree.length_le_of_nodup h.2.symm hl) (MerkleTree.length_le_of_nodup h.2 hm)

end Roots
end Tkeycoin
