import Tkeycoin.ArrivalOrder

/-! What the Merkle root in the header of a block that is added says about its transactions. -/
namespace Tkeycoin
namespace Blockchain

section Accepted

variable {s s' t t' : Blockchain} {block block' : Block}

theorem rootMatches_of_accepted (h : s.addBlock block = .returned true t) : rootMatches block := by
  by_contra hmismatch
  rw [addBlock_mismatch block hmismatch] at h
  exact absurd (Outcome.returned.inj h).1 Bool.false_ne_true

/-- Where hashes do not collide and no transaction looks like two hashes, accepted blocks have one
Merkle root exactly if padding fills up their transactions to the same leaves; so they have the
same ones if they have as many, or if no transaction comes twice. -/
theorem accepted_sameLeaves (h : s.addBlock block = .returned true t)
    (h' : s'.addBlock block' = .returned true t')
    (hfree : CollisionFree (merkleStrings block.txList ++ merkleStrings block'.txList))
    (hunmixed : Unmixed block.txList block'.txList ∧ Unmixed block'.txList block.txList) :
    (block.header._merkle = block'.header._merkle ↔ SameLeaves block.txList block'.txList) ∧
      (block.header._merkle = block'.header._merkle →
        block.txList.length = block'.txList.length ∨
          (MerkleLeaves block.txList).Nodup ∧ (MerkleLeaves block'.txList).Nodup →
        MerkleLeaves block.txList = MerkleLeaves block'.txList) := by
  have hiff : block.header._merkle = block'.header._merkle ↔ SameLeaves block.txList block'.txList := by
    rw [rootMatches_of_accepted h,rootMatches_of_accepted h']
    exact root_eq_iff_sameLeaves hfree hunmixed.1 hunmixed.2
  exact ⟨hiff,fun hmerkle => (hiff.mp hmerkle).leaves_eq⟩

end Accepted

/-- A transaction without inputs and outputs, and its hash. -/
def emptyTx : Transaction := ⟨1,none,[],[],0,0,0⟩

def emptyTxHash : uint256 :=
  ⟨[44,16,221,119,144,235,176,123,55,63,0,33,195,180,50,175,103,179,12,135,255,85,226,55,69,71,151,208,
    214,42,64,27],rfl⟩

theorem emptyTx_hash : emptyTx.hash = emptyTxHash := by decide +kernel

/-- The node above two of them. -/
def pairHash : uint256 :=
  ⟨[195,247,105,10,7,100,242,63,229,221,249,164,73,75,179,167,165,83,107,206,77,222,128,11,62,70,91,145,
    196,251,45,11],rfl⟩

theorem pair_hash : merkleNode (emptyTxHash,emptyTxHash) = pairHash := by decide +kernel

/-- The node above two of these. -/
def fourHash : uint256 :=
  ⟨[0,183,129,211,253,133,114,194,87,60,22,169,118,118,201,247,161,155,9,10,178,140,121,145,73,212,214,3,
    17,135,132,173],rfl⟩

theorem four_hash : merkleNode (pairHash,pairHash) = fourHash := by decide +kernel

section Repeated

variable {α : Type} {node : α × α → α} {null : α} (a : α)

theorem joined_three : MerkleTree.joined node [a,a,a] = [(a,a),(a,a),(node (a,a),node (a,a))] := by
  rw [MerkleTree.joined_step (by simp),MerkleTree.joined_step (by simp [MerkleTree.level,MerkleTree.pad,
    MerkleTree.pairs]),MerkleTree.joined]
  simp [MerkleTree.level,MerkleTree.pad,MerkleTree.pairs]

theorem root_three : MerkleTree.root node null [a,a,a] = node (node (a,a),node (a,a)) := by
  rw [MerkleTree.root_step (by simp),MerkleTree.root_step (by simp [MerkleTree.level,MerkleTree.pad,
    MerkleTree.pairs]),MerkleTree.root]
  simp [MerkleTree.level,MerkleTree.pad,MerkleTree.pairs]

theorem pad_three : MerkleTree.pad [a,a,a] = [a,a,a,a] := by simp [MerkleTree.pad]

theorem joined_four : MerkleTree.joined node [a,a,a,a] = MerkleTree.joined node [a,a,a] := by
  rw [← pad_three]
  exact MerkleTree.joined_pad (by simp)

theorem root_four : MerkleTree.root node null [a,a,a,a] = MerkleTree.root node null [a,a,a] := by
  rw [← pad_three]
  exact MerkleTree.root_pad (by simp)

end Repeated

/-- A header behind the genesis block with this root, and the transaction so many times. -/
def repeated (n : ℕ) : Block := ⟨⟨1,genesisHash,fourHash,0,0,0,0⟩,List.replicate n emptyTx⟩

theorem repeated_leaves (n : ℕ) : MerkleLeaves (repeated n).txList = List.replicate n emptyTxHash := by
  rw [repeated,MerkleLeaves,List.map_replicate,emptyTx_hash]

theorem repeated_rootMatches : rootMatches (repeated 3) ∧ rootMatches (repeated 4) := by
  have hroot : MerkleRoot [emptyTxHash,emptyTxHash,emptyTxHash] = fourHash := by
    rw [MerkleRoot,root_three,pair_hash,four_hash]
  have hfour : MerkleRoot [emptyTxHash,emptyTxHash,emptyTxHash,emptyTxHash] = fourHash := by
    rw [← hroot]
    exact root_four emptyTxHash
  constructor
  · rw [rootMatches,repeated_leaves]
    exact hroot.symm
  · rw [rootMatches,repeated_leaves]
    exact hfour.symm

/-- A node without blocks takes any block whose root matches. -/
theorem empty_accepts {block : Block} (hroot : rootMatches block) :
    ∃ t, (empty genesisHash).addBlock block = .returned true t :=
  addBlock_new_returns (empty_indexed _) (empty_chained _) rfl hroot fun _ => rfl

theorem repeated_joined {n : ℕ} (hn : n = 3 ∨ n = 4) :
    MerkleTree.joined merkleNode (MerkleLeaves (repeated n).txList) =
      [(emptyTxHash,emptyTxHash),(emptyTxHash,emptyTxHash),(pairHash,pairHash)] := by
  rw [repeated_leaves]
  rcases hn with rfl | rfl
  · exact (joined_three emptyTxHash).trans (by rw [pair_hash])
  · exact (joined_four emptyTxHash).trans ((joined_three emptyTxHash).trans (by rw [pair_hash]))

/-- The strings that are hashed for either root, and their hashes. -/
theorem repeated_strings {n : ℕ} (hn : n = 3 ∨ n = 4) {x : Bytes} (hx : x ∈ merkleStrings (repeated n).txList) :
    x = emptyTx.serialize ∨ x = merkleString (emptyTxHash,emptyTxHash) ∨ x = merkleString (pairHash,pairHash) := by
  rw [merkleStrings,repeated_joined hn,repeated,List.map_replicate] at hx
  simp only [List.mem_append,List.mem_replicate,List.map_cons,List.map_nil,List.mem_cons,List.not_mem_nil,
    or_false] at hx
  tauto

theorem repeated_collisionFree :
    CollisionFree (merkleStrings (repeated 3).txList ++ merkleStrings (repeated 4).txList) := by
  have hstrings {x : Bytes} (hx : x ∈ merkleStrings (repeated 3).txList ++ merkleStrings (repeated 4).txList) :
      x = emptyTx.serialize ∨ x = merkleString (emptyTxHash,emptyTxHash) ∨
        x = merkleString (pairHash,pairHash) := by
    rcases List.mem_append.mp hx with hx | hx
    · exact repeated_strings (.inl rfl) hx
    · exact repeated_strings (.inr rfl) hx
  have hempty : hash256 emptyTx.serialize = emptyTxHash := emptyTx_hash
  have hpair : hash256 (merkleString (emptyTxHash,emptyTxHash)) = pairHash := pair_hash
  have hfour : hash256 (merkleString (pairHash,pairHash)) = fourHash := four_hash
  have hne : emptyTxHash ≠ pairHash ∧ emptyTxHash ≠ fourHash ∧ pairHash ≠ fourHash := by decide +kernel
  have hnull : emptyTxHash ≠ Blob.null ∧ pairHash ≠ Blob.null ∧ fourHash ≠ Blob.null := by decide +kernel
  obtain ⟨hne₁,hne₂,hne₃⟩ := hne
  obtain ⟨hnull₁,hnull₂,hnull₃⟩ := hnull
  constructor
  · intro x hx y hy hhash
    rcases hstrings hx with rfl | rfl | rfl <;> rcases hstrings hy with rfl | rfl | rfl <;>
      simp only [hempty,hpair,hfour] at hhash
    · rfl
    · exact absurd hhash hne₁
    · exact absurd hhash hne₂
    · exact absurd hhash.symm hne₁
    · rfl
    · exact absurd hhash hne₃
    · exact absurd hhash.symm hne₂
    · exact absurd hhash.symm hne₃
    · rfl
  · intro x hx
    rcases hstrings hx with rfl | rfl | rfl
    · rwa [hempty]
    · rwa [hpair]
    · rwa [hfour]

/-- A transaction three times and four times, under one header. -/
theorem repeated_accepted : ¬ ∀ (s s' t t' : Blockchain) (block block' : Block),
    s.addBlock block = .returned true t → s'.addBlock block' = .returned true t' →
    CollisionFree (merkleStrings block.txList ++ merkleStrings block'.txList) →
    block.header = block'.header → MerkleLeaves block.txList = MerkleLeaves block'.txList := by
  intro h
  obtain ⟨t,haccepted⟩ := empty_accepts repeated_rootMatches.1
  obtain ⟨t',haccepted'⟩ := empty_accepts repeated_rootMatches.2
  have heq := h _ _ t t' (repeated 3) (repeated 4) haccepted haccepted' repeated_collisionFree rfl
  have hlength := congrArg List.length heq
  rw [repeated_leaves,repeated_leaves,List.length_replicate,List.length_replicate] at hlength
  omega

theorem repeated_unmixed (m n : ℕ) : Unmixed (repeated m).txList (repeated n).txList := by
  intro tx htx p _ heq
  obtain ⟨-,rfl⟩ := List.mem_replicate.mp htx
  have hlength := congrArg List.length heq
  rw [show emptyTx.serialize.length = 18 from rfl,merkleString,List.length_append,List.Vector.toList_length,
    List.Vector.toList_length] at hlength
  omega

/-- Padding fills both up to four. -/
theorem accepted_sameLeaves_repeated :
    ((repeated 3).header._merkle = (repeated 4).header._merkle ↔
      SameLeaves (repeated 3).txList (repeated 4).txList) ∧
    ((repeated 3).header._merkle = (repeated 4).header._merkle →
      (repeated 3).txList.length = (repeated 4).txList.length ∨
        (MerkleLeaves (repeated 3).txList).Nodup ∧ (MerkleLeaves (repeated 4).txList).Nodup →
      MerkleLeaves (repeated 3).txList = MerkleLeaves (repeated 4).txList) := by
  obtain ⟨t,haccepted⟩ := empty_accepts repeated_rootMatches.1
  obtain ⟨t',haccepted'⟩ := empty_accepts repeated_rootMatches.2
  exact accepted_sameLeaves haccepted haccepted' repeated_collisionFree
    ⟨repeated_unmixed 3 4,repeated_unmixed 4 3⟩

end Blockchain
end Tkeycoin
