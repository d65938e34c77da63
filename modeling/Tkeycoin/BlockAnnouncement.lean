import Tkeycoin.HashStream
import Tkeycoin.Inventory

/-! The hash under which a node announces a block, and what it answers who asks for that. -/
namespace Tkeycoin

open InventoryVector

namespace Block

/-- What `Block::Serialize` writes behind the header. -/
def transactions (block : Block) : Bytes :=
  Serialization.uintV (UInt64.ofNat block.txList.length) ++ block.txList.flatMap Transaction.serialize

theorem serialize_eq (block : Block) : block.serialize = block.header.serialize ++ block.transactions := rfl

theorem transactions_ne_nil (block : Block) : block.transactions ≠ [] := by
  rw [transactions,Serialization.uintV_eq]
  exact List.cons_ne_nil _ _

theorem serialize_ne (block : Block) : block.serialize ≠ block.header.serialize := by
  intro h
  rw [serialize_eq] at h
  exact transactions_ne_nil block (List.append_right_eq_self.mp h)

end Block

namespace Node

/-- `Node::announceBlock`: the item that `SendInventory` is called with for each peer. -/
def announceBlock (block : Block) : InventoryVector :=
  let s := HashStreamBuffer.run [.write block.header.serialize,.write block.transactions]
  ⟨MSG_BLOCK,s.digest.1⟩

theorem announceBlock_hash (block : Block) : (announceBlock block)._hash = hash256 block.serialize := by
  have hpieces := (HashStreamBuffer.run_writes [block.header.serialize,block.transactions]).1
  rwa [List.flatten_cons,List.flatten_cons,List.flatten_nil,List.append_nil,← Block.serialize_eq] at hpieces

/-- Two byte strings with one double hash: a block and its header. -/
def Collides (block : Block) : Prop :=
  block.serialize ≠ block.header.serialize ∧ hash256 block.serialize = hash256 block.header.serialize

/-- A block is announced under its hash, and sent to who asks for it. -/
structure Announces (s : Blockchain) (block : Block) : Prop where
  hash : (announceBlock block)._hash = block.header.hash
  answered : ∃ replies, Peer.apply s (.getData [announceBlock block]) = some replies ∧ Message.block block ∈ replies

/-- A request is passed on, if it is for something that is not known. -/
theorem askInventory_requests {s : Blockchain} {inventory : List InventoryVector} {reply : Message}
    (h : reply ∈ Peer.askInventory s inventory) : reply = .getData (s.filterKnownInventory inventory) := by
  unfold Peer.askInventory at h
  dsimp only at h
  split_ifs at h
  · contradiction
  · exact List.mem_singleton.mp h
  · contradiction

/-- A block is announced under its hash exactly if its double hash is that of its header, which is another
byte string; and no block is ever sent to who asks for it. -/
theorem announces_iff (s : Blockchain) (block : Block) :
    ((announceBlock block)._hash = block.header.hash ↔ Collides block) ∧ ¬ Announces s block := by
  refine ⟨?_,fun h => ?_⟩
  · rw [announceBlock_hash,BlockHeader.hash]
    exact (and_iff_right (Block.serialize_ne block)).symm
  · obtain ⟨replies,hreplies,hmem⟩ := h.answered
    obtain rfl := Option.some.inj hreplies
    have hrequest := askInventory_requests hmem
    contradiction

/-- The genesis block is announced under another hash. -/
theorem genesisBlock_other_hash : ¬ ∀ block : Block, (announceBlock block)._hash = block.header.hash := by
  intro h
  have hsame := h ⟨Blockchain.genesisHeader,[]⟩
  rw [announceBlock_hash,Blockchain.genesisHeader_hash] at hsame
  exact absurd hsame (by decide +kernel)

end Node
end Tkeycoin
