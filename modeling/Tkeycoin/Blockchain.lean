import Tkeycoin.Branch
import Tkeycoin.MerkleRoot

/-! The block store of the node: `Blockchain` with its tables and its main chain. -/
namespace Tkeycoin

/-- `std::unordered_map`, as far as its order is not seen. -/
abbrev Table (κ ν : Type) := κ → Option ν

/-- `emplace`, which keeps what is there. -/
def Table.emplace {κ ν : Type} [DecidableEq κ] (t : Table κ ν) (key : κ) (value : ν) : Table κ ν :=
  fun k => if k = key then some ((t key).getD value) else t k

/-- `BlockHeader` and `Block` objects as they are stored. A header alone has no `_txList`, and
`-1` is `none`. -/
structure StoredBlock where
  header : BlockHeader
  _txList : Option (List Transaction)
  _id : Option ℕ
  _height : Option ℕ

namespace StoredBlock

def hash (b : StoredBlock) : uint256 := b.header.hash

def prev (b : StoredBlock) : uint256 := b.header._prev

def inChain (b : StoredBlock) : Bool := b._height.isSome

theorem inChain_of_height {b : StoredBlock} {n : ℕ} (h : b._height = some n) : b.inChain = true := by
  simp [inChain,h]

theorem not_inChain {b : StoredBlock} (h : b._height = none) : b.inChain = false := by
  simp [inChain,h]

end StoredBlock

/-- A `size_t` of which `none` is `-1`. -/
def sizeT (n : Option ℕ) : ℕ := n.getD (2^64 - 1)

@[simp] theorem sizeT_some (n : ℕ) : sizeT (some n) = n := rfl

/-- The entries of `_orphanBlocks` come in the order of iteration, in which entries of one key
stand together in some order. `tasks` is what `TaskManager` was given and did not run. -/
structure Blockchain where
  _genesisBlockHash : uint256
  _blocks : List StoredBlock
  _blockIds : Table uint256 ℕ
  _blockHashes : Table ℕ uint256
  _orphanBlocks : List (uint256 × ℕ)
  _merkles : Table uint256 ℕ
  _transactions : List Transaction
  _txIds : Table uint256 ℕ
  _txHashes : Table ℕ uint256
  _mainChain : List ℕ
  tasks : List ℕ

/-- The assertions of the calls that are modelled. -/
inductive Assertion
  | heightUnset | mainChainHeight | hashKnown
  deriving DecidableEq

/-- How a call ends, if it does. -/
inductive Outcome (α : Type)
  | returned (a : α) (s : Blockchain)
  | assertion (failed : Assertion)
  | diverges

/-- A call, and what is done where it returns. -/
def Outcome.bind {α β : Type} : Outcome α → (α → Blockchain → Outcome β) → Outcome β
  | .returned a s, f => f a s
  | .assertion failed, _ => .assertion failed
  | .diverges, _ => .diverges

namespace Blockchain

/-- The store before anything is loaded. -/
def empty (genesis : uint256) : Blockchain :=
  ⟨genesis,[],fun _ => none,fun _ => none,[],fun _ => none,[],fun _ => none,fun _ => none,[],[]⟩

variable (s : Blockchain)

def getHeight : ℕ := s._mainChain.length

/-- `none` where the assertion fails. -/
def getBlockHash (height : ℕ) : Option uint256 :=
  match s._mainChain[height]? with
  | none => some Blob.null
  | some blockId => s._blockHashes blockId

/-- Where the header with a hash is stored: the pointer to it. -/
def getBlockHeader (hash : uint256) : Option ℕ := do
  let id ← s._blockIds hash
  let _ ← s._blocks[id]?
  pure id

def hasBlockHeader (hash : uint256) : Bool := (s._blockIds hash).isSome

/-- The object is new to the store, and not in any other. -/
def addBlockHeader (header : BlockHeader) (txList : Option (List Transaction)) : Bool × Blockchain :=
  if s.hasBlockHeader header.hash then (false,s)
  else
    let id := s._blocks.length
    (true,{ s with
      _blockIds := s._blockIds.emplace header.hash id
      _blocks := s._blocks ++ [⟨header,txList,some id,none⟩]
      _blockHashes := s._blockHashes.emplace id header.hash })

def hasTx (hash : uint256) : Bool := (s._txIds hash).isSome

def addTx (tx : Transaction) : Bool × Blockchain :=
  if s.hasTx tx.hash then (false,s)
  else
    let id := s._transactions.length
    (true,{ s with
      _txIds := s._txIds.emplace tx.hash id
      _transactions := s._transactions ++ [tx]
      _txHashes := s._txHashes.emplace id tx.hash })

/-- The stored blocks by their places, with the links of their headers. -/
def tree : Tree ℕ where
  parent id := do
    let block ← s._blocks[id]?
    s.getBlockHeader block.prev
  height id := do
    let block ← s._blocks[id]?
    block._height

/-- `block->setHeight(..)` behind its assertion. -/
def setHeight (id height : ℕ) : Blockchain :=
  { s with _blocks := s._blocks.modify id fun block => { block with _height := some height } }

/-- `_orphanBlocks.emplace(prev,blockId)`. -/
def emplaceOrphan (prev : uint256) (blockId : ℕ) : Blockchain :=
  { s with _orphanBlocks := (prev,blockId) :: s._orphanBlocks }

/-- The blocks that wait for one with this hash. -/
def waiting (hash : uint256) : List ℕ := (s._orphanBlocks.filter fun entry => entry.1 = hash).map Prod.snd

/-- "Remove from orphans list": the loop does not go on from an entry that is not the block. -/
def removeFromOrphans (prev : uint256) (blockId : ℕ) : Option Blockchain :=
  match s.waiting prev with
  | [] => some s
  | first :: _ =>
    if first = blockId then some { s with _orphanBlocks := s._orphanBlocks.erase (prev,blockId) }
    else none

/-- The blocks on the stack go to the end of the main chain. -/
def pushChain : List ℕ → List ℕ → Outcome Unit
  | mainChain, [] => .returned () { s with _mainChain := mainChain }
  | mainChain, block :: chain =>
    if sizeT (s.tree.height block) ≠ mainChain.length then .assertion .mainChainHeight
    else pushChain (mainChain ++ [sizeT (s._blocks[block]?.bind StoredBlock._id)]) chain

/-- "Check new height". Walks that outlast all blocks, or all pairs of blocks, go in circles. -/
def switchBranch (blockId : ℕ) : Outcome Unit :=
  let height := s._mainChain.length - 1
  if sizeT (s.tree.height blockId) ≥ height then
    match s.tree.descend (fun block => sizeT (s.tree.height block) > height) (s._blocks.length + 2)
        (some blockId) [] with
    | none => .diverges
    | some (block,chain) =>
      match s.tree.meet (s._blocks.length * s._blocks.length + 1) block s._mainChain.getLast? chain
          s._mainChain with
      | none => .diverges
      | some (chain,mainChain) => s.pushChain mainChain chain
  else .returned () s

/-- "Find descendants": the loop does not go on from the first one, and enqueues it for ever. -/
def findDescendants (hash : uint256) : Outcome Bool :=
  if s.waiting hash = [] then .returned true s else .diverges

/-- `connectToAncestor(blockId)`. Behind the walks `block` is again the new block, which was the
first on the stack. -/
def connectToAncestor (blockId : ℕ) : Outcome Bool :=
  match s._blocks[blockId]? with
  | none => .returned false s
  | some block =>
    if s.getHeight = 0 then
      if block.hash ≠ s._genesisBlockHash ∨ ¬ block.prev.isNull then
        .returned false (s.emplaceOrphan block.prev blockId)
      else if block.inChain then .assertion .heightUnset
      else
        let s := s.setHeight blockId 0
        { s with _mainChain := s._mainChain ++ [blockId] }.findDescendants block.hash
    else
      match s._blockIds block.prev with
      | none => .returned false s
      | some prevBlockId =>
        match s._blocks[prevBlockId]? with
        | none => .returned false (s.emplaceOrphan block.prev blockId)
        | some prevBlock =>
          match prevBlock._height with
          | none => .returned false s
          | some height =>
            if block.inChain then .assertion .heightUnset
            else
              match (s.setHeight blockId (height + 1)).removeFromOrphans block.prev blockId with
              | none => .diverges
              | some s => (s.switchBranch blockId).bind fun _ s => s.findDescendants block.hash

/-- `addBlock`, for a block with a list of transactions. -/
def addBlock (block : Block) : Outcome Bool :=
  let hash := block.header.hash
  let merkle := MerkleRoot (MerkleLeaves block.txList)
  if block.header._merkle ≠ merkle then .returned false s
  else
    let s := if s.hasBlockHeader hash then s else (s.addBlockHeader block.header (some block.txList)).2
    let s := block.txList.foldl (fun s tx => (s.addTx tx).2) s
    match s._blockIds hash with
    | none => .assertion .hashKnown
    | some id => (s.connectToAncestor id).bind fun _ s => .returned true s

/-- What is called from outside, and the tasks that were enqueued. -/
inductive Call
  | addBlock (block : Block)
  | addBlockHeader (header : BlockHeader)
  | addTx (tx : Transaction)
  | task (id : ℕ)

/-- A call on a store. A task that is not enqueued is none. -/
def perform : Call → Outcome Bool
  | .addBlock block => s.addBlock block
  | .addBlockHeader header => .returned (s.addBlockHeader header none).1 (s.addBlockHeader header none).2
  | .addTx tx => .returned (s.addTx tx).1 (s.addTx tx).2
  | .task id =>
    if id ∈ s.tasks then { s with tasks := s.tasks.erase id }.connectToAncestor id
    else .returned false s

/-- The stores that calls lead to which return, from the empty one. -/
inductive Reachable (genesis : uint256) : Blockchain → Prop
  | empty : Reachable genesis (empty genesis)
  | call {s s' call result} : Reachable genesis s → s.perform call = .returned result s' →
      Reachable genesis s'

end Blockchain
end Tkeycoin
