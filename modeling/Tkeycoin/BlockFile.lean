import Tkeycoin.MainChain
import Tkeycoin.ReadSizes

/-! The file in which the store is kept between runs: `Blockchain::save` and `Blockchain::load`. -/
namespace Tkeycoin

/-- `Serialize` of a stored object, which a block overrides. -/
def StoredBlock.serialize (b : StoredBlock) : Bytes :=
  match b._txList with
  | none => b.header.serialize
  | some txList => Block.serialize ⟨b.header,txList⟩

/-- What no call changes of it. -/
def StoredBlock.identity (b : StoredBlock) : BlockHeader × Option (List Transaction) × Option ℕ :=
  (b.header,b._txList,b._id)

/-- What a load finds: the file, if there is one, and what reading it depends on. -/
structure Loading where
  fits : ℕ → Bool
  memory : ℕ → UInt8
  file : Option Bytes

/-- The vectors in the file. -/
def Unserialize.mempool (fits : ℕ → Bool) : Reader (List BlockHeader × List Transaction) := do
  let blocks ← sizeAnd fits blockHeader
  let transactions ← sizeAnd fits (transaction fits)
  pure (blocks,transactions)

/-- The vectors that are read where there is a file. `none` is an exception. -/
def Loading.read (loading : Loading) : Option (List BlockHeader × List Transaction) :=
  match loading.file with
  | none => some ([],[])
  | some file => ((Unserialize.mempool loading.fits).run loading.memory (.ofBytes file)).map Prod.fst

namespace Blockchain

variable (s : Blockchain)

/-- What is written to the file. -/
def save : Bytes :=
  (Serialization.uintV (UInt64.ofNat s._blocks.length) ++ s._blocks.flatMap StoredBlock.serialize) ++
    (Serialization.uintV (UInt64.ofNat s._transactions.length) ++
      s._transactions.flatMap Transaction.serialize)

/-- "Fill blocks": a header goes to the end of the store. -/
def fillBlock (header : BlockHeader) : Blockchain :=
  let id := s._blocks.length
  { s with
    _blockIds := s._blockIds.emplace header.hash id
    _merkles := s._merkles.emplace header._merkle id
    _blocks := s._blocks ++ [⟨header,none,none,none⟩] }

/-- "Fill txs". -/
def fillTx (tx : Transaction) : Blockchain :=
  let id := s._transactions.length
  { s with
    _txIds := s._txIds.emplace tx.hash id
    _transactions := s._transactions ++ [tx] }

/-- `load`: the vectors are emptied from their ends. -/
def load (loading : Loading) : Option Blockchain :=
  loading.read.map fun (blocks,transactions) =>
    transactions.reverse.foldl fillTx (blocks.reverse.foldl fillBlock s)

/-- `getTx(hash)`. -/
def getTx (hash : uint256) : Option Transaction := do
  let id ← s._txIds hash
  s._transactions[id]?

/-- What a store goes through. -/
inductive Step
  | call (call : Call)
  | load (loading : Loading)

/-- The stores that calls and loads lead to which return, with what led there. -/
inductive Run (genesis : uint256) : List Step → Blockchain → Prop
  | empty : Run genesis [] (empty genesis)
  | call {steps s call result s'} : Run genesis steps s → s.perform call = .returned result s' →
      Run genesis (steps ++ [.call call]) s'
  | load {steps s loading s'} : Run genesis steps s → s.load loading = some s' →
      Run genesis (steps ++ [.load loading]) s'

section Fill

variable {s s' : Blockchain}

/-- What is loaded is put behind what is there. -/
theorem fillBlocks_eq (blocks : List BlockHeader) : ∃ blockIds merkles,
    blocks.foldl fillBlock s = { s with
      _blockIds := blockIds
      _merkles := merkles
      _blocks := s._blocks ++ blocks.map fun header => ⟨header,none,none,none⟩ } := by
  induction blocks generalizing s with
  | nil => exact ⟨s._blockIds,s._merkles,by simp⟩
  | cons header blocks ih =>
    obtain ⟨blockIds,merkles,h⟩ := ih (s := s.fillBlock header)
    refine ⟨blockIds,merkles,?_⟩
    rw [List.foldl_cons,h,List.map_cons,List.append_cons]
    rfl

theorem fillTxs_eq (transactions : List Transaction) : ∃ txIds,
    transactions.foldl fillTx s = { s with
      _txIds := txIds
      _transactions := s._transactions ++ transactions } := by
  induction transactions generalizing s with
  | nil => exact ⟨s._txIds,by simp⟩
  | cons tx transactions ih =>
    obtain ⟨txIds,h⟩ := ih (s := s.fillTx tx)
    refine ⟨txIds,?_⟩
    rw [List.foldl_cons,h,List.append_cons]
    rfl

theorem load_eq {loading : Loading} (h : s.load loading = some s') :
    ∃ blocks transactions blockIds merkles txIds, loading.read = some (blocks,transactions) ∧
      s' = { s with
        _blockIds := blockIds
        _merkles := merkles
        _blocks := s._blocks ++ blocks.reverse.map fun header => ⟨header,none,none,none⟩
        _txIds := txIds
        _transactions := s._transactions ++ transactions.reverse } := by
  obtain ⟨⟨blocks,transactions⟩,hread,rfl⟩ := Option.map_eq_some_iff.mp h
  obtain ⟨blockIds,merkles,hblocks⟩ := fillBlocks_eq (s := s) blocks.reverse
  obtain ⟨txIds,htxs⟩ := fillTxs_eq (s := blocks.reverse.foldl fillBlock s) transactions.reverse
  refine ⟨blocks,transactions,blockIds,merkles,txIds,hread,?_⟩
  dsimp only
  rw [htxs,hblocks]

end Fill

section Frame

variable {s s' s'' : Blockchain}

/-- The heights, the main chain and the orphans are all that differs. -/
structure SameStore (s s' : Blockchain) : Prop where
  blocks : s'._blocks.map StoredBlock.identity = s._blocks.map StoredBlock.identity
  transactions : s'._transactions = s._transactions
  txIds : s'._txIds = s._txIds
  txHashes : s'._txHashes = s._txHashes

theorem SameStore.refl (s : Blockchain) : SameStore s s := ⟨rfl,rfl,rfl,rfl⟩

theorem SameStore.trans (h : SameStore s s') (h' : SameStore s' s'') : SameStore s s'' :=
  ⟨h'.blocks.trans h.blocks,h'.transactions.trans h.transactions,h'.txIds.trans h.txIds,
    h'.txHashes.trans h.txHashes⟩

theorem setHeight_same (s : Blockchain) (id height : ℕ) : SameStore s (s.setHeight id height) where
  blocks := by
    apply List.ext_getElem?
    intro i
    rw [List.getElem?_map,List.getElem?_map,setHeight_blocks,Option.map_map]
    congr 1
    funext b
    simp only [Function.comp_apply]
    split_ifs <;> rfl
  transactions := rfl
  txIds := rfl
  txHashes := rfl

theorem pushChain_same {mainChain chain : List ℕ} {u : Unit}
    (h : s.pushChain mainChain chain = .returned u s') : SameStore s s' := by
  induction chain generalizing mainChain with
  | nil =>
    obtain ⟨-,rfl⟩ := Outcome.returned.inj h
    exact ⟨rfl,rfl,rfl,rfl⟩
  | cons block chain ih =>
    rw [pushChain] at h
    split_ifs at h
    exact ih h

theorem switchBranch_same {id : ℕ} {u : Unit} (h : s.switchBranch id = .returned u s') :
    SameStore s s' := by
  unfold switchBranch at h
  dsimp only at h
  split_ifs at h
  · split at h
    · contradiction
    · split at h
      · contradiction
      · exact pushChain_same h
  · obtain ⟨-,rfl⟩ := Outcome.returned.inj h
    exact .refl s

theorem removeFromOrphans_same {prev : uint256} {id : ℕ} (h : s.removeFromOrphans prev id = some s') :
    SameStore s s' := by
  unfold removeFromOrphans at h
  split at h
  · obtain rfl := Option.some.inj h
    exact .refl s
  · split_ifs at h
    obtain rfl := Option.some.inj h
    exact ⟨rfl,rfl,rfl,rfl⟩

/-- A call of `connectToAncestor`, whatever the store is. -/
theorem connectToAncestor_same {id : ℕ} {result : Bool}
    (h : s.connectToAncestor id = .returned result s') : SameStore s s' := by
  unfold connectToAncestor at h
  split at h
  · obtain ⟨-,rfl⟩ := Outcome.returned.inj h
    exact .refl s
  by_cases hheight : s.getHeight = 0
  · rw [if_pos hheight] at h
    split_ifs at h
    · obtain ⟨-,rfl⟩ := Outcome.returned.inj h
      exact ⟨rfl,rfl,rfl,rfl⟩
    · obtain ⟨-,rfl⟩ := findDescendants_returned h
      exact (setHeight_same s id 0).trans ⟨rfl,rfl,rfl,rfl⟩
  rw [if_neg hheight] at h
  split at h
  · obtain ⟨-,rfl⟩ := Outcome.returned.inj h
    exact .refl s
  split at h
  · obtain ⟨-,rfl⟩ := Outcome.returned.inj h
    exact ⟨rfl,rfl,rfl,rfl⟩
  split at h
  · obtain ⟨-,rfl⟩ := Outcome.returned.inj h
    exact .refl s
  split_ifs at h
  split at h
  · contradiction
  next horphans =>
  obtain ⟨u,s₁,hswitch,hdescendants⟩ := bind_returned h
  obtain ⟨-,rfl⟩ := findDescendants_returned hdescendants
  exact (setHeight_same s id _).trans ((removeFromOrphans_same horphans).trans (switchBranch_same hswitch))

/-- Headers and transactions were added. -/
inductive Stores (s : Blockchain) : Blockchain → Prop
  | refl : Stores s s
  | addBlockHeader {t} (header : BlockHeader) (txList : Option (List Transaction)) :
      Stores s t → Stores s (t.addBlockHeader header txList).2
  | addTx {t} (tx : Transaction) : Stores s t → Stores s (t.addTx tx).2

theorem Stores.addTxs (h : Stores s s') (txs : List Transaction) :
    Stores s (txs.foldl (fun s tx => (s.addTx tx).2) s') := by
  induction txs generalizing s' with
  | nil => exact h
  | cons tx txs ih => exact ih (.addTx tx h)

/-- A call, whatever the store is: it adds to the store, and then connects. -/
theorem perform_stores {call : Call} {result : Bool} (h : s.perform call = .returned result s') :
    ∃ s₁, Stores s s₁ ∧ SameStore s₁ s' := by
  cases call with
  | addBlock block =>
    rw [perform,addBlock] at h
    by_cases hroot : block.header._merkle ≠ MerkleRoot (MerkleLeaves block.txList)
    · rw [if_pos hroot] at h
      obtain ⟨-,rfl⟩ := Outcome.returned.inj h
      exact ⟨s,.refl,.refl s⟩
    rw [if_neg hroot] at h
    dsimp only at h
    split at h
    · contradiction
    obtain ⟨connected,s₁,hconnect,hreturned⟩ := bind_returned h
    obtain ⟨-,rfl⟩ := Outcome.returned.inj hreturned
    refine ⟨_,Stores.addTxs ?_ block.txList,connectToAncestor_same hconnect⟩
    split_ifs
    · exact .refl
    · exact .addBlockHeader _ _ .refl
  | addBlockHeader header =>
    obtain ⟨-,rfl⟩ := Outcome.returned.inj h
    exact ⟨_,.addBlockHeader header none .refl,.refl _⟩
  | addTx tx =>
    obtain ⟨-,rfl⟩ := Outcome.returned.inj h
    exact ⟨_,.addTx tx .refl,.refl _⟩
  | task id =>
    rw [perform] at h
    split_ifs at h
    · have hsame : SameStore s { s with tasks := s.tasks.erase id } := ⟨rfl,rfl,rfl,rfl⟩
      exact ⟨s,.refl,hsame.trans (connectToAncestor_same h)⟩
    · obtain ⟨-,rfl⟩ := Outcome.returned.inj h
      exact ⟨s,.refl,.refl s⟩

/-- Blocks and transactions were put behind those that were there, if any were. -/
structure Grows (New : StoredBlock → Prop) (s s' : Blockchain) : Prop where
  blocks : ∃ new, s'._blocks.map StoredBlock.identity = (s._blocks ++ new).map StoredBlock.identity ∧
    ∀ b ∈ new, New b
  transactions : ∃ new, s'._transactions = s._transactions ++ new
  txHashes : ∀ id < s._transactions.length, s'._txHashes id = s._txHashes id

section Grows

variable {New : StoredBlock → Prop}

theorem SameStore.grows (h : SameStore s s') : Grows New s s' where
  blocks := ⟨[],by rw [List.append_nil,h.blocks],nofun⟩
  transactions := ⟨[],by rw [List.append_nil,h.transactions]⟩
  txHashes _ _ := by rw [h.txHashes]

theorem Grows.mono {New' : StoredBlock → Prop} (h : Grows New s s') (hnew : ∀ b, New b → New' b) :
    Grows New' s s' where
  blocks := by
    obtain ⟨new,hblocks,hall⟩ := h.blocks
    exact ⟨new,hblocks,fun b hb => hnew b (hall b hb)⟩
  transactions := h.transactions
  txHashes := h.txHashes

theorem Grows.trans (h : Grows New s s') (h' : Grows New s' s'') : Grows New s s'' where
  blocks := by
    obtain ⟨new,hblocks,hnew⟩ := h.blocks
    obtain ⟨new',hblocks',hnew'⟩ := h'.blocks
    refine ⟨new ++ new',?_,List.forall_mem_append.mpr ⟨hnew,hnew'⟩⟩
    rw [hblocks',List.map_append,hblocks,← List.map_append,List.append_assoc]
  transactions := by
    obtain ⟨new,htxs⟩ := h.transactions
    obtain ⟨new',htxs'⟩ := h'.transactions
    exact ⟨new ++ new',by rw [htxs',htxs,List.append_assoc]⟩
  txHashes id hid := by
    obtain ⟨new,htxs⟩ := h.transactions
    have hlt : id < s'._transactions.length := by
      rw [htxs,List.length_append]
      omega
    rw [h'.txHashes id hlt,h.txHashes id hid]

end Grows

/-- A block that was given an id. -/
def Numbered (b : StoredBlock) : Prop := b._id ≠ none

theorem addBlockHeader_grows (header : BlockHeader) (txList : Option (List Transaction)) :
    Grows Numbered s (s.addBlockHeader header txList).2 := by
  unfold addBlockHeader
  split_ifs
  · exact (SameStore.refl s).grows
  · exact ⟨⟨[_],rfl,List.forall_mem_singleton.mpr (Option.some_ne_none _)⟩,⟨[],(List.append_nil _).symm⟩,
      fun _ _ => rfl⟩

theorem addTx_grows (tx : Transaction) : Grows Numbered s (s.addTx tx).2 := by
  unfold addTx
  split_ifs
  · exact (SameStore.refl s).grows
  · refine ⟨⟨[],by rw [List.append_nil],List.forall_mem_nil _⟩,⟨[tx],rfl⟩,fun id hid => ?_⟩
    exact if_neg (Nat.ne_of_lt hid)

theorem Stores.grows (h : Stores s s') : Grows Numbered s s' := by
  induction h with
  | refl => exact (SameStore.refl s).grows
  | addBlockHeader header txList _ ih => exact ih.trans (addBlockHeader_grows header txList)
  | addTx tx _ ih => exact ih.trans (addTx_grows tx)

theorem perform_grows {call : Call} {result : Bool} (h : s.perform call = .returned result s') :
    Grows Numbered s s' := by
  obtain ⟨s₁,hstores,hsame⟩ := perform_stores h
  exact hstores.grows.trans hsame.grows

/-- A header that was loaded. -/
def Loaded (b : StoredBlock) : Prop := b._id = none ∧ b._txList = none

theorem load_grows {loading : Loading} (h : s.load loading = some s') : Grows Loaded s s' := by
  obtain ⟨blocks,transactions,blockIds,merkles,txIds,-,rfl⟩ := load_eq h
  refine ⟨⟨_,rfl,fun b hb => ?_⟩,⟨_,rfl⟩,fun _ _ => rfl⟩
  obtain ⟨header,-,rfl⟩ := List.mem_map.mp hb
  exact ⟨rfl,rfl⟩

end Frame

end Blockchain
end Tkeycoin
