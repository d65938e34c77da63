import Tkeycoin.ChainInvariant

/-! The invariants over all calls, and what they say about the main chain. -/
namespace Tkeycoin
namespace Blockchain

section Add

variable {s s' : Blockchain} {header : BlockHeader} {txList : Option (List Transaction)} {tx : Transaction}

theorem addBlockHeader_known (h : s.hasBlockHeader header.hash = true) :
    s.addBlockHeader header txList = (false,s) := by
  rw [addBlockHeader,if_pos h]

/-- The place of a block that was stored before is not the new one. -/
theorem stored_append {b new : StoredBlock} {i : ℕ} (h : (s._blocks ++ [new])[i]? = some b) :
    s._blocks[i]? = some b ∨ i = s._blocks.length ∧ b = new := by
  rcases Nat.lt_or_ge i s._blocks.length with hi | hi
  · rw [List.getElem?_append_left hi] at h
    exact .inl h
  · rw [List.getElem?_append_right hi,List.getElem?_singleton] at h
    split_ifs at h
    exact .inr ⟨by omega,(Option.some.inj h).symm⟩

theorem stored_lt {b : StoredBlock} {i : ℕ} (h : s._blocks[i]? = some b) : i < s._blocks.length :=
  (List.getElem?_eq_some_iff.mp h).1

theorem append_stored {b new : StoredBlock} {i : ℕ} (h : s._blocks[i]? = some b) :
    (s._blocks ++ [new])[i]? = some b := by
  rw [List.getElem?_append_left (stored_lt h),h]

theorem addBlockHeader_indexed (hi : s.Indexed) : (s.addBlockHeader header txList).2.Indexed := by
  unfold addBlockHeader
  split_ifs with hknown
  · exact hi
  have hnone : s._blockIds header.hash = none := by simpa [hasBlockHeader] using hknown
  obtain ⟨htables,hids⟩ := indexed_iff.mp hi
  refine indexed_iff.mpr ⟨?_,fun hb => ?_⟩
  · have happend := htables.append hnone
    rw [List.length_map] at happend
    dsimp only
    rw [List.map_append]
    exact happend
  · rcases stored_append hb with hb | ⟨rfl,rfl⟩
    · exact hids hb
    · rfl

theorem addBlockHeader_height (i : ℕ) :
    (s.addBlockHeader header txList).2.tree.height i = s.tree.height i := by
  unfold addBlockHeader
  split_ifs
  · rfl
  · simp only [tree]
    rcases Nat.lt_trichotomy i s._blocks.length with hi | rfl | hi
    · rw [List.getElem?_append_left hi]
    · simp
    · rw [List.getElem?_eq_none (by simp; omega),List.getElem?_eq_none (by omega)]

theorem addBlockHeader_parent {i p : ℕ} (h : s.tree.parent i = some p) :
    (s.addBlockHeader header txList).2.tree.parent i = some p := by
  unfold addBlockHeader
  split_ifs with hknown
  · exact h
  have hnone : s._blockIds header.hash = none := by simpa [hasBlockHeader] using hknown
  obtain ⟨b,hb,hparent⟩ := Option.bind_eq_some_iff.mp h
  obtain ⟨hid,b',hb'⟩ := getBlockHeader_eq.mp hparent
  refine Option.bind_eq_some_iff.mpr ⟨b,append_stored hb,getBlockHeader_eq.mpr ⟨?_,b',append_stored hb'⟩⟩
  dsimp only
  rw [Table.emplace_eq hnone,if_neg,hid]
  intro heq
  rw [heq,hnone] at hid
  contradiction

theorem addBlockHeader_chained (hc : s.Chained) : (s.addBlockHeader header txList).2.Chained where
  rooted := hc.rooted.congr addBlockHeader_height addBlockHeader_parent
  branch := by
    have hmain : (s.addBlockHeader header txList).2._mainChain = s._mainChain := by
      unfold addBlockHeader
      split_ifs <;> rfl
    rw [hmain]
    exact hc.branch.congr (fun h => by rw [addBlockHeader_height,h]) addBlockHeader_parent
  highest {i n} h := by
    rw [addBlockHeader_height] at h
    unfold addBlockHeader
    split_ifs <;> exact hc.highest h
  genesis {i} h := by
    unfold addBlockHeader at h ⊢
    split_ifs at h ⊢
    · exact hc.genesis h
    · obtain ⟨b,hb,hrest⟩ := hc.genesis h
      exact ⟨b,append_stored hb,hrest⟩
  unwaited {i b} hb hin := by
    unfold addBlockHeader at hb ⊢
    split_ifs at hb ⊢
    · exact hc.unwaited hb hin
    · rcases stored_append hb with hb | ⟨-,rfl⟩
      · exact hc.unwaited hb hin
      · contradiction
  idle := by
    unfold addBlockHeader
    split_ifs <;> exact hc.idle

theorem addBlockHeader_genesis :
    (s.addBlockHeader header txList).2._genesisBlockHash = s._genesisBlockHash := by
  unfold addBlockHeader
  split_ifs <;> rfl

/-- A store with other transactions. -/
def withTxs (s : Blockchain) (transactions : List Transaction) (txIds : Table uint256 ℕ)
    (txHashes : Table ℕ uint256) : Blockchain :=
  { s with _transactions := transactions, _txIds := txIds, _txHashes := txHashes }

theorem addTx_eq (s : Blockchain) (tx : Transaction) : ∃ transactions txIds txHashes,
    (s.addTx tx).2 = s.withTxs transactions txIds txHashes := by
  unfold addTx
  split_ifs
  · exact ⟨_,_,_,rfl⟩
  · exact ⟨_,_,_,rfl⟩

/-- The transactions of a block change nothing else. -/
theorem addTxs_eq (txs : List Transaction) : ∃ transactions txIds txHashes,
    txs.foldl (fun s tx => (s.addTx tx).2) s = s.withTxs transactions txIds txHashes := by
  induction txs generalizing s with
  | nil => exact ⟨_,_,_,rfl⟩
  | cons tx txs ih =>
    obtain ⟨transactions,txIds,txHashes,h⟩ := addTx_eq s tx
    obtain ⟨transactions',txIds',txHashes',h'⟩ := ih (s := (s.addTx tx).2)
    rw [List.foldl_cons,h',h]
    exact ⟨_,_,_,rfl⟩

theorem withTxs_indexed (hi : s.Indexed) (transactions : List Transaction) (txIds : Table uint256 ℕ)
    (txHashes : Table ℕ uint256) : (s.withTxs transactions txIds txHashes).Indexed :=
  hi.congr rfl rfl rfl

theorem withTxs_chained (hc : s.Chained) (transactions : List Transaction) (txIds : Table uint256 ℕ)
    (txHashes : Table ℕ uint256) : (s.withTxs transactions txIds txHashes).Chained :=
  ⟨hc.rooted,hc.branch,hc.highest,hc.genesis,hc.unwaited,hc.idle⟩

end Add

section AddBlock

variable {s s' : Blockchain}

/-- The store when `addBlock` comes to connecting the block. -/
def stored (s : Blockchain) (block : Block) : Blockchain :=
  block.txList.foldl (fun s tx => (s.addTx tx).2)
    (s.addBlockHeader block.header (some block.txList)).2

theorem stored_eq (s : Blockchain) (block : Block) : ∃ transactions txIds txHashes,
    s.stored block = (s.addBlockHeader block.header (some block.txList)).2.withTxs transactions txIds txHashes :=
  addTxs_eq block.txList

/-- The Merkle root of a block is that of its transactions. -/
def rootMatches (block : Block) : Prop := block.header._merkle = MerkleRoot (MerkleLeaves block.txList)

theorem addBlock_mismatch (block : Block) (h : ¬ rootMatches block) :
    s.addBlock block = .returned false s := by
  rw [addBlock,if_pos (show block.header._merkle ≠ _ from h)]

theorem stored_blockIds (hi : s.Indexed) (block : Block) :
    ∃ id b, (s.stored block)._blockIds block.header.hash = some id ∧
      (s.stored block)._blocks[id]? = some b ∧ b.hash = block.header.hash := by
  obtain ⟨transactions,txIds,txHashes,h⟩ := stored_eq s block
  have hi' : (s.addBlockHeader block.header (some block.txList)).2.Indexed := addBlockHeader_indexed hi
  have hsome : ∃ id, (s.addBlockHeader block.header (some block.txList)).2._blockIds block.header.hash =
      some id := by
    unfold addBlockHeader
    split_ifs with hknown
    · exact Option.isSome_iff_exists.mp hknown
    · exact ⟨_,if_pos rfl⟩
  obtain ⟨id,hid⟩ := hsome
  obtain ⟨b,hb,hhash⟩ := hi'.blockIds hid
  rw [h]
  exact ⟨id,b,hid,hb,hhash⟩

theorem addBlock_connects (hi : s.Indexed) (block : Block) (h : rootMatches block) :
    ∃ id b, (s.stored block)._blocks[id]? = some b ∧ b.hash = block.header.hash ∧
      s.addBlock block = ((s.stored block).connectToAncestor id).bind fun _ s => .returned true s := by
  obtain ⟨id,b,hid,hb,hhash⟩ := stored_blockIds hi block
  refine ⟨id,b,hb,hhash,?_⟩
  have hstored : (block.txList.foldl (fun s tx => (s.addTx tx).2)
      (if s.hasBlockHeader block.header.hash then s
        else (s.addBlockHeader block.header (some block.txList)).2)) = s.stored block := by
    rw [stored]
    congr 1
    split_ifs with hknown
    · rw [addBlockHeader_known hknown]
    · rfl
  rw [addBlock,if_neg (show ¬ block.header._merkle ≠ _ from not_not.mpr h)]
  simp only [hstored,hid]

theorem stored_preserved (hi : s.Indexed) (hc : s.Chained) (block : Block) :
    (s.stored block).Indexed ∧ (s.stored block).Chained ∧
      (s.stored block)._genesisBlockHash = s._genesisBlockHash := by
  obtain ⟨transactions,txIds,txHashes,h⟩ := stored_eq s block
  rw [h]
  exact ⟨withTxs_indexed (addBlockHeader_indexed hi) _ _ _,withTxs_chained (addBlockHeader_chained hc) _ _ _,
    addBlockHeader_genesis⟩

theorem bind_returned {α β : Type} {x : Outcome α} {f : α → Blockchain → Outcome β} {b : β}
    (h : x.bind f = .returned b s') : ∃ a s, x = .returned a s ∧ f a s = .returned b s' := by
  cases x with
  | returned a s => exact ⟨a,s,rfl,h⟩
  | assertion failed => contradiction
  | diverges => contradiction

theorem bind_assertion {α β : Type} {x : Outcome α} {f : α → Blockchain → Outcome β}
    {failed : Assertion} (h : x.bind f = .assertion failed) :
    x = .assertion failed ∨ ∃ a s, x = .returned a s ∧ f a s = .assertion failed := by
  cases x with
  | returned a s => exact .inr ⟨a,s,rfl,h⟩
  | assertion failed' => exact .inl (congrArg Outcome.assertion (Outcome.assertion.inj h))
  | diverges => contradiction

/-- No task is there to be run. -/
theorem Chained.perform_task (hc : s.Chained) (id : ℕ) : s.perform (.task id) = .returned false s := by
  rw [perform,hc.idle,if_neg List.not_mem_nil]

theorem perform_preserved (hi : s.Indexed) (hc : s.Chained) {call : Call} {result : Bool}
    (h : s.perform call = .returned result s') :
    s'.Indexed ∧ s'.Chained ∧ s'._genesisBlockHash = s._genesisBlockHash := by
  cases call with
  | addBlock block =>
    rw [perform] at h
    by_cases hroot : rootMatches block
    · obtain ⟨hi₁,hc₁,hgenesis⟩ := stored_preserved hi hc block
      obtain ⟨id,b,-,-,heq⟩ := addBlock_connects hi block hroot
      rw [heq] at h
      obtain ⟨found,s₁,hconnect,hreturned⟩ := bind_returned h
      obtain ⟨-,rfl⟩ := Outcome.returned.inj hreturned
      rw [← hgenesis]
      exact connectToAncestor_preserved hi₁ hc₁ hconnect
    · rw [addBlock_mismatch block hroot] at h
      obtain ⟨-,rfl⟩ := Outcome.returned.inj h
      exact ⟨hi,hc,rfl⟩
  | addBlockHeader header =>
    obtain ⟨-,rfl⟩ := Outcome.returned.inj h
    exact ⟨addBlockHeader_indexed hi,addBlockHeader_chained hc,addBlockHeader_genesis⟩
  | addTx tx =>
    obtain ⟨-,rfl⟩ := Outcome.returned.inj h
    obtain ⟨transactions,txIds,txHashes,heq⟩ := addTx_eq s tx
    rw [heq]
    exact ⟨withTxs_indexed hi _ _ _,withTxs_chained hc _ _ _,rfl⟩
  | task id =>
    rw [hc.perform_task] at h
    obtain ⟨-,rfl⟩ := Outcome.returned.inj h
    exact ⟨hi,hc,rfl⟩

theorem empty_indexed (genesis : uint256) : (empty genesis).Indexed :=
  ⟨fun h => by simp [empty] at h,nofun,nofun⟩

theorem empty_chained (genesis : uint256) : (empty genesis).Chained := by
  have hheight (i : ℕ) : (empty genesis).tree.height i = none := rfl
  refine ⟨⟨?_,?_⟩,⟨nofun,nofun⟩,?_,nofun,fun h => by simp [empty] at h,rfl⟩
  · intro a b ha
    rw [hheight] at ha
    contradiction
  · intro a n ha
    rw [hheight] at ha
    contradiction
  · intro i n h
    rw [hheight] at h
    contradiction

/-- The invariants hold of every store that calls lead to. -/
theorem reachable_preserved {genesis : uint256} (h : Reachable genesis s) :
    s.Indexed ∧ s.Chained ∧ s._genesisBlockHash = genesis := by
  induction h with
  | empty => exact ⟨empty_indexed genesis,empty_chained genesis,rfl⟩
  | call _ hperform ih =>
    obtain ⟨hi,hc,hgenesis⟩ := ih
    obtain ⟨hi',hc',hgenesis'⟩ := perform_preserved hi hc hperform
    exact ⟨hi',hc',hgenesis'.trans hgenesis⟩

end AddBlock

section Assertions

variable {s : Blockchain}

theorem findDescendants_not_assertion (hash : uint256) (failed : Assertion) :
    s.findDescendants hash ≠ .assertion failed := by
  unfold findDescendants
  split_ifs <;> nofun

/-- Only a height that is set again fails an assertion. -/
theorem connectToAncestor_assertion (hi : s.Indexed) (hc : s.Chained) {id : ℕ} {failed : Assertion}
    (h : s.connectToAncestor id = .assertion failed) : failed = .heightUnset := by
  cases hb : s._blocks[id]? with
  | none =>
    rw [connectToAncestor_missing hb] at h
    contradiction
  | some block =>
    by_cases hconnects : s.Connects block
    · cases hnone : block._height with
      | some n =>
        rw [connectToAncestor_reconnects hi hc hb hconnects (StoredBlock.inChain_of_height hnone)] at h
        exact (Outcome.assertion.inj h).symm
      | none =>
        obtain ⟨height,m,-,hable⟩ := connectToAncestor_able hi hc hb hconnects hnone
        rw [hable] at h
        exact absurd h (findDescendants_not_assertion _ _)
    · obtain ⟨orphans,hunable,-⟩ := connectToAncestor_unable hi hb hconnects
      rw [hunable] at h
      contradiction

theorem perform_assertion (hi : s.Indexed) (hc : s.Chained) {call : Call} {failed : Assertion}
    (h : s.perform call = .assertion failed) : failed = .heightUnset := by
  cases call with
  | addBlock block =>
    rw [perform] at h
    by_cases hroot : rootMatches block
    · obtain ⟨hi₁,hc₁,-⟩ := stored_preserved hi hc block
      obtain ⟨id,b,-,-,heq⟩ := addBlock_connects hi block hroot
      rw [heq] at h
      rcases bind_assertion h with hconnect | ⟨found,s₁,-,hreturned⟩
      · exact connectToAncestor_assertion hi₁ hc₁ hconnect
      · contradiction
    · rw [addBlock_mismatch block hroot] at h
      contradiction
  | addBlockHeader header => contradiction
  | addTx tx => contradiction
  | task id =>
    rw [hc.perform_task] at h
    contradiction

end Assertions

/-- The main chain starts with the genesis block, its heights count from there, each block
stands behind its previous block, and none stands twice. -/
structure WellLinked (s : Blockchain) : Prop where
  genesis : ∀ id, s._mainChain[0]? = some id →
    ∃ b, s._blocks[id]? = some b ∧ b.hash = s._genesisBlockHash ∧ b.prev.isNull
  height : ∀ (i id : ℕ), s._mainChain[i]? = some id → ∃ b, s._blocks[id]? = some b ∧ b._height = some i
  previous : ∀ (i id prevId : ℕ), s._mainChain[i + 1]? = some id → s._mainChain[i]? = some prevId →
    ∃ b prevBlock, s._blocks[id]? = some b ∧ s._blocks[prevId]? = some prevBlock ∧ b.prev = prevBlock.hash
  nodup : s._mainChain.Nodup

/-- No connected block is higher than the last one of the main chain. -/
def FollowsLongest (s : Blockchain) : Prop :=
  ∀ (id n : ℕ) (b : StoredBlock), s._blocks[id]? = some b → b._height = some n →
    ∃ topId top topHeight, s._mainChain.getLast? = some topId ∧ s._blocks[topId]? = some top ∧
      top._height = some topHeight ∧ n ≤ topHeight

theorem Chained.wellLinked {s : Blockchain} (hc : s.Chained) (hi : s.Indexed) : s.WellLinked where
  genesis id h := hc.genesis h
  height i id h := block_of_height (hc.branch.height h)
  previous i id prevId h hprevId := by
    have hparent := hc.branch.parent h
    obtain ⟨b,hb,-⟩ := block_of_height (hc.branch.height h)
    rw [parent_eq hb,hi.getBlockHeader_eq,hprevId] at hparent
    obtain ⟨prevBlock,hprevBlock,hhash⟩ := hi.blockIds hparent
    exact ⟨b,prevBlock,hb,hprevBlock,hhash.symm⟩
  nodup := hc.branch.nodup

theorem Chained.followsLongest {s : Blockchain} (hc : s.Chained) : s.FollowsLongest := by
  intro id n b hb hn
  have hlt := hc.highest ((height_eq hb).trans hn)
  have htop : s._mainChain[s._mainChain.length - 1]? = some (s._mainChain[s._mainChain.length - 1]) :=
    List.getElem?_eq_getElem (by omega)
  obtain ⟨top,htopBlock,htopHeight⟩ := block_of_height (hc.branch.height htop)
  refine ⟨_,top,_,?_,htopBlock,htopHeight,by omega⟩
  rw [List.getLast?_eq_getElem?,htop]

/-- In every store that returning calls lead to, whatever they are and in whatever order tasks
run, the node follows a longest branch, and no switch of branches fails its assertion. -/
theorem mainChain_longest {genesis : uint256} {s : Blockchain} (h : Reachable genesis s) :
    s._genesisBlockHash = genesis ∧ s.WellLinked ∧ s.FollowsLongest ∧
      ∀ call, s.perform call ≠ .assertion .mainChainHeight := by
  obtain ⟨hi,hc,hgenesis⟩ := reachable_preserved h
  refine ⟨hgenesis,hc.wellLinked hi,hc.followsLongest,fun call hcall => ?_⟩
  have := perform_assertion hi hc hcall
  contradiction

section New

variable {s : Blockchain} {header : BlockHeader}

theorem addBlockHeader_new (hnew : s._blockIds header.hash = none) (txList : Option (List Transaction)) :
    s.addBlockHeader header txList = (true,{ s with
      _blockIds := s._blockIds.emplace header.hash s._blocks.length
      _blocks := s._blocks ++ [⟨header,txList,some s._blocks.length,none⟩]
      _blockHashes := s._blockHashes.emplace s._blocks.length header.hash }) := by
  rw [addBlockHeader,if_neg (by simp [not_hasBlockHeader hnew])]

/-- A new block without transactions is stored at the end and connected from there. -/
theorem addBlock_new (hnew : s._blockIds header.hash = none) (hmerkle : header._merkle = Blob.null) :
    s.addBlock ⟨header,[]⟩ = ((s.addBlockHeader header (some [])).2.connectToAncestor
      s._blocks.length).bind fun _ s => .returned true s := by
  have hroot : header._merkle = MerkleRoot (MerkleLeaves []) := hmerkle.trans MerkleRoot_nil.symm
  have hknown := not_hasBlockHeader hnew
  have hid : (s.addBlockHeader header (some [])).2._blockIds header.hash = some s._blocks.length := by
    simp [addBlockHeader,hknown,Table.emplace_eq hnew]
  rw [addBlock,if_neg (not_not.mpr hroot)]
  simp only [hknown,Bool.false_eq_true,if_false,List.foldl_nil,hid]

end New

/-- A header with neither previous block nor transactions, and its hash. -/
def genesisHeader : BlockHeader := ⟨1,Blob.null,Blob.null,0,0,0,0⟩

def genesisHash : uint256 :=
  ⟨[122,48,163,226,170,109,68,61,255,1,112,197,48,48,242,119,63,190,187,221,95,3,24,33,119,95,177,
    208,179,30,171,166],rfl⟩

theorem genesisHeader_hash : genesisHeader.hash = genesisHash := by decide +kernel

theorem genesisHeader_prev : genesisHeader._prev.isNull := by decide +kernel

/-- A store with one block, which is not connected. -/
def single (genesis : uint256) (header : BlockHeader) : Blockchain :=
  { empty genesis with
    _blockIds := Table.emplace (fun _ => none) header.hash 0
    _blocks := [⟨header,some [],some 0,none⟩]
    _blockHashes := Table.emplace (fun _ => none) 0 header.hash }

/-- The first block is connected if it is the genesis block, and waits if it is not. -/
theorem addBlock_empty {genesis : uint256} {header : BlockHeader} (hmerkle : header._merkle = Blob.null) :
    (empty genesis).addBlock ⟨header,[]⟩ =
      if header.hash ≠ genesis ∨ ¬ header._prev.isNull then
        .returned true ((single genesis header).emplaceOrphan header._prev 0)
      else .returned true { (single genesis header).setHeight 0 0 with _mainChain := [0] } := by
  have hstored : ((empty genesis).addBlockHeader header (some [])).2 = single genesis header := by
    rw [addBlockHeader_new rfl]
    rfl
  have hconnect : (single genesis header).connectToAncestor 0 = _ := connectToAncestor_start rfl rfl
  have hlength : (empty genesis)._blocks.length = 0 := rfl
  rw [addBlock_new rfl hmerkle,hstored,hlength,hconnect]
  exact apply_ite (fun x => Outcome.bind x fun _ s => Outcome.returned true s) _ _ _

/-- The store with the genesis block on its chain. -/
def genesisStore : Blockchain := { (single genesisHash genesisHeader).setHeight 0 0 with _mainChain := [0] }

theorem genesisStore_addBlock :
    (empty genesisHash).addBlock ⟨genesisHeader,[]⟩ = .returned true genesisStore := by
  rw [addBlock_empty rfl,if_neg]
  · rfl
  · rw [not_or,not_not,not_not]
    exact ⟨genesisHeader_hash,genesisHeader_prev⟩

theorem genesisStore_reachable : Reachable genesisHash genesisStore := by
  have hperform : (empty genesisHash).perform (.addBlock ⟨genesisHeader,[]⟩) = .returned true genesisStore :=
    genesisStore_addBlock
  exact .call .empty hperform

theorem mainChain_longest_genesis : genesisStore._genesisBlockHash = genesisHash ∧
    genesisStore.WellLinked ∧ genesisStore.FollowsLongest ∧
    ∀ call, genesisStore.perform call ≠ .assertion .mainChainHeight :=
  mainChain_longest genesisStore_reachable

end Blockchain
end Tkeycoin
