import Tkeycoin.LookupTables

/-! Connecting a block: who is enqueued behind it, and what a block does that is known. -/
namespace Tkeycoin
namespace Blockchain

/-- The call returns, and enqueues each block that waits for a newly connected one exactly once. -/
def Schedules (s : Blockchain) (blockId : ℕ) : Prop :=
  ∃ connected s', s.connectToAncestor blockId = .returned connected s' ∧
    ∃ scheduled, s'.tasks = s.tasks ++ scheduled ∧ scheduled.Nodup ∧
      ∀ id, id ∈ scheduled ↔
        connected = true ∧ ∃ b, s._blocks[blockId]? = some b ∧ id ∈ s.waiting b.hash

section Schedules

variable {s : Blockchain} {id : ℕ} {block : StoredBlock}

/-- Nobody waits where nothing is enqueued. -/
theorem schedules_of_returned {connected : Bool} {s' : Blockchain}
    (h : s.connectToAncestor id = .returned connected s') (htasks : s'.tasks = s.tasks)
    (hwait : connected = true → ∀ b, s._blocks[id]? = some b → s.waiting b.hash = []) :
    s.Schedules id := by
  refine ⟨connected,s',h,[],by rw [htasks,List.append_nil],List.nodup_nil,fun i => ?_⟩
  constructor
  · nofun
  · rintro ⟨hconnected,b,hb,hi⟩
    rw [hwait hconnected b hb] at hi
    contradiction

/-- It does not return where others do. -/
theorem connectToAncestor_waited (hi : s.Indexed) (hc : s.Chained) (hb : s._blocks[id]? = some block)
    (hconnects : s.Connects block) (hnone : block._height = none) (hwait : s.waiting block.hash ≠ []) :
    s.connectToAncestor id = .diverges := by
  obtain ⟨height,m,-,hconnect⟩ := connectToAncestor_able hi hc hb hconnects hnone
  rw [hconnect,findDescendants]
  exact if_neg hwait

/-- Who is connected is so for the first time, and nobody waits for it. -/
def Unawaited (s : Blockchain) (id : ℕ) : Prop :=
  ∀ b, s._blocks[id]? = some b → s.Connects b → b._height = none ∧ s.waiting b.hash = []

theorem schedules_iff_unawaited (hi : s.Indexed) (hc : s.Chained) (id : ℕ) :
    s.Schedules id ↔ s.Unawaited id := by
  rw [Unawaited]
  cases hb : s._blocks[id]? with
  | none =>
    refine iff_of_true (schedules_of_returned (connectToAncestor_missing hb) rfl nofun) nofun
  | some block =>
    by_cases hconnects : s.Connects block
    · cases hnone : block._height with
      | some n =>
        refine iff_of_false ?_ fun hall => ?_
        · rintro ⟨connected,s',hreturned,-⟩
          rw [connectToAncestor_reconnects hi hc hb hconnects (StoredBlock.inChain_of_height hnone)]
            at hreturned
          contradiction
        · have := (hall block rfl hconnects).1
          rw [hnone] at this
          contradiction
      | none =>
        constructor
        · rintro ⟨connected,s',hreturned,-⟩ b hblock -
          obtain rfl := Option.some.inj hblock
          refine ⟨hnone,?_⟩
          by_contra hwait
          rw [connectToAncestor_waited hi hc hb hconnects hnone hwait] at hreturned
          contradiction
        · intro hall
          have hwait := (hall block rfl hconnects).2
          obtain ⟨height,m,-,hconnect⟩ := connectToAncestor_able hi hc hb hconnects hnone
          have hreturned := hconnect.trans (if_pos hwait)
          refine schedules_of_returned hreturned rfl fun _ b hblock => ?_
          rw [← Option.some.inj (hb.symm.trans hblock),hwait]
    · obtain ⟨orphans,hreturned,-⟩ := connectToAncestor_unable hi hb hconnects
      refine iff_of_true (schedules_of_returned hreturned rfl nofun) fun b hblock hb' => ?_
      rw [← Option.some.inj hblock] at hb'
      exact absurd hb' hconnects

end Schedules

/-- The child came first and waits. -/
def childFirst : Blockchain := (single genesisHash childHeader).emplaceOrphan genesisHash 0

theorem childFirst_addBlock :
    (empty genesisHash).addBlock ⟨childHeader,[]⟩ = .returned true childFirst := by
  rw [addBlock_empty rfl,if_pos]
  · rfl
  · rw [childHeader_hash]
    exact .inl childHash_ne

theorem childFirst_run : Run genesisHash ([] ++ [.call (.addBlock ⟨childHeader,[]⟩)]) childFirst := by
  have hperform : (empty genesisHash).perform (.addBlock ⟨childHeader,[]⟩) = .returned true childFirst :=
    childFirst_addBlock
  exact .call .empty hperform

theorem foundNoBlock_calls (calls : List Call) : FoundNoBlock (calls.map .call) := by
  intro loading hmem
  obtain ⟨call,-,heq⟩ := List.mem_map.mp hmem
  contradiction

/-- The genesis block is then known by its header. -/
def orphanStore : Blockchain := (childFirst.addBlockHeader genesisHeader none).2

theorem orphanStore_run : Run genesisHash ([] ++ [.call (.addBlock ⟨childHeader,[]⟩)] ++
    [.call (.addBlockHeader genesisHeader)]) orphanStore := by
  rw [orphanStore]
  exact childFirst_run.addBlockHeader genesisHeader

theorem orphanStore_eq : orphanStore = { childFirst with
    _blockIds := childFirst._blockIds.emplace genesisHeader.hash 1
    _blocks := [⟨childHeader,some [],some 0,none⟩,⟨genesisHeader,none,some 1,none⟩]
    _blockHashes := childFirst._blockHashes.emplace 1 genesisHeader.hash } := by
  have hnew : childFirst._blockIds genesisHeader.hash = none := by
    have htable : childFirst._blockIds = Table.emplace (fun _ => none) childHeader.hash 0 := rfl
    rw [htable,Table.emplace_eq rfl,genesisHeader_hash,childHeader_hash,if_neg childHash_ne.symm]
  have hblocks : childFirst._blocks = [⟨childHeader,some [],some 0,none⟩] := rfl
  rw [orphanStore,addBlockHeader_new hnew,hblocks]
  rfl

/-- The child is enqueued for ever when the genesis block is connected. -/
theorem orphanStore_diverges : orphanStore.connectToAncestor 1 = .diverges := by
  obtain ⟨hi,hc,hgenesis⟩ := run_preserved orphanStore_run
    (foundNoBlock_calls [.addBlock ⟨childHeader,[]⟩,.addBlockHeader genesisHeader])
  have hempty : orphanStore._mainChain = [] := by rw [orphanStore_eq]; rfl
  have hblock : orphanStore._blocks[1]? = some ⟨genesisHeader,none,some 1,none⟩ := by
    rw [orphanStore_eq]
    rfl
  have hconnects : orphanStore.Connects ⟨genesisHeader,none,some 1,none⟩ := by
    rw [connects_start hempty,hgenesis]
    exact ⟨genesisHeader_hash,genesisHeader_prev⟩
  refine connectToAncestor_waited hi hc hblock hconnects rfl ?_
  have horphans : orphanStore._orphanBlocks = [(genesisHash,0)] := by rw [orphanStore_eq]; rfl
  rw [waiting,horphans,StoredBlock.hash,genesisHeader_hash]
  simp

/-- A block that is connected, or waits, and whose transactions are stored. -/
def Known (s : Blockchain) (block : Block) : Prop :=
  (∀ tx ∈ block.txList, s.hasTx tx.hash) ∧
    ∃ (id : ℕ) (b : StoredBlock), s._blockIds block.header.hash = some id ∧ s._blocks[id]? = some b ∧
      b.header = block.header ∧ (b.inChain ∨ id ∈ s.waiting b.prev)

/-- A call that returns, enqueues nothing, and leaves the store as it was. -/
def Unchanged (s : Blockchain) (call : Call) : Prop := ∃ result, s.perform call = .returned result s

section Transactions

variable {s s' : Blockchain} {hash : uint256}

theorem addTx_known {tx : Transaction} (h : s.hasTx tx.hash = true) : (s.addTx tx).2 = s := by
  rw [addTx,if_pos h]

theorem addTxs_known {txs : List Transaction} (h : ∀ tx ∈ txs, s.hasTx tx.hash) :
    txs.foldl (fun s tx => (s.addTx tx).2) s = s := by
  induction txs with
  | nil => rfl
  | cons tx txs ih =>
    obtain ⟨hfirst,hrest⟩ := List.forall_mem_cons.mp h
    rw [List.foldl_cons,addTx_known hfirst,ih hrest]

theorem emplace_isSome {κ ν : Type} [DecidableEq κ] (t : Table κ ν) (key k : κ) (value : ν) :
    (t.emplace key value k).isSome = ((t k).isSome || key == k) := by
  by_cases heq : k = key
  · simp [Table.emplace,heq]
  · simp [Table.emplace,heq,Ne.symm heq]

theorem addTx_hasTx (tx : Transaction) : (s.addTx tx).2.hasTx hash = (s.hasTx hash || tx.hash == hash) := by
  unfold addTx
  split_ifs with hknown
  · by_cases heq : tx.hash = hash
    · rw [← heq,hknown]
      rfl
    · simp [heq]
  · exact emplace_isSome s._txIds tx.hash hash _

theorem addTxs_hasTx (txs : List Transaction) :
    (txs.foldl (fun s tx => (s.addTx tx).2) s).hasTx hash = (s.hasTx hash || txs.any (·.hash == hash)) := by
  induction txs generalizing s with
  | nil => simp
  | cons tx txs ih => rw [List.foldl_cons,ih,addTx_hasTx,List.any_cons,Bool.or_assoc]

theorem SameStore.hasTx (h : SameStore s s') : s'.hasTx hash = s.hasTx hash := by
  rw [Blockchain.hasTx,h.txIds]
  rfl

/-- What is stored stays so. -/
theorem Stores.hasTx (h : Stores s s') (hknown : s.hasTx hash = true) : s'.hasTx hash = true := by
  induction h with
  | refl => exact hknown
  | addBlockHeader header txList _ ih =>
    unfold Blockchain.addBlockHeader
    split_ifs <;> exact ih
  | addTx tx _ ih => rw [addTx_hasTx,ih,Bool.true_or]

theorem fillTxs_hasTx (txs : List Transaction) (hknown : s.hasTx hash = true) :
    (txs.foldl fillTx s).hasTx hash = true := by
  induction txs generalizing s with
  | nil => exact hknown
  | cons tx txs ih =>
    refine ih ?_
    have hemplace := emplace_isSome s._txIds tx.hash hash s._transactions.length
    rw [show (s._txIds hash).isSome = true from hknown] at hemplace
    exact hemplace

theorem load_hasTx {loading : Loading} (h : s.load loading = some s') (hknown : s.hasTx hash = true) :
    s'.hasTx hash = true := by
  obtain ⟨⟨blocks,transactions⟩,-,rfl⟩ := Option.map_eq_some_iff.mp h
  refine fillTxs_hasTx transactions.reverse ?_
  obtain ⟨blockIds,merkles,hblocks⟩ := fillBlocks_eq (s := s) blocks.reverse
  rw [hblocks]
  exact hknown

theorem addBlock_hasTx {block : Block} {result : Bool} (hroot : rootMatches block)
    (h : s.addBlock block = .returned result s') {tx : Transaction} (htx : tx ∈ block.txList) :
    s'.hasTx tx.hash = true := by
  have hmatches : ¬ block.header._merkle ≠ MerkleRoot (MerkleLeaves block.txList) := not_not.mpr hroot
  rw [Blockchain.addBlock,if_neg hmatches] at h
  dsimp only at h
  split at h
  · contradiction
  obtain ⟨connected,s₁,hconnect,hreturned⟩ := bind_returned h
  obtain ⟨-,rfl⟩ := Outcome.returned.inj hreturned
  rw [(connectToAncestor_same hconnect).hasTx,addTxs_hasTx,Bool.or_eq_true,List.any_eq_true]
  exact .inr ⟨tx,htx,beq_self_eq_true _⟩

/-- The transactions of a block that was added are stored, whatever happened since. -/
theorem run_hasTx {genesis : uint256} {steps : List Step} (h : Run genesis steps s) {block : Block}
    (hadded : .call (.addBlock block) ∈ steps) (hroot : rootMatches block) :
    ∀ tx ∈ block.txList, s.hasTx tx.hash := by
  intro tx htx
  induction h with
  | empty => contradiction
  | call _ hperform ih =>
    rcases List.mem_append.mp hadded with hbefore | hlast
    · obtain ⟨s₁,hstores,hsame⟩ := perform_stores hperform
      rw [hsame.hasTx]
      exact hstores.hasTx (ih hbefore)
    · obtain rfl := Step.call.inj (List.mem_singleton.mp hlast)
      exact addBlock_hasTx hroot hperform htx
  | load _ hload ih =>
    rcases List.mem_append.mp hadded with hbefore | hlast
    · exact load_hasTx hload (ih hbefore)
    · exact absurd (List.mem_singleton.mp hlast) nofun

end Transactions

section Known

variable {s : Blockchain} {block : Block}

/-- A known block is not stored again. -/
theorem stored_known (h : s.Known block) : s.stored block = s := by
  obtain ⟨htxs,id,b,hid,-⟩ := h
  rw [stored,addBlockHeader_known (hasBlockHeader_of_id hid),addTxs_known htxs]

/-- A block that is connected, or would be, does not leave the store as it was. -/
theorem connectToAncestor_changes {id : ℕ} {b : StoredBlock} (hi : s.Indexed) (hc : s.Chained)
    (hb : s._blocks[id]? = some b) (hconnects : s.Connects b) {result : Bool} {s' : Blockchain}
    (h : s.connectToAncestor id = .returned result s') : s'._blocks ≠ s._blocks := by
  cases hnone : b._height with
  | some n =>
    rw [connectToAncestor_reconnects hi hc hb hconnects (StoredBlock.inChain_of_height hnone)] at h
    contradiction
  | none =>
    obtain ⟨height,m,-,hconnect⟩ := connectToAncestor_able hi hc hb hconnects hnone
    rw [hconnect] at h
    obtain ⟨-,rfl⟩ := findDescendants_returned h
    intro heq
    have hset : (s.setHeight id height)._blocks[id]? = some b := by
      rw [show (s.setHeight id height)._blocks = s._blocks from heq,hb]
    rw [setHeight_blocks,hb,Option.map_some,if_pos rfl] at hset
    have hheight := congrArg StoredBlock._height (Option.some.inj hset)
    rw [hnone] at hheight
    contradiction

/-- A known block whose root matches fails the assertion that a height is set once, or waits
again, where no chain is there or its previous block is connected. -/
theorem addBlock_unchanged_iff (hi : s.Indexed) (hc : s.Chained) (hknown : s.Known block)
    (hroot : rootMatches block) : s.Unchanged (.addBlock block) ↔
      s._mainChain ≠ [] ∧ (s._blockIds block.header._prev).bind s.tree.height = none := by
  obtain ⟨id,b,hb,hhash,hadd⟩ := addBlock_connects hi block hroot
  rw [stored_known hknown] at hb hadd
  -- the block found is the known one
  obtain ⟨-,id',b',hid',hb',hheader,-⟩ := hknown
  have hids := (hi.block hb).1
  rw [hhash] at hids
  obtain rfl : id' = id := Option.some.inj (hid'.symm.trans hids)
  obtain rfl : b' = b := Option.some.inj (hb'.symm.trans hb)
  have hprev : block.header._prev = b'.prev := by rw [StoredBlock.prev,hheader]
  rw [hprev]
  constructor
  · rintro ⟨result,hreturned⟩
    rw [perform,hadd] at hreturned
    obtain ⟨connected,s₁,hconnect,hend⟩ := bind_returned hreturned
    obtain ⟨-,rfl⟩ := Outcome.returned.inj hend
    have hunable : ¬ s₁.Connects b' := fun hconnects =>
      connectToAncestor_changes hi hc hb hconnects hconnect rfl
    by_cases hmain : s₁._mainChain = []
    · -- it would wait once more
      rw [connects_start hmain,not_and_or] at hunable
      rw [connectToAncestor_start hmain hb,if_pos hunable] at hconnect
      have horphans := congrArg Blockchain._orphanBlocks (Outcome.returned.inj hconnect).2
      exact absurd horphans (List.cons_ne_self _ _)
    · rw [connects_chain hmain] at hunable
      exact ⟨hmain,Option.not_isSome_iff_eq_none.mp hunable⟩
  · rintro ⟨hmain,hnone⟩
    refine ⟨true,?_⟩
    rw [perform,hadd,connectToAncestor_unconnected hi hmain hb hnone]
    rfl

end Known

theorem childFirst_preserved : childFirst.Indexed ∧ childFirst.Chained := by
  obtain ⟨hi,hc,-⟩ := run_preserved childFirst_run (foundNoBlock_calls [.addBlock ⟨childHeader,[]⟩])
  exact ⟨hi,hc⟩

theorem childFirst_known : childFirst.Known ⟨childHeader,[]⟩ := by
  have hblock : childFirst._blocks[0]? = some ⟨childHeader,some [],some 0,none⟩ := rfl
  have hwait : childFirst.waiting genesisHash = [0] := by simp [waiting,childFirst,emplaceOrphan,single,empty]
  refine ⟨List.forall_mem_nil _,0,_,(childFirst_preserved.1.block hblock).1,hblock,rfl,.inr ?_⟩
  change 0 ∈ childFirst.waiting genesisHash
  rw [hwait]
  exact List.mem_singleton_self 0

end Blockchain
end Tkeycoin
