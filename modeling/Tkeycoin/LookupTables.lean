import Tkeycoin.SaveLoad

/-! Whether the tables of the store are inverse to each other, over calls and loads. -/
namespace Tkeycoin
namespace Blockchain

/-- The tables of the transactions describe them. -/
def TxIndexed (s : Blockchain) : Prop :=
  s._txIds.Describes s._txHashes (s._transactions.map Transaction.hash)

/-- The tables are inverse to each other, and lookups find what they should and fail no assertion. -/
structure Exact (s : Blockchain) : Prop where
  indexed : s.Indexed
  txIndexed : s.TxIndexed
  getBlockHeader : ∀ {hash id}, s.getBlockHeader hash = some id → ∃ b, s._blocks[id]? = some b ∧ b.hash = hash
  getTx : ∀ {hash tx}, s.getTx hash = some tx → tx.hash = hash
  getBlockHash : ∀ height, s.getBlockHash height ≠ none
  hashKnown : ∀ call, s.perform call ≠ .assertion .hashKnown

section Exact

variable {s s' : Blockchain}

theorem TxIndexed.congr (h : s.TxIndexed) (htxs : s'._transactions = s._transactions)
    (hids : s'._txIds = s._txIds) (hhashes : s'._txHashes = s._txHashes) : s'.TxIndexed := by
  rw [TxIndexed,htxs,hids,hhashes]
  exact h

theorem SameStore.txIndexed (hsame : SameStore s s') (h : s.TxIndexed) : s'.TxIndexed :=
  h.congr hsame.transactions hsame.txIds hsame.txHashes

theorem addTx_txIndexed (h : s.TxIndexed) (tx : Transaction) : (s.addTx tx).2.TxIndexed := by
  unfold addTx
  split_ifs with hknown
  · exact h
  have hnone : s._txIds tx.hash = none := by simpa [hasTx] using hknown
  have happend := h.append hnone
  rw [List.length_map] at happend
  rw [TxIndexed,List.map_append]
  exact happend

theorem Stores.txIndexed (hstores : Stores s s') (h : s.TxIndexed) : s'.TxIndexed := by
  induction hstores with
  | refl => exact h
  | addBlockHeader header txList _ ih =>
    unfold Blockchain.addBlockHeader
    split_ifs
    · exact ih
    · exact ih.congr rfl rfl rfl
  | addTx tx _ ih => exact addTx_txIndexed ih tx

theorem Chained.exact (hc : s.Chained) (hi : s.Indexed) (htx : s.TxIndexed) : s.Exact where
  indexed := hi
  txIndexed := htx
  getBlockHeader {hash id} h := by
    rw [hi.getBlockHeader_eq] at h
    exact hi.blockIds h
  getTx {hash tx} h := by
    obtain ⟨id,hid,hget⟩ := Option.bind_eq_some_iff.mp h
    have hkey := htx.place hid
    rw [List.getElem?_map,hget,Option.map_some] at hkey
    exact Option.some.inj hkey
  getBlockHash height h := by
    unfold Blockchain.getBlockHash at h
    cases hmain : s._mainChain[height]? with
    | none =>
      rw [hmain] at h
      contradiction
    | some id =>
      obtain ⟨b,hb,-⟩ := block_of_height (hc.branch.height hmain)
      rw [hmain] at h
      dsimp only at h
      rw [(hi.block hb).2.2] at h
      contradiction
  hashKnown call h := absurd (perform_assertion hi hc h) nofun

/-- A block or a transaction that the tables do not know. -/
def Tainted (s : Blockchain) : Prop :=
  (∃ b ∈ s._blocks, b._id = none) ∨ ∃ id < s._transactions.length, s._txHashes id = none

theorem Tainted.not_exact (h : s.Tainted) : ¬ s.Exact := by
  intro hexact
  rcases h with ⟨b,hb,hnone⟩ | ⟨id,hid,hnone⟩
  · obtain ⟨id,hid⟩ := List.mem_iff_getElem?.mp hb
    rw [(hexact.indexed.block hid).2.1] at hnone
    contradiction
  · have hget : (s._transactions.map Transaction.hash)[id]? = some (s._transactions[id].hash) := by
      rw [List.getElem?_map,List.getElem?_eq_getElem hid]
      rfl
    rw [(hexact.txIndexed.entry hget).2] at hnone
    contradiction

/-- What is not known stays unknown. -/
theorem Tainted.grows {New : StoredBlock → Prop} (h : s.Tainted) (hgrows : Grows New s s') :
    s'.Tainted := by
  rcases h with ⟨b,hb,hnone⟩ | ⟨id,hid,hnone⟩
  · left
    obtain ⟨new,hblocks,-⟩ := hgrows.blocks
    have hmem : b.identity ∈ s'._blocks.map StoredBlock.identity := by
      rw [hblocks]
      exact List.mem_map_of_mem (List.mem_append_left _ hb)
    obtain ⟨b',hb',heq⟩ := List.mem_map.mp hmem
    refine ⟨b',hb',?_⟩
    rw [← hnone]
    exact congrArg (fun i => i.2.2) heq
  · right
    obtain ⟨new,htxs⟩ := hgrows.transactions
    refine ⟨id,?_,by rw [hgrows.txHashes id hid,hnone]⟩
    rw [htxs,List.length_append]
    omega

/-- What a load finds is not known. -/
theorem load_tainted (htx : s.TxIndexed) {loading : Loading} (h : s.load loading = some s')
    (hfound : loading.read ≠ some ([],[])) : s'.Tainted := by
  obtain ⟨blocks,transactions,blockIds,merkles,txIds,hread,rfl⟩ := load_eq h
  rw [hread] at hfound
  by_cases hblocks : blocks = []
  · subst hblocks
    have htxs : transactions ≠ [] := by
      rintro rfl
      exact hfound rfl
    refine .inr ⟨s._transactions.length,?_,?_⟩
    · have := List.length_pos_of_ne_nil htxs
      simp
      omega
    · dsimp only
      rw [Option.eq_none_iff_forall_ne_some]
      intro hash hhash
      have hget := htx.key hhash
      rw [List.getElem?_eq_none (by rw [List.length_map])] at hget
      contradiction
  · obtain ⟨header,hheader⟩ := List.exists_mem_of_ne_nil blocks hblocks
    refine .inl ⟨⟨header,none,none,none⟩,?_,rfl⟩
    exact List.mem_append_right _ (List.mem_map_of_mem (List.mem_reverse.mpr hheader))

/-- No load that led to a store found a block. -/
def FoundNoBlock (steps : List Step) : Prop :=
  ∀ loading, Step.load loading ∈ steps → ∃ transactions, loading.read = some ([],transactions)

/-- The loads that led to a store found nothing. -/
def FoundNothing (steps : List Step) : Prop :=
  ∀ loading, Step.load loading ∈ steps → loading.read = some ([],[])

/-- The invariants of the calls also hold where loads found no block. -/
theorem run_preserved {genesis : uint256} {steps : List Step} (h : Run genesis steps s)
    (hloads : FoundNoBlock steps) : s.Indexed ∧ s.Chained ∧ s._genesisBlockHash = genesis := by
  induction h with
  | empty => exact ⟨empty_indexed genesis,empty_chained genesis,rfl⟩
  | call _ hperform ih =>
    obtain ⟨hi,hc,hgenesis⟩ := ih fun loading hmem => hloads loading (List.mem_append_left _ hmem)
    obtain ⟨hi',hc',hgenesis'⟩ := perform_preserved hi hc hperform
    exact ⟨hi',hc',hgenesis'.trans hgenesis⟩
  | @load steps s loading s' _ hload ih =>
    obtain ⟨hi,hc,hgenesis⟩ := ih fun loading hmem => hloads loading (List.mem_append_left _ hmem)
    obtain ⟨transactions,hread⟩ := hloads loading (List.mem_append_right _ (List.mem_singleton_self _))
    obtain ⟨txIds,htxs⟩ := fillTxs_eq (s := s) transactions.reverse
    have hsame : s.load loading = some (s.withTxs (s._transactions ++ transactions.reverse) txIds s._txHashes) := by
      rw [Blockchain.load,hread]
      exact congrArg some htxs
    obtain rfl := Option.some.inj (hsame.symm.trans hload)
    exact ⟨withTxs_indexed hi _ _ _,withTxs_chained hc _ _ _,hgenesis⟩

theorem foundNothing_call {steps : List Step} {call : Call} :
    FoundNothing (steps ++ [.call call]) ↔ FoundNothing steps := by
  simp [FoundNothing]

theorem foundNothing_load {steps : List Step} {loading : Loading} :
    FoundNothing (steps ++ [.load loading]) ↔ FoundNothing steps ∧ loading.read = some ([],[]) := by
  simp only [FoundNothing,List.mem_append,List.mem_singleton,Step.load.injEq,or_imp,forall_and,forall_eq]

/-- Either nothing was found and the transactions are as they should be, or something was and
the tables do not know it. -/
theorem run_txIndexed_or_tainted {genesis : uint256} {steps : List Step} (h : Run genesis steps s) :
    FoundNothing steps ∧ s.TxIndexed ∨ ¬ FoundNothing steps ∧ s.Tainted := by
  induction h with
  | empty => exact .inl ⟨nofun,⟨nofun,nofun,nofun⟩⟩
  | call _ hperform ih =>
    rw [foundNothing_call]
    rcases ih with ⟨hnothing,htx⟩ | ⟨hfound,htainted⟩
    · obtain ⟨s₁,hstores,hsame⟩ := perform_stores hperform
      exact .inl ⟨hnothing,hsame.txIndexed (hstores.txIndexed htx)⟩
    · exact .inr ⟨hfound,htainted.grows (perform_grows hperform)⟩
  | @load steps s loading s' _ hload ih =>
    rw [foundNothing_load]
    rcases ih with ⟨hnothing,htx⟩ | ⟨hfound,htainted⟩
    · by_cases hread : loading.read = some ([],[])
      · have hsame : s.load loading = some s := by
          rw [Blockchain.load,hread]
          rfl
        obtain rfl := Option.some.inj (hsame.symm.trans hload)
        exact .inl ⟨⟨hnothing,hread⟩,htx⟩
      · exact .inr ⟨fun hboth => hread hboth.2,load_tainted htx hload hread⟩
    · exact .inr ⟨fun hboth => hfound hboth.1,htainted.grows (load_grows hload)⟩

/-- The tables are as they should be in a store exactly if no load that led to it found a block
or a transaction. -/
theorem exact_iff {genesis : uint256} {steps : List Step} (h : Run genesis steps s) :
    s.Exact ↔ FoundNothing steps := by
  rcases run_txIndexed_or_tainted h with ⟨hnothing,htx⟩ | ⟨hfound,htainted⟩
  · obtain ⟨hi,hc,-⟩ := run_preserved h fun loading hmem => ⟨[],hnothing loading hmem⟩
    exact iff_of_true (hc.exact hi htx) hnothing
  · exact iff_of_false htainted.not_exact hfound

end Exact

/-- The first start of a node: there is no file yet, and the genesis block is added. -/
theorem genesisStore_run : Run genesisHash ([] ++ [.load ⟨fun _ => true,fun _ => 0,none⟩] ++
    [.call (.addBlock ⟨genesisHeader,[]⟩)]) genesisStore := by
  have hperform : (empty genesisHash).perform (.addBlock ⟨genesisHeader,[]⟩) = .returned true genesisStore :=
    genesisStore_addBlock
  exact .call (.load .empty rfl) hperform

theorem exact_iff_genesis : genesisStore.Exact ↔
    FoundNothing ([] ++ [.load ⟨fun _ => true,fun _ => 0,none⟩] ++ [.call (.addBlock ⟨genesisHeader,[]⟩)]) :=
  exact_iff genesisStore_run

/-- A header that was loaded has no id. -/
theorem restoredStore_not_exact : ¬ ∀ (genesis : uint256) (steps : List Step) (s : Blockchain),
    Run genesis steps s → s.Exact := by
  intro h
  have hexact := h genesisHash _ restoredStore restoredStore_run
  have hblock : restoredStore._blocks[0]? = some ⟨childHeader,none,none,none⟩ := rfl
  have hid := (hexact.indexed.block hblock).2.1
  contradiction

end Blockchain
end Tkeycoin
