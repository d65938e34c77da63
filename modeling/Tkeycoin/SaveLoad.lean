import Tkeycoin.BlockFile

/-! Which stores are loaded as they were saved. -/
namespace Tkeycoin
namespace Blockchain

section RoundTrip

variable {s s' : Blockchain} {fits : ℕ → Bool} {memory : ℕ → UInt8}

/-- What a load of the saved store into an empty one brings back. -/
def RoundTrip (fits : ℕ → Bool) (memory : ℕ → UInt8) (s : Blockchain) : Prop :=
  ∃ s', (empty s._genesisBlockHash).load ⟨fits,memory,some s.save⟩ = some s' ∧
    s'._blocks.map (fun b => (b.header,b._id,b._height)) = s._blocks.map (fun b => (b.header,b._id,b._height)) ∧
    s'._transactions = s._transactions ∧ s'._mainChain = s._mainChain

/-- A store without ids, heights and a main chain, in which all reads the same backwards. -/
structure Restorable (fits : ℕ → Bool) (s : Blockchain) : Prop where
  unset : ∀ b ∈ s._blocks, b._id = none ∧ b._height = none
  mainChain : s._mainChain = []
  blocks : (s._blocks.map StoredBlock.header).reverse = s._blocks.map StoredBlock.header
  transactions : s._transactions.reverse = s._transactions
  blockCount : Unserialize.Sized fits s._blocks.length
  txCount : Unserialize.Sized fits s._transactions.length
  readable : ∀ tx ∈ s._transactions, Unserialize.Readable fits tx

/-- Only blocks that came as blocks have transactions, and they were given ids. -/
theorem run_identity {genesis : uint256} {steps : List Step} (h : Run genesis steps s) :
    ∀ b ∈ s._blocks, b._id = none → b._txList = none := by
  have hgrows : Grows (fun b => b._id = none → b._txList = none) (Blockchain.empty genesis) s := by
    induction h with
    | empty => exact (SameStore.refl _).grows
    | call _ hperform ih => exact ih.trans ((perform_grows hperform).mono fun b hb hnone => absurd hnone hb)
    | load _ hload ih => exact ih.trans ((load_grows hload).mono fun b hb _ => hb.2)
  obtain ⟨new,hblocks,hnew⟩ := hgrows.blocks
  intro b hb hnone
  have hmem : b.identity ∈ s._blocks.map StoredBlock.identity := List.mem_map_of_mem hb
  rw [hblocks] at hmem
  obtain ⟨b',hb',heq⟩ := List.mem_map.mp hmem
  obtain ⟨hheader,htxList⟩ := Prod.mk.inj heq
  obtain ⟨htxList,hid⟩ := Prod.mk.inj htxList
  rw [← htxList]
  exact hnew b' hb' (hid.trans hnone)

/-- Headers without transactions are saved as what is read. -/
theorem save_eq (h : ∀ b ∈ s._blocks, b._txList = none) : s.save =
    (Serialization.uintV (UInt64.ofNat (s._blocks.map StoredBlock.header).length) ++
      (s._blocks.map StoredBlock.header).flatMap BlockHeader.serialize) ++
    (Serialization.uintV (UInt64.ofNat s._transactions.length) ++
      s._transactions.flatMap Transaction.serialize) := by
  have hflat : s._blocks.flatMap StoredBlock.serialize =
      (s._blocks.map StoredBlock.header).flatMap BlockHeader.serialize := by
    rw [List.flatMap_map]
    exact List.flatMap_congr fun b hb => by rw [StoredBlock.serialize,h b hb]
  rw [save,hflat,List.length_map]

/-- The headers of a store and its transactions, where they are read back. -/
theorem mempool_reads {headers : List BlockHeader} {txs : List Transaction}
    (hheaders : Unserialize.Sized fits headers.length) (htxs : Unserialize.Sized fits txs.length)
    (hreadable : ∀ tx ∈ txs, Unserialize.Readable fits tx) : (Unserialize.mempool fits).Reads
      ((Serialization.uintV (UInt64.ofNat headers.length) ++ headers.flatMap BlockHeader.serialize) ++
        (Serialization.uintV (UInt64.ofNat txs.length) ++ txs.flatMap Transaction.serialize))
      (headers,txs) := by
  have hblocks := Unserialize.sizeAnd_reads hheaders fun header _ => Unserialize.blockHeader_reads header
  have htransactions := Unserialize.sizeAnd_reads htxs fun tx htx =>
    Unserialize.transaction_reads (hreadable tx htx)
  rw [List.map_id'] at hblocks htransactions
  exact hblocks.bind (htransactions.last rfl)

theorem read_save (hnone : ∀ b ∈ s._blocks, b._txList = none)
    (hblocks : Unserialize.Sized fits s._blocks.length) (htxs : Unserialize.Sized fits s._transactions.length)
    (hreadable : ∀ tx ∈ s._transactions, Unserialize.Readable fits tx) (memory : ℕ → UInt8) :
    Loading.read ⟨fits,memory,some s.save⟩ = some (s._blocks.map StoredBlock.header,s._transactions) := by
  rw [← List.length_map StoredBlock.header] at hblocks
  have hread := mempool_reads hblocks htxs hreadable memory [] 0
  rw [List.append_nil,← save_eq hnone] at hread
  rw [Loading.read]
  exact congrArg (Option.map Prod.fst) hread

theorem Restorable.roundTrip (h : s.Restorable fits) (hnone : ∀ b ∈ s._blocks, b._txList = none)
    (memory : ℕ → UInt8) : s.RoundTrip fits memory := by
  have hloaded := read_save hnone h.blockCount h.txCount h.readable memory
  have hload : (Blockchain.empty s._genesisBlockHash).load ⟨fits,memory,some s.save⟩ = some _ :=
    congrArg (Option.map _) hloaded
  refine ⟨_,hload,?_⟩
  obtain ⟨blocks,transactions,blockIds,merkles,txIds,hread',heq⟩ := load_eq hload
  obtain ⟨rfl,rfl⟩ := Prod.mk.inj (Option.some.inj (hloaded.symm.trans hread'))
  rw [heq]
  refine ⟨?_,h.transactions,h.mainChain.symm⟩
  change (([] ++ List.map _ _).map _ : List (BlockHeader × Option ℕ × Option ℕ)) = _
  rw [h.blocks,List.nil_append,List.map_map,List.map_map]
  refine List.map_congr_left fun b hb => ?_
  obtain ⟨hid,hheight⟩ := h.unset b hb
  simp [hid,hheight]

/-- What is read of the saved vectors is no other than they, if it is as many elements. -/
theorem mempool_run {headers blocks : List BlockHeader} {txs transactions : List Transaction} {t : IStream}
    (h : (Unserialize.mempool fits).run memory (.ofBytes
      ((Serialization.uintV (UInt64.ofNat headers.length) ++ headers.flatMap BlockHeader.serialize) ++
        (Serialization.uintV (UInt64.ofNat txs.length) ++ txs.flatMap Transaction.serialize))) =
      some ((blocks,transactions),t))
    (hlength : blocks.length = headers.length) (hperm : transactions.Perm txs) :
    Unserialize.Sized fits headers.length ∧ Unserialize.Sized fits txs.length ∧ blocks = headers ∧
      transactions = txs ∧ ∀ tx ∈ txs, Unserialize.Readable fits tx := by
  obtain ⟨blocks',s₁,hblocks,hrest⟩ := Reader.run_bind_some.mp h
  obtain ⟨transactions',s₂,htxs,hpure⟩ := Reader.run_bind_some.mp hrest
  obtain ⟨hpair,-⟩ := Reader.run_pure_some.mp hpure
  obtain ⟨rfl,rfl⟩ := Prod.mk.inj hpair
  have hheaders : Unserialize.Sized fits headers.length := hlength ▸ Unserialize.sizeAnd_sized hblocks
  have hcount : Unserialize.Sized fits txs.length := hperm.length_eq ▸ Unserialize.sizeAnd_sized htxs
  have hread := Unserialize.sizeAnd_reads hheaders fun header _ => Unserialize.blockHeader_reads header
  rw [List.map_id'] at hread
  rw [IStream.ofBytes,hread] at hblocks
  obtain ⟨rfl,rfl⟩ := Prod.mk.inj (Option.some.inj hblocks)
  rw [Unserialize.sizeAnd,Unserialize.sized_run hcount] at htxs
  obtain ⟨heq,hreadable⟩ := Unserialize.transactions_served hperm htxs
  exact ⟨hheaders,hcount,rfl,heq,hreadable⟩

theorem RoundTrip.restorable (h : s.RoundTrip fits memory)
    (hloaded : ∀ b ∈ s._blocks, b._id = none → b._txList = none) : s.Restorable fits := by
  obtain ⟨s',hload,hblocks,htxs,hmain⟩ := h
  obtain ⟨blocks,transactions,blockIds,merkles,txIds,hread,rfl⟩ := load_eq hload
  change (([] ++ List.map _ _).map _ : List (BlockHeader × Option ℕ × Option ℕ)) = _ at hblocks
  change [] ++ transactions.reverse = s._transactions at htxs
  rw [List.nil_append,List.map_map] at hblocks
  rw [List.nil_append] at htxs
  have hunset (b : StoredBlock) (hb : b ∈ s._blocks) : b._id = none ∧ b._height = none := by
    have hmem : (b.header,b._id,b._height) ∈ s._blocks.map fun b => (b.header,b._id,b._height) :=
      List.mem_map_of_mem hb
    rw [← hblocks] at hmem
    obtain ⟨header,-,heq⟩ := List.mem_map.mp hmem
    obtain ⟨-,hrest⟩ := Prod.mk.inj heq
    obtain ⟨hid,hheight⟩ := Prod.mk.inj hrest
    exact ⟨hid.symm,hheight.symm⟩
  have hheaders : blocks.reverse = s._blocks.map StoredBlock.header := by
    have hfst := congrArg (List.map Prod.fst) hblocks
    rw [List.map_map,List.map_map] at hfst
    simpa [Function.comp_def] using hfst
  -- so the file holds headers alone, and they are all read
  have hnone (b : StoredBlock) (hb : b ∈ s._blocks) : b._txList = none := hloaded b hb (hunset b hb).1
  rw [Loading.read] at hread
  obtain ⟨⟨pair,t⟩,hrun,hfst⟩ := Option.map_eq_some_iff.mp hread
  subst hfst
  rw [save_eq hnone] at hrun
  have hlength : blocks.length = (s._blocks.map StoredBlock.header).length := by
    rw [← hheaders,List.length_reverse]
  have hperm : transactions.Perm s._transactions := htxs ▸ (List.reverse_perm transactions).symm
  obtain ⟨hblockCount,htxCount,hsame,hsameTxs,hreadable⟩ := mempool_run hrun hlength hperm
  rw [List.length_map] at hblockCount
  refine ⟨hunset,hmain.symm,?_,?_,hblockCount,htxCount,hreadable⟩
  · rw [← hsame,hheaders,hsame]
  · rw [← hsameTxs,htxs,hsameTxs]

/-- A store that calls and loads lead to is what is loaded after it is saved exactly if it has
no main chain and none of its blocks an id or a height, its headers and its transactions read
the same backwards, and each transaction is one that is read back. -/
theorem roundTrip_iff {genesis : uint256} {steps : List Step} (h : Run genesis steps s)
    (fits : ℕ → Bool) (memory : ℕ → UInt8) : s.RoundTrip fits memory ↔ s.Restorable fits := by
  have hloaded := run_identity h
  constructor
  · intro hround
    exact hround.restorable hloaded
  · intro hrestorable
    exact hrestorable.roundTrip (fun b hb => hloaded b hb (hrestorable.unset b hb).1) memory

end RoundTrip

/-- A header behind the genesis block. -/
def childHeader : BlockHeader := ⟨1,genesisHash,Blob.null,0,0,0,0⟩

def childHash : uint256 :=
  ⟨[137,164,24,26,157,18,143,59,149,190,29,99,232,117,84,196,82,31,1,195,201,25,223,73,102,35,144,
    245,233,27,218,157],rfl⟩

theorem childHeader_hash : childHeader.hash = childHash := by decide +kernel

theorem childHash_ne : childHash ≠ genesisHash := by decide +kernel

/-- Two headers that were stored in this order. -/
def headersStore : Blockchain :=
  (((empty genesisHash).addBlockHeader genesisHeader none).2.addBlockHeader childHeader none).2

theorem headersStore_eq : headersStore._blocks =
      [⟨genesisHeader,none,some 0,none⟩,⟨childHeader,none,some 1,none⟩] ∧
    headersStore._transactions = [] := by
  have hnew : ((empty genesisHash).addBlockHeader genesisHeader none).2._blockIds childHeader.hash = none := by
    rw [addBlockHeader_new rfl]
    dsimp only
    rw [Table.emplace_eq rfl,childHeader_hash,genesisHeader_hash,if_neg childHash_ne]
    rfl
  rw [headersStore,addBlockHeader_new hnew,addBlockHeader_new rfl]
  exact ⟨rfl,rfl⟩

theorem Run.addBlockHeader {genesis : uint256} {steps : List Step} {s : Blockchain} (h : Run genesis steps s)
    (header : BlockHeader) : Run genesis (steps ++ [.call (.addBlockHeader header)])
      (s.addBlockHeader header none).2 := .call h rfl

theorem headersStore_run : Run genesisHash ([] ++ [.call (.addBlockHeader genesisHeader)] ++
    [.call (.addBlockHeader childHeader)]) headersStore := by
  rw [headersStore]
  exact (Run.empty.addBlockHeader genesisHeader).addBlockHeader childHeader

/-- The same headers come back the other way round. -/
theorem headersStore_not_restored : ¬ ∀ (genesis : uint256) (steps : List Step) (s : Blockchain),
    Run genesis steps s → s.RoundTrip (fun _ => true) (fun _ => 0) := by
  intro h
  have hround := h genesisHash _ headersStore headersStore_run
  have hreverse := (hround.restorable (run_identity headersStore_run)).blocks
  rw [headersStore_eq.1] at hreverse
  have hsame : childHeader = genesisHeader := (List.cons.inj hreverse).1
  exact absurd hsame (by decide +kernel)

/-- The store that is loaded from their file. -/
def restoredStore : Blockchain := ((empty genesisHash).fillBlock childHeader).fillBlock genesisHeader

def restoredLoading : Loading := ⟨fun _ => true,fun _ => 0,some headersStore.save⟩

theorem restoredStore_run : Run genesisHash ([] ++ [.load restoredLoading]) restoredStore := by
  obtain ⟨hblocks,htxs⟩ := headersStore_eq
  have hloaded : restoredLoading.read = some ([genesisHeader,childHeader],[]) := by
    rw [restoredLoading,read_save,hblocks,htxs]
    · rfl
    · rw [hblocks]
      simp
    · rw [hblocks]
      exact ⟨by decide,rfl⟩
    · rw [htxs]
      exact ⟨by decide,rfl⟩
    · rw [htxs]
      nofun
  have hload : (empty genesisHash).load restoredLoading = some restoredStore := by
    rw [Blockchain.load,hloaded]
    rfl
  exact .load .empty hload

/-- Neither the one order nor the other reads the same backwards. -/
theorem roundTrip_iff_restored :
    restoredStore.RoundTrip (fun _ => true) (fun _ => 0) ↔ restoredStore.Restorable fun _ => true :=
  roundTrip_iff restoredStore_run (fun _ => true) fun _ => 0

end Blockchain
end Tkeycoin
