import Tkeycoin.HeaderExchange

/-! The heights of a block locator, and whether the store has the hashes at these. -/
namespace Tkeycoin
namespace Blockchain

/-- How far below an entry of a locator the next one is: by one for the first eleven, and from there on
by doubling distances. -/
def distance (i : ℕ) : ℕ := if i < 10 then 1 else 2 ^ (i - 9)

/-- How far below the tip an entry is. -/
def depth : ℕ → ℕ
  | 0 => 0
  | i+1 => depth i + distance i

/-- The heights of a locator of a chain of `n` blocks. Below the genesis block there is none, so that
a longer distance ends there. -/
structure Locates (n : ℕ) (heights : List ℕ) : Prop where
  inside : ∀ height ∈ heights, height < n
  decreasing : heights.Pairwise (· > ·)
  tip : heights.head? = some (n - 1)
  genesis : heights.getLast? = some 0
  distances : ∀ i, i + 1 < heights.length → heights[i + 1]? = heights[i]?.map (· - distance i)
  short : heights.length ≤ 11 + Nat.log2 n + 1

section Heights

theorem distance_pos (i : ℕ) : 0 < distance i := by
  rw [distance]
  split_ifs
  · exact Nat.one_pos
  · exact Nat.two_pow_pos _

/-- The step as the loop makes it. -/
theorem distance_succ (i : ℕ) :
    (if i + 1 > 10 then distance (i - 1) <<< 1 else distance (i - 1)) = distance i := by
  unfold distance
  rcases Nat.lt_trichotomy i 10 with hlt | rfl | hgt
  · rw [if_neg (by omega),if_pos (by omega),if_pos hlt]
  · rfl
  · have hexp : i - 9 = i - 1 - 9 + 1 := by omega
    rw [if_pos (by omega),if_neg (by omega),if_neg (by omega),Nat.shiftLeft_eq,hexp,pow_succ]
    rfl

theorem depth_doubling (k : ℕ) : depth (10 + k) + 2 = 10 + 2 ^ (k + 1) := by
  induction k with
  | zero => rfl
  | succ k ih =>
    have hdistance : distance (10 + k) = 2 ^ (k + 1) := by
      rw [distance,if_neg (by omega)]
      congr 1
      omega
    have hdepth : depth (10 + (k + 1)) = depth (10 + k) + distance (10 + k) := rfl
    rw [hdepth,hdistance,pow_succ 2 (k + 1)]
    omega

/-- The heights that the loop goes through from one on. -/
structure Descends (size height : ℕ) (heights : List ℕ) : Prop where
  head : heights.head? = some height
  last : heights.getLast? = some 0
  le : ∀ h ∈ heights, h ≤ height
  decreasing : heights.Pairwise (· > ·)
  next : ∀ i, i + 1 < heights.length → heights[i + 1]? = heights[i]?.map (· - distance (size + i))

theorem Descends.cons {size height : ℕ} {heights : List ℕ} (hpos : 0 < height)
    (h : Descends (size + 1) (height - distance size) heights) : Descends size height (height :: heights) := by
  have hless : height - distance size < height := Nat.sub_lt hpos (distance_pos size)
  have hbelow : ∀ a ∈ heights, a < height := fun a ha => Nat.lt_of_le_of_lt (h.le a ha) hless
  have hne : heights ≠ [] := by
    rintro rfl
    simpa using h.head
  refine ⟨rfl,?_,?_,List.pairwise_cons.mpr ⟨hbelow,h.decreasing⟩,?_⟩
  · rw [List.getLast?_cons_of_ne_nil hne]
    exact h.last
  · intro a ha
    rcases List.mem_cons.mp ha with rfl | ha
    · exact Nat.le_refl _
    · exact Nat.le_of_lt (hbelow a ha)
  · intro i hi
    cases i with
    | zero =>
      rw [List.getElem?_cons_succ,List.getElem?_cons_zero,← List.head?_eq_getElem?,h.head]
      rfl
    | succ i =>
      have hnext := h.next i (by simpa using hi)
      rw [List.getElem?_cons_succ,List.getElem?_cons_succ,hnext,Nat.add_right_comm,Nat.add_assoc]

theorem locatorHeights_descends {rounds height : ℕ} (size : ℕ) (hrounds : height < rounds) :
    Descends size height (locatorHeights rounds height (distance (size - 1)) size) := by
  induction rounds generalizing height size with
  | zero => contradiction
  | succ rounds ih =>
    rw [locatorHeights]
    by_cases hzero : height = 0
    · subst hzero
      rw [if_pos rfl]
      exact ⟨rfl,rfl,by simp,List.pairwise_singleton _ _,fun i hi => by simp at hi⟩
    · have hpos := Nat.pos_of_ne_zero hzero
      have hdown : (if height > distance size then height - distance size else 0) = height - distance size := by
        split_ifs <;> omega
      have hless : height - distance size < rounds :=
        (Nat.sub_lt hpos (distance_pos size)).trans_le (Nat.le_of_lt_succ hrounds)
      rw [if_neg hzero]
      dsimp only
      rw [distance_succ,hdown]
      exact (ih (size + 1) hless).cons hpos

/-- An entry is as far below the tip as its depth says. -/
theorem Descends.eq_depth {height : ℕ} {heights : List ℕ} (h : Descends 0 height heights) {i : ℕ}
    (hi : i < heights.length) : heights[i]? = some (height - depth i) := by
  induction i with
  | zero => rw [← List.head?_eq_getElem?,h.head,depth,Nat.sub_zero]
  | succ i ih => rw [h.next i hi,ih (Nat.lt_of_succ_lt hi),Option.map_some,Nat.zero_add,depth,Nat.sub_sub]

/-- The entry in front of the last one is above the genesis block. -/
theorem Descends.length_le {height : ℕ} {heights : List ℕ} (h : Descends 0 height heights) :
    heights.length ≤ 11 + Nat.log2 (height + 1) := by
  by_contra hlong
  obtain ⟨k,hk⟩ : ∃ k, heights.length = 12 + k := ⟨heights.length - 12,by omega⟩
  have hbefore := h.eq_depth (i := 10 + k) (by omega)
  have hlast := h.last
  rw [List.getLast?_eq_getElem?,hk] at hlast
  have hless : height - depth (10 + k) > 0 := by
    have hget := List.pairwise_iff_getElem.mp h.decreasing (10 + k) (12 + k - 1) (by omega) (by omega) (by omega)
    rw [List.getElem?_eq_getElem (by omega)] at hbefore hlast
    rw [Option.some.inj hbefore,Option.some.inj hlast] at hget
    exact hget
  have hdepth := depth_doubling k
  have hlog : k + 1 ≤ Nat.log2 (height + 1) := (Nat.le_log2 (Nat.succ_ne_zero height)).mpr (by omega)
  omega

theorem locatorHeights_locates {n : ℕ} (hn : 0 < n) : Locates n (locatorHeights n (n - 1) 1 0) := by
  have h : Descends 0 (n - 1) (locatorHeights n (n - 1) 1 0) := locatorHeights_descends 0 (Nat.sub_lt hn Nat.one_pos)
  have hlength := h.length_le
  rw [Nat.sub_add_cancel hn] at hlength
  refine ⟨fun height hheight => ?_,h.decreasing,h.head,h.last,fun i hi => ?_,by omega⟩
  · have := h.le height hheight
    omega
  · rw [h.next i hi,Nat.zero_add]

theorem depth_le {i j : ℕ} (h : i ≤ j) : depth i ≤ depth j :=
  monotone_nat_of_le_succ (fun k => Nat.le_add_right (depth k) (distance k)) h

/-- The heights of a locator are those of all depths. -/
theorem mem_locatorHeights {n : ℕ} (hn : 0 < n) {height : ℕ} :
    height ∈ locatorHeights n (n - 1) 1 0 ↔ ∃ i, height = n - 1 - depth i := by
  have h : Descends 0 (n - 1) (locatorHeights n (n - 1) 1 0) := locatorHeights_descends 0 (Nat.sub_lt hn Nat.one_pos)
  constructor
  · intro hmem
    obtain ⟨i,hi,hget⟩ := List.getElem_of_mem hmem
    refine ⟨i,?_⟩
    have hdepth := h.eq_depth hi
    rw [List.getElem?_eq_getElem hi,hget] at hdepth
    exact Option.some.inj hdepth
  · rintro ⟨i,rfl⟩
    by_cases hi : i < (locatorHeights n (n - 1) 1 0).length
    · exact List.mem_of_getElem? (h.eq_depth hi)
    · have hlast := h.last
      have hpos : 0 < (locatorHeights n (n - 1) 1 0).length := by
        rw [List.length_pos_iff]
        intro hnil
        rw [hnil] at hlast
        contradiction
      have hzero := hlast
      rw [List.getLast?_eq_getElem?,h.eq_depth (by omega)] at hzero
      have hmono := depth_le (by omega : (locatorHeights n (n - 1) 1 0).length - 1 ≤ i)
      have hend := Option.some.inj hzero
      have hbelow : n - 1 - depth i = 0 := by omega
      rw [hbelow]
      exact List.mem_of_getLast? hlast

end Heights

section Hashes

variable {s s' : Blockchain}

/-- The table of hashes has no other hash for a block than its own. -/
structure Recorded (s : Blockchain) : Prop where
  own : ∀ {id : ℕ} {hash : uint256}, s._blockHashes id = some hash →
    ∃ block, s._blocks[id]? = some block ∧ block.hash = hash

theorem Recorded.same (h : s.Recorded) (hsame : SameStore s s') (htable : s'._blockHashes = s._blockHashes) :
    s'.Recorded := by
  refine ⟨fun {id hash} hid => ?_⟩
  rw [htable] at hid
  obtain ⟨block,hblock,hhash⟩ := h.own hid
  have hidentity : (s'._blocks.map StoredBlock.identity)[id]? = (s._blocks.map StoredBlock.identity)[id]? := by
    rw [hsame.blocks]
  rw [List.getElem?_map,List.getElem?_map,hblock,Option.map_some] at hidentity
  obtain ⟨block',hblock',heq⟩ := Option.map_eq_some_iff.mp hidentity
  have hheader : block'.header = block.header := congrArg Prod.fst heq
  exact ⟨block',hblock',by rw [← hhash,StoredBlock.hash,StoredBlock.hash,hheader]⟩

theorem pushChain_table {mainChain chain : List ℕ} {u : Unit}
    (h : s.pushChain mainChain chain = .returned u s') : s'._blockHashes = s._blockHashes := by
  induction chain generalizing mainChain with
  | nil =>
    obtain ⟨-,rfl⟩ := Outcome.returned.inj h
    rfl
  | cons block chain ih =>
    rw [pushChain] at h
    split_ifs at h
    exact ih h

theorem switchBranch_table {id : ℕ} {u : Unit} (h : s.switchBranch id = .returned u s') :
    s'._blockHashes = s._blockHashes := by
  unfold switchBranch at h
  dsimp only at h
  split_ifs at h
  · split at h
    · contradiction
    · split at h
      · contradiction
      · exact pushChain_table h
  · obtain ⟨-,rfl⟩ := Outcome.returned.inj h
    rfl

theorem removeFromOrphans_table {prev : uint256} {id : ℕ} (h : s.removeFromOrphans prev id = some s') :
    s'._blockHashes = s._blockHashes := by
  unfold removeFromOrphans at h
  split at h
  · obtain rfl := Option.some.inj h
    rfl
  · split_ifs at h
    obtain rfl := Option.some.inj h
    rfl

theorem connectToAncestor_table {id : ℕ} {result : Bool} (h : s.connectToAncestor id = .returned result s') :
    s'._blockHashes = s._blockHashes := by
  unfold connectToAncestor at h
  split at h
  · obtain ⟨-,rfl⟩ := Outcome.returned.inj h
    rfl
  by_cases hheight : s.getHeight = 0
  · rw [if_pos hheight] at h
    split_ifs at h
    · obtain ⟨-,rfl⟩ := Outcome.returned.inj h
      rfl
    · obtain ⟨-,rfl⟩ := findDescendants_returned h
      rfl
  rw [if_neg hheight] at h
  split at h
  · obtain ⟨-,rfl⟩ := Outcome.returned.inj h
    rfl
  split at h
  · obtain ⟨-,rfl⟩ := Outcome.returned.inj h
    rfl
  split at h
  · obtain ⟨-,rfl⟩ := Outcome.returned.inj h
    rfl
  split_ifs at h
  split at h
  · contradiction
  next horphans =>
  obtain ⟨u,s₁,hswitch,hdescendants⟩ := bind_returned h
  obtain ⟨-,rfl⟩ := findDescendants_returned hdescendants
  have horphan := removeFromOrphans_table horphans
  exact (switchBranch_table hswitch).trans horphan

theorem Recorded.addBlockHeader (h : s.Recorded) (header : BlockHeader) (txList : Option (List Transaction)) :
    (s.addBlockHeader header txList).2.Recorded := by
  unfold Blockchain.addBlockHeader
  split_ifs
  · exact h
  refine ⟨fun {id hash} hid => ?_⟩
  dsimp only at hid ⊢
  by_cases hnew : id = s._blocks.length
  · subst hnew
    have hnone : s._blockHashes s._blocks.length = none := by
      rw [Option.eq_none_iff_forall_ne_some]
      intro old hold
      obtain ⟨block,hblock,-⟩ := h.own hold
      rw [List.getElem?_eq_none (Nat.le_refl _)] at hblock
      contradiction
    rw [Table.emplace_eq hnone,if_pos rfl] at hid
    exact ⟨_,List.getElem?_concat_length,Option.some.inj hid⟩
  · rw [Table.emplace,if_neg hnew] at hid
    obtain ⟨block,hblock,hhash⟩ := h.own hid
    exact ⟨block,by rw [List.getElem?_append_left (List.getElem?_eq_some_iff.mp hblock).1,hblock],hhash⟩

theorem Recorded.addTx (h : s.Recorded) (tx : Transaction) : (s.addTx tx).2.Recorded := by
  unfold Blockchain.addTx
  split_ifs
  · exact h
  · exact ⟨h.own⟩

theorem Recorded.addTxs (h : s.Recorded) (txs : List Transaction) :
    (txs.foldl (fun s tx => (s.addTx tx).2) s).Recorded := by
  induction txs generalizing s with
  | nil => exact h
  | cons tx txs ih => exact ih (h.addTx tx)

theorem Recorded.perform (h : s.Recorded) {call : Call} {result : Bool}
    (hperform : s.perform call = .returned result s') : s'.Recorded := by
  cases call with
  | addBlock block =>
    rw [Blockchain.perform,addBlock] at hperform
    by_cases hroot : block.header._merkle ≠ MerkleRoot (MerkleLeaves block.txList)
    · rw [if_pos hroot] at hperform
      obtain ⟨-,rfl⟩ := Outcome.returned.inj hperform
      exact h
    rw [if_neg hroot] at hperform
    dsimp only at hperform
    split at hperform
    · contradiction
    obtain ⟨connected,s₁,hconnect,hreturned⟩ := bind_returned hperform
    obtain ⟨-,rfl⟩ := Outcome.returned.inj hreturned
    refine (Recorded.addTxs ?_ block.txList).same (connectToAncestor_same hconnect) (connectToAncestor_table hconnect)
    split_ifs
    · exact h
    · exact h.addBlockHeader _ _
  | addBlockHeader header =>
    obtain ⟨-,rfl⟩ := Outcome.returned.inj hperform
    exact h.addBlockHeader header none
  | addTx tx =>
    obtain ⟨-,rfl⟩ := Outcome.returned.inj hperform
    exact h.addTx tx
  | task id =>
    rw [Blockchain.perform] at hperform
    split_ifs at hperform
    · have htasks : Recorded { s with tasks := s.tasks.erase id } := ⟨h.own⟩
      exact htasks.same (connectToAncestor_same hperform) (connectToAncestor_table hperform)
    · obtain ⟨-,rfl⟩ := Outcome.returned.inj hperform
      exact h

theorem run_recorded {genesis : uint256} {steps : List Step} (h : Run genesis steps s) : s.Recorded := by
  induction h with
  | empty => exact ⟨nofun⟩
  | call _ hperform ih => exact ih.perform hperform
  | load _ hload ih =>
    obtain ⟨blocks,transactions,blockIds,merkles,txIds,-,rfl⟩ := load_eq hload
    refine ⟨fun {id hash} hid => ?_⟩
    obtain ⟨block,hblock,hhash⟩ := ih.own hid
    have hlt := (List.getElem?_eq_some_iff.mp hblock).1
    exact ⟨block,by rw [List.getElem?_append_left hlt,hblock],hhash⟩

/-- The hash of the block of the main chain at a height. -/
def mainChainHash (s : Blockchain) (height : ℕ) : Option uint256 := do
  let id ← s._mainChain[height]?
  let block ← s._blocks[id]?
  pure block.hash

/-- What is asked with: the hashes of blocks of the main chain at the heights of a locator. -/
def LocatesMainChain (s : Blockchain) (locator : List uint256) : Prop :=
  ∃ heights, Locates s._mainChain.length heights ∧ locator.map some = heights.map s.mainChainHash

theorem Recorded.mainChainHash (h : s.Recorded) {height : ℕ} {hash : uint256} (hlt : height < s._mainChain.length)
    (hget : s.getBlockHash height = some hash) : s.mainChainHash height = some hash := by
  rw [getBlockHash,List.getElem?_eq_getElem hlt] at hget
  obtain ⟨block,hblock,hhash⟩ := h.own hget
  rw [Blockchain.mainChainHash,List.getElem?_eq_getElem hlt]
  simp only [bind,Option.bind_some,hblock,pure,hhash]

/-- In a store that calls and loads lead to there is a locator of the main chain exactly if the table of
hashes has a hash for the block at each of its heights; otherwise the assertion of `getBlockHash` fails. -/
theorem getBlockLocator_iff {genesis : uint256} {steps : List Step} (h : Run genesis steps s)
    (hmain : s._mainChain ≠ []) (blockHash : uint256) :
    (∃ locator, s.getBlockLocator blockHash = some locator ∧ s.LocatesMainChain locator) ↔
      ∀ i, s.getBlockHash (s._mainChain.length - 1 - depth i) ≠ none := by
  have hpos := List.length_pos_of_ne_nil hmain
  have hlocates := locatorHeights_locates hpos
  have hloop : s.locatorLoop s._mainChain.length (s._mainChain.length - 1) 1 [] =
      (locatorHeights s._mainChain.length (s._mainChain.length - 1) 1 0).mapM s.getBlockHash := by
    rw [locatorLoop_mapM [] (Nat.sub_lt hpos Nat.one_pos) Nat.one_pos,List.length_nil]
    simp
  rw [getBlockLocator,Nat.sub_add_cancel hpos,hloop]
  constructor
  · rintro ⟨locator,hlocator,-⟩ i hnone
    have hmap := mapM_eq_some.mp hlocator
    have hmem := List.mem_map_of_mem (f := s.getBlockHash) ((mem_locatorHeights hpos).mpr ⟨i,rfl⟩)
    rw [hmap,hnone] at hmem
    obtain ⟨hash,-,hsome⟩ := List.mem_map.mp hmem
    contradiction
  · intro hall
    have hsome : ∀ height ∈ locatorHeights s._mainChain.length (s._mainChain.length - 1) 1 0,
        ∃ hash, s.getBlockHash height = some hash := by
      intro height hheight
      obtain ⟨i,rfl⟩ := (mem_locatorHeights hpos).mp hheight
      exact Option.ne_none_iff_exists'.mp (hall i)
    have hmap : (locatorHeights s._mainChain.length (s._mainChain.length - 1) 1 0).map s.getBlockHash =
        (locatorHeights s._mainChain.length (s._mainChain.length - 1) 1 0).map s.mainChainHash := by
      refine List.map_congr_left fun height hheight => ?_
      obtain ⟨hash,hget⟩ := hsome height hheight
      rw [hget,(run_recorded h).mainChainHash (hlocates.inside height hheight) hget]
    obtain ⟨hashes,hhashes⟩ := exists_mapM hsome
    rw [hhashes]
    exact ⟨hashes,rfl,_,hlocates,(mapM_eq_some.mp hhashes).symm.trans hmap⟩

end Hashes

theorem getBlockLocator_genesis : (∃ locator, genesisStore.getBlockLocator genesisHash = some locator ∧
    genesisStore.LocatesMainChain locator) ↔
      ∀ i, genesisStore.getBlockHash (genesisStore._mainChain.length - 1 - depth i) ≠ none :=
  getBlockLocator_iff genesisStore_run (List.cons_ne_nil _ _) genesisHash

/-- The store that was loaded from a file with the genesis block, when this is added again. -/
def restartedStore : Blockchain := { restoredStore.setHeight 1 0 with _mainChain := [1] }

theorem restartedStore_run : Run genesisHash ([] ++ [.load restoredLoading] ++
    [.call (.addBlock ⟨genesisHeader,[]⟩)]) restartedStore := by
  have hid : restoredStore._blockIds genesisHeader.hash = some 1 := by
    have hchild : Table.emplace (fun _ => none) childHeader.hash 0 genesisHeader.hash = none := by
      rw [Table.emplace_eq rfl,childHeader_hash,genesisHeader_hash,if_neg childHash_ne.symm]
    have hfill (s : Blockchain) (header : BlockHeader) :
        (s.fillBlock header)._blockIds = s._blockIds.emplace header.hash s._blocks.length := rfl
    have hempty : (empty genesisHash)._blockIds = fun _ => none := rfl
    rw [restoredStore,hfill,hfill,hempty]
    exact (Table.emplace_eq hchild _ _).trans (if_pos rfl)
  have hconnect : restoredStore.connectToAncestor 1 = .returned true restartedStore := by
    have hblock : restoredStore._blocks[1]? = some ⟨genesisHeader,none,none,none⟩ := rfl
    rw [connectToAncestor_start rfl hblock,if_neg]
    · rfl
    · rw [not_or,not_not,not_not]
      exact ⟨genesisHeader_hash,genesisHeader_prev⟩
  have hroot : genesisHeader._merkle = MerkleRoot (MerkleLeaves []) := MerkleRoot_nil.symm
  have hperform : restoredStore.perform (.addBlock ⟨genesisHeader,[]⟩) = .returned true restartedStore := by
    rw [perform,addBlock,if_neg (not_not.mpr hroot)]
    simp only [hasBlockHeader,hid,Option.isSome_some,if_true,List.foldl_nil]
    rw [hconnect]
    rfl
  exact .call restoredStore_run hperform

/-- The genesis block of a chain that was loaded has no hash in the table. -/
theorem restartedStore_no_locator : ¬ ∀ (genesis : uint256) (steps : List Step) (s : Blockchain) (blockHash : uint256),
    Run genesis steps s → s._mainChain ≠ [] →
      ∃ locator, s.getBlockLocator blockHash = some locator ∧ s.LocatesMainChain locator := by
  intro h
  obtain ⟨locator,hlocator,-⟩ := h genesisHash _ restartedStore genesisHash restartedStore_run (List.cons_ne_nil _ _)
  have hnone : restartedStore.getBlockHash 0 = none := rfl
  have hloop : restartedStore.getBlockLocator genesisHash = none := rfl
  rw [hloop] at hlocator
  contradiction

end Blockchain
end Tkeycoin
