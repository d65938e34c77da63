import Tkeycoin.ArrivalOrder
import Tkeycoin.HeaderSync

/-! Two nodes, of which one asks the other for headers: `Peer::AskHeaders`, `Peer::SendHeaders` and
`Peer::ReceiveHeaders`. -/
namespace Tkeycoin

/-- How many members two lists have in common from their starts. -/
def common {α : Type} [DecidableEq α] : List α → List α → ℕ
  | a :: l, b :: m => if a = b then common l m + 1 else 0
  | _, _ => 0

theorem common_le {α : Type} [DecidableEq α] (l m : List α) : common l m ≤ l.length := by
  induction l generalizing m with
  | nil => rfl
  | cons a l ih =>
    cases m with
    | nil => exact Nat.zero_le _
    | cons b m =>
      rw [common]
      split_ifs
      · exact Nat.succ_le_succ (ih m)
      · exact Nat.zero_le _

namespace Blockchain

section Definitions

variable (s : Blockchain)

/-- The hash of no block where there is none. -/
def getTopBlockHash : Option uint256 :=
  match s.getHeight with
  | 0 => some Blob.null
  | height+1 => s.getBlockHash height

/-- The loop of `getBlockLocator`, which goes down by longer steps behind the tenth entry. `none`
is an assertion of `getBlockHash`, or a loop that outlasts its rounds. -/
def locatorLoop : ℕ → ℕ → ℕ → List uint256 → Option (List uint256)
  | 0, _, _, _ => none
  | rounds+1, height, step, locator => do
    let hash ← s.getBlockHash height
    let locator := locator ++ [hash]
    if height = 0 then pure locator
    else
      let step := if locator.length > 10 then step <<< 1 else step
      locatorLoop rounds (if height > step then height - step else 0) step locator

/-- `getBlockLocator(blockHash)`, which starts at the top whatever block it is given. -/
def getBlockLocator (_blockHash : uint256) : Option (List uint256) :=
  let height := s._mainChain.length - 1
  s.locatorLoop (height + 1) height 1 []

/-- The locator and the stop hash with which `initialSetup`, and the task that `ReceiveHeaders`
enqueues, ask a peer. -/
def askHeaders : Option (List uint256 × uint256) := do
  let locator ← s.getBlockLocator (← s.getTopBlockHash)
  let stopHash ← s.getTopBlockHash
  pure (locator,stopHash)

/-- `SendHeaders`: the headers that are transmitted, if there are any. -/
def sendHeaders (locator : List uint256) (stopHash : uint256) : Option (List BlockHeader) := do
  let headers ← s.getBlockHeaders locator stopHash
  headers.mapM fun header => do
    let id ← header
    let block ← s._blocks[id]?
    pure block.header

/-- A header that is received: its block is asked for if it is new. -/
def receiveHeader (received : List uint256 × Blockchain) (header : BlockHeader) : List uint256 × Blockchain :=
  let (inventory,s) := received
  let (added,s) := s.addBlockHeader header none
  (if added then inventory ++ [header.hash] else inventory,s)

/-- `ReceiveHeaders`: the hashes of the blocks that are asked for. -/
def receiveHeaders (headers : List BlockHeader) : List uint256 × Blockchain :=
  headers.foldl receiveHeader ([],s)

/-- The headers of the main chain, from the genesis block on. -/
def mainHeaders : List BlockHeader := s._mainChain.filterMap fun id => s._blocks[id]?.map StoredBlock.header

end Definitions

/-- The headers that B sends for what A asks: the first ones of its main chain behind the last one
that the main chains have in common are among them, in their order, and A takes one that is new. -/
def Progress (A B : Blockchain) : Prop :=
  ∃ locator stopHash headers, A.askHeaders = some (locator,stopHash) ∧
    B.sendHeaders locator stopHash = some headers ∧
    (∃ n > 0, ((B.mainHeaders.drop (common A.mainHashes B.mainHashes)).take n).Sublist headers) ∧
    (A.receiveHeaders headers).1 ≠ []

/-- The heights from which a locator has its entries. -/
def locatorHeights : ℕ → ℕ → ℕ → ℕ → List ℕ
  | 0, _, _, _ => []
  | rounds+1, height, step, size =>
    height :: if height = 0 then []
      else
        let step := if size + 1 > 10 then step <<< 1 else step
        locatorHeights rounds (if height > step then height - step else 0) step (size + 1)

/-- The first block of a locator of A that B has connected is the first one behind which B's main
chain leaves A's, so that it is on a side branch of B, and A does not know B's block beside it. -/
structure LeavesBeside (A B : Blockchain) : Prop where
  found : (locatorHeights A._mainChain.length (A._mainChain.length - 1) 1 0).findSome?
    (fun height => (A.getBlockHash height).bind B.connectedHeight) =
      some (common A.mainHashes B.mainHashes)
  unknown : ∀ hash, B.mainHashes[common A.mainHashes B.mainHashes]? = some (some hash) →
    ¬ hash.isNull ∧ A._blockIds hash = none

section Locator

variable {s : Blockchain}

theorem mapM_eq_some {α β : Type} {f : α → Option β} {l : List α} {m : List β} :
    l.mapM f = some m ↔ l.map f = m.map some := by
  induction l generalizing m with
  | nil => cases m <;> simp
  | cons a l ih =>
    rw [List.mapM_cons,List.map_cons]
    cases m with
    | nil => simp [Option.bind_eq_some_iff]
    | cons b m =>
      rw [List.map_cons,List.cons.injEq,← ih]
      simp [Option.bind_eq_some_iff]

theorem exists_mapM {α β : Type} {f : α → Option β} {l : List α} (h : ∀ a ∈ l, ∃ b, f a = some b) :
    ∃ m, l.mapM f = some m := by
  induction l with
  | nil => exact ⟨[],rfl⟩
  | cons a l ih =>
    obtain ⟨b,hb⟩ := h a List.mem_cons_self
    obtain ⟨m,hm⟩ := ih fun c hc => h c (List.mem_cons_of_mem _ hc)
    exact ⟨b :: m,by simp [List.mapM_cons,hb,hm]⟩

/-- The loop looks up the hash at each of the heights. -/
theorem locatorLoop_mapM {rounds height step : ℕ} (locator : List uint256) (hrounds : height < rounds)
    (hstep : 0 < step) : s.locatorLoop rounds height step locator =
      ((locatorHeights rounds height step locator.length).mapM s.getBlockHash).map (locator ++ ·) := by
  induction rounds generalizing height step locator with
  | zero => contradiction
  | succ rounds ih =>
    rw [locatorLoop,locatorHeights,List.mapM_cons]
    cases hget : s.getBlockHash height with
    | none => rfl
    | some hash =>
      simp only [bind,Option.bind_some,pure,List.length_append,List.length_singleton]
      by_cases hzero : height = 0
      · rw [if_pos hzero,if_pos hzero]
        rfl
      · rw [if_neg hzero,if_neg hzero]
        have hpos : 0 < if locator.length + 1 > 10 then step <<< 1 else step := by
          split_ifs
          · rw [Nat.shiftLeft_eq]
            omega
          · exact hstep
        generalize (if locator.length + 1 > 10 then step <<< 1 else step) = next at hpos ⊢
        have hless : (if height > next then height - next else 0) < rounds := by split_ifs <;> omega
        rw [ih (locator ++ [hash]) hless hpos,List.length_append,List.length_singleton]
        cases (locatorHeights rounds (if height > next then height - next else 0) next
          (locator.length + 1)).mapM s.getBlockHash with
        | none => rfl
        | some hashes => simp

theorem locatorHeights_le {rounds height step size : ℕ} :
    ∀ h ∈ locatorHeights rounds height step size, h ≤ height := by
  induction rounds generalizing height step size with
  | zero => exact List.forall_mem_nil _
  | succ rounds ih =>
    rw [locatorHeights,List.forall_mem_cons]
    refine ⟨Nat.le_refl _,fun h hh => ?_⟩
    by_cases hzero : height = 0
    · rw [if_pos hzero] at hh
      exact absurd hh List.not_mem_nil
    · rw [if_neg hzero] at hh
      have hle := ih h hh
      split_ifs at hle <;> omega

/-- Each entry is the hash at its height. -/
theorem locatorLoop_eq (hi : s.Indexed) (hc : s.Chained) {rounds height step : ℕ} (locator : List uint256)
    (hrounds : height < rounds) (hstep : 0 < step) (hheight : height < s._mainChain.length) :
    ∃ hashes, s.locatorLoop rounds height step locator = some (locator ++ hashes) ∧
      hashes.map some = (locatorHeights rounds height step locator.length).map s.getBlockHash := by
  have hsome : ∀ h ∈ locatorHeights rounds height step locator.length, ∃ hash, s.getBlockHash h = some hash := by
    intro h hh
    obtain ⟨hash,-,hget⟩ := mainHashes_some hi hc (Nat.lt_of_le_of_lt (locatorHeights_le h hh) hheight)
    exact ⟨hash,hget⟩
  obtain ⟨hashes,hhashes⟩ := exists_mapM hsome
  refine ⟨hashes,?_,(mapM_eq_some.mp hhashes).symm⟩
  rw [locatorLoop_mapM locator hrounds hstep,hhashes]
  rfl

theorem getTopBlockHash_eq (hi : s.Indexed) (hc : s.Chained) (hmain : s._mainChain ≠ []) :
    ∃ top id, s.getTopBlockHash = some top ∧ s._blockIds top = some id := by
  have hpos := List.length_pos_of_ne_nil hmain
  obtain ⟨top,htop,hget⟩ := mainHashes_some hi hc (Nat.sub_lt hpos Nat.one_pos)
  obtain ⟨id,-,hid⟩ := (mainHashes_eq hi).mp htop
  refine ⟨top,id,?_,hid⟩
  have hheight : s.getHeight = s._mainChain.length - 1 + 1 := (Nat.sub_add_cancel hpos).symm
  rw [getTopBlockHash,hheight]
  exact hget

/-- A node with a chain asks with the hashes at the heights of a locator, and with its top hash. -/
theorem askHeaders_eq (hi : s.Indexed) (hc : s.Chained) (hmain : s._mainChain ≠ []) :
    ∃ locator top id, s.askHeaders = some (locator,top) ∧ s._blockIds top = some id ∧
      ∀ f : uint256 → Option ℕ, locator.findSome? f =
        (locatorHeights s._mainChain.length (s._mainChain.length - 1) 1 0).findSome?
          fun height => (s.getBlockHash height).bind f := by
  obtain ⟨top,id,htop,hid⟩ := getTopBlockHash_eq hi hc hmain
  have hpos := List.length_pos_of_ne_nil hmain
  have hrounds : s._mainChain.length - 1 + 1 = s._mainChain.length := Nat.sub_add_cancel hpos
  obtain ⟨hashes,hloop,hmap⟩ := locatorLoop_eq hi hc [] (Nat.sub_lt hpos Nat.one_pos) Nat.one_pos
    (Nat.sub_lt hpos Nat.one_pos)
  refine ⟨hashes,top,id,?_,hid,fun f => ?_⟩
  · rw [askHeaders,htop]
    simp only [getBlockLocator,hrounds,hloop,bind,Option.bind_some,pure,List.nil_append]
  · have hsome : hashes.findSome? f = (hashes.map some).findSome? fun hash => hash.bind f := by
      rw [List.findSome?_map]
      rfl
    rw [hsome,hmap,List.findSome?_map]
    rfl

end Locator

section Send

variable {s : Blockchain} {locator : List uint256} {stopHash : uint256}

/-- What is transmitted: nothing, or the header at the height of the first connected entry, 1001 times. -/
theorem sendHeaders_eq (hi : s.Indexed) (hc : s.Chained) :
    s.Silent locator stopHash ∧ s.sendHeaders locator stopHash = some [] ∨
      ¬ s.Silent locator stopHash ∧ ∃ (height id : ℕ) (b : StoredBlock),
        locator.findSome? s.connectedHeight = some height ∧ s._mainChain[height]? = some id ∧
        s._blocks[id]? = some b ∧ s.sendHeaders locator stopHash = some (List.replicate 1001 b.header) := by
  have hmapM (n id : ℕ) (b : StoredBlock) (hb : s._blocks[id]? = some b) :
      (List.replicate n (some id)).mapM (fun header : Option ℕ => do
        let id ← header
        let block ← s._blocks[id]?
        pure block.header) = some (List.replicate n b.header) := by
    induction n with
    | zero => rfl
    | succ n ih =>
      rw [List.replicate_succ,List.mapM_cons,ih]
      simp only [hb,bind,Option.bind_some,pure,List.replicate_succ]
  rcases @getBlockHeaders_eq s locator stopHash hi hc with ⟨hsilent,hnone⟩ | ⟨hsilent,height,id,hfirst,hid,hmany⟩
  · exact .inl ⟨hsilent,by rw [sendHeaders,hnone]; rfl⟩
  · obtain ⟨b,hb,-⟩ := block_of_height (hc.branch.height hid)
    refine .inr ⟨hsilent,height,id,b,hfirst,hid,hb,?_⟩
    rw [sendHeaders,hmany]
    exact hmapM 1001 id b hb

theorem filterMap_getElem? {α β : Type} {f : α → Option β} {l : List α} (h : ∀ a ∈ l, (f a).isSome) (i : ℕ) :
    (l.filterMap f)[i]? = l[i]?.bind f := by
  induction l generalizing i with
  | nil => rfl
  | cons a l ih =>
    obtain ⟨ha,hl⟩ := List.forall_mem_cons.mp h
    obtain ⟨b,hb⟩ := Option.isSome_iff_exists.mp ha
    rw [List.filterMap_cons_some hb]
    cases i with
    | zero => exact hb.symm
    | succ i => exact ih hl i

theorem mainHeaders_eq (hc : s.Chained) (height : ℕ) : s.mainHeaders[height]? =
    s._mainChain[height]?.bind fun id => s._blocks[id]?.map StoredBlock.header := by
  refine filterMap_getElem? (fun id hid => ?_) height
  obtain ⟨i,hi⟩ := List.mem_iff_getElem?.mp hid
  obtain ⟨b,hb,-⟩ := block_of_height (hc.branch.height hi)
  rw [hb]
  rfl

end Send

section Receive

variable {s : Blockchain} {header : BlockHeader}

theorem receiveHeader_known (hknown : s.hasBlockHeader header.hash = true) (inventory : List uint256) :
    receiveHeader (inventory,s) header = (inventory,s) := by
  simp only [receiveHeader,addBlockHeader_known hknown,Bool.false_eq_true,if_false]

theorem receiveHeader_new (hnew : s._blockIds header.hash = none) (inventory : List uint256) :
    (receiveHeader (inventory,s) header).1 = inventory ++ [header.hash] := by
  simp only [receiveHeader,addBlockHeader_new hnew,if_true]

/-- What was asked for stays so. -/
theorem receiveHeaders_append (headers : List BlockHeader) (received : List uint256 × Blockchain) :
    received.1 <+: (headers.foldl receiveHeader received).1 := by
  induction headers generalizing received with
  | nil => exact List.prefix_rfl
  | cons header headers ih =>
    refine List.IsPrefix.trans ?_ (ih (receiveHeader received header))
    obtain ⟨inventory,s⟩ := received
    unfold receiveHeader
    dsimp only
    split_ifs
    · exact List.prefix_append _ _
    · exact List.prefix_rfl

/-- A header that comes again and again is asked for if it is new. -/
theorem receiveHeaders_replicate (n : ℕ) : (s.receiveHeaders (List.replicate (n + 1) header)).1 ≠ [] ↔
    s._blockIds header.hash = none := by
  cases hid : s._blockIds header.hash with
  | some id =>
    have hknown := hasBlockHeader_of_id hid
    have hall (k : ℕ) : s.receiveHeaders (List.replicate k header) = ([],s) := by
      induction k with
      | zero => rfl
      | succ k ih =>
        rw [receiveHeaders,List.replicate_succ,List.foldl_cons,receiveHeader_known hknown]
        exact ih
    rw [hall]
    exact iff_of_false (fun h => h rfl) nofun
  | none =>
    refine iff_of_true (fun hnone => ?_) rfl
    rw [receiveHeaders,List.replicate_succ,List.foldl_cons] at hnone
    have happend := receiveHeaders_append (List.replicate n header) (receiveHeader ([],s) header)
    rw [hnone,receiveHeader_new hid] at happend
    exact absurd (List.prefix_nil.mp happend) (List.cons_ne_nil _ _)

end Receive

section Progress

variable {A B : Blockchain}

/-- The block of B's main chain where it leaves A's. -/
theorem fork_block (hi : B.Indexed) (hc : B.Chained) (hlonger : A._mainChain.length < B._mainChain.length) :
    ∃ (id : ℕ) (b : StoredBlock), B._mainChain[common A.mainHashes B.mainHashes]? = some id ∧
      B._blocks[id]? = some b ∧ B.mainHeaders[common A.mainHashes B.mainHashes]? = some b.header ∧
      B.mainHashes[common A.mainHashes B.mainHashes]? = some (some b.hash) := by
  have hle := common_le A.mainHashes B.mainHashes
  rw [mainHashes,List.length_map,← mainHashes] at hle
  have hid := List.getElem?_eq_getElem (hle.trans_lt hlonger)
  obtain ⟨b,hb,-⟩ := block_of_height (hc.branch.height hid)
  refine ⟨_,b,hid,hb,?_,(mainHashes_eq hi).mpr ⟨_,hid,(hi.block hb).1⟩⟩
  rw [mainHeaders_eq hc,hid,Option.bind_some,hb]
  rfl

theorem Progress.leavesBeside (hiA : A.Indexed) (hcA : A.Chained) (hiB : B.Indexed) (hcB : B.Chained)
    (hmain : A._mainChain ≠ []) (hlonger : A._mainChain.length < B._mainChain.length)
    (h : Progress A B) : LeavesBeside A B := by
  obtain ⟨locator,stopHash,headers,hask,hsend,⟨n,hn,hsub⟩,hreceive⟩ := h
  obtain ⟨locator',top,topId,hask',htop,hheights⟩ := askHeaders_eq hiA hcA hmain
  obtain ⟨rfl,rfl⟩ := Prod.mk.inj (Option.some.inj (hask.symm.trans hask'))
  obtain ⟨id,b,hid,hb,hheader,hhash⟩ := fork_block hiB hcB hlonger
  -- B's header behind the last common block is sent
  have hsent : b.header ∈ headers := by
    refine hsub.subset (List.mem_of_getElem? (i := 0) ?_)
    rw [List.getElem?_take_of_lt hn,List.getElem?_drop,Nat.add_zero,hheader]
  rcases @sendHeaders_eq B locator stopHash hiB hcB with
    ⟨-,hnone⟩ | ⟨hsilent,height,id',b',hfirst,hid',hb',hmany⟩
  · rw [Option.some.inj (hsend.symm.trans hnone)] at hsent
    exact absurd hsent List.not_mem_nil
  · obtain rfl := Option.some.inj (hsend.symm.trans hmany)
    have hsame : b.header = b'.header := List.eq_of_mem_replicate hsent
    have hids : some id = some id' := by
      rw [← (hiB.block hb).1,← (hiB.block hb').1,StoredBlock.hash,StoredBlock.hash,hsame]
    obtain rfl := Option.some.inj hids
    have hheight := hcB.branch.index_unique hid' hid
    refine ⟨by rw [← hheights,hfirst,hheight],fun hash hforked => ?_⟩
    obtain rfl := Option.some.inj (Option.some.inj (hhash.symm.trans hforked))
    constructor
    · intro hnull
      refine hsilent fun height' hash' hfirst' hmain' => .inl ?_
      obtain rfl := Option.some.inj (hfirst.symm.trans hfirst')
      rw [hheight,hhash] at hmain'
      rw [← Option.some.inj (Option.some.inj hmain')]
      exact hnull
    · rw [StoredBlock.hash,hsame]
      exact (receiveHeaders_replicate 1000).mp hreceive

theorem LeavesBeside.progress (hiA : A.Indexed) (hcA : A.Chained) (hiB : B.Indexed) (hcB : B.Chained)
    (hmain : A._mainChain ≠ []) (hlonger : A._mainChain.length < B._mainChain.length)
    (h : LeavesBeside A B) : Progress A B := by
  obtain ⟨locator,top,topId,hask,htop,hheights⟩ := askHeaders_eq hiA hcA hmain
  obtain ⟨id,b,hid,hb,hheader,hhash⟩ := fork_block hiB hcB hlonger
  obtain ⟨hnotNull,hnew⟩ := h.unknown b.hash hhash
  have hfirst : locator.findSome? B.connectedHeight = some (common A.mainHashes B.mainHashes) :=
    (hheights _).trans h.found
  have hsilent : ¬ B.Silent locator top := by
    intro hsilent
    rcases hsilent _ _ hfirst hhash with hnull | rfl
    · exact hnotNull hnull
    · exact absurd (hnew.symm.trans htop) nofun
  rcases @sendHeaders_eq B locator top hiB hcB with
    ⟨hsilent',-⟩ | ⟨-,height,id',b',hfirst',hid',hb',hmany⟩
  · exact absurd hsilent' hsilent
  · obtain rfl := Option.some.inj (hfirst.symm.trans hfirst')
    obtain rfl := Option.some.inj (hid.symm.trans hid')
    obtain rfl := Option.some.inj (hb.symm.trans hb')
    refine ⟨locator,top,_,hask,hmany,⟨1,Nat.one_pos,?_⟩,(receiveHeaders_replicate 1000).mpr hnew⟩
    rw [List.take_one,List.head?_drop,hheader,Option.toList_some,List.singleton_sublist]
    exact List.mem_replicate.mpr ⟨by omega,rfl⟩

end Progress

/-- The genesis block and a block behind it. -/
def chainStore : Blockchain :=
  match genesisStore.addBlock ⟨childHeader,[]⟩ with
  | .returned _ s => s
  | _ => genesisStore

theorem genesisStore_new : genesisStore._blockIds childHeader.hash = none := by
  have htable : genesisStore._blockIds = Table.emplace (fun _ => none) genesisHeader.hash 0 := rfl
  rw [htable,Table.emplace_eq rfl,if_neg hashes_ne]

theorem chainStore_addBlock : genesisStore.addBlock ⟨childHeader,[]⟩ = .returned true chainStore := by
  obtain ⟨hi,hc,-⟩ := run_preserved genesisStore_run genesisStore_noBlock
  have hwait : genesisStore.waiting childHeader.hash = [] := rfl
  obtain ⟨s,hadd⟩ := @addBlock_new_returns genesisStore ⟨childHeader,[]⟩ hi hc genesisStore_new
    MerkleRoot_nil.symm fun _ => hwait
  rw [chainStore,hadd]

theorem chainStore_run : Run genesisHash ([] ++ [.load ⟨fun _ => true,fun _ => 0,none⟩] ++
    [.call (.addBlock ⟨genesisHeader,[]⟩)] ++ [.call (.addBlock ⟨childHeader,[]⟩)]) chainStore := by
  have hperform : genesisStore.perform (.addBlock ⟨childHeader,[]⟩) = .returned true chainStore :=
    chainStore_addBlock
  exact .call genesisStore_run hperform

theorem chainStore_noBlock : FoundNoBlock ([] ++ [.load ⟨fun _ => true,fun _ => 0,none⟩] ++
    [.call (.addBlock ⟨genesisHeader,[]⟩)] ++ [.call (.addBlock ⟨childHeader,[]⟩)]) := by
  intro loading hmem
  rcases List.mem_append.mp hmem with hmem | hmem
  · exact genesisStore_noBlock loading hmem
  · exact absurd (List.mem_singleton.mp hmem) nofun

theorem chainStore_longer : genesisStore._mainChain.length < chainStore._mainChain.length := by
  have hadds : Adds genesisHash ([] ++ [⟨genesisHeader,[]⟩] ++ [⟨childHeader,[]⟩]) chainStore :=
    .add (.add .empty genesisStore_addBlock) chainStore_addBlock
  obtain ⟨-,hc,-⟩ := reachable_preserved hadds.reachable
  have hgenesis : (lineage genesisHash).Depth [⟨genesisHeader,[]⟩,⟨childHeader,[]⟩] ⟨genesisHeader,[]⟩ 0 :=
    .root (by simp) genesisBlock_root
  have hall := connectsAll_of_parentsFirst parentFirst_arrives parentFirst_parentsFirst
  have hchild := (hall.2 chainStore hadds hc.idle ⟨childHeader,[]⟩ (by simp) 1).mpr
    (.child hgenesis (by simp) childBlock_prev)
  obtain ⟨id,-,hheight⟩ := Option.bind_eq_some_iff.mp hchild
  have hone : genesisStore._mainChain.length = 1 := rfl
  rw [hone]
  exact hc.highest hheight

theorem mainHashes_genesis {s : Blockchain} (hi : s.Indexed) (hc : s.Chained) (hmain : s._mainChain ≠ []) :
    s.mainHashes[0]? = some (some s._genesisBlockHash) := by
  have hid := List.getElem?_eq_getElem (List.length_pos_of_ne_nil hmain)
  obtain ⟨b,hb,hhash,-⟩ := hc.genesis hid
  exact (mainHashes_eq hi).mpr ⟨_,hid,hhash ▸ (hi.block hb).1⟩

end Blockchain
end Tkeycoin
