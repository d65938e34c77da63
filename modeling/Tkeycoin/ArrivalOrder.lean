import Mathlib.Data.List.Induction
import Tkeycoin.Lineage
import Tkeycoin.Reconnection

/-! Blocks that arrive in some order, and which of them are connected in the end. -/
namespace Tkeycoin
namespace Blockchain

/-- Blocks by their hashes and their previous blocks, from the genesis block on. -/
def lineage (genesis : uint256) : Lineage Block uint256 where
  key block := block.header.hash
  prev block := block.header._prev
  root block := block.header.hash = genesis ∧ block.header._prev.isNull

/-- Valid blocks with distinct hashes, of which none stands before the genesis block. -/
structure Arrives (genesis : uint256) (l : List Block) : Prop where
  valid : ∀ block ∈ l, rootMatches block
  distinct : (lineage genesis).Distinct l

theorem Arrives.left {genesis : uint256} {l l' : List Block} (h : Arrives genesis (l ++ l')) :
    Arrives genesis l :=
  ⟨fun block hmem => h.valid block (List.mem_append_left _ hmem),h.distinct.left⟩

/-- The stores that blocks lead to in the order in which they are added, with tasks run at any time. -/
inductive Adds (genesis : uint256) : List Block → Blockchain → Prop
  | empty : Adds genesis [] (empty genesis)
  | add {l s block result s'} : Adds genesis l s → s.perform (.addBlock block) = .returned result s' →
      Adds genesis (l ++ [block]) s'
  | task {l s id result s'} : Adds genesis l s → s.perform (.task id) = .returned result s' →
      Adds genesis l s'

def Connected (s : Blockchain) (block : Block) (height : ℕ) : Prop :=
  (s._blockIds block.header.hash).bind s.tree.height = some height

/-- All blocks can be added and all tasks be run, and then those blocks are connected all of whose
ancestors were added, at their depths. -/
def ConnectsAll (genesis : uint256) (l : List Block) : Prop :=
  (∃ s, Adds genesis l s ∧ s.tasks = []) ∧ ∀ s, Adds genesis l s → s.tasks = [] →
    ∀ block ∈ l, ∀ height, s.Connected block height ↔ (lineage genesis).Depth l block height

theorem Adds.reachable {genesis : uint256} {l : List Block} {s : Blockchain} (h : Adds genesis l s) :
    Reachable genesis s := by
  induction h with
  | empty => exact .empty
  | add _ hperform ih => exact .call ih hperform
  | task _ hperform ih => exact .call ih hperform

/-- A task that is run finds nothing to do. -/
theorem Adds.task_eq {genesis : uint256} {l : List Block} {s s' : Blockchain} (h : Adds genesis l s) {id : ℕ}
    {result : Bool} (hperform : s.perform (.task id) = .returned result s') : s' = s := by
  obtain ⟨-,hc,-⟩ := reachable_preserved h.reachable
  exact (Outcome.returned.inj ((hc.perform_task id).symm.trans hperform)).2.symm

section New

variable {s s' : Blockchain} {block : Block}

/-- What a new block is stored as. -/
def entry (s : Blockchain) (block : Block) : StoredBlock :=
  ⟨block.header,some block.txList,some s._blocks.length,none⟩

/-- A new block goes to the end of the store. -/
theorem stored_new (hnew : s._blockIds block.header.hash = none) :
    (s.stored block)._blocks = s._blocks ++ [s.entry block] ∧
      (s.stored block)._orphanBlocks = s._orphanBlocks ∧ (s.stored block)._mainChain = s._mainChain ∧
      (s.stored block)._genesisBlockHash = s._genesisBlockHash := by
  obtain ⟨transactions,txIds,txHashes,hstored⟩ := stored_eq s block
  rw [hstored,addBlockHeader_new hnew]
  exact ⟨rfl,rfl,rfl,rfl⟩

theorem stored_height (i : ℕ) : (s.stored block).tree.height i = s.tree.height i := by
  obtain ⟨transactions,txIds,txHashes,hstored⟩ := stored_eq s block
  rw [hstored]
  exact addBlockHeader_height i

theorem stored_entry (hnew : s._blockIds block.header.hash = none) :
    (s.stored block)._blocks[s._blocks.length]? = some (s.entry block) := by
  rw [(stored_new hnew).1,List.getElem?_concat_length]

theorem addBlock_entry (hi : s.Indexed) (hc : s.Chained) (hnew : s._blockIds block.header.hash = none)
    (hroot : rootMatches block) : s.addBlock block =
      ((s.stored block).connectToAncestor s._blocks.length).bind fun _ s => .returned true s := by
  obtain ⟨id,b,hb,hhash,hadd⟩ := addBlock_connects hi block hroot
  obtain ⟨hi₁,-,-⟩ := stored_preserved hi hc block
  have hid := (hi₁.block hb).1
  have hlast := (hi₁.block (stored_entry hnew)).1
  rw [hhash] at hid
  rw [hadd,Option.some.inj (hid.symm.trans hlast)]

/-- What adding a new block leads to: it is not connected, and may wait, or it is connected and
nobody waits for it. -/
theorem addBlock_new_returned (hi : s.Indexed) (hc : s.Chained)
    (hnew : s._blockIds block.header.hash = none) (hroot : rootMatches block) {result : Bool}
    (h : s.addBlock block = .returned result s') :
    (¬ (s.stored block).Connects (s.entry block) ∧ ∃ orphans,
        s' = { s.stored block with _orphanBlocks := orphans } ∧
        orphans ⊆ (block.header._prev,s._blocks.length) :: s._orphanBlocks) ∨
      ∃ height m, (s.stored block).NewHeight (s.entry block) height ∧
        s' = { (s.stored block).setHeight s._blocks.length height with _mainChain := m } := by
  obtain ⟨hi₁,hc₁,-⟩ := stored_preserved hi hc block
  rw [addBlock_entry hi hc hnew hroot] at h
  obtain ⟨connected,s₁,hconnect,hreturned⟩ := bind_returned h
  obtain ⟨-,rfl⟩ := Outcome.returned.inj hreturned
  by_cases hconnects : (s.stored block).Connects (s.entry block)
  · obtain ⟨height,m,hheight,hable⟩ := connectToAncestor_able hi₁ hc₁ (stored_entry hnew) hconnects rfl
    rw [hable] at hconnect
    obtain ⟨-,rfl⟩ := findDescendants_returned hconnect
    exact .inr ⟨height,m,hheight,rfl⟩
  · obtain ⟨orphans,hunable,hsub⟩ := connectToAncestor_unable hi₁ (stored_entry hnew) hconnects
    rw [hunable] at hconnect
    obtain ⟨-,rfl⟩ := Outcome.returned.inj hconnect
    rw [(stored_new hnew).2.1] at hsub
    exact .inl ⟨hconnects,orphans,rfl,hsub⟩

/-- A new block is added where it is not connected or nobody waits for it. -/
theorem addBlock_new_returns (hi : s.Indexed) (hc : s.Chained)
    (hnew : s._blockIds block.header.hash = none) (hroot : rootMatches block)
    (h : (s.stored block).Connects (s.entry block) → s.waiting block.header.hash = []) :
    ∃ s', s.addBlock block = .returned true s' := by
  obtain ⟨hi₁,hc₁,-⟩ := stored_preserved hi hc block
  rw [addBlock_entry hi hc hnew hroot]
  by_cases hconnects : (s.stored block).Connects (s.entry block)
  · obtain ⟨height,m,-,hable⟩ := connectToAncestor_able hi₁ hc₁ (stored_entry hnew) hconnects rfl
    have hwait : (s.stored block).waiting block.header.hash = [] := by
      rw [waiting,(stored_new hnew).2.1]
      exact h hconnects
    exact ⟨_,by rw [hable,findDescendants]; exact congrArg (fun x => Outcome.bind x _) (if_pos hwait)⟩
  · obtain ⟨orphans,hunable,-⟩ := connectToAncestor_unable hi₁ (stored_entry hnew) hconnects
    exact ⟨_,by rw [hunable]; rfl⟩

/-- The headers of the blocks, and the heights of those before. -/
theorem addBlock_new_blocks (hi : s.Indexed) (hc : s.Chained)
    (hnew : s._blockIds block.header.hash = none) (hroot : rootMatches block) {result : Bool}
    (h : s.addBlock block = .returned result s') :
    s'._blocks.map StoredBlock.header = s._blocks.map StoredBlock.header ++ [block.header] ∧
      ∀ i < s._blocks.length, s'.tree.height i = s.tree.height i := by
  have hheaders : (s.stored block)._blocks.map StoredBlock.header =
      s._blocks.map StoredBlock.header ++ [block.header] := by
    rw [(stored_new hnew).1,List.map_append]
    rfl
  rcases addBlock_new_returned hi hc hnew hroot h with ⟨-,orphans,rfl,-⟩ | ⟨height,m,-,rfl⟩
  · exact ⟨hheaders,fun i _ => stored_height i⟩
  · refine ⟨?_,fun i hlt => ?_⟩
    · have hsame := (setHeight_same (s.stored block) s._blocks.length height).blocks
      have hfst := congrArg (List.map Prod.fst) hsame
      rw [List.map_map,List.map_map] at hfst
      exact hfst.trans hheaders
    · have hheight := setHeight_height (n := height) (stored_entry hnew) i
      rw [if_neg (Nat.ne_of_lt hlt),stored_height] at hheight
      exact hheight

end New

section Holds

variable {genesis : uint256} {l : List Block} {s s' : Blockchain} {block : Block}

theorem getElem?_of_headers (h : s._blocks.map StoredBlock.header = l.map Block.header) {id : ℕ} {b : StoredBlock}
    (hb : s._blocks[id]? = some b) : ∃ block, l[id]? = some block ∧ block.header = b.header := by
  have hget : (l.map Block.header)[id]? = some b.header := by rw [← h,List.getElem?_map,hb]; rfl
  rwa [List.getElem?_map,Option.map_eq_some_iff] at hget

theorem stored_of_headers (h : s._blocks.map StoredBlock.header = l.map Block.header) {id : ℕ}
    (hb : l[id]? = some block) : ∃ b, s._blocks[id]? = some b ∧ b.header = block.header := by
  have hget : (s._blocks.map StoredBlock.header)[id]? = some block.header := by
    rw [h,List.getElem?_map,hb]
    rfl
  rwa [List.getElem?_map,Option.map_eq_some_iff] at hget

theorem length_of_headers (h : s._blocks.map StoredBlock.header = l.map Block.header) :
    s._blocks.length = l.length := by
  have hlength := congrArg List.length h
  rwa [List.length_map,List.length_map] at hlength

/-- A block that comes after others is new to their store. -/
theorem Arrives.new (hl : Arrives genesis (l ++ [block])) (hi : s.Indexed)
    (h : s._blocks.map StoredBlock.header = l.map Block.header) :
    s._blockIds block.header.hash = none := by
  rw [Option.eq_none_iff_forall_ne_some]
  intro id hid
  obtain ⟨b,hb,hhash⟩ := hi.blockIds hid
  obtain ⟨other,hother,hheader⟩ := getElem?_of_headers h hb
  have hmem : other ∈ l := List.mem_of_getElem? hother
  have hkey : other.header.hash = block.header.hash := by rw [hheader]; exact hhash
  have hlast : block ∈ l ++ [block] := List.mem_append_right _ (List.mem_singleton_self _)
  obtain rfl := hl.distinct.eq_of_key (List.mem_append_left _ hmem) hlast hkey
  exact hl.distinct.not_mem_of_snoc hmem

theorem Arrives.rootMatches (hl : Arrives genesis (l ++ [block])) : rootMatches block :=
  hl.valid block (List.mem_append_right _ (List.mem_singleton_self _))

/-- The blocks are stored in their order, as new ones. -/
theorem Adds.headers (h : Adds genesis l s) (hl : Arrives genesis l) :
    s._blocks.map StoredBlock.header = l.map Block.header := by
  induction h with
  | empty => rfl
  | @add l s block result s' hadds hperform ih =>
    obtain ⟨hi,hc,-⟩ := reachable_preserved hadds.reachable
    have hheaders := ih hl.left
    rw [(addBlock_new_blocks hi hc (hl.new hi hheaders) hl.rootMatches hperform).1,hheaders,List.map_append]
    rfl
  | task hadds hperform ih =>
    obtain rfl := hadds.task_eq hperform
    exact ih hl

/-- The height of a block is that of its place in the order. -/
theorem connected_iff (hi : s.Indexed) (h : s._blocks.map StoredBlock.header = l.map Block.header)
    {id : ℕ} (hb : l[id]? = some block) (height : ℕ) :
    s.Connected block height ↔ s.tree.height id = some height := by
  obtain ⟨b,hstored,hheader⟩ := stored_of_headers h hb
  have hid : s._blockIds block.header.hash = some id := by
    rw [← hheader]
    exact (hi.block hstored).1
  rw [Connected,hid,Option.bind_some]

/-- Who waits was added, and who is connected is so at its depth. -/
structure Holds (genesis : uint256) (l : List Block) (s : Blockchain) : Prop where
  orphans : ∀ {entry}, entry ∈ s._orphanBlocks → ∃ block ∈ l, block.header._prev = entry.1
  height : ∀ {id block n}, l[id]? = some block →
    (s.tree.height id = some n ↔ (lineage genesis).Depth l block n)

/-- Who gets a height is the genesis block, or stands behind a connected block. -/
theorem parent_of_newHeight (hadds : Adds genesis l s) (hl : Arrives genesis (l ++ [block])) {n : ℕ}
    (h : (s.stored block).NewHeight (s.entry block) n) : (lineage genesis).root block ∧ n = 0 ∨
      ∃ id parent m, l[id]? = some parent ∧ s.tree.height id = some m ∧
        (lineage genesis).prev block = (lineage genesis).key parent ∧ n = m + 1 := by
  obtain ⟨hi,hc,hgenesis⟩ := reachable_preserved hadds.reachable
  have hheaders := hadds.headers hl.left
  obtain ⟨hblocks,-,-,hgenesis₁⟩ := stored_new (hl.new hi hheaders)
  obtain ⟨hi₁,-,-⟩ := stored_preserved hi hc block
  rcases h with ⟨-,hhash,hnull,rfl⟩ | ⟨h,-,hprev,rfl⟩
  · rw [hgenesis₁,hgenesis] at hhash
    exact .inl ⟨⟨hhash,hnull⟩,rfl⟩
  · obtain ⟨p,hp,hheight⟩ := Option.bind_eq_some_iff.mp hprev
    rw [stored_height] at hheight
    obtain ⟨b,hb,-⟩ := block_of_height hheight
    obtain ⟨parent,hparent,hheader⟩ := getElem?_of_headers hheaders hb
    obtain ⟨b',hb',hhash⟩ := hi₁.blockIds hp
    rw [hblocks,append_stored hb] at hb'
    obtain rfl := Option.some.inj hb'
    exact .inr ⟨p,parent,h,hparent,hheight,hhash.symm.trans (congrArg BlockHeader.hash hheader.symm),rfl⟩

/-- The last block gets the height that is its depth. -/
theorem newHeight_iff (hadds : Adds genesis l s) (hl : Arrives genesis (l ++ [block]))
    (hfirst : (lineage genesis).ParentsFirst (l ++ [block])) (hholds : Holds genesis l s) (n : ℕ) :
    (s.stored block).NewHeight (s.entry block) n ↔ (lineage genesis).Depth (l ++ [block]) block n := by
  obtain ⟨hi,hc,hgenesis⟩ := reachable_preserved hadds.reachable
  have hheaders := hadds.headers hl.left
  have hnew := hl.new hi hheaders
  obtain ⟨hblocks,-,hmain,hgenesis₁⟩ := stored_new hnew
  obtain ⟨hi₁,-,-⟩ := stored_preserved hi hc block
  rw [hfirst.depth_last hl.distinct]
  constructor
  · intro hnewHeight
    rcases parent_of_newHeight hadds hl hnewHeight with hroot | ⟨id,parent,m,hparent,hheight,hprev,rfl⟩
    · exact .inl hroot
    · exact .inr ⟨parent,m,(hholds.height hparent).mp hheight,hprev,rfl⟩
  rw [NewHeight,hmain,hgenesis₁,hgenesis]
  · rintro (⟨⟨hhash,hnull⟩,rfl⟩ | ⟨parent,m,hparent,hprev,rfl⟩)
    · refine .inl ⟨?_,hhash,hnull,rfl⟩
      -- the genesis block would be known where there is a chain
      by_contra hchain
      have hstart := List.getElem?_eq_getElem (List.length_pos_of_ne_nil hchain)
      obtain ⟨b,hb,hgenesisHash,-⟩ := hc.genesis hstart
      have hid := (hi.block hb).1
      rw [hgenesisHash,hgenesis,← hhash] at hid
      exact absurd (hnew.symm.trans hid) nofun
    · obtain ⟨id,hid⟩ := List.mem_iff_getElem?.mp hparent.mem
      have hheight := (hholds.height hid).mpr hparent
      obtain ⟨b,hb,hheader⟩ := stored_of_headers hheaders hid
      have hp : (s.stored block)._blockIds b.hash = some id := by
        refine (hi₁.block ?_).1
        rw [hblocks,append_stored hb]
      have hprev' : (s.entry block).prev = b.hash := hprev.trans (congrArg BlockHeader.hash hheader.symm)
      refine .inr ⟨m,List.ne_nil_of_length_pos (Nat.zero_lt_of_lt (hc.highest hheight)),?_,rfl⟩
      rw [prevHeight,hprev',hp,Option.bind_some,stored_height,hheight]

/-- While parents come first nobody waits for a block that is connected. -/
theorem Holds.unwaited (hholds : Holds genesis l s) (hl : Arrives genesis (l ++ [block]))
    (hfirst : (lineage genesis).ParentsFirst (l ++ [block])) {n : ℕ}
    (hdepth : (lineage genesis).Depth (l ++ [block]) block n) : s.waiting block.header.hash = [] := by
  rw [waiting,List.map_eq_nil_iff,List.filter_eq_nil_iff]
  intro entry hentry hhash
  obtain ⟨b,hb,hprev⟩ := hholds.orphans hentry
  have hkey : b.header._prev = block.header.hash := hprev.trans (of_decide_eq_true hhash)
  exact hfirst.prev_ne hl.distinct hdepth hb hkey

/-- Who waits when a block was added did so before, or is that block. -/
theorem Holds.orphans_add (hholds : Holds genesis l s) (hadds : Adds genesis l s)
    (hl : Arrives genesis (l ++ [block])) {result : Bool} (h : s.addBlock block = .returned result s')
    {entry : uint256 × ℕ} (hentry : entry ∈ s'._orphanBlocks) :
    ∃ b ∈ l ++ [block], b.header._prev = entry.1 := by
  obtain ⟨hi,hc,-⟩ := reachable_preserved hadds.reachable
  have hnew := hl.new hi (hadds.headers hl.left)
  have hcases : entry = (block.header._prev,s._blocks.length) ∨ entry ∈ s._orphanBlocks := by
    rcases addBlock_new_returned hi hc hnew hl.rootMatches h with
      ⟨-,orphans,rfl,hsub⟩ | ⟨height,m,-,rfl⟩
    · exact List.mem_cons.mp (hsub hentry)
    · have hmem : entry ∈ (s.stored block)._orphanBlocks := hentry
      rw [(stored_new hnew).2.1] at hmem
      exact .inr hmem
  rcases hcases with rfl | hbefore
  · exact ⟨block,by simp,rfl⟩
  · obtain ⟨b,hb,hprev⟩ := hholds.orphans hbefore
    exact ⟨b,List.mem_append_left _ hb,hprev⟩

/-- The height of a block that was added behind its parents is its depth. -/
theorem Holds.height_add (hholds : Holds genesis l s) (hadds : Adds genesis l s)
    (hl : Arrives genesis (l ++ [block])) (hfirst : (lineage genesis).ParentsFirst (l ++ [block]))
    {result : Bool} (h : s.addBlock block = .returned result s') (n : ℕ) :
    s'.tree.height s._blocks.length = some n ↔ (lineage genesis).Depth (l ++ [block]) block n := by
  obtain ⟨hi,hc,-⟩ := reachable_preserved hadds.reachable
  have hnew := hl.new hi (hadds.headers hl.left)
  rw [← newHeight_iff hadds hl hfirst hholds]
  rcases addBlock_new_returned hi hc hnew hl.rootMatches h with
    ⟨hunable,orphans,rfl,-⟩ | ⟨height,m,hheight,rfl⟩
  · have hnone : (s.stored block).tree.height s._blocks.length = none :=
      (height_eq (stored_entry hnew)).trans rfl
    exact iff_of_false (fun hsome => absurd (hnone.symm.trans hsome) nofun)
      fun hnewHeight => hunable hnewHeight.connects
  · have hset := setHeight_height (n := height) (stored_entry hnew) s._blocks.length
    rw [if_pos rfl] at hset
    refine Iff.trans (b := height = n) ?_ ⟨fun heq => heq ▸ hheight,hheight.unique⟩
    exact (Eq.congr_left hset).trans Option.some_inj

/-- Adding a block behind its parents. -/
theorem Holds.add (hholds : Holds genesis l s) (hadds : Adds genesis l s)
    (hl : Arrives genesis (l ++ [block])) (hfirst : (lineage genesis).ParentsFirst (l ++ [block]))
    {result : Bool} (h : s.addBlock block = .returned result s') : Holds genesis (l ++ [block]) s' := by
  obtain ⟨hi,hc,-⟩ := reachable_preserved hadds.reachable
  have hheaders := hadds.headers hl.left
  have hlength := length_of_headers hheaders
  obtain ⟨-,hbefore⟩ := addBlock_new_blocks hi hc (hl.new hi hheaders) hl.rootMatches h
  refine ⟨fun hentry => hholds.orphans_add hadds hl h hentry,fun {id b n} hb => ?_⟩
  rcases Nat.lt_or_ge id l.length with hlt | hge
  · rw [List.getElem?_append_left hlt] at hb
    rw [hbefore id (hlength ▸ hlt),hfirst.depth_left hl.distinct (List.mem_of_getElem? hb)]
    exact hholds.height hb
  · rw [List.getElem?_append_right hge,List.getElem?_singleton] at hb
    split_ifs at hb
    obtain rfl := Option.some.inj hb
    obtain rfl : id = s._blocks.length := by omega
    exact hholds.height_add hadds hl hfirst h n

theorem Adds.holds (h : Adds genesis l s) (hl : Arrives genesis l)
    (hfirst : (lineage genesis).ParentsFirst l) : Holds genesis l s := by
  induction h with
  | empty => exact ⟨nofun,fun h => by simp at h⟩
  | add hadds hperform ih => exact (ih hl.left hfirst.left).add hadds hl hfirst hperform
  | task hadds hperform ih =>
    obtain rfl := hadds.task_eq hperform
    exact ih hl hfirst

/-- Blocks that come behind their parents are all added. -/
theorem exists_adds (l : List Block) (hl : Arrives genesis l) (hfirst : (lineage genesis).ParentsFirst l) :
    ∃ s, Adds genesis l s := by
  induction l using List.reverseRecOn with
  | nil => exact ⟨_,.empty⟩
  | append_singleton l block ih =>
    obtain ⟨s,hadds⟩ := ih hl.left hfirst.left
    obtain ⟨hi,hc,-⟩ := reachable_preserved hadds.reachable
    have hholds := hadds.holds hl.left hfirst.left
    have hnew := hl.new hi (hadds.headers hl.left)
    obtain ⟨s',hadd⟩ := addBlock_new_returns hi hc hnew hl.rootMatches fun hconnects => by
      obtain ⟨hi₁,hc₁,-⟩ := stored_preserved hi hc block
      obtain ⟨height,-,hheight,-⟩ := connectToAncestor_able hi₁ hc₁ (stored_entry hnew) hconnects rfl
      exact hholds.unwaited hl hfirst ((newHeight_iff hadds hl hfirst hholds height).mp hheight)
    exact ⟨s',.add hadds hadd⟩

/-- A block that comes before its parent is never connected. -/
theorem Adds.unconnected (h : Adds genesis l s) (hl : Arrives genesis l) {l₁ l₂ : List Block}
    (heq : l = l₁ ++ block :: l₂) (hroot : ¬ (lineage genesis).root block)
    (hprev : ∀ p ∈ l₁, (lineage genesis).prev block ≠ (lineage genesis).key p) :
    s.tree.height l₁.length = none := by
  induction h generalizing l₂ with
  | empty => exact absurd heq.symm (List.append_ne_nil_of_right_ne_nil _ (List.cons_ne_nil _ _))
  | @add l s new result s' hadds hperform ih =>
    obtain ⟨hi,hc,-⟩ := reachable_preserved hadds.reachable
    have hheaders := hadds.headers hl.left
    have hnew := hl.new hi hheaders
    have hlength := length_of_headers hheaders
    cases l₂ using List.reverseRecOn with
    | nil =>
      obtain ⟨rfl,hlast⟩ := List.append_inj' heq rfl
      obtain rfl := (List.cons.inj hlast).1
      rw [← hlength]
      rcases addBlock_new_returned hi hc hnew hl.rootMatches hperform with
        ⟨-,orphans,rfl,-⟩ | ⟨height,m,hheight,rfl⟩
      · exact (height_eq (stored_entry hnew)).trans rfl
      · rcases parent_of_newHeight hadds hl hheight with hgenesis | ⟨id,parent,k,hparent,-,hkey,-⟩
        · exact absurd hgenesis.1 hroot
        · exact absurd hkey (hprev parent (List.mem_of_getElem? hparent))
    | append_singleton l₂ last =>
      rw [← List.cons_append,← List.append_assoc] at heq
      obtain ⟨rfl,-⟩ := List.append_inj' heq rfl
      have hlt : l₁.length < s._blocks.length := by
        rw [hlength,List.length_append,List.length_cons]
        omega
      rw [(addBlock_new_blocks hi hc hnew hl.rootMatches hperform).2 _ hlt]
      exact ih hl.left rfl
  | task hadds hperform ih =>
    obtain rfl := hadds.task_eq hperform
    exact ih hl heq

theorem ConnectsAll.parentsFirst (h : ConnectsAll genesis l) (hl : Arrives genesis l) :
    (lineage genesis).ParentsFirst l := by
  obtain ⟨⟨s,hadds,hidle⟩,hconnects⟩ := h
  obtain ⟨hi,-,-⟩ := reachable_preserved hadds.reachable
  intro l₁ b l₂ n heq hdepth
  by_contra hnone
  have hroot : ¬ (lineage genesis).root b := by
    obtain ⟨p,hp,hprev⟩ := hdepth.parent
    exact fun hroot => hl.distinct.root hdepth.mem hp.mem hroot hprev
  have hunconnected := hadds.unconnected hl heq hroot fun p hp hprev => hnone ⟨p,hp,hprev⟩
  have hplace : l[l₁.length]? = some b := by
    rw [heq,List.getElem?_append_right le_rfl,Nat.sub_self]
    rfl
  have hconnected := (hconnects s hadds hidle b hdepth.mem (n + 1)).mpr hdepth
  rw [connected_iff hi (hadds.headers hl) hplace,hunconnected] at hconnected
  contradiction

theorem connectsAll_of_parentsFirst (hl : Arrives genesis l) (hfirst : (lineage genesis).ParentsFirst l) :
    ConnectsAll genesis l := by
  constructor
  · obtain ⟨s,hadds⟩ := exists_adds l hl hfirst
    exact ⟨s,hadds,(reachable_preserved hadds.reachable).2.1.idle⟩
  · intro s hadds _ b hb height
    obtain ⟨id,hid⟩ := List.mem_iff_getElem?.mp hb
    obtain ⟨hi,-,-⟩ := reachable_preserved hadds.reachable
    rw [connected_iff hi (hadds.headers hl) hid]
    exact (hadds.holds hl hfirst).height hid

end Holds

/-- In an order all blocks that go back to the genesis block are connected, at their depths, exactly
if each of them comes behind its previous block. -/
theorem connectsAll_iff {genesis : uint256} {l : List Block} (hl : Arrives genesis l) :
    ConnectsAll genesis l ↔ (lineage genesis).ParentsFirst l :=
  ⟨fun h => h.parentsFirst hl,connectsAll_of_parentsFirst hl⟩

/-- Which blocks are connected does not depend on the order where all are that can be. -/
theorem connected_perm {genesis : uint256} {l l' : List Block} (hperm : l.Perm l')
    (h : ConnectsAll genesis l) (h' : ConnectsAll genesis l') {s s' : Blockchain} (hs : Adds genesis l s)
    (hs' : Adds genesis l' s') {block : Block} (hmem : block ∈ l) (height : ℕ) :
    s.Connected block height ↔ s'.Connected block height := by
  have hidle := (reachable_preserved hs.reachable).2.1.idle
  have hidle' := (reachable_preserved hs'.reachable).2.1.idle
  rw [h.2 s hs hidle block hmem,h'.2 s' hs' hidle' block (hperm.mem_iff.mp hmem)]
  exact Lineage.depth_perm hperm

section Two

theorem hashes_ne : childHeader.hash ≠ genesisHeader.hash := by
  rw [childHeader_hash,genesisHeader_hash]
  exact childHash_ne

/-- The genesis block and the one behind it, in either order. -/
theorem two_arrives {l : List Block} (hsub : ∀ block ∈ l, block = ⟨genesisHeader,[]⟩ ∨ block = ⟨childHeader,[]⟩)
    (hnodup : (l.map fun block => block.header.hash).Nodup) : Arrives genesisHash l := by
  refine ⟨fun block hmem => ?_,⟨hnodup,fun {a p} ha hp hroot => ?_⟩⟩
  · rcases hsub block hmem with rfl | rfl
    · exact MerkleRoot_nil.symm
    · exact MerkleRoot_nil.symm
  · rcases hsub a ha with rfl | rfl
    · rcases hsub p hp with rfl | rfl
      · exact fun hprev => absurd (hprev.trans genesisHeader_hash) (by decide +kernel)
      · exact fun hprev => absurd (hprev.trans childHeader_hash) (by decide +kernel)
    · exact absurd (childHeader_hash.symm.trans hroot.1) childHash_ne

theorem parentFirst_arrives : Arrives genesisHash [⟨genesisHeader,[]⟩,⟨childHeader,[]⟩] :=
  two_arrives (by simp) (by simpa using hashes_ne.symm)

theorem childFirst_arrives : Arrives genesisHash [⟨childHeader,[]⟩,⟨genesisHeader,[]⟩] :=
  two_arrives (by simp) (by simpa using hashes_ne)

theorem genesisBlock_root : (lineage genesisHash).root ⟨genesisHeader,[]⟩ :=
  ⟨genesisHeader_hash,genesisHeader_prev⟩

theorem childBlock_prev : (lineage genesisHash).prev ⟨childHeader,[]⟩ =
    (lineage genesisHash).key ⟨genesisHeader,[]⟩ :=
  genesisHeader_hash.symm

theorem parentFirst_parentsFirst :
    (lineage genesisHash).ParentsFirst [⟨genesisHeader,[]⟩,⟨childHeader,[]⟩] := by
  intro l₁ a l₂ n heq hdepth
  cases l₁ with
  | nil =>
    obtain rfl := (List.cons.inj heq).1
    obtain ⟨p,hp,hprev⟩ := hdepth.parent
    exact absurd hprev (parentFirst_arrives.distinct.root hdepth.mem hp.mem genesisBlock_root)
  | cons p l₁ =>
    obtain ⟨rfl,hrest⟩ := List.cons.inj heq
    cases l₁ with
    | nil =>
      obtain rfl := (List.cons.inj hrest).1
      exact ⟨_,List.mem_singleton_self _,childBlock_prev⟩
    | cons q l₁ => simp at hrest

/-- The condition for the genesis block and the one behind it. -/
theorem connectsAll_iff_two : ConnectsAll genesisHash [⟨genesisHeader,[]⟩,⟨childHeader,[]⟩] ↔
    (lineage genesisHash).ParentsFirst [⟨genesisHeader,[]⟩,⟨childHeader,[]⟩] :=
  connectsAll_iff parentFirst_arrives

/-- A block that comes before the genesis block is never connected. -/
theorem childFirst_not_connected : ¬ ∀ (genesis : uint256) (l : List Block), Arrives genesis l →
    ConnectsAll genesis l := by
  intro h
  have hfirst := (h genesisHash _ childFirst_arrives).parentsFirst childFirst_arrives
  have hgenesis : (lineage genesisHash).Depth [⟨childHeader,[]⟩,⟨genesisHeader,[]⟩] ⟨genesisHeader,[]⟩ 0 :=
    .root (by simp) genesisBlock_root
  obtain ⟨p,hp,-⟩ := hfirst [] ⟨childHeader,[]⟩ [⟨genesisHeader,[]⟩] 0 rfl
    (.child hgenesis (by simp) childBlock_prev)
  exact absurd hp List.not_mem_nil

end Two

end Blockchain
end Tkeycoin
