import Tkeycoin.Blockchain

/-! What holds of every store: its tables describe its blocks, and its main chain is a longest
branch. -/
namespace Tkeycoin

theorem Table.emplace_eq {κ ν : Type} [DecidableEq κ] {t : Table κ ν} {key : κ} (h : t key = none)
    (value : ν) (k : κ) : t.emplace key value k = if k = key then some value else t k := by
  rw [emplace,h]
  rfl

/-- A table of the places of keys in a list, and one of the keys at the places. -/
structure Table.Describes {κ : Type} (places : Table κ ℕ) (keys : Table ℕ κ) (l : List κ) : Prop where
  entry : ∀ {i key}, l[i]? = some key → places key = some i ∧ keys i = some key
  place : ∀ {key i}, places key = some i → l[i]? = some key
  key : ∀ {i key}, keys i = some key → l[i]? = some key

/-- A new key gets the next place. -/
theorem Table.Describes.append {κ : Type} [DecidableEq κ] {places : Table κ ℕ} {keys : Table ℕ κ}
    {l : List κ} (h : Table.Describes places keys l) {new : κ} (hnew : places new = none) :
    Table.Describes (places.emplace new l.length) (keys.emplace l.length new) (l ++ [new]) := by
  have hlt {i : ℕ} {key : κ} (hi : l[i]? = some key) : i < l.length := (List.getElem?_eq_some_iff.mp hi).1
  have hfresh : keys l.length = none := by
    rw [Option.eq_none_iff_forall_ne_some]
    intro key hkey
    exact absurd (hlt (h.key hkey)) (lt_irrefl _)
  refine ⟨?_,?_,?_⟩
  · intro i key hi
    rw [emplace_eq hnew,emplace_eq hfresh]
    rcases Nat.lt_or_ge i l.length with hlow | hhigh
    · rw [List.getElem?_append_left hlow] at hi
      obtain ⟨hplace,hkey⟩ := h.entry hi
      have hne : key ≠ new := by
        rintro rfl
        rw [hnew] at hplace
        contradiction
      rw [if_neg hne,if_neg (Nat.ne_of_lt hlow)]
      exact ⟨hplace,hkey⟩
    · rw [List.getElem?_append_right hhigh,List.getElem?_singleton] at hi
      split_ifs at hi
      obtain rfl := Option.some.inj hi
      obtain rfl : i = l.length := by omega
      rw [if_pos rfl,if_pos rfl]
      exact ⟨rfl,rfl⟩
  · intro key i hplace
    rw [emplace_eq hnew] at hplace
    split_ifs at hplace with heq
    · obtain rfl := Option.some.inj hplace
      rw [List.getElem?_concat_length,heq]
    · have hi := h.place hplace
      rw [List.getElem?_append_left (hlt hi),hi]
  · intro i key hkey
    rw [emplace_eq hfresh] at hkey
    split_ifs at hkey with heq
    · rw [heq,List.getElem?_concat_length,hkey]
    · have hi := h.key hkey
      rw [List.getElem?_append_left (hlt hi),hi]

namespace Blockchain

/-- The tables of the blocks describe them. -/
structure Indexed (s : Blockchain) : Prop where
  block : ∀ {id b}, s._blocks[id]? = some b →
    s._blockIds b.hash = some id ∧ b._id = some id ∧ s._blockHashes id = some b.hash
  blockIds : ∀ {hash id}, s._blockIds hash = some id → ∃ b, s._blocks[id]? = some b ∧ b.hash = hash
  blockHashes : ∀ {id hash}, s._blockHashes id = some hash → ∃ b, s._blocks[id]? = some b ∧ b.hash = hash

/-- The connected blocks make a tree, in which the main chain is a longest branch, and none of
them is waited for. -/
structure Chained (s : Blockchain) : Prop where
  rooted : s.tree.Rooted
  branch : s.tree.IsBranch s._mainChain
  highest : ∀ {id n}, s.tree.height id = some n → n < s._mainChain.length
  genesis : ∀ {id}, s._mainChain[0]? = some id →
    ∃ b, s._blocks[id]? = some b ∧ b.hash = s._genesisBlockHash ∧ b.prev.isNull
  unwaited : ∀ {id : ℕ} {b : StoredBlock}, s._blocks[id]? = some b → b.inChain → s.waiting b.hash = []
  idle : s.tasks = []

theorem indexed_iff {s : Blockchain} : s.Indexed ↔
    s._blockIds.Describes s._blockHashes (s._blocks.map StoredBlock.hash) ∧
      ∀ {id : ℕ} {b : StoredBlock}, s._blocks[id]? = some b → b._id = some id := by
  have hmap (id : ℕ) (hash : uint256) : (s._blocks.map StoredBlock.hash)[id]? = some hash ↔
      ∃ b, s._blocks[id]? = some b ∧ b.hash = hash := by
    rw [List.getElem?_map,Option.map_eq_some_iff]
  constructor
  · intro h
    refine ⟨⟨fun hi => ?_,fun hid => (hmap _ _).mpr (h.blockIds hid),
      fun hid => (hmap _ _).mpr (h.blockHashes hid)⟩,fun hb => (h.block hb).2.1⟩
    obtain ⟨b,hb,rfl⟩ := (hmap _ _).mp hi
    exact ⟨(h.block hb).1,(h.block hb).2.2⟩
  · rintro ⟨h,hids⟩
    refine ⟨fun hb => ?_,fun hid => (hmap _ _).mp (h.place hid),fun hid => (hmap _ _).mp (h.key hid)⟩
    obtain ⟨hid,hhash⟩ := h.entry ((hmap _ _).mpr ⟨_,hb,rfl⟩)
    exact ⟨hid,hids hb,hhash⟩

section Tree

variable {s : Blockchain}

theorem height_eq {id : ℕ} {b : StoredBlock} (h : s._blocks[id]? = some b) :
    s.tree.height id = b._height := by
  simp [tree,h]

theorem parent_eq {id : ℕ} {b : StoredBlock} (h : s._blocks[id]? = some b) :
    s.tree.parent id = s.getBlockHeader b.prev := by
  simp [tree,h]

theorem block_of_height {id n : ℕ} (h : s.tree.height id = some n) :
    ∃ b, s._blocks[id]? = some b ∧ b._height = some n := by
  obtain ⟨b,hb,hn⟩ := Option.bind_eq_some_iff.mp h
  exact ⟨b,hb,hn⟩

theorem hasBlockHeader_of_id {hash : uint256} {id : ℕ} (h : s._blockIds hash = some id) :
    s.hasBlockHeader hash = true := by
  simp [hasBlockHeader,h]

theorem not_hasBlockHeader {hash : uint256} (h : s._blockIds hash = none) : s.hasBlockHeader hash = false := by
  simp [hasBlockHeader,h]

theorem getBlockHeader_eq {hash : uint256} {id : ℕ} :
    s.getBlockHeader hash = some id ↔ s._blockIds hash = some id ∧ ∃ b, s._blocks[id]? = some b := by
  unfold getBlockHeader
  simp only [bind,Option.bind_eq_some_iff,pure,Option.some.injEq]
  constructor
  · rintro ⟨id',hid,b,hb,rfl⟩
    exact ⟨hid,b,hb⟩
  · rintro ⟨hid,b,hb⟩
    exact ⟨id,hid,b,hb,rfl⟩

theorem Indexed.getBlockHeader_eq (h : s.Indexed) (hash : uint256) :
    s.getBlockHeader hash = s._blockIds hash := by
  cases hid : s._blockIds hash with
  | none => simp [getBlockHeader,hid]
  | some id =>
    obtain ⟨b,hb,-⟩ := h.blockIds hid
    exact Blockchain.getBlockHeader_eq.mpr ⟨hid,b,hb⟩

end Tree

section SetHeight

variable {s : Blockchain} {id n : ℕ} {block : StoredBlock}

theorem setHeight_blocks (i : ℕ) : (s.setHeight id n)._blocks[i]? =
    (s._blocks[i]?).map fun b => if id = i then { b with _height := some n } else b := by
  rw [setHeight,List.getElem?_modify]
  rfl

theorem setHeight_block {i : ℕ} {b : StoredBlock} (h : (s.setHeight id n)._blocks[i]? = some b) :
    ∃ b', s._blocks[i]? = some b' ∧ b.header = b'.header ∧ b._txList = b'._txList ∧ b._id = b'._id ∧
      b._height = if id = i then some n else b'._height := by
  rw [setHeight_blocks] at h
  obtain ⟨b',hb',rfl⟩ := Option.map_eq_some_iff.mp h
  refine ⟨b',hb',?_⟩
  split_ifs <;> exact ⟨rfl,rfl,rfl,rfl⟩

/-- What was stored stays so under its hash. -/
theorem setHeight_stored {i : ℕ} {b : StoredBlock} (h : s._blocks[i]? = some b) :
    ∃ b', (s.setHeight id n)._blocks[i]? = some b' ∧ b'.hash = b.hash ∧ b'.prev = b.prev := by
  rw [setHeight_blocks,h,Option.map_some]
  refine ⟨_,rfl,?_⟩
  split_ifs <;> exact ⟨rfl,rfl⟩

theorem setHeight_getBlockHeader (hash : uint256) :
    (s.setHeight id n).getBlockHeader hash = s.getBlockHeader hash := by
  apply Option.ext
  intro i
  rw [getBlockHeader_eq,getBlockHeader_eq]
  refine and_congr Iff.rfl ?_
  rw [setHeight_blocks]
  constructor
  · rintro ⟨b,hb⟩
    obtain ⟨b',hb',-⟩ := Option.map_eq_some_iff.mp hb
    exact ⟨b',hb'⟩
  · rintro ⟨b,hb⟩
    exact ⟨_,Option.map_eq_some_iff.mpr ⟨b,hb,rfl⟩⟩

theorem setHeight_parent (i : ℕ) : (s.setHeight id n).tree.parent i = s.tree.parent i := by
  simp only [tree,setHeight_blocks,bind,Option.bind_map]
  cases s._blocks[i]? with
  | none => rfl
  | some b =>
    simp only [Option.bind_some,Function.comp_apply,setHeight_getBlockHeader]
    split_ifs <;> rfl

theorem setHeight_height (hb : s._blocks[id]? = some block) (i : ℕ) :
    (s.setHeight id n).tree.height i = if i = id then some n else s.tree.height i := by
  simp only [tree,setHeight_blocks,bind,Option.bind_map]
  by_cases hi : i = id
  · subst hi
    simp [hb]
  · rw [if_neg hi]
    cases s._blocks[i]? with
    | none => rfl
    | some b => simp [Ne.symm hi]

theorem setHeight_indexed (h : s.Indexed) : (s.setHeight id n).Indexed where
  block {i b} hb := by
    obtain ⟨b',hb',hheader,-,hid,-⟩ := setHeight_block hb
    have := h.block hb'
    rw [StoredBlock.hash,hheader,hid]
    exact this
  blockIds {hash i} hi := by
    obtain ⟨b,hb,hhash⟩ := h.blockIds hi
    obtain ⟨b',hb',hsame,-⟩ := setHeight_stored (n := n) hb
    exact ⟨b',hb',hsame.trans hhash⟩
  blockHashes {i hash} hi := by
    obtain ⟨b,hb,hhash⟩ := h.blockHashes hi
    obtain ⟨b',hb',hsame,-⟩ := setHeight_stored (n := n) hb
    exact ⟨b',hb',hsame.trans hhash⟩

end SetHeight

section PushChain

variable {s : Blockchain}

/-- A branch is pushed without an assertion. -/
theorem pushChain_eq (hs : s.Indexed) (mainChain chain : List ℕ)
    (h : s.tree.IsBranch (mainChain ++ chain)) :
    s.pushChain mainChain chain = .returned () { s with _mainChain := mainChain ++ chain } := by
  induction chain generalizing mainChain with
  | nil => rw [pushChain,List.append_nil]
  | cons block chain ih =>
    have hget : (mainChain ++ block :: chain)[mainChain.length]? = some block := by
      rw [List.getElem?_append_right le_rfl,Nat.sub_self]
      rfl
    have hheight := h.height hget
    obtain ⟨b,hb,-⟩ := block_of_height hheight
    have hid : sizeT (s._blocks[block]?.bind StoredBlock._id) = block := by
      rw [hb,Option.bind_some,(hs.block hb).2.1]
      rfl
    rw [pushChain,hheight,if_neg (by simp),hid]
    have hnext := ih (mainChain ++ [block]) (by rwa [List.append_assoc])
    rwa [List.append_assoc] at hnext

end PushChain

/-- The main chain is not longer than the list of blocks. -/
theorem mainChain_length_le {s : Blockchain} (h : s.tree.IsBranch s._mainChain) :
    s._mainChain.length ≤ s._blocks.length := by
  have hsub : s._mainChain ⊆ List.range s._blocks.length := by
    intro id hid
    obtain ⟨i,hi⟩ := List.mem_iff_getElem?.mp hid
    obtain ⟨b,hb,-⟩ := block_of_height (h.height hi)
    exact List.mem_range.mpr (List.getElem?_eq_some_iff.mp hb).1
  have hle := (List.subperm_of_subset h.nodup hsub).length_le
  rwa [List.length_range] at hle

section SwitchBranch

variable {s : Blockchain}

/-- The root of a branch does not depend on the branch. -/
theorem branch_root {T : Tree ℕ} (hT : T.Rooted) {l m : List ℕ} (hl : T.IsBranch l) (hm : T.IsBranch m)
    (hlpos : 0 < l.length) (hmpos : 0 < m.length) : l[0]? = m[0]? := by
  have hl₀ := hl.height (List.getElem?_eq_getElem hlpos)
  have hm₀ := hm.height (List.getElem?_eq_getElem hmpos)
  rw [List.getElem?_eq_getElem hlpos,List.getElem?_eq_getElem hmpos,hT.root_unique hl₀ hm₀]

/-- The walks from a block as high as the top end where its branch leaves the main chain, and
what they leave on the stack goes there. -/
theorem walks_branch (hT : s.tree.Rooted) (hl : s.tree.IsBranch s._mainChain)
    (hpos : 0 < s._mainChain.length) {a : ℕ} {stack : List ℕ}
    (ha : s.tree.height a = some (s._mainChain.length - 1))
    (hstack : s.tree.Ascends (some a) s._mainChain.length stack) :
    ∃ m stack', s.tree.meet (s._blocks.length * s._blocks.length + 1) (some a) s._mainChain.getLast?
        stack s._mainChain = some (stack',m) ∧
      m.length + stack'.length = s._mainChain.length + stack.length ∧ s.tree.IsBranch (m ++ stack') := by
  have hlen := mainChain_length_le hl
  have htop : s._mainChain[s._mainChain.length - 1]? = some (s._mainChain[s._mainChain.length - 1]) :=
    List.getElem?_eq_getElem (by omega)
  have hlast : s._mainChain.getLast? = some (s._mainChain[s._mainChain.length - 1]) := by
    rw [List.getLast?_eq_getElem?,htop]
  have hfuel : s._mainChain.length - 1 < s._blocks.length * s._blocks.length + 1 := by
    have hsquare : s._blocks.length ≤ s._blocks.length * s._blocks.length :=
      Nat.le_mul_of_pos_left _ (by omega)
    omega
  have hsucc : s._mainChain.length = s._mainChain.length - 1 + 1 := by omega
  obtain ⟨m,stack',hmeet,-,hlength,hbranch⟩ := Tree.meet_branch hT hfuel ha hl htop
    hsucc (hsucc ▸ hstack)
  rw [hlast]
  exact ⟨m,stack',hmeet,hlength,hbranch⟩

/-- A new block is put at the end of a main chain that is a longest branch again. -/
theorem switchBranch_eq {id h : ℕ} (hi : s.Indexed) (hT : s.tree.Rooted)
    (hl : s.tree.IsBranch s._mainChain) (hpos : 0 < s._mainChain.length)
    (hheight : s.tree.height id = some (h + 1)) (hle : h < s._mainChain.length) :
    ∃ m, s.switchBranch id = .returned () { s with _mainChain := m } ∧ s.tree.IsBranch m ∧
      m.length = max s._mainChain.length (h + 2) := by
  unfold switchBranch
  simp only [hheight,sizeT_some]
  by_cases hlow : h + 1 ≥ s._mainChain.length - 1
  · rw [if_pos hlow]
    obtain ⟨p,hparent,hp⟩ := hT.parent_of_succ hheight
    have hfuel : 2 ≤ s._blocks.length + 2 := by omega
    have hdescend := Tree.descend_eq (T := s.tree) (a := id)
      (fun block => decide (sizeT (s.tree.height block) > s._mainChain.length - 1)) [] hfuel (by
        intro hhigh
        refine ⟨p,hparent,?_⟩
        simp only [hp,hheight,sizeT_some,decide_eq_true_eq,decide_eq_false_iff_not] at hhigh ⊢
        omega)
    simp only [hdescend,hheight,sizeT_some,decide_eq_true_eq]
    -- the block is one step above the top, or as high as the top
    by_cases hhigh : h + 1 > s._mainChain.length - 1
    · rw [if_pos hhigh,hparent]
      obtain ⟨m,stack,hmeet,hlength,hbranch⟩ := walks_branch hT hl hpos (a := p)
        (by rw [hp]; congr 1; omega) (.cons hparent (by rw [hheight]; congr 1; omega) (.nil _ _))
      simp only [hmeet]
      refine ⟨m ++ stack,pushChain_eq hi m stack hbranch,hbranch,?_⟩
      rw [List.length_append,hlength,List.length_singleton]
      omega
    · rw [if_neg hhigh]
      obtain ⟨m,stack,hmeet,hlength,hbranch⟩ := walks_branch hT hl hpos (a := id)
        (by rw [hheight]; congr 1; omega) (.nil _ _)
      simp only [hmeet]
      refine ⟨m ++ stack,pushChain_eq hi m stack hbranch,hbranch,?_⟩
      rw [List.length_append,hlength,List.length_nil]
      omega
  · rw [if_neg hlow]
    exact ⟨s._mainChain,rfl,hl,by omega⟩

end SwitchBranch

/-- The height of the block before, if it is stored and connected. -/
def prevHeight (s : Blockchain) (b : StoredBlock) : Option ℕ := (s._blockIds b.prev).bind s.tree.height

section Connect

variable {s : Blockchain} {id h : ℕ} {block : StoredBlock}

theorem connectToAncestor_missing (hb : s._blocks[id]? = none) :
    s.connectToAncestor id = .returned false s := by
  simp [connectToAncestor,hb]

/-- Before the genesis block. -/
theorem connectToAncestor_start (hempty : s._mainChain = []) (hb : s._blocks[id]? = some block) :
    s.connectToAncestor id =
      if block.hash ≠ s._genesisBlockHash ∨ ¬ block.prev.isNull then
        .returned false (s.emplaceOrphan block.prev id)
      else if block.inChain then .assertion .heightUnset
      else { s.setHeight id 0 with _mainChain := [id] }.findDescendants block.hash := by
  have hmain : (s.setHeight id 0)._mainChain = [] := hempty
  simp only [connectToAncestor,hb,getHeight,hempty,List.length_nil,if_true,hmain,List.nil_append]

theorem connectToAncestor_unconnected (hi : s.Indexed) (hmain : s._mainChain ≠ [])
    (hb : s._blocks[id]? = some block) (hprev : s.prevHeight block = none) :
    s.connectToAncestor id = .returned false s := by
  have hheight : ¬ s.getHeight = 0 := by simpa [getHeight] using hmain
  simp only [connectToAncestor,hb,if_neg hheight]
  cases hid : s._blockIds block.prev with
  | none => rfl
  | some prevBlockId =>
    obtain ⟨prevBlock,hprevBlock,-⟩ := hi.blockIds hid
    rw [prevHeight,hid,Option.bind_some,height_eq hprevBlock] at hprev
    simp only [hprevBlock,hprev]

/-- The links of a block behind a connected one. -/
theorem parent_of_prevHeight (hi : s.Indexed) (hb : s._blocks[id]? = some block)
    (hprev : s.prevHeight block = some h) :
    ∃ p prevBlock, s._blockIds block.prev = some p ∧ s._blocks[p]? = some prevBlock ∧
      prevBlock.hash = block.prev ∧ prevBlock._height = some h ∧ s.tree.parent id = some p := by
  obtain ⟨p,hp,hheight⟩ := Option.bind_eq_some_iff.mp hprev
  obtain ⟨prevBlock,hprevBlock,hhash⟩ := hi.blockIds hp
  rw [height_eq hprevBlock] at hheight
  refine ⟨p,prevBlock,hp,hprevBlock,hhash,hheight,?_⟩
  rw [parent_eq hb,hi.getBlockHeader_eq,hp]

theorem connectToAncestor_again (hi : s.Indexed) (hmain : s._mainChain ≠ [])
    (hb : s._blocks[id]? = some block) (hprev : s.prevHeight block = some h)
    (hin : block.inChain = true) : s.connectToAncestor id = .assertion .heightUnset := by
  have hheight : ¬ s.getHeight = 0 := by simpa [getHeight] using hmain
  obtain ⟨p,prevBlock,hp,hprevBlock,-,hprevHeight,-⟩ := parent_of_prevHeight hi hb hprev
  simp only [connectToAncestor,hb,if_neg hheight,hp,hprevBlock,hprevHeight,hin,if_true]

/-- A block that is not connected keeps the tree when it is put above its parent. -/
theorem setHeight_rooted (hT : s.tree.Rooted) (hb : s._blocks[id]? = some block)
    (hnone : block._height = none) {p : ℕ} (hparent : s.tree.parent id = some p)
    (hp : s.tree.height p = some h) : (s.setHeight id (h + 1)).tree.Rooted where
  root_unique {a b} ha hb' := by
    rw [setHeight_height hb] at ha hb'
    split_ifs at ha hb'
    · exact absurd (Option.some.inj ha) h.succ_ne_zero
    · exact absurd (Option.some.inj ha) h.succ_ne_zero
    · exact absurd (Option.some.inj hb') h.succ_ne_zero
    · exact hT.root_unique ha hb'
  parent_of_succ {a n} ha := by
    have hnot (q : ℕ) {k : ℕ} (hq : s.tree.height q = some k) : q ≠ id := by
      rintro rfl
      rw [height_eq hb,hnone] at hq
      contradiction
    rw [setHeight_height hb] at ha
    split_ifs at ha with haid
    · subst haid
      refine ⟨p,by rw [setHeight_parent,hparent],?_⟩
      rw [setHeight_height hb,if_neg (hnot p hp),hp]
      exact congrArg some (Nat.succ.inj (Option.some.inj ha))
    · obtain ⟨q,hq,hn⟩ := hT.parent_of_succ ha
      refine ⟨q,by rw [setHeight_parent,hq],?_⟩
      rw [setHeight_height hb,if_neg (hnot q hn),hn]

theorem setHeight_branch {l : List ℕ} (hl : s.tree.IsBranch l) (hb : s._blocks[id]? = some block)
    (hnone : block._height = none) (n : ℕ) : (s.setHeight id n).tree.IsBranch l := by
  refine hl.congr (fun {a k} ha => ?_) (fun {a p} hp => by rw [setHeight_parent,hp])
  rw [setHeight_height hb,if_neg,ha]
  rintro rfl
  rw [height_eq hb,hnone] at ha
  contradiction

/-- A new block behind a connected one: the main chain is a longest branch again. -/
theorem connectToAncestor_connects (hi : s.Indexed) (hc : s.Chained) (hmain : s._mainChain ≠ [])
    (hb : s._blocks[id]? = some block) (hprev : s.prevHeight block = some h)
    (hnone : block._height = none) :
    ∃ m, s.connectToAncestor id = { s.setHeight id (h + 1) with _mainChain := m }.findDescendants block.hash ∧
      (s.setHeight id (h + 1)).tree.Rooted ∧ (s.setHeight id (h + 1)).tree.IsBranch m ∧
      m.length = max s._mainChain.length (h + 2) ∧
      (s.setHeight id (h + 1)).switchBranch id = .returned () { s.setHeight id (h + 1) with _mainChain := m } := by
  have hheight : ¬ s.getHeight = 0 := by simpa [getHeight] using hmain
  obtain ⟨p,prevBlock,hp,hprevBlock,hhash,hprevHeight,hparent⟩ := parent_of_prevHeight hi hb hprev
  have hpheight : s.tree.height p = some h := by rw [height_eq hprevBlock,hprevHeight]
  have hrooted := setHeight_rooted hc.rooted hb hnone hparent hpheight
  have hbranch := setHeight_branch hc.branch hb hnone (h + 1)
  obtain ⟨m,hswitch,hm,hlen⟩ := switchBranch_eq (s := s.setHeight id (h + 1)) (h := h)
    (setHeight_indexed hi) hrooted hbranch (List.length_pos_of_ne_nil hmain)
    (by rw [setHeight_height hb,if_pos rfl]) (hc.highest hpheight)
  -- nobody waits for the block before, so that no orphan is in the way
  have hwaiting : (s.setHeight id (h + 1)).waiting block.prev = [] := by
    have hunwaited := hc.unwaited hprevBlock (StoredBlock.inChain_of_height hprevHeight)
    rwa [hhash] at hunwaited
  refine ⟨m,?_,hrooted,hm,hlen,hswitch⟩
  have hout := StoredBlock.not_inChain hnone
  simp only [connectToAncestor,hb,if_neg hheight,hp,hprevBlock,hprevHeight,hout,removeFromOrphans,
    hwaiting,hswitch,Bool.false_eq_true,if_false,Outcome.bind]

end Connect

/-- The block can be connected: it is the genesis block of an empty chain, or its previous block
is connected. -/
def Connects (s : Blockchain) (b : StoredBlock) : Prop :=
  s._mainChain = [] ∧ b.hash = s._genesisBlockHash ∧ b.prev.isNull ∨
    s._mainChain ≠ [] ∧ (s.prevHeight b).isSome

theorem connects_start {s : Blockchain} {b : StoredBlock} (hmain : s._mainChain = []) :
    s.Connects b ↔ b.hash = s._genesisBlockHash ∧ b.prev.isNull := by
  simp [Connects,hmain]

theorem connects_chain {s : Blockchain} {b : StoredBlock} (hmain : s._mainChain ≠ []) :
    s.Connects b ↔ (s.prevHeight b).isSome := by
  simp [Connects,hmain]

/-- The height that a block gets which can be connected. -/
def NewHeight (s : Blockchain) (b : StoredBlock) (height : ℕ) : Prop :=
  s._mainChain = [] ∧ b.hash = s._genesisBlockHash ∧ b.prev.isNull ∧ height = 0 ∨
    ∃ h, s._mainChain ≠ [] ∧ s.prevHeight b = some h ∧ height = h + 1

theorem NewHeight.connects {s : Blockchain} {b : StoredBlock} {height : ℕ} (h : s.NewHeight b height) :
    s.Connects b := by
  rcases h with ⟨hmain,hhash,hnull,-⟩ | ⟨k,hmain,hprev,-⟩
  · exact .inl ⟨hmain,hhash,hnull⟩
  · exact .inr ⟨hmain,Option.isSome_iff_exists.mpr ⟨k,hprev⟩⟩

theorem NewHeight.unique {s : Blockchain} {b : StoredBlock} {m n : ℕ} (hm : s.NewHeight b m)
    (hn : s.NewHeight b n) : m = n := by
  rcases hm with ⟨hmain,-,-,rfl⟩ | ⟨h,hmain,hprev,rfl⟩
  · rcases hn with ⟨-,-,-,rfl⟩ | ⟨h',hmain',-,-⟩
    · rfl
    · exact absurd hmain hmain'
  · rcases hn with ⟨hmain',-⟩ | ⟨h',-,hprev',rfl⟩
    · exact absurd hmain' hmain
    · rw [Option.some.inj (hprev.symm.trans hprev')]

section Cases

variable {s : Blockchain} {id : ℕ} {block : StoredBlock}

/-- A block that cannot be connected is at most put among the orphans. -/
theorem connectToAncestor_unable (hi : s.Indexed) (hb : s._blocks[id]? = some block)
    (hconnects : ¬ s.Connects block) :
    ∃ orphans, s.connectToAncestor id = .returned false { s with _orphanBlocks := orphans } ∧
      orphans ⊆ (block.prev,id) :: s._orphanBlocks := by
  by_cases hmain : s._mainChain = []
  · rw [connects_start hmain,not_and_or] at hconnects
    rw [connectToAncestor_start hmain hb,if_pos hconnects]
    exact ⟨_,rfl,List.Subset.refl _⟩
  · rw [connects_chain hmain] at hconnects
    have hprev : s.prevHeight block = none := by simpa using hconnects
    exact ⟨_,connectToAncestor_unconnected hi hmain hb hprev,List.subset_cons_self _ _⟩

/-- A block that can be connected for the first time is, unless others wait for it. -/
theorem connectToAncestor_able (hi : s.Indexed) (hc : s.Chained) (hb : s._blocks[id]? = some block)
    (hconnects : s.Connects block) (hnone : block._height = none) :
    ∃ height m, s.NewHeight block height ∧ s.connectToAncestor id =
      ({ s.setHeight id height with _mainChain := m } : Blockchain).findDescendants block.hash := by
  by_cases hmain : s._mainChain = []
  · obtain ⟨hhash,hnull⟩ := (connects_start hmain).mp hconnects
    have hout := StoredBlock.not_inChain hnone
    rw [connectToAncestor_start hmain hb,if_neg (by simp [hhash,hnull]),if_neg (by simp [hout])]
    exact ⟨0,[id],.inl ⟨hmain,hhash,hnull,rfl⟩,rfl⟩
  · obtain ⟨height,hprev⟩ := Option.isSome_iff_exists.mp ((connects_chain hmain).mp hconnects)
    obtain ⟨m,hconnect,-⟩ := connectToAncestor_connects hi hc hmain hb hprev hnone
    exact ⟨height + 1,m,.inr ⟨height,hmain,hprev,rfl⟩,hconnect⟩

/-- A block that can be connected and is fails its assertion. -/
theorem connectToAncestor_reconnects (hi : s.Indexed) (hc : s.Chained) (hb : s._blocks[id]? = some block)
    (hconnects : s.Connects block) (hin : block.inChain = true) :
    s.connectToAncestor id = .assertion .heightUnset := by
  by_cases hmain : s._mainChain = []
  · obtain ⟨n,hn⟩ := Option.isSome_iff_exists.mp hin
    have := hc.highest ((height_eq hb).trans hn)
    rw [hmain] at this
    contradiction
  · obtain ⟨height,hprev⟩ := Option.isSome_iff_exists.mp ((connects_chain hmain).mp hconnects)
    exact connectToAncestor_again hi hmain hb hprev hin

end Cases

section Preserved

variable {s s' : Blockchain} {id h : ℕ} {block : StoredBlock}

/-- What the tables are made of. -/
theorem Indexed.congr (hi : s.Indexed) (hblocks : s'._blocks = s._blocks)
    (hids : s'._blockIds = s._blockIds) (hhashes : s'._blockHashes = s._blockHashes) : s'.Indexed where
  block := by
    rw [hblocks,hids,hhashes]
    exact hi.block
  blockIds := by
    rw [hblocks,hids]
    exact hi.blockIds
  blockHashes := by
    rw [hblocks,hhashes]
    exact hi.blockHashes

/-- The height that a block was given is no other's before. -/
theorem height_of_setHeight (hb : s._blocks[id]? = some block) {n i k : ℕ}
    (h : (s.setHeight id n).tree.height i = some k) : i = id ∧ k = n ∨ s.tree.height i = some k := by
  rw [setHeight_height hb] at h
  split_ifs at h with hi
  · exact .inl ⟨hi,(Option.some.inj h).symm⟩
  · exact .inr h

/-- The newly connected block waits for none, and neither did the others. -/
theorem setHeight_unwaited (hc : s.Chained) (hb : s._blocks[id]? = some block)
    (hwait : s.waiting block.hash = []) {n i : ℕ} {b : StoredBlock}
    (hib : (s.setHeight id n)._blocks[i]? = some b) (hin : b.inChain) : s.waiting b.hash = [] := by
  obtain ⟨b',hb',hheader,-,-,hheight⟩ := setHeight_block hib
  have hhash : b.hash = b'.hash := congrArg BlockHeader.hash hheader
  rw [hhash]
  rw [StoredBlock.inChain,hheight] at hin
  split_ifs at hin with hi
  · subst hi
    obtain rfl : block = b' := Option.some.inj (hb.symm.trans hb')
    exact hwait
  · exact hc.unwaited hb' hin

theorem connect_chained (hc : s.Chained) (hmain : s._mainChain ≠ [])
    (hb : s._blocks[id]? = some block) (hnone : block._height = none)
    (hwait : s.waiting block.hash = []) {m : List ℕ}
    (hrooted : (s.setHeight id (h + 1)).tree.Rooted) (hm : (s.setHeight id (h + 1)).tree.IsBranch m)
    (hlen : m.length = max s._mainChain.length (h + 2)) :
    ({ s.setHeight id (h + 1) with _mainChain := m } : Blockchain).Chained where
  rooted := hrooted
  branch := hm
  highest {i k} hk := by
    change k < m.length
    rcases height_of_setHeight hb hk with ⟨-,rfl⟩ | hk
    · omega
    · have := hc.highest hk
      omega
  genesis {i} h0 := by
    have hpos : 0 < s._mainChain.length := List.length_pos_of_ne_nil hmain
    have hbranch := setHeight_branch hc.branch hb hnone (h + 1)
    rw [branch_root hrooted hm hbranch (by omega) hpos] at h0
    obtain ⟨b,hb',hhash,hnull⟩ := hc.genesis h0
    obtain ⟨b',hb',hsame,hprev⟩ := setHeight_stored (n := h + 1) hb'
    exact ⟨b',hb',hsame.trans hhash,hprev ▸ hnull⟩
  unwaited hib hin := setHeight_unwaited hc hb hwait hib hin
  idle := hc.idle

theorem start_chained (hc : s.Chained) (hempty : s._mainChain = [])
    (hb : s._blocks[id]? = some block) (hhash : block.hash = s._genesisBlockHash)
    (hnull : block.prev.isNull) (hwait : s.waiting block.hash = []) :
    ({ s.setHeight id 0 with _mainChain := [id] } : Blockchain).Chained := by
  have hheights {i k : ℕ} (hk : (s.setHeight id 0).tree.height i = some k) : i = id ∧ k = 0 := by
    rcases height_of_setHeight hb hk with hk | hk
    · exact hk
    · have := hc.highest hk
      rw [hempty] at this
      contradiction
  have hid : (s.setHeight id 0).tree.height id = some 0 := by rw [setHeight_height hb,if_pos rfl]
  refine ⟨⟨?_,?_⟩,⟨?_,?_⟩,?_,?_,fun hib hin => setHeight_unwaited hc hb hwait hib hin,hc.idle⟩
  · intro a b ha hb'
    rw [(hheights ha).1,(hheights hb').1]
  · intro a n ha
    exact absurd (hheights ha).2 n.succ_ne_zero
  · intro i a ha
    obtain ⟨hlen,rfl⟩ := List.getElem?_eq_some_iff.mp ha
    obtain rfl : i = 0 := by
      have : i < 1 := hlen
      omega
    exact hid
  · intro i a ha
    obtain ⟨hlen,-⟩ := List.getElem?_eq_some_iff.mp ha
    have : i + 1 < 1 := hlen
    omega
  · intro i k hk
    rw [(hheights hk).2]
    exact Nat.one_pos
  · intro i h0
    obtain rfl : id = i := Option.some.inj h0
    obtain ⟨b',hb',hsame,hprev⟩ := setHeight_stored (n := 0) hb
    exact ⟨b',hb',hsame.trans hhash,hprev ▸ hnull⟩

theorem findDescendants_returned {hash : uint256} {result : Bool}
    (h : s.findDescendants hash = .returned result s') : s.waiting hash = [] ∧ s' = s := by
  unfold findDescendants at h
  split_ifs at h with hwait
  obtain ⟨-,rfl⟩ := Outcome.returned.inj h
  exact ⟨hwait,rfl⟩

/-- A call that returns keeps the tables and the tree. -/
theorem connectToAncestor_preserved (hi : s.Indexed) (hc : s.Chained) {result : Bool}
    (h : s.connectToAncestor id = .returned result s') :
    s'.Indexed ∧ s'.Chained ∧ s'._genesisBlockHash = s._genesisBlockHash := by
  cases hb : s._blocks[id]? with
  | none =>
    rw [connectToAncestor_missing hb] at h
    obtain ⟨-,rfl⟩ := Outcome.returned.inj h
    exact ⟨hi,hc,rfl⟩
  | some block =>
    by_cases hmain : s._mainChain = []
    · rw [connectToAncestor_start hmain hb] at h
      split_ifs at h with hgenesis hin
      · obtain ⟨-,rfl⟩ := Outcome.returned.inj h
        refine ⟨hi.congr rfl rfl rfl,⟨hc.rooted,hc.branch,hc.highest,hc.genesis,?_,hc.idle⟩,rfl⟩
        -- no block is connected before the genesis block
        intro i b hib hin
        obtain ⟨k,hk⟩ := Option.isSome_iff_exists.mp hin
        have := hc.highest ((height_eq hib).trans hk)
        rw [hmain] at this
        contradiction
      · obtain ⟨hwait,rfl⟩ := findDescendants_returned h
        rw [not_or,not_not,not_not] at hgenesis
        exact ⟨(setHeight_indexed hi).congr rfl rfl rfl,
          start_chained hc hmain hb hgenesis.1 hgenesis.2 hwait,rfl⟩
    · cases hprev : s.prevHeight block with
      | none =>
        rw [connectToAncestor_unconnected hi hmain hb hprev] at h
        obtain ⟨-,rfl⟩ := Outcome.returned.inj h
        exact ⟨hi,hc,rfl⟩
      | some height =>
        cases hnone : block._height with
        | some n =>
          rw [connectToAncestor_again hi hmain hb hprev (StoredBlock.inChain_of_height hnone)] at h
          contradiction
        | none =>
          obtain ⟨m,hconnect,hrooted,hm,hlen,-⟩ := connectToAncestor_connects hi hc hmain hb hprev hnone
          rw [hconnect] at h
          obtain ⟨hwait,rfl⟩ := findDescendants_returned h
          exact ⟨(setHeight_indexed hi).congr rfl rfl rfl,
            connect_chained hc hmain hb hnone hwait hrooted hm hlen,rfl⟩

end Preserved

end Blockchain
end Tkeycoin
