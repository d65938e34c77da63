import Tkeycoin.LookupTables

/-! The headers that a node sends for a locator: `Blockchain::getBlockHeaders`. -/
namespace Tkeycoin
namespace Blockchain

section Definitions

variable (s : Blockchain)

/-- The height of the first entry of the locator that is connected. -/
def locatorHeight : List uint256 → Option ℕ
  | [] => none
  | hash :: locator =>
    match s.getBlockHeader hash with
    | none => locatorHeight locator
    | some header =>
      match s.tree.height header with
      | none => locatorHeight locator
      | some height => some height

/-- The loop, with room for so many headers: `hash` is not read again while the height goes up. -/
def collectHeaders (hash stopHash : uint256) : ℕ → List (Option ℕ) → List (Option ℕ)
  | 0, headers => headers
  | room+1, headers =>
    if ¬ hash.isNull ∧ hash ≠ stopHash then
      collectHeaders hash stopHash room (headers ++ [s.getBlockHeader hash])
    else headers

/-- `getBlockHeaders(locator,stopHash)`, as places of the headers; `none` where `getBlockHash` fails
its assertion. There is no block at the height `-1`, and the null hash is one. -/
def getBlockHeaders (locator : List uint256) (stopHash : uint256) : Option (List (Option ℕ)) := do
  let hash ← match s.locatorHeight locator with
    | none => some Blob.null
    | some height => s.getBlockHash height
  pure (s.collectHeaders hash stopHash 1001 [])

/-- The hashes on the main chain, from the genesis block on. -/
def mainHashes : List (Option uint256) := s._mainChain.map s._blockHashes

/-- The height of the first entry of a locator that lies on the main chain. -/
def mainHeight (locator : List uint256) : Option ℕ :=
  locator.findSome? fun hash => s.mainHashes.idxOf? (some hash)

/-- The blocks of the main chain behind this entry, up to the one before the stop hash, and no
more than a maximum: what `getheaders` asks for. -/
def followers (locator : List uint256) (stopHash : uint256) (maximum : ℕ) : List ℕ :=
  match s.mainHeight locator with
  | none => []
  | some height =>
    ((s._mainChain.drop (height + 1)).takeWhile fun id => s._blockHashes id ≠ some stopHash).take maximum

/-- The height of the block with this hash, if it is connected. -/
def connectedHeight (hash : uint256) : Option ℕ := (s._blockIds hash).bind s.tree.height

/-- No entry is connected, or where the first connected one is the main chain has the stop hash
or the null hash. -/
def Silent (locator : List uint256) (stopHash : uint256) : Prop :=
  ∀ height hash, locator.findSome? s.connectedHeight = some height →
    s.mainHashes[height]? = some (some hash) → hash.isNull ∨ hash = stopHash

/-- No entry lies on the main chain, or the first one that does is its end or stands before the
stop hash. -/
def NoneFollow (locator : List uint256) (stopHash : uint256) : Prop :=
  ∀ height, s.mainHeight locator = some height →
    s._mainChain.length = height + 1 ∨ s.mainHashes[height + 1]? = some (some stopHash)

end Definitions

section Collect

variable {s : Blockchain} {hash stopHash : uint256}

theorem collectHeaders_none (h : hash.isNull ∨ hash = stopHash) (room : ℕ) (headers : List (Option ℕ)) :
    s.collectHeaders hash stopHash room headers = headers := by
  cases room with
  | zero => rfl
  | succ room =>
    rw [collectHeaders,if_neg]
    rintro ⟨hnull,hne⟩
    exact h.elim hnull hne

/-- The same header again and again. -/
theorem collectHeaders_some (hnull : ¬ hash.isNull) (hne : hash ≠ stopHash) (room : ℕ)
    (headers : List (Option ℕ)) : s.collectHeaders hash stopHash room headers =
      headers ++ List.replicate room (s.getBlockHeader hash) := by
  induction room generalizing headers with
  | zero => simp [collectHeaders]
  | succ room ih =>
    rw [collectHeaders,if_pos ⟨hnull,hne⟩,ih,List.append_assoc,List.replicate_succ]
    rfl

end Collect

/-- The first member of a list that fails a test stops it. -/
theorem takeWhile_eq_nil_iff_head {α : Type} {p : α → Bool} {l : List α} :
    l.takeWhile p = [] ↔ ∀ a, l.head? = some a → p a = false := by
  cases l with
  | nil => simp
  | cons a l => cases h : p a <;> simp [h]

theorem mainHeight_eq_some {s : Blockchain} {locator : List uint256} {height : ℕ}
    (h : s.mainHeight locator = some height) :
    ∃ hash ∈ locator, s.mainHashes[height]? = some (some hash) := by
  obtain ⟨hash,hmem,hidx⟩ := List.exists_of_findSome?_eq_some h
  obtain ⟨hlt,hget,-⟩ := List.idxOf?_eq_some_iff.mp hidx
  exact ⟨hash,hmem,List.getElem?_eq_some_iff.mpr ⟨hlt,hget⟩⟩

section Invariants

variable {s : Blockchain} {locator : List uint256} {stopHash : uint256}

theorem locatorHeight_eq (hi : s.Indexed) (locator : List uint256) :
    s.locatorHeight locator = locator.findSome? s.connectedHeight := by
  induction locator with
  | nil => rfl
  | cons hash locator ih =>
    rw [locatorHeight,hi.getBlockHeader_eq,ih,List.findSome?_cons,connectedHeight]
    cases s._blockIds hash with
    | none => rfl
    | some id =>
      dsimp only [Option.bind_some]
      cases s.tree.height id <;> rfl

/-- A block of the main chain and its hash. -/
theorem mainHashes_eq (hi : s.Indexed) {height : ℕ} {hash : uint256} :
    s.mainHashes[height]? = some (some hash) ↔
      ∃ id, s._mainChain[height]? = some id ∧ s._blockIds hash = some id := by
  rw [mainHashes,List.getElem?_map,Option.map_eq_some_iff]
  constructor
  · rintro ⟨id,hid,hhash⟩
    obtain ⟨b,hb,rfl⟩ := hi.blockHashes hhash
    exact ⟨id,hid,(hi.block hb).1⟩
  · rintro ⟨id,hid,hhash⟩
    obtain ⟨b,hb,rfl⟩ := hi.blockIds hhash
    exact ⟨id,hid,(hi.block hb).2.2⟩

theorem mainHashes_some (hi : s.Indexed) (hc : s.Chained) {height : ℕ} (h : height < s._mainChain.length) :
    ∃ hash, s.mainHashes[height]? = some (some hash) ∧ s.getBlockHash height = some hash := by
  have hid := List.getElem?_eq_getElem h
  obtain ⟨b,hb,-⟩ := block_of_height (hc.branch.height hid)
  refine ⟨b.hash,(mainHashes_eq hi).mpr ⟨_,hid,(hi.block hb).1⟩,?_⟩
  rw [getBlockHash,hid]
  exact (hi.block hb).2.2

theorem connectedHeight_of_mainHashes (hi : s.Indexed) (hc : s.Chained) {height : ℕ} {hash : uint256}
    (h : s.mainHashes[height]? = some (some hash)) : s.connectedHeight hash = some height := by
  obtain ⟨id,hid,hhash⟩ := (mainHashes_eq hi).mp h
  rw [connectedHeight,hhash,Option.bind_some,hc.branch.height hid]

theorem connectedHeight_lt (hc : s.Chained) {hash : uint256} {height : ℕ}
    (h : s.connectedHeight hash = some height) : height < s._mainChain.length := by
  obtain ⟨id,-,hheight⟩ := Option.bind_eq_some_iff.mp h
  exact hc.highest hheight

/-- What is sent: nothing, or the header at the height of the first connected entry, 1001 times. -/
theorem getBlockHeaders_eq (hi : s.Indexed) (hc : s.Chained) :
    s.Silent locator stopHash ∧ s.getBlockHeaders locator stopHash = some [] ∨
      ¬ s.Silent locator stopHash ∧ ∃ height id, locator.findSome? s.connectedHeight = some height ∧
        s._mainChain[height]? = some id ∧
        s.getBlockHeaders locator stopHash = some (List.replicate 1001 (some id)) := by
  unfold getBlockHeaders Silent
  rw [locatorHeight_eq hi]
  cases hheight : locator.findSome? s.connectedHeight with
  | none => exact .inl ⟨nofun,rfl⟩
  | some height =>
    obtain ⟨hash',-,hconnected⟩ := List.exists_of_findSome?_eq_some hheight
    obtain ⟨hash,hmain,hget⟩ := mainHashes_some hi hc (connectedHeight_lt hc hconnected)
    simp only [hget,bind,Option.bind_some,pure]
    by_cases hstop : hash.isNull ∨ hash = stopHash
    · refine .inl ⟨fun height' hash' hfirst hmain' => ?_,?_⟩
      · obtain rfl := Option.some.inj hfirst
        rw [← Option.some.inj (Option.some.inj (hmain.symm.trans hmain'))]
        exact hstop
      · rw [collectHeaders_none hstop]
    · obtain ⟨hnull,hne⟩ := not_or.mp hstop
      obtain ⟨id,hid,hhash⟩ := (mainHashes_eq hi).mp hmain
      refine .inr ⟨fun hsilent => hstop (hsilent height hash rfl hmain),height,id,rfl,hid,?_⟩
      rw [collectHeaders_some hnull hne,hi.getBlockHeader_eq,hhash]
      rfl

theorem followers_nodup (hc : s.Chained) (maximum : ℕ) : (s.followers locator stopHash maximum).Nodup := by
  unfold followers
  split
  · exact List.nodup_nil
  · exact hc.branch.nodup.sublist
      ((List.take_sublist _ _).trans ((List.takeWhile_sublist _).trans (List.drop_sublist _ _)))

theorem followers_eq_nil_iff {maximum : ℕ} (hmaximum : 0 < maximum) :
    s.followers locator stopHash maximum = [] ↔ s.NoneFollow locator stopHash := by
  unfold followers NoneFollow
  cases hheight : s.mainHeight locator with
  | none => exact iff_of_true rfl nofun
  | some height =>
    obtain ⟨hash,-,hmain⟩ := mainHeight_eq_some hheight
    obtain ⟨hlt,-⟩ := List.getElem?_eq_some_iff.mp hmain
    rw [mainHashes,List.length_map] at hlt
    rw [List.take_eq_nil_iff,or_iff_right (Nat.ne_of_gt hmaximum),takeWhile_eq_nil_iff_head,List.head?_drop]
    simp only [Option.some.injEq,forall_eq',mainHashes,List.getElem?_map]
    cases hnext : s._mainChain[height + 1]? with
    | none =>
      have := List.getElem?_eq_none_iff.mp hnext
      exact iff_of_true nofun (.inl (by omega))
    | some id =>
      obtain ⟨hlt',-⟩ := List.getElem?_eq_some_iff.mp hnext
      have hne : s._mainChain.length ≠ height + 1 := by omega
      simp [hne]

/-- What is sent is never what follows. -/
theorem getBlockHeaders_ne_followers (hi : s.Indexed) (hc : s.Chained) (hsilent : ¬ s.Silent locator stopHash)
    (maximum : ℕ) :
    s.getBlockHeaders locator stopHash ≠ some ((s.followers locator stopHash maximum).map some) := by
  intro heq
  rcases @getBlockHeaders_eq s locator stopHash hi hc with
    ⟨hnothing,-⟩ | ⟨-,height,id,-,-,hmany⟩
  · exact hsilent hnothing
  · rw [hmany] at heq
    have hnodup : ((s.followers locator stopHash maximum).map some).Nodup :=
      (followers_nodup hc maximum).map (Option.some_injective ℕ)
    rw [← Option.some.inj heq,List.nodup_replicate] at hnodup
    omega

end Invariants

theorem genesisStore_noBlock : FoundNoBlock ([] ++ [.load ⟨fun _ => true,fun _ => 0,none⟩] ++
    [.call (.addBlock ⟨genesisHeader,[]⟩)]) := by
  intro loading hmem
  simp only [List.nil_append,List.cons_append,List.mem_cons,List.not_mem_nil,or_false,reduceCtorEq,
    Step.load.injEq] at hmem
  exact ⟨[],hmem ▸ rfl⟩

theorem genesisStore_mainHashes : genesisStore.mainHashes[0]? = some (some genesisHash) := by
  obtain ⟨hi,-,-⟩ := run_preserved genesisStore_run genesisStore_noBlock
  have hblock : genesisStore._blocks[0]? = some ⟨genesisHeader,some [],some 0,some 0⟩ := rfl
  have hid := (hi.block hblock).1
  rw [StoredBlock.hash,genesisHeader_hash] at hid
  exact (mainHashes_eq hi).mpr ⟨0,rfl,hid⟩

end Blockchain
end Tkeycoin
