import Tkeycoin.MainChain

/-! Which block is at the end of the main chain, and what of a store stays whatever is called. -/
namespace Tkeycoin
namespace Blockchain

section Tip

variable {s : Blockchain} {id h : ℕ}

/-- What is pushed last is at the end. -/
theorem pushChain_last (hi : s.Indexed) {mainChain chain : List ℕ} {s' : Blockchain} (hid : [id] <:+ chain)
    (hb : (s.tree.height id).isSome) (h : s.pushChain mainChain chain = .returned () s') :
    s'._mainChain.getLast? = some id := by
  induction chain generalizing mainChain with
  | nil => exact absurd hid (by simp)
  | cons block chain ih =>
    rw [pushChain] at h
    split_ifs at h
    rcases List.suffix_cons_iff.mp hid with heq | hid
    · obtain ⟨rfl,rfl⟩ := List.cons.inj heq
      obtain ⟨n,hn⟩ := Option.isSome_iff_exists.mp hb
      obtain ⟨b,hb,-⟩ := block_of_height hn
      rw [pushChain,hb,Option.bind_some,(hi.block hb).2.1] at h
      obtain ⟨-,rfl⟩ := Outcome.returned.inj h
      exact List.getLast?_concat
    · exact ih hid h

/-- The block that was put on the stack first goes to the end of the main chain. -/
theorem meet_tip (hi : s.Indexed) (hsome : (s.tree.height id).isSome) {a b : Option ℕ} {fuel : ℕ} {branch m : List ℕ}
    (h : (match s.tree.meet fuel a b [id] branch with
      | none => Outcome.diverges
      | some (chain,mainChain) => s.pushChain mainChain chain) = .returned () { s with _mainChain := m }) :
    m.getLast? = some id := by
  cases hmeet : s.tree.meet fuel a b [id] branch with
  | none =>
    rw [hmeet] at h
    cases h
  | some r =>
    rw [hmeet] at h
    exact pushChain_last hi (Tree.meet_suffix hmeet) hsome h

/-- A block that is higher than the others, or as high, goes to the end of the main chain. A lower one changes
nothing. -/
theorem switchBranch_tip (hi : s.Indexed) (hT : s.tree.Rooted) (hheight : s.tree.height id = some (h + 1))
    (hle : h < s._mainChain.length) (hnew : id ∉ s._mainChain) {m : List ℕ}
    (hreturned : s.switchBranch id = .returned () { s with _mainChain := m }) :
    if h + 2 < s._mainChain.length then m = s._mainChain else m.getLast? = some id := by
  have hsome : (s.tree.height id).isSome := by rw [hheight]; rfl
  unfold switchBranch at hreturned
  simp only [hheight,sizeT_some] at hreturned
  by_cases hlow : h + 1 ≥ s._mainChain.length - 1
  · rw [if_pos hlow] at hreturned
    rw [if_neg (by omega)]
    obtain ⟨p,hparent,hp⟩ := hT.parent_of_succ hheight
    have hdescend := Tree.descend_eq (T := s.tree) (a := id)
      (fun block => decide (sizeT (s.tree.height block) > s._mainChain.length - 1)) []
      (show 2 ≤ s._blocks.length + 2 by omega) (by
        intro hhigh
        refine ⟨p,hparent,?_⟩
        simp only [hp,hheight,sizeT_some,decide_eq_true_eq,decide_eq_false_iff_not] at hhigh ⊢
        omega)
    simp only [hdescend,hheight,sizeT_some,decide_eq_true_eq] at hreturned
    -- in both cases the block is the first on the stack
    by_cases hhigh : h + 1 > s._mainChain.length - 1
    · rw [if_pos hhigh] at hreturned
      exact meet_tip hi hsome hreturned
    · rw [if_neg hhigh] at hreturned
      have hpos : 0 < s._mainChain.length := by omega
      have hlast : s._mainChain.getLast? = some (s._mainChain.getLast (List.ne_nil_of_length_pos hpos)) :=
        List.getLast?_eq_some_getLast _
      have hne : id ≠ s._mainChain.getLast (List.ne_nil_of_length_pos hpos) := by
        rintro heq
        exact hnew (heq ▸ List.getLast_mem _)
      rw [hlast,Tree.meet,if_neg hne] at hreturned
      exact meet_tip hi hsome hreturned
  · rw [if_neg hlow] at hreturned
    obtain ⟨-,heq⟩ := Outcome.returned.inj hreturned
    rw [if_pos (by omega)]
    exact (congrArg _mainChain heq).symm

end Tip

/-- What `connectToAncestor` makes of a store where it returns. -/
inductive Linked (s : Blockchain) (id : ℕ) : Blockchain → Prop
  | unable (orphans : List (uint256 × ℕ)) : Linked s id { s with _orphanBlocks := orphans }
  | able {block : StoredBlock} {n : ℕ} {m : List ℕ} (stored : s._blocks[id]? = some block)
    (unconnected : block._height = none) (length : m.length = max s._mainChain.length (n + 1))
    (tip : if n + 1 < s._mainChain.length then m = s._mainChain else m.getLast? = some id) :
    Linked s id { s.setHeight id n with _mainChain := m }

theorem linked_of_returned {s s' : Blockchain} {id : ℕ} (hi : s.Indexed) (hc : s.Chained) {result : Bool}
    (h : s.connectToAncestor id = .returned result s') : Linked s id s' := by
  cases hb : s._blocks[id]? with
  | none =>
    rw [connectToAncestor_missing hb] at h
    obtain ⟨-,rfl⟩ := Outcome.returned.inj h
    exact .unable _
  | some block =>
    by_cases hconnects : s.Connects block
    · cases hnone : block._height with
      | some n =>
        rw [connectToAncestor_reconnects hi hc hb hconnects (StoredBlock.inChain_of_height hnone)] at h
        exact nomatch h
      | none =>
        by_cases hmain : s._mainChain = []
        · obtain ⟨hhash,hnull⟩ := (connects_start hmain).mp hconnects
          have hout := StoredBlock.not_inChain hnone
          rw [connectToAncestor_start hmain hb,if_neg (by simp [hhash,hnull]),if_neg (by simp [hout])] at h
          obtain ⟨-,rfl⟩ := findDescendants_returned h
          exact .able hb hnone (by rw [hmain]; rfl) (by rw [hmain]; rfl)
        · obtain ⟨height,hprev⟩ := Option.isSome_iff_exists.mp ((connects_chain hmain).mp hconnects)
          obtain ⟨m,hconnect,hrooted,-,hlength,hswitch⟩ := connectToAncestor_connects hi hc hmain hb hprev hnone
          rw [hconnect] at h
          obtain ⟨-,rfl⟩ := findDescendants_returned h
          obtain ⟨p,-,hp⟩ := Option.bind_eq_some_iff.mp hprev
          have hnew : id ∉ s._mainChain := by
            intro hmem
            obtain ⟨i,hget⟩ := List.mem_iff_getElem?.mp hmem
            have hheight := hc.branch.height hget
            rw [height_eq hb,hnone] at hheight
            exact nomatch hheight
          exact .able hb hnone hlength (switchBranch_tip (setHeight_indexed hi) hrooted
            (by rw [setHeight_height hb,if_pos rfl]) (hc.highest hp) hnew hswitch)
    · obtain ⟨orphans,heq,-⟩ := connectToAncestor_unable hi hb hconnects
      rw [heq] at h
      obtain ⟨-,rfl⟩ := Outcome.returned.inj h
      exact .unable orphans

/-- What a store keeps of one before: its headers in their places, their heights once they have some, and its
transactions. The main chain is no shorter, and if it is another one its end was not connected then. -/
structure Later (s s' : Blockchain) : Prop where
  stored : ∀ {id : ℕ} {b : StoredBlock}, s._blocks[id]? = some b →
    ∃ b' : StoredBlock, s'._blocks[id]? = some b' ∧ b'.header = b.header ∧ ∀ n, b._height = some n → b'._height = some n
  transactions : s._transactions <+: s'._transactions
  higher : s.getHeight ≤ s'.getHeight
  tip : s'._mainChain = s._mainChain ∨ ∃ id, s'._mainChain.getLast? = some id ∧ s.tree.height id = none

namespace Later

variable {s s' s'' : Blockchain} {id : ℕ} {block : StoredBlock}

theorem refl (s : Blockchain) : Later s s :=
  ⟨fun hb => ⟨_,hb,rfl,fun _ h => h⟩,List.prefix_refl _,le_rfl,.inl rfl⟩

theorem height (h : Later s s') {n : ℕ} (hn : s.tree.height id = some n) : s'.tree.height id = some n := by
  obtain ⟨b,hb,hheight⟩ := block_of_height hn
  obtain ⟨b',hb',-,hkept⟩ := h.stored hb
  rw [height_eq hb',hkept n hheight]

theorem trans (h : Later s s') (h' : Later s' s'') : Later s s'' where
  stored hb := by
    obtain ⟨b',hb',hheader,hkept⟩ := h.stored hb
    obtain ⟨b'',hb'',hheader',hkept'⟩ := h'.stored hb'
    exact ⟨b'',hb'',hheader'.trans hheader,fun n hn => hkept' n (hkept n hn)⟩
  transactions := h.transactions.trans h'.transactions
  higher := h.higher.trans h'.higher
  tip := by
    rcases h'.tip with heq | ⟨id,hlast,hnone⟩
    · rw [heq]
      exact h.tip
    · refine .inr ⟨id,hlast,?_⟩
      -- a block that is not connected later was not connected before
      cases hn : s.tree.height id with
      | none => rfl
      | some n => exact absurd (h.height hn) (by rw [hnone]; exact nofun)

theorem addBlockHeader (s : Blockchain) (header : BlockHeader) (txList : Option (List Transaction)) :
    Later s (s.addBlockHeader header txList).2 := by
  unfold Blockchain.addBlockHeader
  split_ifs
  · exact refl s
  · exact ⟨fun hb => ⟨_,append_stored hb,rfl,fun _ h => h⟩,List.prefix_refl _,le_rfl,.inl rfl⟩

theorem addTx (s : Blockchain) (tx : Transaction) : Later s (s.addTx tx).2 := by
  unfold Blockchain.addTx
  split_ifs
  · exact refl s
  · exact ⟨fun hb => ⟨_,hb,rfl,fun _ h => h⟩,List.prefix_append _ _,le_rfl,.inl rfl⟩

theorem addTxs (s : Blockchain) (txs : List Transaction) : Later s (txs.foldl (fun s tx => (s.addTx tx).2) s) := by
  induction txs generalizing s with
  | nil => exact refl s
  | cons tx txs ih => exact (addTx s tx).trans (ih _)

/-- A block gets its height, and goes to the end of the main chain or leaves it as it is. -/
theorem connect (hb : s._blocks[id]? = some block) (hnone : block._height = none) {n : ℕ} {m : List ℕ}
    (hhigher : s._mainChain.length ≤ m.length) (htip : m = s._mainChain ∨ m.getLast? = some id) :
    Later s { s.setHeight id n with _mainChain := m } where
  stored {i b} hi := by
    have hset : (s.setHeight id n)._blocks[i]? = _ := setHeight_blocks i
    rw [hi,Option.map_some] at hset
    refine ⟨_,hset,?_,fun k hk => ?_⟩
    · split_ifs <;> rfl
    · have hne : id ≠ i := by
        rintro rfl
        rw [hb] at hi
        rw [← Option.some.inj hi,hnone] at hk
        exact nomatch hk
      rw [if_neg hne]
      exact hk
  transactions := List.prefix_refl _
  higher := hhigher
  tip := htip.imp_right fun hlast => ⟨id,hlast,by rw [height_eq hb,hnone]⟩

theorem of_linked (h : Linked s id s') : Later s s' := by
  cases h with
  | unable orphans => exact ⟨fun hb => ⟨_,hb,rfl,fun _ h => h⟩,List.prefix_refl _,le_rfl,.inl rfl⟩
  | able hb hnone length tip =>
    refine connect hb hnone (by omega) ?_
    split_ifs at tip
    · exact .inl tip
    · exact .inr tip

theorem stored_later (s : Blockchain) (block : Block) : Later s (s.stored block) :=
  (addBlockHeader s block.header (some block.txList)).trans (addTxs _ block.txList)

/-- Links stay, since each hash has its place for ever. -/
theorem parent (h : Later s s') (hi : s.Indexed) (hi' : s'.Indexed) {a p : ℕ} (hp : s.tree.parent a = some p) :
    s'.tree.parent a = some p := by
  obtain ⟨b,hb,hparent⟩ := Option.bind_eq_some_iff.mp hp
  obtain ⟨b',hb',hheader,-⟩ := h.stored hb
  rw [hi.getBlockHeader_eq] at hparent
  obtain ⟨q,hq,hhash⟩ := hi.blockIds hparent
  obtain ⟨q',hq',hheader',-⟩ := h.stored hq
  have hplace : s'._blockIds q'.hash = some p := (hi'.block hq').1
  have hsame : q'.hash = b'.prev := by
    have hlink : q.hash = b.prev := hhash
    rw [StoredBlock.hash,StoredBlock.prev,hheader,hheader']
    exact hlink
  rw [parent_eq hb',hi'.getBlockHeader_eq,← hsame]
  exact hplace

/-- A main chain is a branch of all later trees. -/
theorem branch (h : Later s s') (hi : s.Indexed) (hc : s.Chained) (hi' : s'.Indexed) :
    s'.tree.IsBranch s._mainChain :=
  hc.branch.congr h.height (h.parent hi hi')

end Later

section Calls

variable {genesis : uint256} {s s' : Blockchain} {result : Bool}

/-- A call that returns stores what it is given and connects at most one block. -/
theorem perform_linked (h : Reachable genesis s) {call : Call} (hperform : s.perform call = .returned result s') :
    ∃ t id, Later s t ∧ t._mainChain = s._mainChain ∧ (∀ i, t.tree.height i = s.tree.height i) ∧
      t.Indexed ∧ Linked t id s' := by
  obtain ⟨hi,hc,-⟩ := reachable_preserved h
  cases call with
  | addBlock block =>
    by_cases hroot : rootMatches block
    · obtain ⟨hi₁,hc₁,-⟩ := stored_preserved hi hc block
      obtain ⟨id,b,-,-,heq⟩ := addBlock_connects hi block hroot
      rw [perform,heq] at hperform
      obtain ⟨found,s₁,hconnect,hreturned⟩ := bind_returned hperform
      obtain ⟨-,rfl⟩ := Outcome.returned.inj hreturned
      obtain ⟨transactions,txIds,txHashes,hstored⟩ := stored_eq s block
      refine ⟨_,id,Later.stored_later s block,?_,fun i => ?_,hi₁,linked_of_returned hi₁ hc₁ hconnect⟩
      · rw [hstored]
        unfold addBlockHeader
        split_ifs <;> rfl
      · rw [hstored]
        exact addBlockHeader_height i
    · rw [perform,addBlock_mismatch block hroot] at hperform
      obtain ⟨-,rfl⟩ := Outcome.returned.inj hperform
      exact ⟨s,0,Later.refl s,rfl,fun _ => rfl,hi,.unable _⟩
  | addBlockHeader header =>
    obtain ⟨-,rfl⟩ := Outcome.returned.inj hperform
    refine ⟨_,0,Later.addBlockHeader s header none,?_,addBlockHeader_height,addBlockHeader_indexed hi,.unable _⟩
    unfold addBlockHeader
    split_ifs <;> rfl
  | addTx tx =>
    obtain ⟨-,rfl⟩ := Outcome.returned.inj hperform
    obtain ⟨transactions,txIds,txHashes,heq⟩ := addTx_eq s tx
    have hlater := Later.addTx s tx
    rw [heq] at hlater ⊢
    exact ⟨_,0,hlater,rfl,fun _ => rfl,withTxs_indexed hi _ _ _,.unable _⟩
  | task id =>
    rw [hc.perform_task] at hperform
    obtain ⟨-,rfl⟩ := Outcome.returned.inj hperform
    exact ⟨s,0,Later.refl s,rfl,fun _ => rfl,hi,.unable _⟩

/-- Some call on the first store returns with the second. -/
def Returns (s s' : Blockchain) : Prop := ∃ call result, s.perform call = .returned result s'

theorem later_of_returns (h : Reachable genesis s) (hreturns : Returns s s') : Later s s' := by
  obtain ⟨call,result,hperform⟩ := hreturns
  obtain ⟨t,id,hlater,-,-,-,hlinked⟩ := perform_linked h hperform
  exact hlater.trans (Later.of_linked hlinked)

theorem later_of_run (h : Reachable genesis s) (hrun : Relation.ReflTransGen Returns s s') :
    Reachable genesis s' ∧ Later s s' := by
  induction hrun with
  | refl => exact ⟨h,Later.refl s⟩
  | tail _ hreturns ih =>
    obtain ⟨hreached,hlater⟩ := ih
    refine ⟨?_,hlater.trans (later_of_returns hreached hreturns)⟩
    obtain ⟨call,result,hperform⟩ := hreturns
    exact .call hreached hperform

/-- The block that a call connects goes to the end of the main chain, unless that is higher already: of two branches of
one length the later is followed. -/
theorem newest_followed (h : Reachable genesis s) {call : Call} (hperform : s.perform call = .returned result s')
    {id n : ℕ} (hnone : s.tree.height id = none) (hn : s'.tree.height id = some n) :
    if n + 1 < s.getHeight then s'._mainChain = s._mainChain
    else s'._mainChain.getLast? = some id ∧ s'.getHeight = n + 1 := by
  obtain ⟨t,place,-,hmain,hheight,-,hlinked⟩ := perform_linked h hperform
  rw [← hheight] at hnone
  cases hlinked with
  | unable orphans => exact absurd (hn.symm.trans hnone) nofun
  | able hb hout length tip =>
    rcases height_of_setHeight hb hn with ⟨rfl,rfl⟩ | hn
    · rw [hmain] at length tip
      by_cases hlow : n + 1 < s._mainChain.length
      · rw [if_pos hlow] at tip
        rw [if_pos (show n + 1 < s.getHeight from hlow)]
        exact tip
      · rw [if_neg hlow] at tip
        rw [if_neg (show ¬ n + 1 < s.getHeight from hlow)]
        exact ⟨tip,length.trans (by omega)⟩
    · exact absurd (hn.symm.trans hnone) nofun

theorem newest_followed_genesis : if 0 + 1 < (empty genesisHash).getHeight then
      genesisStore._mainChain = (empty genesisHash)._mainChain
    else genesisStore._mainChain.getLast? = some 0 ∧ genesisStore.getHeight = 0 + 1 := by
  have hperform : (empty genesisHash).perform (.addBlock ⟨genesisHeader,[]⟩) = .returned true genesisStore :=
    genesisStore_addBlock
  exact newest_followed .empty hperform rfl rfl

end Calls

end Blockchain
end Tkeycoin
