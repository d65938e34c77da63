import Tkeycoin.AddressRuns

/-! Whether the addresses that `AddressManager::get` gives are those of the table, over whole runs. -/
namespace Tkeycoin
namespace AddressManager

open KnownAddress KeyedSet

/-- As many different good addresses as there are, up to the number asked for, and the best first. -/
structure Answers (m : AddressManager) (number : ℕ) (answer : List KnownAddress) : Prop where
  distinct : (answer.map address).Nodup
  good : ∀ a ∈ answer, a ∈ m._addresses ∧ ¬ Has address m._banned a.address ∧ ¬ Has address m._failed a.address
  best : answer.Pairwise fun a b => b._time ≤ a._time
  count : answer.length = min number m._addresses.length

/-- A load leaves the same addresses in the view and in the table: all that is read, which is nothing twice,
nothing banned, not too much and not too old; or there is no file. -/
def loadsCurrent (m : AddressManager) (current : Bool) (loading : Loading) : Bool :=
  match m.file with
  | none => current
  | some file =>
    match loading.read file with
    | none => false
    | some (address,banned) => m._addresses = [] ∧ banned = [] ∧ (address.map KnownAddress.address).Nodup ∧
        address.length ≤ m._addressCapacity ∧ ∀ a ∈ address, ¬ a.getTime < m.thresholdTime loading.now

/-- Whether the view is up to date behind a step: it was and the table of good addresses is not changed, or
it is made of the whole table. -/
def current (m : AddressManager) (current : Bool) : Event → Bool
  | .reg a => current && (m.reg a)._addresses = m._addresses
  | .fail a => current && (m.fail a)._addresses = m._addresses
  | .ban a now => current && (m.ban a now)._addresses = m._addresses
  | .get _ => current
  | .save saving => (m.truncate saving.now)._addresses.length ≤ m._addressCapacity
  | .load loading => m.loadsCurrent current loading
  | .restart loading => m.restarted.loadsCurrent true loading

/-- The manager, and whether its view is up to date. -/
def watch (w : AddressManager × Bool) (event : Event) : Option (AddressManager × Bool) :=
  (w.1.step event).map fun t => (t,w.1.current w.2 event)

/-- The steps behind which `get` is right: no address gets into two tables, and `get` is called while the
view is up to date, for no fewer addresses than there are. -/
def Timely (w : AddressManager × Bool) (event : Event) : Prop :=
  KeepsApart w.1 event ∧ ∀ number, event = .get number → w.2 = true ∧ w.1._addresses.length ≤ number

/-- What is kept: the view is always in order, and up to date if it is said to be. -/
structure Watched (w : AddressManager × Bool) : Prop where
  disjoint : Disjoint w.1
  distinct : (w.1._addresses.map address).Nodup
  ordered : w.1._sorted.Pairwise fun a b => b._time ≤ a._time
  view : w.2 = true → w.1._sorted.Perm w.1._addresses

section Steps

variable {m t : AddressManager} {was : Bool}

theorem nodup_foldl_emplace (l : List KnownAddress) {set : List KnownAddress} (h : (set.map address).Nodup) :
    ((l.foldl (emplace address) set).map address).Nodup := by
  induction l generalizing set with
  | nil => exact h
  | cons a l ih => exact ih (nodup_emplace h)

theorem reg_nodup (a : KnownAddress) (h : (m._addresses.map address).Nodup) :
    ((m.reg a)._addresses.map address).Nodup := by
  unfold reg
  split_ifs
  · exact h
  · exact h
  · split
    · exact nodup_emplace h
    · split_ifs
      · rw [map_modify fun b => setTime_address b _]
        exact h
      · exact h

theorem fail_nodup (a : KnownAddress) (h : (m._addresses.map address).Nodup) :
    ((m.fail a)._addresses.map address).Nodup := by
  unfold fail
  split_ifs
  · exact h
  · have herase := nodup_erase (k := a.address) h
    dsimp only
    split
    · exact herase
    · split_ifs
      · exact herase
      · exact herase

theorem truncate_nodup (now : UInt64) (h : (m._addresses.map address).Nodup) :
    ((m.truncate now)._addresses.map address).Nodup := h.sublist (List.filter_sublist.map address)

theorem reg_sorted (a : KnownAddress) : (m.reg a)._sorted = m._sorted := by
  rcases reg_spec m a with ⟨-,heq⟩ | ⟨-,hreg⟩
  · rw [heq]
  · exact hreg.sorted

theorem fail_sorted (a : KnownAddress) : (m.fail a)._sorted = m._sorted := by
  rcases fail_spec m a with ⟨-,heq⟩ | ⟨-,hfail⟩
  · rw [heq]
  · exact hfail.sorted

theorem save_nodup {saving : Saving} (h : (m._addresses.map address).Nodup) (ht : m.save saving = some t) :
    (t._addresses.map address).Nodup := by
  rw [(save_spec ht).addresses]
  exact truncate_nodup saving.now h

/-- What is saved is in order, and all of the table if this is not too large. -/
theorem save_view {saving : Saving} (ht : m.save saving = some t) :
    (t._sorted.Pairwise fun a b => b._time ≤ a._time) ∧
      ((m.truncate saving.now)._addresses.length ≤ m._addressCapacity → t._sorted.Perm t._addresses) := by
  rw [save] at ht
  by_cases hvectors : SortedFrom saving.address (m.truncate saving.now)._addresses ∧
      saving.banned.Perm (m.truncate saving.now)._banned ∧ saving.failed.Perm (m.truncate saving.now)._failed
  · rw [if_pos hvectors] at ht
    obtain rfl := Option.some.inj ht
    refine ⟨hvectors.1.2.sublist (List.take_sublist _ _),fun hcapacity => ?_⟩
    have htake : saving.address.take m._addressCapacity = saving.address :=
      List.take_of_length_le (hvectors.1.1.length_eq ▸ hcapacity)
    change (saving.address.take m._addressCapacity).Perm (m.truncate saving.now)._addresses
    rw [htake]
    exact hvectors.1.1
  · rw [if_neg hvectors] at ht
    contradiction

theorem load_nodup {loading : Loading} (h : (m._addresses.map address).Nodup) (ht : m.load loading = some t) :
    (t._addresses.map address).Nodup := by
  rw [load] at ht
  split at ht
  · obtain rfl := Option.some.inj ht
    exact h
  · split at ht
    · contradiction
    · split_ifs at ht
      obtain rfl := Option.some.inj ht
      exact truncate_nodup loading.now (nodup_foldl_emplace _ h)

/-- Addresses of which no two are the same are all inserted. -/
theorem mem_foldl_emplace (l : List KnownAddress) {set : List KnownAddress} {a : KnownAddress}
    (h : ((l ++ set).map address).Nodup) : a ∈ l.foldl (emplace address) set ↔ a ∈ set ∨ a ∈ l := by
  induction l generalizing set with
  | nil => simp
  | cons b l ih =>
    rw [List.cons_append,List.map_cons,List.nodup_cons] at h
    have hnew : ¬ Has address set b.address := by
      rintro ⟨c,hc,hkey⟩
      exact h.1 (List.mem_map.mpr ⟨c,List.mem_append_right l hc,hkey⟩)
    have hemplace : emplace address set b = b :: set := by
      rw [emplace,if_neg fun hfind => hnew (find_isSome.mp hfind)]
    have hperm : ((l ++ b :: set).map address).Nodup := by
      rw [(List.perm_middle.map address).nodup_iff,List.map_cons,List.nodup_cons]
      exact h
    rw [List.foldl_cons,hemplace,ih hperm,List.mem_cons,List.mem_cons]
    tauto

/-- What a load that leaves the view up to date makes of the view. -/
theorem load_view {loading : Loading} (hdistinct : (m._addresses.map address).Nodup)
    (hordered : m._sorted.Pairwise fun a b => b._time ≤ a._time)
    (hview : was = true → m._sorted.Perm m._addresses) (ht : m.load loading = some t) :
    (t._sorted.Pairwise fun a b => b._time ≤ a._time) ∧
      (m.loadsCurrent was loading = true → t._sorted.Perm t._addresses) := by
  have hnodup := load_nodup hdistinct ht
  unfold loadsCurrent
  rcases load_spec ht with ⟨hfile,rfl⟩ | ⟨file,address,banned,hfile,hread,hload⟩
  · rw [hfile]
    exact ⟨hordered,hview⟩
  · rw [hfile]
    dsimp only
    rw [hread,hload.sorted]
    refine ⟨hload.sortedFrom.2.sublist (List.take_sublist _ _),fun hcurrent => ?_⟩
    obtain ⟨hempty,rfl,hkeys,hcapacity,hrecent⟩ := of_decide_eq_true hcurrent
    have hperm := hload.sortedFrom.1
    have hall : loading.address.take m._addressCapacity = loading.address :=
      List.take_of_length_le (hperm.length_eq ▸ hcapacity)
    have hkeys' : (loading.address.map KnownAddress.address).Nodup := ((hperm.map _).nodup_iff).mpr hkeys
    have hinserted (a : KnownAddress) : a ∈ m.inserted loading.address [] ↔ a ∈ loading.address := by
      have hreverse : ((loading.address.reverse ++ []).map KnownAddress.address).Nodup := by
        rw [List.append_nil,List.map_reverse,List.nodup_reverse]
        exact hkeys'
      rw [inserted,hall,hempty,List.reverse_nil,List.append_nil,mem_foldl_emplace _ hreverse]
      simp
    rw [hall,List.perm_ext_iff_of_nodup hkeys'.of_map hnodup.of_map]
    intro a
    rw [hload.addresses,hinserted]
    exact ⟨fun ha => ⟨ha,hrecent a (hperm.mem_iff.mp ha)⟩,And.left⟩

theorem Watched.step (w : AddressManager × Bool) (event : Event) (w' : AddressManager × Bool) (h : Watched w)
    (hcond : Timely w event) (hw : watch w event = some w') : Watched w' := by
  obtain ⟨m,was⟩ := w
  obtain ⟨t,ht,rfl⟩ := Option.map_eq_some_iff.mp hw
  have hdisjoint : Disjoint t := (step_disjoint_iff m event t h.disjoint ht).mpr hcond.1
  cases event with
  | reg a =>
    obtain rfl := Option.some.inj ht
    refine ⟨hdisjoint,reg_nodup a h.distinct,(reg_sorted a).symm ▸ h.ordered,fun hcurrent => ?_⟩
    obtain ⟨hwas,hsame⟩ := (Bool.and_eq_true _ _).mp hcurrent
    have hview := h.view hwas
    rw [reg_sorted,of_decide_eq_true hsame]
    exact hview
  | fail a =>
    obtain rfl := Option.some.inj ht
    refine ⟨hdisjoint,fail_nodup a h.distinct,(fail_sorted a).symm ▸ h.ordered,fun hcurrent => ?_⟩
    obtain ⟨hwas,hsame⟩ := (Bool.and_eq_true _ _).mp hcurrent
    have hview := h.view hwas
    rw [fail_sorted,of_decide_eq_true hsame]
    exact hview
  | ban a now =>
    obtain rfl := Option.some.inj ht
    refine ⟨hdisjoint,nodup_erase h.distinct,h.ordered,fun hcurrent => ?_⟩
    obtain ⟨hwas,hsame⟩ := (Bool.and_eq_true _ _).mp hcurrent
    have hview := h.view hwas
    rw [of_decide_eq_true hsame]
    exact hview
  | get number =>
    obtain rfl := Option.some.inj ht
    exact ⟨hdisjoint,h.distinct,h.ordered,h.view⟩
  | save saving =>
    obtain ⟨hordered,hview⟩ := save_view ht
    exact ⟨hdisjoint,save_nodup h.distinct ht,hordered,fun hcurrent => hview (of_decide_eq_true hcurrent)⟩
  | load loading =>
    obtain ⟨hordered,hview⟩ := load_view h.distinct h.ordered h.view ht
    exact ⟨hdisjoint,load_nodup h.distinct ht,hordered,hview⟩
  | restart loading =>
    have hempty : (m.restarted._addresses.map address).Nodup := List.nodup_nil
    obtain ⟨hordered,hview⟩ := load_view hempty .nil (fun _ : true = true => .nil) ht
    exact ⟨hdisjoint,load_nodup hempty ht,hordered,hview⟩

/-- A run with the view watched. -/
theorem run_watch {events : List Event} (h : m.run events = some t) :
    ∃ is, Stepping.run watch (m,was) events = some (t,is) := by
  induction events generalizing m was with
  | nil =>
    obtain rfl := Option.some.inj h
    exact ⟨was,rfl⟩
  | cons event events ih =>
    obtain ⟨u,hu,hrest⟩ := Stepping.run_cons_some.mp h
    obtain ⟨is,his⟩ : ∃ is, Stepping.run watch (u,m.current was event) events = some (t,is) := ih hrest
    exact ⟨is,Stepping.run_cons_some.mpr ⟨_,by rw [watch,hu,Option.map_some],his⟩⟩

theorem Watched.answers (h : Watched (m,true)) {number : ℕ} (hnumber : m._addresses.length ≤ number) :
    Answers m number (m.get number) := by
  have hperm := h.view rfl
  refine ⟨((hperm.map address).nodup_iff).mpr h.distinct,fun a ha => ?_,h.ordered,?_⟩
  · have hmem := hperm.mem_iff.mp ha
    exact ⟨hmem,h.disjoint.addresses_banned _ (has_of_mem hmem),h.disjoint.addresses_failed _ (has_of_mem hmem)⟩
  · rw [Nat.min_eq_right hnumber]
    exact hperm.length_eq

/-- In a run in which no address gets into two tables, each call of `get` gives the right addresses, if it
asks for no fewer than there are and comes before the table is changed again behind a save or a load that
made the view of all of it. -/
theorem get_answers (storageTime : UInt64) (addressCapacity : ℕ) (file : Option Bytes) (events : List Event)
    (h : Stepping.Along watch Timely (empty storageTime addressCapacity file,true) events) :
    ∀ before number, before ++ [.get number] <+: events → ∀ t,
      (empty storageTime addressCapacity file).run before = some t → Answers t number (t.get number) := by
  rintro before number ⟨later,rfl⟩ t ht
  have hempty : Watched (empty storageTime addressCapacity file,true) :=
    ⟨.of_nil rfl rfl,List.nodup_nil,.nil,fun _ => .nil⟩
  obtain ⟨is,his⟩ : ∃ is, Stepping.run watch (empty storageTime addressCapacity file,true) before = some (t,is) :=
    run_watch ht
  rw [List.append_assoc] at h
  have hwatched := Stepping.run_invariant Watched.step h.before hempty his
  obtain ⟨-,htimely⟩ := ((h.behind his) _ rfl).1
  obtain ⟨hcurrent,hnumber⟩ := htimely number rfl
  dsimp only at hcurrent
  subst hcurrent
  exact hwatched.answers hnumber

end Steps

/-- An address that is registered and saved is given to who asks for one. -/
theorem get_answers_saved : ∃ t, freshStore.run [.reg bannedAddress,.save ⟨1600000005,[bannedAddress],[],[],true⟩] =
    some t ∧ Answers t 1 (t.get 1) := by
  have htimely : Stepping.Along watch Timely (freshStore,true)
      ([.reg bannedAddress,.save ⟨1600000005,[bannedAddress],[],[],true⟩] ++ [.get 1]) := by
    refine .cons rfl ⟨.inr not_has_nil,nofun⟩ (.cons rfl ⟨trivial,nofun⟩ (.cons rfl ⟨trivial,?_⟩ trivial))
    rintro number ⟨⟩
    decide
  have hrun : ∃ t, freshStore.run [.reg bannedAddress,.save ⟨1600000005,[bannedAddress],[],[],true⟩] = some t :=
    ⟨_,rfl⟩
  obtain ⟨t,ht⟩ := hrun
  exact ⟨t,ht,get_answers 2592000 50000 none _ htimely _ 1 (List.prefix_refl _) t ht⟩

/-- An address is not given before it is saved. -/
theorem registered_not_given : ¬ ∀ storageTime addressCapacity file events t,
    (empty storageTime addressCapacity file).run events = some t → ∀ number, Answers t number (t.get number) := by
  intro h
  have hcount := (h 2592000 50000 none [.reg bannedAddress] _ rfl 1).count
  exact absurd hcount (by decide)

end AddressManager
end Tkeycoin
