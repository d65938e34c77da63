import Tkeycoin.AddressManager

/-! Which tables an address is in, and how long it stays banned, over whole runs of `AddressManager`. -/
namespace Tkeycoin
namespace AddressManager

open KnownAddress KeyedSet

/-- No address is in two of the tables. -/
structure Disjoint (m : AddressManager) : Prop where
  addresses_banned : ∀ k, Has address m._addresses k → ¬ Has address m._banned k
  addresses_failed : ∀ k, Has address m._addresses k → ¬ Has address m._failed k
  banned_failed : ∀ k, Has address m._banned k → ¬ Has address m._failed k

/-- What a load adds to the good addresses and does not find too old is not failed, and not banned
unless the ban is too old. -/
def LoadsApart (m : AddressManager) (loading : Loading) : Prop :=
  ∀ file address banned, m.file = some file → loading.read file = some (address,banned) →
    ∀ a ∈ m.inserted loading.address banned, a ∉ m._addresses → m.Recent loading.now a →
      ¬ Has KnownAddress.address m._failed a.address ∧
        ¬ Has KnownAddress.address (m.truncate loading.now)._banned a.address

/-- The steps that put no address where it is not taken from elsewhere. -/
def KeepsApart (m : AddressManager) : Event → Prop
  | .reg a => Stays m a ∨ ¬ Has address m._failed a.address
  | .load loading => LoadsApart m loading
  | _ => True

section Disjoint

variable {m t : AddressManager} {a : KnownAddress}

theorem reg_disjoint_iff (h : Disjoint m) : Disjoint (m.reg a) ↔ Stays m a ∨ ¬ Has address m._failed a.address := by
  rcases reg_spec m a with ⟨hstays,heq⟩ | ⟨hnot,hreg⟩
  · rw [heq]
    exact ⟨fun _ => .inl hstays,fun _ => h⟩
  · constructor
    · intro ht
      refine .inr fun hfailed => ?_
      exact ht.addresses_failed a.address ((hreg.addresses _).mpr (.inr rfl)) (by rwa [hreg.failed])
    · rintro (hstays | hfailed)
      · exact absurd hstays hnot
      · refine ⟨fun k hk => ?_,fun k hk => ?_,by rw [hreg.banned,hreg.failed]; exact h.banned_failed⟩
        · rw [hreg.banned]
          rcases (hreg.addresses k).mp hk with hold | rfl
          · exact h.addresses_banned k hold
          · exact fun hbanned => hnot (.inl hbanned)
        · rw [hreg.failed]
          rcases (hreg.addresses k).mp hk with hold | rfl
          · exact h.addresses_failed k hold
          · exact hfailed

theorem Disjoint.fail (h : Disjoint m) (a : KnownAddress) : Disjoint (m.fail a) := by
  rcases fail_spec m a with ⟨-,heq⟩ | ⟨hbanned,hfail⟩
  · rwa [heq]
  · refine ⟨fun k hk => ?_,fun k hk => ?_,fun k hk => ?_⟩
    · rw [hfail.banned]
      exact h.addresses_banned k ((hfail.addresses k).mp hk).1
    · obtain ⟨hold,hne⟩ := (hfail.addresses k).mp hk
      rw [hfail.failed]
      exact not_or.mpr ⟨h.addresses_failed k hold,hne⟩
    · rw [hfail.banned] at hk
      rw [hfail.failed]
      refine not_or.mpr ⟨h.banned_failed k hk,?_⟩
      rintro rfl
      exact hbanned hk

theorem Disjoint.ban (h : Disjoint m) (a : KnownAddress) (now : UInt64) : Disjoint (m.ban a now) where
  addresses_banned := by
    intro k hk
    obtain ⟨hold,hne⟩ := (ban_addresses now).mp hk
    rw [ban_banned]
    exact not_or.mpr ⟨h.addresses_banned k hold,hne⟩
  addresses_failed := by
    intro k hk hfailed
    exact h.addresses_failed k ((ban_addresses now).mp hk).1 ((ban_failed now).mp hfailed).1
  banned_failed := by
    intro k hk hfailed
    obtain ⟨hold,hne⟩ := (ban_failed now).mp hfailed
    rcases (ban_banned now).mp hk with hbanned | heq
    · exact h.banned_failed k hbanned hold
    · exact hne heq

theorem truncate_addresses_subset (m : AddressManager) (now : UInt64) :
    (m.truncate now)._addresses ⊆ m._addresses := List.filter_subset_self _

theorem truncate_banned_subset (m : AddressManager) (now : UInt64) :
    (m.truncate now)._banned ⊆ m._banned := List.filter_subset_self _

theorem Disjoint.save (h : Disjoint m) {saving : Saving} (ht : m.save saving = some t) : Disjoint t := by
  have hsave := save_spec ht
  have haddresses := truncate_addresses_subset m saving.now
  have hbanned := truncate_banned_subset m saving.now
  refine ⟨fun k hk hk' => ?_,fun k hk => ?_,fun k hk => ?_⟩
  · rw [hsave.addresses] at hk
    rw [hsave.banned] at hk'
    exact h.addresses_banned k (hk.mono haddresses) (hk'.mono hbanned)
  · rw [hsave.addresses] at hk
    rw [hsave.failed]
    exact h.addresses_failed k (hk.mono haddresses)
  · rw [hsave.banned] at hk
    rw [hsave.failed]
    exact h.banned_failed k (hk.mono hbanned)

theorem load_disjoint_iff (h : Disjoint m) {loading : Loading} (ht : m.load loading = some t) :
    Disjoint t ↔ LoadsApart m loading := by
  rcases load_spec ht with ⟨hfile,rfl⟩ | ⟨file,address,banned,hfile,hread,hload⟩
  · refine ⟨fun _ file address banned hsome => ?_,fun _ => h⟩
    rw [hfile] at hsome
    contradiction
  · constructor
    · intro htables file' address' banned' hfile' hread' a ha _ hrecent
      obtain rfl := Option.some.inj (hfile.symm.trans hfile')
      obtain ⟨rfl,rfl⟩ := Prod.mk.inj (Option.some.inj (hread.symm.trans hread'))
      have hmem : Has KnownAddress.address t._addresses a.address :=
        has_of_mem ((hload.addresses a).mpr ⟨ha,hrecent⟩)
      have hfailed := htables.addresses_failed _ hmem
      have hbanned := htables.addresses_banned _ hmem
      rw [hload.failed] at hfailed
      rw [hload.banned] at hbanned
      exact ⟨hfailed,hbanned⟩
    · intro hapart
      have hnew (a : KnownAddress) (ha : a ∈ t._addresses) : ¬ Has KnownAddress.address m._failed a.address ∧
          ¬ Has KnownAddress.address (m.truncate loading.now)._banned a.address := by
        obtain ⟨hinserted,hrecent⟩ := (hload.addresses a).mp ha
        by_cases hold : a ∈ m._addresses
        · refine ⟨h.addresses_failed _ (has_of_mem hold),fun hbanned => ?_⟩
          exact h.addresses_banned _ (has_of_mem hold) (hbanned.mono (truncate_banned_subset m loading.now))
        · exact hapart file address banned hfile hread a hinserted hold hrecent
      refine ⟨?_,?_,fun k hk => ?_⟩
      · rintro k ⟨a,ha,rfl⟩
        rw [hload.banned]
        exact (hnew a ha).2
      · rintro k ⟨a,ha,rfl⟩
        rw [hload.failed]
        exact (hnew a ha).1
      · rw [hload.banned] at hk
        rw [hload.failed]
        exact h.banned_failed k (hk.mono (truncate_banned_subset m loading.now))

/-- Only good addresses are in two tables if there are others. -/
theorem Disjoint.of_nil (hbanned : m._banned = []) (hfailed : m._failed = []) : Disjoint m := by
  refine ⟨fun k _ => ?_,fun k _ => ?_,fun k _ => ?_⟩
  · rw [hbanned]
    exact not_has_nil
  · rw [hfailed]
    exact not_has_nil
  · rw [hfailed]
    exact not_has_nil

/-- A new process knows of no failed and of no banned addresses. -/
theorem restart_nil {loading : Loading} (ht : m.restarted.load loading = some t) :
    t._banned = [] ∧ t._failed = [] := by
  rcases load_spec ht with ⟨-,rfl⟩ | ⟨file,address,banned,-,-,hload⟩
  · exact ⟨rfl,rfl⟩
  · rw [hload.banned,hload.failed]
    exact ⟨rfl,rfl⟩

theorem step_disjoint_iff (m : AddressManager) (event : Event) (t : AddressManager) (h : Disjoint m)
    (ht : m.step event = some t) : Disjoint t ↔ KeepsApart m event := by
  have always (hdisjoint : Disjoint t) : Disjoint t ↔ True := iff_true_intro hdisjoint
  cases event with
  | reg a =>
    obtain rfl := Option.some.inj ht
    exact reg_disjoint_iff h
  | fail a =>
    obtain rfl := Option.some.inj ht
    exact always (h.fail a)
  | ban a now =>
    obtain rfl := Option.some.inj ht
    exact always (h.ban a now)
  | get number =>
    obtain rfl := Option.some.inj ht
    exact always h
  | save saving => exact always (h.save ht)
  | load loading => exact load_disjoint_iff h ht
  | restart loading =>
    obtain ⟨hbanned,hfailed⟩ := restart_nil ht
    exact always (.of_nil hbanned hfailed)

/-- In a run no address is ever in two tables exactly if no address is registered that has failed
before, unless it has failed later than that or is banned, and no load brings back one that has
failed or is banned. -/
theorem disjoint_iff (storageTime : UInt64) (addressCapacity : ℕ) (file : Option Bytes) (events : List Event) :
    (∀ before, before <+: events → ∀ t, (empty storageTime addressCapacity file).run before = some t →
      Disjoint t) ↔ Stepping.Along step KeepsApart (empty storageTime addressCapacity file) events :=
  Stepping.run_iff step_disjoint_iff (.of_nil rfl rfl)

end Disjoint

/-- An address of all zeros. -/
def zeroAddress : KnownAddress := ⟨0,0,⟨List.replicate 16 0,rfl⟩,0,false⟩

/-- An address that fails and is registered again stays among the failed ones. -/
theorem zeroAddress_twice : ¬ ∀ storageTime addressCapacity file events t,
    (empty storageTime addressCapacity file).run events = some t → Disjoint t := by
  intro h
  have htables := h 0 0 none [.fail zeroAddress,.reg zeroAddress] _ rfl
  exact htables.addresses_failed zeroAddress.address ⟨zeroAddress,by decide,rfl⟩ ⟨zeroAddress,by decide,rfl⟩

section Bans

variable {m t : AddressManager} {k : Blob 128 × UInt16} {time : UInt32}

/-- A ban from some time on, of an address that is not to be found elsewhere. -/
structure Banned (k : Blob 128 × UInt16) (time : UInt32) (m : AddressManager) : Prop where
  banned : ∃ b ∈ m._banned, b.address = k ∧ time ≤ b.getTime
  addresses : ¬ Has address m._addresses k
  sorted : ¬ Has address m._sorted k

/-- Within the storage time a ban is not too old, while the clock fits 32 bits and has come as far as
the storage time. -/
theorem recent_of_within {start now : UInt64} (hstart : start.toNat < 2^32) (hnow : now.toNat < 2^32)
    (hclock : m._storageTime.toNat ≤ now.toNat) (hwithin : now.toNat ≤ start.toNat + m._storageTime.toNat) :
    ¬ start.toUInt32 < m.thresholdTime now := by
  rw [UInt32.lt_iff_toNat_lt,thresholdTime,UInt64.toNat_toUInt32,UInt64.toNat_toUInt32,
    UInt64.toNat_sub_of_le _ _ (UInt64.le_iff_toNat_le.mpr hclock)]
  omega

/-- What is read of the file has the address in neither vector. -/
def Unread (m : AddressManager) (k : Blob 128 × UInt16) (loading : Loading) : Prop :=
  ∀ file address banned, m.file = some file → loading.read file = some (address,banned) →
    ¬ Has KnownAddress.address address k ∧ ¬ Has KnownAddress.address banned k

/-- The steps that a ban outlives: the times of bans are not below the threshold of `truncate`, and
bans are not brought back by a load, which makes good addresses of them. -/
def KeepsBan (k : Blob 128 × UInt16) (time : UInt32) (m : AddressManager) : Event → Prop
  | .ban a now => a.address = k → time ≤ now.toUInt32
  | .save saving => ¬ time < m.thresholdTime saving.now
  | .load loading => ¬ time < m.thresholdTime loading.now ∧ Unread m k loading
  | .restart _ => False
  | _ => True

theorem Banned.isBanned (h : Banned k time m) : m.isBanned k = true := by
  obtain ⟨b,hb,hkey,-⟩ := h.banned
  exact isBanned_iff.mpr ⟨b,hb,hkey⟩

theorem Banned.truncate (h : Banned k time m) {now : UInt64} (hrecent : ¬ time < m.thresholdTime now) :
    ∃ b ∈ (m.truncate now)._banned, b.address = k ∧ time ≤ b.getTime := by
  obtain ⟨b,hb,hkey,htime⟩ := h.banned
  refine ⟨b,mem_truncate_banned.mpr ⟨hb,fun hlt => ?_⟩,hkey,htime⟩
  exact hrecent (UInt32.lt_of_le_of_lt htime hlt)

theorem Banned.reg (h : Banned k time m) (a : KnownAddress) : Banned k time (m.reg a) := by
  rcases reg_spec m a with ⟨-,heq⟩ | ⟨hnot,hreg⟩
  · rwa [heq]
  · refine ⟨by rw [hreg.banned]; exact h.banned,fun hk => ?_,by rw [hreg.sorted]; exact h.sorted⟩
    rcases (hreg.addresses k).mp hk with hold | rfl
    · exact h.addresses hold
    · exact hnot (.inl (isBanned_iff.mp h.isBanned))

theorem Banned.fail (h : Banned k time m) (a : KnownAddress) : Banned k time (m.fail a) := by
  rcases fail_spec m a with ⟨-,heq⟩ | ⟨-,hfail⟩
  · rwa [heq]
  · refine ⟨by rw [hfail.banned]; exact h.banned,fun hk => ?_,by rw [hfail.sorted]; exact h.sorted⟩
    exact h.addresses ((hfail.addresses k).mp hk).1

theorem Banned.ban (h : Banned k time m) {a : KnownAddress} {now : UInt64}
    (htime : a.address = k → time ≤ now.toUInt32) : Banned k time (m.ban a now) := by
  obtain ⟨b,hb,hkey,hle⟩ := h.banned
  refine ⟨?_,fun hk => h.addresses ((ban_addresses now).mp hk).1,h.sorted⟩
  have hmem : b ∈ emplace address m._banned a := mem_emplace.mpr (.inl hb)
  by_cases hsame : b.address = a.address
  · refine ⟨b.setTime now.toUInt32,mem_modify.mpr (.inl ⟨b,hmem,hsame,rfl⟩),hkey,?_⟩
    exact htime (hsame.symm.trans hkey)
  · exact ⟨b,mem_modify.mpr (.inr ⟨hmem,hsame⟩),hkey,hle⟩

/-- A ban starts where the address is not among those that `get` gives. -/
theorem Banned.of_ban {a : KnownAddress} {now : UInt64} (hsorted : ¬ Has address m._sorted a.address) :
    Banned a.address now.toUInt32 (m.ban a now) := by
  refine ⟨?_,fun hk => ((ban_addresses now).mp hk).2 rfl,hsorted⟩
  obtain ⟨b,hb,hkey⟩ : Has address (emplace address m._banned a) a.address := has_emplace.mpr (.inr rfl)
  exact ⟨b.setTime now.toUInt32,mem_modify.mpr (.inl ⟨b,hb,hkey,rfl⟩),hkey,UInt32.le_refl _⟩

theorem Banned.save (h : Banned k time m) {saving : Saving} (hrecent : ¬ time < m.thresholdTime saving.now)
    (ht : m.save saving = some t) : Banned k time t := by
  have hsave := save_spec ht
  refine ⟨?_,fun hk => ?_,fun hk => h.addresses (hk.mono hsave.sorted)⟩
  · rw [hsave.banned]
    exact h.truncate hrecent
  · rw [hsave.addresses] at hk
    exact h.addresses (hk.mono (truncate_addresses_subset m saving.now))

/-- What is inserted was there, or is in one of the vectors. -/
theorem mem_of_inserted {address banned : List KnownAddress} {a : KnownAddress}
    (h : a ∈ m.inserted address banned) : a ∈ m._addresses ∨ a ∈ address ∨ a ∈ banned := by
  have hfold (l : List KnownAddress) : ∀ set, a ∈ l.foldl (emplace KnownAddress.address) set → a ∈ set ∨ a ∈ l := by
    induction l with
    | nil => exact fun set ha => .inl ha
    | cons b l ih =>
      intro set ha
      rcases ih _ ha with hset | hl
      · rcases mem_emplace.mp hset with hold | ⟨rfl,-⟩
        · exact .inl hold
        · exact .inr List.mem_cons_self
      · exact .inr (List.mem_cons_of_mem b hl)
  rcases hfold _ _ h with hold | hnew
  · exact .inl hold
  · rcases List.mem_append.mp hnew with ha | hb
    · exact .inr (.inl (List.mem_of_mem_take (List.mem_reverse.mp ha)))
    · exact .inr (.inr (List.mem_reverse.mp hb))

theorem Banned.load (h : Banned k time m) {loading : Loading} (hrecent : ¬ time < m.thresholdTime loading.now)
    (hunread : Unread m k loading) (ht : m.load loading = some t) : Banned k time t := by
  rcases load_spec ht with ⟨-,rfl⟩ | ⟨file,address,banned,hfile,hread,hload⟩
  · exact h
  · obtain ⟨haddress,hbanned⟩ := hunread file address banned hfile hread
    have hperm := hload.sortedFrom.1
    refine ⟨by rw [hload.banned]; exact h.truncate hrecent,?_,?_⟩
    · rintro ⟨a,ha,rfl⟩
      rcases mem_of_inserted ((hload.addresses a).mp ha).1 with hold | hnew | hnew
      · exact h.addresses (has_of_mem hold)
      · exact haddress (has_of_mem (hperm.mem_iff.mp hnew))
      · exact hbanned (has_of_mem hnew)
    · rw [hload.sorted]
      rintro ⟨a,ha,rfl⟩
      exact haddress (has_of_mem (hperm.mem_iff.mp (List.mem_of_mem_take ha)))

theorem Banned.step (m : AddressManager) (event : Event) (t : AddressManager) (h : Banned k time m)
    (hkeeps : KeepsBan k time m event) (ht : m.step event = some t) : Banned k time t := by
  cases event with
  | reg a =>
    obtain rfl := Option.some.inj ht
    exact h.reg a
  | fail a =>
    obtain rfl := Option.some.inj ht
    exact h.fail a
  | ban a now =>
    obtain rfl := Option.some.inj ht
    exact h.ban hkeeps
  | get number =>
    obtain rfl := Option.some.inj ht
    exact h
  | save saving => exact h.save hkeeps ht
  | load loading => exact h.load hkeeps.1 hkeeps.2 ht
  | restart loading => exact hkeeps.elim

/-- An address that is banned while `get` does not give it is banned and not given in all states that
follow, as long as no save finds the ban too old, no load reads the address, and the process goes on. -/
theorem ban_kept {a : KnownAddress} {now : UInt64} {later : List Event}
    (hsorted : ¬ Has address m._sorted a.address)
    (hlater : Stepping.Along step (KeepsBan a.address now.toUInt32) (m.ban a now) later)
    (ht : (m.ban a now).run later = some t) :
    t.isBanned a.address = true ∧ ∀ number, ∀ b ∈ t.get number, b.address ≠ a.address := by
  have hbanned : Banned a.address now.toUInt32 t :=
    Stepping.run_invariant Banned.step hlater (.of_ban hsorted) ht
  exact ⟨hbanned.isBanned,fun number b hb hkey => hbanned.sorted ⟨b,hb,hkey⟩⟩

end Bans

/-- An address of the year 2020, and a store without a file that keeps addresses for thirty days. -/
def bannedAddress : KnownAddress := { zeroAddress with _time := 1600000000 }

def freshStore : AddressManager := empty 2592000 50000 none

def laterSteps : List Event :=
  [.save ⟨1600000005,[],[bannedAddress],[],true⟩,.reg bannedAddress,.fail bannedAddress]

theorem ban_kept_saved : ∃ t, (freshStore.ban bannedAddress 1600000000).run laterSteps = some t ∧
    t.isBanned bannedAddress.address = true ∧ ∀ number, ∀ b ∈ t.get number, b.address ≠ bannedAddress.address := by
  have hlater : Stepping.Along step (KeepsBan bannedAddress.address (1600000000 : UInt64).toUInt32)
      (freshStore.ban bannedAddress 1600000000) laterSteps := by
    have hrecent : ¬ (1600000000 : UInt64).toUInt32 < freshStore.thresholdTime 1600000005 := by decide
    exact fun t ht => ⟨hrecent,fun u hu => ⟨trivial,fun v hv => ⟨trivial,trivial⟩⟩⟩
  have hrun : ∃ t, (freshStore.ban bannedAddress 1600000000).run laterSteps = some t := ⟨_,rfl⟩
  obtain ⟨t,ht⟩ := hrun
  exact ⟨t,ht,ban_kept not_has_nil hlater ht⟩

/-- An address that `get` gives is given when it is banned, and a ban is lost with the process. -/
theorem bannedAddress_lost :
    (∃ t, freshStore.run [.reg bannedAddress,.save ⟨1600000000,[bannedAddress],[],[],true⟩,
      .ban bannedAddress 1600000000] = some t ∧ bannedAddress ∈ t.get 1) ∧
    ∃ t, freshStore.run [.ban bannedAddress 1600000000,.save ⟨1600000000,[],[bannedAddress],[],true⟩,
      .restart ⟨fun _ => true,fun _ => 0,1600000000,[]⟩] = some t ∧
        t.isBanned bannedAddress.address = false :=
  ⟨⟨_,rfl,by decide⟩,_,rfl,by decide⟩

end AddressManager
end Tkeycoin
