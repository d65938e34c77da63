import Tkeycoin.KeyedSet
import Tkeycoin.Stepping
import Tkeycoin.TransactionReading

/-! `AddressManager`: the good, the failed and the banned addresses, and the file they are kept in. -/
namespace Tkeycoin

/-- `protocol::NetworkAddress`, which has no time where `_ignoreTime` is set. -/
structure KnownAddress where
  _time : UInt32
  _services : UInt64
  _ip : Blob 128
  _port : UInt16
  _ignoreTime : Bool
  deriving DecidableEq

namespace KnownAddress

/-- What `ComparatorByAddr` compares. -/
def address (a : KnownAddress) : Blob 128 × UInt16 := (a._ip,a._port)

def getTime (a : KnownAddress) : UInt32 := if a._ignoreTime then 0 else a._time

def setTime (a : KnownAddress) (time : UInt32) : KnownAddress := { a with _ignoreTime := false, _time := time }

@[simp] theorem setTime_address (a : KnownAddress) (time : UInt32) : (a.setTime time).address = a.address := rfl

def serialize (a : KnownAddress) : Bytes :=
  (if a._ignoreTime then [] else Serialization.uint32 a._time) ++ (Serialization.uint64 a._services ++
    (Serialization.blob a._ip ++ Serialization.uint16 a._port))

end KnownAddress

namespace Unserialize

/-- `NetworkAddress::Unserialize` on a new object. -/
def knownAddress : Reader KnownAddress := do
  let _time ← uint32
  let _services ← uint64
  let _ip ← blob 128
  let _port ← uint16
  pure ⟨_time,_services,_ip,_port,false⟩

/-- The two vectors in the file. -/
def addresses (fits : ℕ → Bool) : Reader (List KnownAddress × List KnownAddress) := do
  let address ← sizeAnd fits knownAddress
  let banned ← sizeAnd fits knownAddress
  pure (address,banned)

end Unserialize

/-- The settings, the tables in the order of iteration, the addresses as `get` gives them, and the
file. -/
structure AddressManager where
  _storageTime : UInt64
  _addressCapacity : ℕ
  _addresses : List KnownAddress
  _banned : List KnownAddress
  _failed : List KnownAddress
  _sorted : List KnownAddress
  file : Option Bytes

namespace AddressManager

open KnownAddress KeyedSet

/-- What `load` depends on besides the file: the allocator, the memory, the clock, and the order in
which `std::sort` leaves the addresses. -/
structure Loading where
  fits : ℕ → Bool
  memory : ℕ → UInt8
  now : UInt64
  address : List KnownAddress

/-- The vectors that are read of a file. `none` is an exception. -/
def Loading.read (loading : Loading) (file : Bytes) : Option (List KnownAddress × List KnownAddress) :=
  ((Unserialize.addresses loading.fits).run loading.memory (.ofBytes file)).map Prod.fst

/-- What `save` depends on: the clock, the orders of the vectors, and whether the file is written. -/
structure Saving where
  now : UInt64
  address : List KnownAddress
  banned : List KnownAddress
  failed : List KnownAddress
  written : Bool

/-- What can happen. After a restart the tables are empty when `load` is called. -/
inductive Event
  | reg (address : KnownAddress)
  | fail (address : KnownAddress)
  | ban (address : KnownAddress) (now : UInt64)
  | get (number : ℕ)
  | save (saving : Saving)
  | load (loading : Loading)
  | restart (loading : Loading)

/-- An order in which `std::sort` may leave the addresses: the newest first. -/
def SortedFrom (address from_ : List KnownAddress) : Prop :=
  address.Perm from_ ∧ address.Pairwise fun a b => b._time ≤ a._time

instance (address from_ : List KnownAddress) : Decidable (SortedFrom address from_) :=
  inferInstanceAs (Decidable (_ ∧ _))

section Definitions

variable (m : AddressManager)

/-- Times before this one are too old. The difference wraps around. -/
def thresholdTime (now : UInt64) : UInt32 := (now - m._storageTime).toUInt32

/-- `truncate`. -/
def truncate (now : UInt64) : AddressManager :=
  { m with
    _addresses := m._addresses.filter fun a => ¬ a.getTime < m.thresholdTime now
    _banned := m._banned.filter fun a => ¬ a.getTime < m.thresholdTime now }

def isBanned (a : Blob 128 × UInt16) : Bool := (find address m._banned a).isSome

/-- `reg`, which leaves an address in `_failed` that is registered again. -/
def reg (address : KnownAddress) : AddressManager :=
  if m.isBanned address.address then m
  else if (find KnownAddress.address m._failed address.address).any fun i => i.getTime > address.getTime then m
  else
    match find KnownAddress.address m._addresses address.address with
    | none => { m with _addresses := emplace KnownAddress.address m._addresses address }
    | some i =>
      if i.getTime < address.getTime then
        { m with _addresses := modify KnownAddress.address m._addresses address.address fun i =>
            i.setTime address.getTime }
      else m

def fail (address : KnownAddress) : AddressManager :=
  if m.isBanned address.address then m
  else
    let newest := match find KnownAddress.address m._addresses address.address with
      | some i => if i.getTime > address.getTime then address.setTime i.getTime else address
      | none => address
    let m := { m with _addresses := erase KnownAddress.address m._addresses address.address }
    match find KnownAddress.address m._failed address.address with
    | none => { m with _failed := emplace KnownAddress.address m._failed newest }
    | some i2 =>
      if i2.getTime < newest.getTime then
        { m with _failed := modify KnownAddress.address m._failed address.address fun i =>
            i.setTime newest.getTime }
      else m

/-- `ban`. What `get` gives stays as it is. -/
def ban (address : KnownAddress) (now : UInt64) : AddressManager :=
  { m with
    _addresses := erase KnownAddress.address m._addresses address.address
    _failed := erase KnownAddress.address m._failed address.address
    _banned := modify KnownAddress.address (emplace KnownAddress.address m._banned address) address.address
      fun i => i.setTime now.toUInt32 }

/-- `get`, which gives all of them, however many are asked for. -/
def get (_number : ℕ) : List KnownAddress := m._sorted

/-- What `save` writes. -/
def fileOf (address banned : List KnownAddress) : Bytes :=
  (Serialization.uintV (UInt64.ofNat address.length) ++ address.flatMap serialize) ++
    (Serialization.uintV (UInt64.ofNat banned.length) ++ banned.flatMap serialize)

/-- `save`. `none` where the vectors are not those of the tables. -/
def save (saving : Saving) : Option AddressManager :=
  let m := m.truncate saving.now
  if SortedFrom saving.address m._addresses ∧ saving.banned.Perm m._banned ∧ saving.failed.Perm m._failed then
    let address := saving.address.take m._addressCapacity
    some { m with
      _sorted := address
      file := if saving.written then some (fileOf (address ++ saving.failed) saving.banned) else m.file }
  else none

/-- The table of good addresses behind the insertions of `load`, which puts the banned ones there too. -/
def inserted (address banned : List KnownAddress) : List KnownAddress :=
  ((address.take m._addressCapacity).reverse ++ banned.reverse).foldl (emplace KnownAddress.address) m._addresses

/-- `load`. `none` is an exception. -/
def load (loading : Loading) : Option AddressManager :=
  match m.file with
  | none => some m
  | some file =>
    match loading.read file with
    | none => none
    | some (address,banned) =>
      if SortedFrom loading.address address then
        let m := { m with
          _sorted := loading.address.take m._addressCapacity
          _addresses := m.inserted loading.address banned }
        some (m.truncate loading.now)
      else none

/-- A new process with the same settings. -/
def restarted : AddressManager := { m with _addresses := [], _banned := [], _failed := [], _sorted := [] }

def step : Event → Option AddressManager
  | .reg address => some (m.reg address)
  | .fail address => some (m.fail address)
  | .ban address now => some (m.ban address now)
  | .get _ => some m
  | .save saving => m.save saving
  | .load loading => m.load loading
  | .restart loading => m.restarted.load loading

end Definitions

/-- The states that events lead to. -/
abbrev run (m : AddressManager) (events : List Event) : Option AddressManager := Stepping.run step m events

/-- Before anything is loaded, beside whatever file there is. -/
def empty (storageTime : UInt64) (addressCapacity : ℕ) (file : Option Bytes) : AddressManager :=
  ⟨storageTime,addressCapacity,[],[],[],[],file⟩

section Steps

variable {m t : AddressManager} {a : KnownAddress} {k : Blob 128 × UInt16}

theorem isBanned_iff : m.isBanned k = true ↔ Has address m._banned k := find_isSome

/-- An address stays where it is when it is registered: it is banned, or failed later than that. -/
def Stays (m : AddressManager) (a : KnownAddress) : Prop :=
  Has address m._banned a.address ∨ ∃ i, find address m._failed a.address = some i ∧ a.getTime < i.getTime

/-- All that `reg` changes: a good address more, unless it stays where it is. -/
structure Registers (m t : AddressManager) (a : KnownAddress) : Prop where
  addresses : ∀ k, Has address t._addresses k ↔ Has address m._addresses k ∨ k = a.address
  banned : t._banned = m._banned
  failed : t._failed = m._failed
  sorted : t._sorted = m._sorted

theorem reg_spec (m : AddressManager) (a : KnownAddress) :
    Stays m a ∧ m.reg a = m ∨ ¬ Stays m a ∧ Registers m (m.reg a) a := by
  rw [reg]
  by_cases hbanned : Has address m._banned a.address
  · exact .inl ⟨.inl hbanned,if_pos (isBanned_iff.mpr hbanned)⟩
  rw [if_neg fun h => hbanned (isBanned_iff.mp h)]
  by_cases hfailed : ∃ i, find address m._failed a.address = some i ∧ a.getTime < i.getTime
  · refine .inl ⟨.inr hfailed,if_pos ?_⟩
    obtain ⟨i,hi,hlt⟩ := hfailed
    simp [hi,hlt]
  have hnot : ¬ (find address m._failed a.address).any (fun i => i.getTime > a.getTime) = true := by
    intro hany
    cases hfind : find address m._failed a.address with
    | none => simp [hfind] at hany
    | some i =>
      rw [hfind] at hany
      exact hfailed ⟨i,hfind,by simpa using hany⟩
  rw [if_neg hnot]
  refine .inr ⟨not_or.mpr ⟨hbanned,hfailed⟩,?_⟩
  cases hfind : find address m._addresses a.address with
  | none => exact ⟨fun k => has_emplace,rfl,rfl,rfl⟩
  | some i =>
    have hkeep (k : Blob 128 × UInt16) : Has address m._addresses k ↔ Has address m._addresses k ∨ k = a.address := by
      refine ⟨.inl,?_⟩
      rintro (hk | rfl)
      · exact hk
      · exact has_of_find hfind
    dsimp only
    split_ifs
    · exact ⟨fun k => (has_modify fun b => setTime_address b _).trans (hkeep k),rfl,rfl,rfl⟩
    · exact ⟨hkeep,rfl,rfl,rfl⟩

/-- All that `fail` changes: an address goes from the good to the failed ones, unless it is banned. -/
structure Fails (m t : AddressManager) (a : KnownAddress) : Prop where
  addresses : ∀ k, Has address t._addresses k ↔ Has address m._addresses k ∧ k ≠ a.address
  banned : t._banned = m._banned
  failed : ∀ k, Has address t._failed k ↔ Has address m._failed k ∨ k = a.address
  sorted : t._sorted = m._sorted

theorem fail_spec (m : AddressManager) (a : KnownAddress) :
    Has address m._banned a.address ∧ m.fail a = m ∨
      ¬ Has address m._banned a.address ∧ Fails m (m.fail a) a := by
  rw [fail]
  by_cases hbanned : Has address m._banned a.address
  · exact .inl ⟨hbanned,if_pos (isBanned_iff.mpr hbanned)⟩
  rw [if_neg fun h => hbanned (isBanned_iff.mp h)]
  refine .inr ⟨hbanned,?_⟩
  have hnewest : (match find address m._addresses a.address with
      | some i => if i.getTime > a.getTime then a.setTime i.getTime else a
      | none => a).address = a.address := by
    split
    · split_ifs <;> rfl
    · rfl
  dsimp only
  generalize hn : (match find address m._addresses a.address with
      | some i => if i.getTime > a.getTime then a.setTime i.getTime else a
      | none => a) = newest at hnewest ⊢
  cases hfind : find address m._failed a.address with
  | none =>
    refine ⟨fun k => has_erase,rfl,fun k => ?_,rfl⟩
    rw [has_emplace,hnewest]
  | some i2 =>
    have hkeep (k : Blob 128 × UInt16) : Has address m._failed k ↔ Has address m._failed k ∨ k = a.address := by
      refine ⟨.inl,?_⟩
      rintro (hk | rfl)
      · exact hk
      · exact has_of_find hfind
    dsimp only
    split_ifs
    · exact ⟨fun k => has_erase,rfl,fun k => (has_modify fun b => setTime_address b _).trans (hkeep k),rfl⟩
    · exact ⟨fun k => has_erase,rfl,hkeep,rfl⟩

theorem ban_addresses (now : UInt64) :
    Has address (m.ban a now)._addresses k ↔ Has address m._addresses k ∧ k ≠ a.address := has_erase

theorem ban_failed (now : UInt64) :
    Has address (m.ban a now)._failed k ↔ Has address m._failed k ∧ k ≠ a.address := has_erase

theorem ban_banned (now : UInt64) :
    Has address (m.ban a now)._banned k ↔ Has address m._banned k ∨ k = a.address :=
  (has_modify fun b => setTime_address b _).trans has_emplace

/-- Whether an address is kept by `truncate`. -/
def Recent (m : AddressManager) (now : UInt64) (a : KnownAddress) : Prop := ¬ a.getTime < m.thresholdTime now

theorem mem_truncate_addresses {now : UInt64} :
    a ∈ (m.truncate now)._addresses ↔ a ∈ m._addresses ∧ m.Recent now a := by
  simp [truncate,Recent]

theorem mem_truncate_banned {now : UInt64} :
    a ∈ (m.truncate now)._banned ↔ a ∈ m._banned ∧ m.Recent now a := by
  simp [truncate,Recent]

/-- What is saved changes no table but for what is too old. -/
structure Saves (m t : AddressManager) (saving : Saving) : Prop where
  addresses : t._addresses = (m.truncate saving.now)._addresses
  banned : t._banned = (m.truncate saving.now)._banned
  failed : t._failed = m._failed
  sorted : t._sorted ⊆ m._addresses

theorem save_spec {saving : Saving} (h : m.save saving = some t) : Saves m t saving := by
  rw [save] at h
  by_cases hvectors : SortedFrom saving.address (m.truncate saving.now)._addresses ∧
      saving.banned.Perm (m.truncate saving.now)._banned ∧ saving.failed.Perm (m.truncate saving.now)._failed
  · rw [if_pos hvectors] at h
    obtain rfl := Option.some.inj h
    refine ⟨rfl,rfl,rfl,fun b hb => ?_⟩
    have hmem := hvectors.1.1.mem_iff.mp (List.mem_of_mem_take hb)
    exact (mem_truncate_addresses.mp hmem).1
  · rw [if_neg hvectors] at h
    contradiction

/-- What a load that finds a file changes. -/
structure Loads (m t : AddressManager) (loading : Loading) (address banned : List KnownAddress) : Prop where
  sortedFrom : SortedFrom loading.address address
  addresses : ∀ a, a ∈ t._addresses ↔ a ∈ m.inserted loading.address banned ∧ m.Recent loading.now a
  banned : t._banned = (m.truncate loading.now)._banned
  failed : t._failed = m._failed
  sorted : t._sorted = loading.address.take m._addressCapacity

theorem load_spec {loading : Loading} (h : m.load loading = some t) :
    m.file = none ∧ t = m ∨ ∃ file address banned, m.file = some file ∧
      loading.read file = some (address,banned) ∧ Loads m t loading address banned := by
  rw [load] at h
  cases hfile : m.file with
  | none =>
    rw [hfile] at h
    exact .inl ⟨rfl,(Option.some.inj h).symm⟩
  | some file =>
    rw [hfile] at h
    dsimp only at h
    cases hread : loading.read file with
    | none =>
      rw [hread] at h
      contradiction
    | some vectors =>
      obtain ⟨address,banned⟩ := vectors
      rw [hread] at h
      dsimp only at h
      split_ifs at h with hsorted
      obtain rfl := Option.some.inj h
      exact .inr ⟨file,address,banned,rfl,hread,hsorted,fun b => mem_truncate_addresses,rfl,rfl,rfl⟩

end Steps

end AddressManager
end Tkeycoin
