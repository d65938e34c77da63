import Tkeycoin.BlockFile
import Tkeycoin.Delivery
import Tkeycoin.Message

/-! Two nodes with stores that do not change, and what they send each other for the `inv`, `getdata` and
`notfound` messages between them. -/
namespace Tkeycoin

namespace InventoryVector

def MSG_TX : UInt32 := 1

def MSG_BLOCK : UInt32 := 2

def MSG_FILTERED_BLOCK : UInt32 := 3

def MSG_CMPCT_BLOCK : UInt32 := 4

end InventoryVector

open InventoryVector

namespace Blockchain

section Definitions

variable (s : Blockchain)

def hasBlock (hash : uint256) : Bool :=
  match s.getBlockHeader hash with
  | some id => (s._blocks[id]?).any StoredBlock.inChain
  | none => false

/-- `getBlock(hash)`, which is still to be implemented. -/
def getBlock (_hash : uint256) : Option Block := none

/-- What `filterKnownInventory` removes: what is known, and what is of no type. -/
def isKnown (item : InventoryVector) : Bool :=
  if item._type = MSG_TX then s.hasTx item._hash
  else if item._type = MSG_BLOCK ∨ item._type = MSG_FILTERED_BLOCK ∨ item._type = MSG_CMPCT_BLOCK then
    s.hasBlock item._hash
  else true

def filterKnownInventory (inventory : List InventoryVector) : List InventoryVector :=
  inventory.filter fun item => ¬ s.isKnown item

end Definitions

end Blockchain

namespace Peer

section Definitions

variable (s : Blockchain)

/-- What `Peer::AskInventory` transmits. -/
def askInventory (inventory : List InventoryVector) : List Message :=
  if inventory = [] then []
  else
    let inventory := s.filterKnownInventory inventory
    if inventory ≠ [] then [.getData inventory] else []

/-- One round of the loop of `Peer::ReceiveInventory`: what was transmitted, and what was not found. -/
def receiveItem : List Message × List InventoryVector → InventoryVector → List Message × List InventoryVector
  | (transmitted,notFoundInventory), item =>
    if item._type = MSG_TX then
      match s.getTx item._hash with
      | some tx => (transmitted ++ [.tx tx],notFoundInventory)
      | none => (transmitted,notFoundInventory ++ [item])
    else if item._type = MSG_BLOCK then
      match Blockchain.getBlock item._hash with
      | some block => (transmitted ++ [.block block],notFoundInventory)
      | none => (transmitted,notFoundInventory ++ [item])
    else (transmitted,notFoundInventory)

/-- What `Peer::ReceiveInventory` transmits. -/
def receiveInventory (inventory : List InventoryVector) : List Message :=
  let (transmitted,notFoundInventory) := inventory.foldl (receiveItem s) ([],[])
  if notFoundInventory ≠ [] then transmitted ++ [.notFound notFoundInventory] else transmitted

/-- What `apply` makes a node transmit to the peer the message came from. `Tx::apply` transmits nothing,
and stores nothing where the stores do not change. No others are delivered, as blocks are never sent. -/
def apply : Message → Option (List Message)
  | .inv _list => some (askInventory s _list)
  | .getData _list => some (askInventory s _list)
  | .notFound _list => some (receiveInventory s _list)
  | .tx _ => some []
  | _ => none

end Definitions

/-- The two nodes. -/
inductive Side
  | near | far
  deriving DecidableEq

def Side.other : Side → Side
  | near => far
  | far => near

/-- A message under way, and to whom. -/
abbrev Addressed := Side × Message

/-- What is sent for a message, to the side it came from. -/
def handler (stores : Side → Blockchain) (m : Addressed) : Option (List Addressed) :=
  (apply (stores m.1) m.2).map (List.map fun reply => (m.1.other,reply))

/-- How often a message answers the request for an item. -/
def answers (item : InventoryVector) : Message → ℕ
  | .tx tx => if item = ⟨MSG_TX,tx.hash⟩ then 1 else 0
  | .block block => if item._type ≠ MSG_TX ∧ item._hash = block.header.hash then 1 else 0
  | .notFound _list => _list.count item
  | _ => 0

/-- The messages in flight come to an end in any order; the items of a request are answered once each
time they are asked for; and answers do not make a node ask for their items again. -/
structure Settles (stores : Side → Blockchain) (inFlight : Multiset Addressed) : Prop where
  finite : ∃ bound, ∀ log t, Delivery.Run (handler stores) inFlight log t →
    (Delivery.generated log).length ≤ bound
  answered : ∀ log t, Delivery.Run (handler stores) inFlight log t → ∀ side _list replies,
    ((side,.getData _list),replies) ∈ log → ∀ item ∈ _list,
      (replies.map fun reply => answers item reply.2).sum = _list.count item
  unrepeated : ∀ log t, Delivery.Run (handler stores) inFlight log t → ∀ m replies,
    (m,replies) ∈ log → ∀ item, 0 < answers item m.2 → ∀ side _list, (side,.getData _list) ∈ replies →
      item ∉ _list

/-- A node has, or the other one has, what it was told the other one has not found. -/
def Found (stores : Side → Blockchain) (item : InventoryVector) : Prop :=
  item._type ≠ MSG_BLOCK ∧ (item._type = MSG_TX →
    ∃ side, (stores side).getTx item._hash ≠ none)

/-- A message that asks for nothing, announces only what the node knows, and does not come back
unfound. -/
def Calm (stores : Side → Blockchain) : Addressed → Prop
  | (_,.getData _list) => _list = []
  | (side,.inv _list) => (stores side).filterKnownInventory _list = []
  | (_,.notFound _list) => ∀ item ∈ _list, Found stores item
  | _ => True

section Receive

variable {s : Blockchain} {stores : Side → Blockchain}

/-- An item that a node does not find. -/
def Missing (s : Blockchain) (item : InventoryVector) : Prop :=
  item._type = MSG_BLOCK ∨ item._type = MSG_TX ∧ s.getTx item._hash = none

instance (s : Blockchain) (item : InventoryVector) : Decidable (Missing s item) :=
  inferInstanceAs (Decidable (_ ∨ _))

/-- The items that a node does not find. -/
def missing (s : Blockchain) (inventory : List InventoryVector) : List InventoryVector :=
  inventory.filter fun item => Missing s item

theorem mem_missing {inventory : List InventoryVector} {item : InventoryVector} :
    item ∈ missing s inventory ↔ item ∈ inventory ∧ Missing s item := by
  simp [missing]

/-- The transaction an item stands for, where the node has it. -/
def served (s : Blockchain) (item : InventoryVector) : Option Message :=
  if item._type = MSG_TX then (s.getTx item._hash).map Message.tx else none

theorem receiveItem_eq (acc : List Message × List InventoryVector) (item : InventoryVector) :
    receiveItem s acc item =
      (acc.1 ++ (served s item).toList,acc.2 ++ if Missing s item then [item] else []) := by
  obtain ⟨transmitted,notFoundInventory⟩ := acc
  have hne : ¬ MSG_TX = MSG_BLOCK := by decide
  have hne' : ¬ MSG_BLOCK = MSG_TX := by decide
  rw [receiveItem,served]
  by_cases htx : item._type = MSG_TX
  · cases hget : s.getTx item._hash <;> simp [Missing,htx,hget,hne]
  · by_cases hblock : item._type = MSG_BLOCK <;> simp [Missing,htx,hblock,Blockchain.getBlock,hne']

theorem receiveInventory_fold (inventory : List InventoryVector) (acc : List Message × List InventoryVector) :
    inventory.foldl (receiveItem s) acc =
      (acc.1 ++ inventory.filterMap (served s),acc.2 ++ missing s inventory) := by
  induction inventory generalizing acc with
  | nil => simp [missing]
  | cons item inventory ih =>
    rw [List.foldl_cons,ih,receiveItem_eq]
    cases hserved : served s item <;> by_cases hmissing : Missing s item <;>
      simp [hserved,hmissing,missing]

/-- Transactions that are found are sent, and the rest is sent back. -/
theorem receiveInventory_eq (inventory : List InventoryVector) : receiveInventory s inventory =
    if missing s inventory ≠ [] then
      inventory.filterMap (served s) ++ [.notFound (missing s inventory)]
    else inventory.filterMap (served s) := by
  rw [receiveInventory,receiveInventory_fold]
  rfl

theorem served_isTx {item : InventoryVector} {m : Message} (h : served s item = some m) :
    ∃ tx, m = .tx tx := by
  rw [served] at h
  split_ifs at h
  · obtain ⟨tx,-,rfl⟩ := Option.map_eq_some_iff.mp h
    exact ⟨tx,rfl⟩

/-- Only transactions, and one message with what is missing, are transmitted for a `notfound`. -/
theorem mem_receiveInventory {inventory : List InventoryVector} {m : Message}
    (h : m ∈ receiveInventory s inventory) :
    (∃ tx, m = .tx tx) ∨ m = .notFound (missing s inventory) := by
  have hserved : m ∈ inventory.filterMap (served s) → ∃ tx, m = .tx tx := by
    intro hm
    obtain ⟨item,-,hitem⟩ := List.mem_filterMap.mp hm
    exact served_isTx hitem
  rw [receiveInventory_eq] at h
  split_ifs at h
  · rcases List.mem_append.mp h with hm | hm
    · exact .inl (hserved hm)
    · exact .inr (List.mem_singleton.mp hm)
  · exact .inl (hserved h)

/-- What a node is missing that either has is no block, and the other one has it. -/
theorem Found.of_missing {item : InventoryVector} {side : Side} (h : Found stores item)
    (hmissing : Missing (stores side) item) : ¬ Missing (stores side.other) item := by
  obtain ⟨hblock,htx⟩ := h
  rintro (hb | ⟨ht,hother⟩)
  · exact hblock hb
  · rcases hmissing with hb | ⟨-,hside⟩
    · exact hblock hb
    · obtain ⟨which,hwhich⟩ := htx ht
      cases side <;> cases which <;> contradiction

/-- What is not found at all is missing on both sides. -/
theorem missing_of_not_found {item : InventoryVector} (h : ¬ Found stores item) (side : Side) :
    Missing (stores side) item := by
  by_cases hblock : item._type = MSG_BLOCK
  · exact .inl hblock
  · refine .inr ?_
    by_contra hnot
    refine h ⟨hblock,fun htx => ⟨side,fun hnone => hnot ⟨htx,hnone⟩⟩⟩

end Receive

section Requests

variable {s : Blockchain} {stores : Side → Blockchain} {inFlight t : Multiset Addressed}
  {log : Delivery.Log Addressed}

theorem askInventory_eq (inventory : List InventoryVector) : askInventory s inventory =
    if s.filterKnownInventory inventory ≠ [] then [.getData (s.filterKnownInventory inventory)] else [] := by
  rw [askInventory]
  by_cases hempty : inventory = []
  · subst hempty
    rfl
  · rw [if_neg hempty]

/-- No answer is among what is sent for a request. -/
theorem answers_askInventory (inventory : List InventoryVector) (side : Side) (item : InventoryVector) :
    (((askInventory s inventory).map fun reply => (side,reply)).map fun reply : Addressed =>
      answers item reply.2).sum = 0 := by
  rw [askInventory_eq]
  split_ifs <;> rfl

/-- Where items of requests are answered, only empty requests are ever in flight. -/
theorem Settles.request_empty (h : Settles stores inFlight)
    (hrun : Delivery.Run (handler stores) inFlight log t) {side : Side} {_list : List InventoryVector}
    (hm : (side,Message.getData _list) ∈ t) : _list = [] := by
  have hsent : handler stores (side,.getData _list) = some _ := rfl
  obtain ⟨u,hnext,-⟩ := hrun.next hm hsent
  refine List.eq_nil_iff_forall_not_mem.mpr fun item hitem => ?_
  have hcount := h.answered _ u hnext side _list _ (List.mem_append_right _ List.mem_cons_self) item hitem
  rw [answers_askInventory] at hcount
  exact absurd (List.count_pos_iff.mpr hitem) (by omega)

/-- An item that neither side finds goes from one to the other for ever. -/
theorem notFound_endless {side : Side} {_list : List InventoryVector} {item : InventoryVector}
    (hm : (side,Message.notFound _list) ∈ inFlight) (hitem : item ∈ _list) (hnot : ¬ Found stores item)
    (n : ℕ) : ∃ log t, Delivery.Run (handler stores) inFlight log t ∧
      n ≤ (Delivery.generated log).length := by
  have hreply (m : Addressed) (hP : ∃ side _list, m = (side,Message.notFound _list) ∧ item ∈ _list) :
      ∃ replies, handler stores m = some replies ∧
        ∃ r ∈ replies, ∃ side _list, r = (side,Message.notFound _list) ∧ item ∈ _list := by
    obtain ⟨side,_list,rfl,hitem⟩ := hP
    have hmissing : item ∈ missing (stores side) _list :=
      mem_missing.mpr ⟨hitem,missing_of_not_found hnot side⟩
    refine ⟨_,rfl,(side.other,.notFound _),List.mem_map_of_mem ?_,side.other,_,rfl,hmissing⟩
    rw [receiveInventory_eq,if_pos (List.ne_nil_of_mem hmissing)]
    exact List.mem_append_right _ List.mem_cons_self
  obtain ⟨log,t,hrun,hn,-⟩ := Delivery.Run.endless hreply hm ⟨side,_list,rfl,hitem⟩ n
  exact ⟨log,t,hrun,hn⟩

theorem Settles.calm (h : Settles stores inFlight) : ∀ m ∈ inFlight, Calm stores m := by
  rintro ⟨side,m⟩ hm
  cases m with
  | getData _list => exact h.request_empty .start hm
  | inv _list =>
    by_contra hnew
    change (stores side).filterKnownInventory _list ≠ [] at hnew
    have hsent : handler stores (side,.inv _list) = some _ := rfl
    obtain ⟨t,hrun,hmem⟩ := Delivery.Run.first hm hsent
    rw [askInventory_eq,if_pos hnew] at hrun hmem
    exact hnew (h.request_empty hrun (hmem _ List.mem_cons_self))
  | notFound _list =>
    intro item hitem
    by_contra hnot
    obtain ⟨bound,hbound⟩ := h.finite
    obtain ⟨log,t,hrun,hn⟩ := notFound_endless hm hitem hnot (bound + 1)
    have := hbound log t hrun
    omega
  | _ => trivial

/-- What calm messages are answered with is calm. -/
theorem Calm.replies {m : Addressed} {replies : List Addressed} (h : Calm stores m)
    (hreplies : handler stores m = some replies) : ∀ r ∈ replies, Calm stores r := by
  obtain ⟨side,m⟩ := m
  obtain ⟨sent,hsent,rfl⟩ := Option.map_eq_some_iff.mp hreplies
  intro r hr
  obtain ⟨reply,hreply,rfl⟩ := List.mem_map.mp hr
  cases m with
  | getData _list =>
    obtain rfl : _list = [] := h
    obtain rfl := Option.some.inj hsent
    contradiction
  | inv _list =>
    have hknown : (stores side).filterKnownInventory _list = [] := h
    obtain rfl := Option.some.inj hsent
    rw [askInventory_eq,if_neg (not_not_intro hknown)] at hreply
    contradiction
  | notFound _list =>
    obtain rfl := Option.some.inj hsent
    rcases mem_receiveInventory hreply with ⟨tx,rfl⟩ | rfl
    · trivial
    · exact fun item hitem => h item (mem_missing.mp hitem).1
  | tx tx =>
    obtain rfl := Option.some.inj hsent
    contradiction
  | _ => contradiction

/-- How many messages may come of one. -/
def worth (stores : Side → Blockchain) : Addressed → ℕ
  | (side,.notFound _list) =>
    if missing (stores side) _list = [] then _list.length else 2 * _list.length + 1
  | _ => 0

/-- Transactions cost one message each. -/
theorem worth_served (inventory : List InventoryVector) (side : Side) (s : Blockchain)
    (stores : Side → Blockchain) :
    ((inventory.filterMap (served s)).map fun reply => worth stores (side,reply)).sum = 0 := by
  refine List.sum_eq_zero fun n hn => ?_
  obtain ⟨reply,hreply,rfl⟩ := List.mem_map.mp hn
  obtain ⟨item,-,hitem⟩ := List.mem_filterMap.mp hreply
  obtain ⟨tx,rfl⟩ := served_isTx hitem
  rfl

/-- What comes back unfound is found by the side it comes back to. -/
theorem receiveInventory_worth {inventory : List InventoryVector} (h : ∀ item ∈ inventory, Found stores item)
    (side : Side) : (receiveInventory (stores side) inventory).length +
      ((receiveInventory (stores side) inventory).map fun reply => worth stores (side.other,reply)).sum ≤
        worth stores (side,.notFound inventory) := by
  have hserved : (inventory.filterMap (served (stores side))).length ≤ inventory.length :=
    List.length_filterMap_le _ _
  have hmissing : (missing (stores side) inventory).length ≤ inventory.length := List.length_filter_le _ _
  have hother : missing (stores side.other) (missing (stores side) inventory) = [] := by
    refine List.eq_nil_iff_forall_not_mem.mpr fun item hitem => ?_
    obtain ⟨hmem,hother⟩ := mem_missing.mp hitem
    obtain ⟨hlist,hside⟩ := mem_missing.mp hmem
    exact (h item hlist).of_missing hside hother
  have htxs := worth_served inventory side.other (stores side) stores
  rw [receiveInventory_eq]
  by_cases hnil : missing (stores side) inventory = []
  · have hworth : worth stores (side,.notFound inventory) = inventory.length := if_pos hnil
    rw [if_neg (not_not_intro hnil),hworth]
    omega
  · have hworth : worth stores (side,.notFound inventory) = 2 * inventory.length + 1 := if_neg hnil
    have hback : worth stores (side.other,.notFound (missing (stores side) inventory)) =
        (missing (stores side) inventory).length := if_pos hother
    rw [if_pos hnil,hworth,List.length_append,List.map_append,List.sum_append,htxs]
    simp only [List.map_cons,List.map_nil,List.sum_cons,List.sum_nil,hback,List.length_singleton]
    omega

theorem Calm.worth_le {m : Addressed} {replies : List Addressed} (h : Calm stores m)
    (hreplies : handler stores m = some replies) :
    replies.length + (replies.map (worth stores)).sum ≤ worth stores m := by
  obtain ⟨side,m⟩ := m
  obtain ⟨sent,hsent,rfl⟩ := Option.map_eq_some_iff.mp hreplies
  cases m with
  | getData _list =>
    obtain rfl : _list = [] := h
    obtain rfl := Option.some.inj hsent
    rfl
  | inv _list =>
    have hknown : (stores side).filterKnownInventory _list = [] := h
    obtain rfl := Option.some.inj hsent
    rw [askInventory_eq,if_neg (not_not_intro hknown)]
    rfl
  | notFound _list =>
    obtain rfl := Option.some.inj hsent
    rw [List.length_map,List.map_map]
    exact receiveInventory_worth h side
  | tx tx =>
    obtain rfl := Option.some.inj hsent
    rfl
  | _ => contradiction

/-- Nothing is asked for on receiving an answer. -/
theorem not_request_of_answer {m : Addressed} {replies : List Addressed}
    (hreplies : handler stores m = some replies) {item : InventoryVector} (hanswer : 0 < answers item m.2)
    (side : Side) (_list : List InventoryVector) : (side,Message.getData _list) ∉ replies := by
  obtain ⟨from_,m⟩ := m
  obtain ⟨sent,hsent,rfl⟩ := Option.map_eq_some_iff.mp hreplies
  intro hr
  obtain ⟨reply,hreply,heq⟩ := List.mem_map.mp hr
  obtain ⟨-,rfl⟩ := Prod.mk.inj heq
  cases m with
  | notFound _ =>
    obtain rfl := Option.some.inj hsent
    rcases mem_receiveInventory hreply with ⟨tx,htx⟩ | hback <;> contradiction
  | tx tx =>
    obtain rfl := Option.some.inj hsent
    contradiction
  | block => contradiction
  | _ => exact absurd hanswer (Nat.lt_irrefl 0)

/-- Messages settle exactly if each of them is calm: requests are taken for announcements, so none is
answered; and what neither side has is sent back and forth. -/
theorem settles_iff (stores : Side → Blockchain) (inFlight : Multiset Addressed) :
    Settles stores inFlight ↔ ∀ m ∈ inFlight, Calm stores m := by
  refine ⟨Settles.calm,fun h => ⟨⟨(inFlight.map (worth stores)).sum,fun log t hrun => ?_⟩,?_,?_⟩⟩
  · have hle := hrun.generated_le (worth stores) (fun _ _ => Calm.replies) (fun _ _ => Calm.worth_le) h
    omega
  · intro log t hrun side _list replies hd item hitem
    obtain ⟨hcalm,-⟩ := (hrun.forall (fun _ _ => Calm.replies) h).2 _ hd
    obtain rfl : _list = [] := hcalm
    contradiction
  · intro log t hrun m replies hd item hanswer side _list hrequest
    exact absurd hrequest (not_request_of_answer (hrun.handled _ hd) hanswer side _list)

/-- Nodes that know nothing. -/
def emptyStores : Side → Blockchain := fun _ => .empty Blob.null

/-- An item that nobody knows. -/
def unknownTx : InventoryVector := ⟨MSG_TX,Blob.null⟩

/-- A request for a transaction that neither node has is not answered, and requested from one by the
other for ever. -/
theorem unknownTx_not_settles : ¬ Settles emptyStores {(.near,.getData [unknownTx])} ∧
    ∀ n, ∃ log t, Delivery.Run (handler emptyStores) {(.near,.getData [unknownTx])} log t ∧
      n ≤ (Delivery.generated log).length := by
  refine ⟨fun h => ?_,fun n => ?_⟩
  · exact absurd (h.request_empty .start (Multiset.mem_singleton_self _)) (List.cons_ne_nil _ _)
  · have hreply (m : Addressed) (hm : ∃ side, m = (side,Message.getData [unknownTx])) :
        ∃ replies, handler emptyStores m = some replies ∧
          ∃ r ∈ replies, ∃ side, r = (side,Message.getData [unknownTx]) := by
      obtain ⟨side,rfl⟩ := hm
      exact ⟨_,rfl,_,List.mem_cons_self,side.other,rfl⟩
    obtain ⟨log,t,hrun,hn,-⟩ := Delivery.Run.endless hreply (Multiset.mem_singleton_self _) ⟨.near,rfl⟩ n
    exact ⟨log,t,hrun,hn⟩

end Requests

end Peer
end Tkeycoin
