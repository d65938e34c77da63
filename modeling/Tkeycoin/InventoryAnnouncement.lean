import Tkeycoin.Inventory

/-! The items a peer has still to announce, and the messages in which it does. -/
namespace Tkeycoin

namespace Node

def MAX_INV_COUNT : ℕ := 50000

end Node

/-- `_inventoryForAnnounce`, in the order of iteration. -/
structure AnnounceSet where
  items : List InventoryVector
  nodup : items.Nodup

namespace AnnounceSet

def empty : AnnounceSet := ⟨[],List.nodup_nil⟩

/-- `emplace`, somewhere in the order. -/
def emplace (set : AnnounceSet) (item : InventoryVector) : AnnounceSet :=
  if h : item ∈ set.items then set else ⟨item :: set.items,List.nodup_cons.mpr ⟨h,set.nodup⟩⟩

end AnnounceSet

namespace Peer

/-- What `SendInventory` does to the set, before it starts the timer. -/
def sendInventory (set : AnnounceSet) (item : InventoryVector) : AnnounceSet := set.emplace item

/-- One round of the loop over the set, for a set of some size: the items collected, how many there were
so far, and what was transmitted. The vector is empty behind `std::move`. -/
def announceItem (maximum size : ℕ) : List InventoryVector × ℕ × List Message → InventoryVector →
    List InventoryVector × ℕ × List Message
  | (inventory,count,transmitted), item =>
    let inventory := inventory ++ [item]
    let count := count + 1
    if count = maximum ∨ count = size then ([],count,transmitted ++ [.inv inventory])
    else (inventory,count,transmitted)

/-- What the handler of `_inventoryAnnounceTimer` transmits, and the set behind it. -/
def announce (set : AnnounceSet) : List Message × AnnounceSet :=
  let (_,_,transmitted) := set.items.foldl (announceItem Node.MAX_INV_COUNT set.items.length) ([],0,[])
  (transmitted,.empty)

/-- The set has the items that `SendInventory` was called with. -/
theorem mem_sendInventory (calls : List InventoryVector) (set : AnnounceSet) (item : InventoryVector) :
    item ∈ (calls.foldl sendInventory set).items ↔ item ∈ set.items ∨ item ∈ calls := by
  induction calls generalizing set with
  | nil => simp
  | cons call calls ih =>
    have hemplace : item ∈ (set.emplace call).items ↔ item ∈ set.items ∨ item = call := by
      unfold AnnounceSet.emplace
      split_ifs with h
      · exact ⟨.inl,fun hor => hor.elim id fun heq => heq ▸ h⟩
      · rw [List.mem_cons,or_comm]
    rw [List.foldl_cons,ih,sendInventory,hemplace,List.mem_cons,or_assoc]

section Announce

variable {maximum size count : ℕ} {inventory : List InventoryVector} {transmitted : List Message}

theorem announceItem_transmit (item : InventoryVector) (h : count + 1 = maximum ∨ count + 1 = size) :
    announceItem maximum size (inventory,count,transmitted) item =
      ([],count + 1,transmitted ++ [.inv (inventory ++ [item])]) := if_pos h

theorem announceItem_collect (item : InventoryVector) (h : ¬ (count + 1 = maximum ∨ count + 1 = size)) :
    announceItem maximum size (inventory,count,transmitted) item =
      (inventory ++ [item],count + 1,transmitted) := if_neg h

/-- Before the last item: what was collected since the one message, if there was one. -/
theorem announceItem_before (hmaximum : 0 < maximum) (l : List InventoryVector) (hl : l.length < size) :
    l.foldl (announceItem maximum size) ([],0,[]) =
      if l.length < maximum then (l,l.length,[]) else (l.drop maximum,l.length,[.inv (l.take maximum)]) := by
  induction l using List.reverseRecOn with
  | nil => simp [hmaximum]
  | append_singleton l item ih =>
    rw [List.length_append,List.length_singleton] at hl
    rw [List.foldl_append,ih (Nat.lt_of_succ_lt hl),List.length_append,List.length_singleton,List.foldl_cons,
      List.foldl_nil]
    rcases Nat.lt_trichotomy (l.length + 1) maximum with hlt | heq | hgt
    · rw [if_pos (Nat.lt_of_succ_lt hlt),if_pos hlt,announceItem_collect item (by omega)]
    · have hlen : (l ++ [item]).length ≤ maximum := by simp [heq]
      rw [if_pos (by omega),if_neg (by omega),announceItem_transmit item (.inl heq),
        List.drop_of_length_le hlen,List.take_of_length_le hlen]
      rfl
    · have hle : maximum ≤ l.length := by omega
      rw [if_neg (by omega),if_neg (by omega),announceItem_collect item (by omega),
        List.drop_append_of_le_length hle,List.take_append_of_le_length hle]

/-- The items in one message up to the maximum, and in two beyond it: the count is not reset. -/
theorem announceItem_all (hmaximum : 0 < maximum) (l : List InventoryVector) :
    (l.foldl (announceItem maximum l.length) ([],0,[])).2.2 =
      if l = [] then [] else if l.length ≤ maximum then [.inv l]
      else [.inv (l.take maximum),.inv (l.drop maximum)] := by
  rcases List.eq_nil_or_concat' l with rfl | ⟨l,item,rfl⟩
  · rfl
  have hlast : l.length + 1 = (l ++ [item]).length := by simp
  have hne : l ++ [item] ≠ [] := by simp
  rw [List.foldl_append,announceItem_before hmaximum l (by omega),if_neg hne,List.foldl_cons,List.foldl_nil]
  by_cases hlt : l.length < maximum
  · rw [if_pos hlt,if_pos (by omega),announceItem_transmit item (.inr hlast)]
    rfl
  · have hle : maximum ≤ l.length := Nat.not_lt.mp hlt
    rw [if_neg hlt,if_neg (by omega),announceItem_transmit item (.inr hlast),
      List.take_append_of_le_length hle,List.drop_append_of_le_length hle]
    rfl

end Announce

/-- How often an item is in a message. -/
def copies (item : InventoryVector) : Message → ℕ
  | .inv _list => _list.count item
  | _ => 0

/-- Each item of the set and no other is in one message, once, and no message has too many. -/
structure Partitions (set : AnnounceSet) (transmitted : List Message) : Prop where
  once : ∀ item, (transmitted.map (copies item)).sum = if item ∈ set.items then 1 else 0
  small : ∀ message ∈ transmitted, ∃ inventory, message = .inv inventory ∧ inventory.length ≤ Node.MAX_INV_COUNT

theorem announce_eq (set : AnnounceSet) : (announce set).1 =
    if set.items = [] then [] else if set.items.length ≤ Node.MAX_INV_COUNT then [.inv set.items]
    else [.inv (set.items.take Node.MAX_INV_COUNT),.inv (set.items.drop Node.MAX_INV_COUNT)] :=
  announceItem_all (by decide) set.items

/-- Nothing is lost or sent twice, however many items there are. -/
theorem announce_once (set : AnnounceSet) (item : InventoryVector) :
    ((announce set).1.map (copies item)).sum = if item ∈ set.items then 1 else 0 := by
  have hcount : ((announce set).1.map (copies item)).sum = set.items.count item := by
    rw [announce_eq]
    split_ifs with hnil hsmall
    · simp [hnil]
    · simp [copies]
    · simp only [List.map_cons,List.map_nil,List.sum_cons,List.sum_nil,Nat.add_zero,copies]
      rw [← List.count_append,List.take_append_drop]
  rw [hcount]
  split_ifs with hmem
  · exact List.count_eq_one_of_mem set.nodup hmem
  · exact List.count_eq_zero_of_not_mem hmem

/-- The messages divide the set up exactly if it has no more than twice as many items as go into one. -/
theorem partitions_iff (set : AnnounceSet) :
    Partitions set (announce set).1 ↔ set.items.length ≤ 2 * Node.MAX_INV_COUNT := by
  have hsmall : (∀ message ∈ (announce set).1,
      ∃ inventory, message = .inv inventory ∧ inventory.length ≤ Node.MAX_INV_COUNT) ↔
        set.items.length ≤ 2 * Node.MAX_INV_COUNT := by
    rw [announce_eq]
    split_ifs with hnil hone
    · simp [hnil]
    · simp only [List.forall_mem_singleton,Message.inv.injEq,exists_eq_left']
      omega
    · rw [List.forall_mem_cons,List.forall_mem_singleton]
      simp only [Message.inv.injEq,exists_eq_left',List.length_take,List.length_drop]
      omega
  exact ⟨fun h => hsmall.mp h.small,fun h => ⟨announce_once set,hsmall.mpr h⟩⟩

/-- Transactions by their number. -/
def numbered (n : ℕ) : InventoryVector := ⟨InventoryVector.MSG_TX,leBytes 32 n,leBytes_length 32 n⟩

theorem numbered_nodup (n : ℕ) (hn : n ≤ 256 ^ 32) : ((List.range n).map numbered).Nodup := by
  refine List.nodup_range.map_on fun i hi j hj h => ?_
  have hbytes : leBytes 32 i = leBytes 32 j := congrArg (fun item => item._hash.toList) h
  have hi' := List.mem_range.mp hi
  have hj' := List.mem_range.mp hj
  exact leBytes_injective (by omega) (by omega) hbytes

/-- With one item more than twice as many, the second message has too many. -/
theorem many_items_not_partitioned : ¬ ∀ set : AnnounceSet, Partitions set (announce set).1 := by
  intro h
  obtain ⟨set,hlength⟩ : ∃ set : AnnounceSet, set.items.length = 100001 :=
    ⟨⟨_,numbered_nodup 100001 (by decide)⟩,by rw [List.length_map,List.length_range]⟩
  have hmaximum : Node.MAX_INV_COUNT = 50000 := rfl
  have hnil : set.items ≠ [] := by
    intro hnil
    rw [hnil] at hlength
    contradiction
  have hsmall := (h set).small
  rw [announce_eq,if_neg hnil,if_neg (by omega)] at hsmall
  obtain ⟨inventory,heq,hle⟩ := hsmall _ (List.mem_cons_of_mem _ List.mem_cons_self)
  obtain rfl := Message.inv.inj heq
  rw [List.length_drop] at hle
  omega

end Peer
end Tkeycoin
