import Mathlib.Data.List.Basic
import Mathlib.Data.List.Nodup
import Mathlib.Tactic.Common

/-! Roots of Merkle trees that are computed level by level, and what they say about the leaves. -/
namespace Tkeycoin
namespace MerkleTree

/-- An odd level gets its last element twice. -/
def pad {α : Type} (l : List α) : List α := if l.length % 2 = 1 then l ++ l.getLast?.toList else l

def pairs {α : Type} : List α → List (α × α)
  | [] => []
  | [_] => []
  | a :: b :: l => (a,b) :: pairs l

section Levels

variable {α : Type}

theorem pad_length (l : List α) : (pad l).length = 2 * ((l.length + 1) / 2) := by
  unfold pad
  split_ifs with hodd
  · cases l with
    | nil => contradiction
    | cons a l =>
      rw [List.getLast?_eq_getLast_of_ne_nil (List.cons_ne_nil a l)]
      simp only [List.length_append,Option.toList_some,List.length_singleton] at hodd ⊢
      omega
  · omega

theorem prefix_pad (l : List α) : l <+: pad l := by
  unfold pad
  split_ifs
  · exact List.prefix_append l _
  · exact List.prefix_rfl

theorem pad_pad (l : List α) : pad (pad l) = pad l := by
  have hlen := pad_length l
  rw [pad,if_neg (by omega)]

theorem mem_pad {l : List α} {a : α} (h : a ∈ pad l) : a ∈ l := by
  unfold pad at h
  split_ifs at h
  · rcases List.mem_append.mp h with h | h
    · exact h
    · exact List.mem_of_getLast? (Option.mem_toList.mp h)
  · exact h

theorem pad_map {β : Type} (f : α → β) (l : List α) : pad (l.map f) = (pad l).map f := by
  unfold pad
  rw [List.length_map]
  split_ifs
  · cases h : l.getLast? <;> simp [h]
  · rfl

theorem pairs_length (l : List α) : (pairs l).length = l.length / 2 := by
  induction l using pairs.induct with
  | case1 => simp [pairs]
  | case2 a => simp [pairs]
  | case3 a b l ih =>
    simp only [pairs,List.length_cons,ih]
    omega

theorem pairs_map {β : Type} (f : α → β) (l : List α) :
    pairs (l.map f) = (pairs l).map (Prod.map f f) := by
  induction l using pairs.induct with
  | case1 => rfl
  | case2 a => rfl
  | case3 a b l ih => simp only [List.map_cons,pairs,ih,Prod.map_apply]

theorem mem_of_mem_pairs {l : List α} {p : α × α} (h : p ∈ pairs l) : p.1 ∈ l ∧ p.2 ∈ l := by
  induction l using pairs.induct with
  | case1 => contradiction
  | case2 a => contradiction
  | case3 a b l ih =>
    rcases List.mem_cons.mp h with rfl | h
    · exact ⟨List.mem_cons_self,List.mem_cons_of_mem _ List.mem_cons_self⟩
    · obtain ⟨h₁,h₂⟩ := ih h
      exact ⟨List.mem_cons_of_mem _ (List.mem_cons_of_mem _ h₁),
        List.mem_cons_of_mem _ (List.mem_cons_of_mem _ h₂)⟩

/-- The elements of pairs in their order. -/
def unpair (l : List (α × α)) : List α := l.flatMap fun p => [p.1,p.2]

theorem unpair_pairs (l : List α) (h : l.length % 2 = 0) : unpair (pairs l) = l := by
  induction l using pairs.induct with
  | case1 => rfl
  | case2 a => contradiction
  | case3 a b l ih =>
    have hl : l.length % 2 = 0 := by
      simp only [List.length_cons] at h
      omega
    rw [pairs,unpair,List.flatMap_cons]
    exact congrArg (a :: b :: ·) (ih hl)

theorem unpair_injective : Function.Injective (unpair (α := α)) := by
  intro l m h
  induction l generalizing m with
  | nil =>
    cases m with
    | nil => rfl
    | cons q m => contradiction
  | cons p l ih =>
    cases m with
    | nil => contradiction
    | cons q m =>
      obtain ⟨hfst,hrest⟩ := List.cons.inj h
      obtain ⟨hsnd,htail⟩ := List.cons.inj hrest
      rw [Prod.ext hfst hsnd,ih htail]

end Levels

/-- All the leaves that are consumed over so many levels, with those that padding repeats. -/
def complete : ℕ → {α : Type} → List α → List α
  | 0, _, l => l
  | depth+1, _, l => unpair (complete depth (pairs (pad l)))

section Complete

variable {α : Type}

theorem complete_map {β : Type} (f : α → β) (depth : ℕ) (l : List α) :
    complete depth (l.map f) = (complete depth l).map f := by
  induction depth generalizing α β with
  | zero => rfl
  | succ depth ih =>
    rw [complete,pad_map,pairs_map,ih,complete,unpair,unpair,List.flatMap_map,List.map_flatMap]
    rfl

theorem mem_complete {depth : ℕ} {l : List α} {a : α} (h : a ∈ complete depth l) : a ∈ l := by
  induction depth generalizing α with
  | zero => exact h
  | succ depth ih =>
    obtain ⟨p,hp,ha⟩ := List.mem_flatMap.mp h
    obtain ⟨h₁,h₂⟩ := mem_of_mem_pairs (ih hp)
    rcases List.mem_cons.mp ha with rfl | ha
    · exact mem_pad h₁
    · exact List.mem_singleton.mp ha ▸ mem_pad h₂

/-- The leaves themselves come first. -/
theorem prefix_complete (depth : ℕ) (l : List α) : l <+: complete depth l := by
  induction depth generalizing α with
  | zero => exact List.prefix_rfl
  | succ depth ih =>
    have hpad : unpair (pairs (pad l)) = pad l :=
      unpair_pairs _ (by rw [pad_length]; omega)
    obtain ⟨m,hm⟩ := ih (pairs (pad l))
    have hunpair : pad l <+: complete (depth+1) l := by
      rw [complete,← hm,unpair,List.flatMap_append]
      exact ⟨_,congrArg (· ++ _) hpad.symm⟩
    exact (prefix_pad l).trans hunpair

/-- Lists that are filled up to the same one are equal if they are as long as each other. -/
theorem eq_of_complete_eq {depth : ℕ} {l m : List α} (h : complete depth l = complete depth m)
    (hlen : l.length = m.length) : l = m := by
  have hl := prefix_complete depth l
  rw [h] at hl
  exact (List.prefix_of_prefix_length_le hl (prefix_complete depth m) (Nat.le_of_eq hlen)).eq_of_length hlen

/-- The longer one repeats an element. -/
theorem length_le_of_nodup {depth : ℕ} {l m : List α} (h : complete depth l = complete depth m)
    (hm : m.Nodup) : m.length ≤ l.length := by
  by_contra hlt
  rw [Nat.not_le] at hlt
  have hl := prefix_complete depth l
  rw [h] at hl
  have hprefix : l <+: m := List.prefix_of_prefix_length_le hl (prefix_complete depth m) (Nat.le_of_lt hlt)
  obtain ⟨k,rfl⟩ := hprefix
  cases k with
  | nil => simp at hlt
  | cons a k =>
    have ha : a ∈ complete depth l := by
      rw [h]
      exact (prefix_complete depth _).subset (by simp)
    exact (List.nodup_append.mp hm).2.2 a (mem_complete ha) a List.mem_cons_self rfl

end Complete

/-- A function that tells members apart tells lists of them apart. -/
theorem map_inj_of_mem {α β : Type} {f : α → β} {l m : List α}
    (hinj : ∀ a ∈ l, ∀ b ∈ m, f a = f b → a = b) (h : l.map f = m.map f) : l = m := by
  induction l generalizing m with
  | nil => exact (List.map_eq_nil_iff.mp h.symm).symm
  | cons a l ih =>
    cases m with
    | nil => contradiction
    | cons b m =>
      obtain ⟨hhead,htail⟩ := List.cons.inj h
      obtain rfl := hinj a List.mem_cons_self b List.mem_cons_self hhead
      exact congrArg (a :: ·) (ih (fun c hc d hd =>
        hinj c (List.mem_cons_of_mem a hc) d (List.mem_cons_of_mem a hd)) htail)

section Root

variable {α : Type} (node : α × α → α)

/-- The level above. -/
def level (l : List α) : List α := (pairs (pad l)).map node

theorem level_length (l : List α) : (level node l).length = (l.length + 1) / 2 := by
  rw [level,List.length_map,pairs_length,pad_length]
  omega

/-- The root, with a value for no leaves. -/
def root (null : α) (l : List α) : α :=
  if l.length ≤ 1 then l.headD null else root null (level node l)
termination_by l.length
decreasing_by
  rw [level_length]
  omega

/-- The number of levels below the root. -/
def depth (l : List α) : ℕ :=
  if l.length ≤ 1 then 0 else depth (level node l) + 1
termination_by l.length
decreasing_by
  rw [level_length]
  omega

/-- The pairs that nodes are made of. -/
def joined (l : List α) : List (α × α) :=
  if l.length ≤ 1 then [] else pairs (pad l) ++ joined (level node l)
termination_by l.length
decreasing_by
  rw [level_length]
  omega

variable {node} {null : α} {l m : List α}

theorem root_step (h : ¬ l.length ≤ 1) : root node null l = root node null (level node l) := by
  rw [root,if_neg h]

theorem depth_step (h : ¬ l.length ≤ 1) : depth node l = depth node (level node l) + 1 := by
  rw [depth,if_neg h]

theorem joined_step (h : ¬ l.length ≤ 1) :
    joined node l = pairs (pad l) ++ joined node (level node l) := by
  rw [joined,if_neg h]

theorem level_pad (l : List α) : level node (pad l) = level node l := by
  rw [level,level,pad_pad]

theorem not_short_pad (h : ¬ l.length ≤ 1) : ¬ (pad l).length ≤ 1 := by
  rw [pad_length]
  omega

/-- Padding can also be part of the list. -/
theorem root_pad (h : ¬ l.length ≤ 1) : root node null (pad l) = root node null l := by
  rw [root_step (not_short_pad h),root_step h,level_pad]

theorem joined_pad (h : ¬ l.length ≤ 1) : joined node (pad l) = joined node l := by
  rw [joined_step (not_short_pad h),joined_step h,level_pad,pad_pad]

theorem depth_eq_zero : depth node l = 0 ↔ l.length ≤ 1 := by
  rw [depth]
  split_ifs with h
  · simp [h]
  · simp [h]

theorem not_short_of_depth {n : ℕ} (h : depth node l = n + 1) : ¬ l.length ≤ 1 := by
  intro hshort
  rw [depth_eq_zero.mpr hshort] at h
  contradiction

/-- The root above a level is a node. -/
theorem root_joined {n : ℕ} (h : depth node l = n + 1) :
    ∃ p ∈ joined node l, root node null l = node p := by
  induction n generalizing l with
  | zero =>
    have hlong := not_short_of_depth h
    rw [depth_step hlong] at h
    have hlevel := depth_eq_zero.mp (Nat.succ.inj h)
    have hlen := level_length node l
    obtain ⟨a,ha⟩ := List.length_eq_one_iff.mp (show (level node l).length = 1 by omega)
    have hmem : a ∈ level node l := by rw [ha]; exact List.mem_singleton_self a
    obtain ⟨p,hp,rfl⟩ := List.mem_map.mp hmem
    refine ⟨p,?_,?_⟩
    · rw [joined_step hlong]
      exact List.mem_append_left _ hp
    · rw [root_step hlong,root,ha]
      rfl
  | succ n ih =>
    have hlong := not_short_of_depth h
    rw [depth_step hlong] at h
    obtain ⟨p,hp,hroot⟩ := ih (Nat.succ.inj h)
    refine ⟨p,?_,?_⟩
    · rw [joined_step hlong]
      exact List.mem_append_right _ hp
    · rw [root_step hlong,hroot]

/-- Above the first level nodes are made of nodes. -/
theorem fst_joined {p : α × α} (h : p ∈ joined node (level node l)) (hlong : ¬ l.length ≤ 1) :
    ∃ q ∈ joined node l, p.1 = node q := by
  generalize hm : level node l = m at h
  have hsub : ∀ q ∈ joined node m, q ∈ joined node l := by
    intro q hq
    rw [joined_step hlong,hm]
    exact List.mem_append_right _ hq
  have hnodes : ∀ a ∈ m, ∃ q ∈ joined node l, a = node q := by
    intro a ha
    rw [← hm] at ha
    obtain ⟨q,hq,rfl⟩ := List.mem_map.mp ha
    refine ⟨q,?_,rfl⟩
    rw [joined_step hlong]
    exact List.mem_append_left _ hq
  clear hm
  induction hn : m.length using Nat.strongRecOn generalizing m with
  | ind n ih =>
    by_cases hshort : m.length ≤ 1
    · rw [joined,if_pos hshort] at h
      contradiction
    · rw [joined_step hshort,List.mem_append] at h
      rcases h with h | h
      · exact hnodes _ (mem_pad (mem_of_mem_pairs h).1)
      · refine ih (level node m).length ?_ _ h ?_ ?_ rfl
        · rw [level_length]
          omega
        · intro q hq
          exact hsub q (by rw [joined_step hshort]; exact List.mem_append_right _ hq)
        · intro a ha
          obtain ⟨q,hq,rfl⟩ := List.mem_map.mp ha
          exact ⟨q,hsub q (by rw [joined_step hshort]; exact List.mem_append_left _ hq),rfl⟩

section Injective

variable (hinj : ∀ p ∈ joined node l ++ joined node m, ∀ q ∈ joined node l ++ joined node m,
  node p = node q → p = q)
include hinj

/-- The joined pairs of the levels above are joined in both trees. -/
theorem injective_step (hl : ¬ l.length ≤ 1) (hm : ¬ m.length ≤ 1) :
    ∀ p ∈ joined node (level node l) ++ joined node (level node m),
      ∀ q ∈ joined node (level node l) ++ joined node (level node m), node p = node q → p = q := by
  have hsub : ∀ p ∈ joined node (level node l) ++ joined node (level node m),
      p ∈ joined node l ++ joined node m := by
    intro p hp
    rw [joined_step hl,joined_step hm]
    rcases List.mem_append.mp hp with hp | hp
    · exact List.mem_append_left _ (List.mem_append_right _ hp)
    · exact List.mem_append_right _ (List.mem_append_right _ hp)
  intro p hp q hq
  exact hinj p (hsub p hp) q (hsub q hq)

end Injective

/-- Trees of one depth with one root consume the same leaves, unless two nodes collide. -/
theorem complete_eq_of_root_eq {n : ℕ} (hl : l ≠ []) (hm : m ≠ [])
    (hdl : depth node l = n) (hdm : depth node m = n)
    (hinj : ∀ p ∈ joined node l ++ joined node m, ∀ q ∈ joined node l ++ joined node m,
      node p = node q → p = q)
    (hroot : root node null l = root node null m) : complete n l = complete n m := by
  induction n generalizing l m with
  | zero =>
    have hl₁ := List.length_pos_of_ne_nil hl
    have hm₁ := List.length_pos_of_ne_nil hm
    have hl₀ := depth_eq_zero.mp hdl
    have hm₀ := depth_eq_zero.mp hdm
    obtain ⟨a,rfl⟩ := List.length_eq_one_iff.mp (show l.length = 1 by omega)
    obtain ⟨b,rfl⟩ := List.length_eq_one_iff.mp (show m.length = 1 by omega)
    rw [root,if_pos hl₀,root,if_pos hm₀] at hroot
    exact congrArg (fun c => [c]) hroot
  | succ n ih =>
    have hll := not_short_of_depth hdl
    have hml := not_short_of_depth hdm
    have hne {k : List α} (hk : ¬ k.length ≤ 1) : level node k ≠ [] := by
      intro h
      have hlen := level_length node k
      rw [h,List.length_nil] at hlen
      omega
    have hlevels : complete n (level node l) = complete n (level node m) := by
      refine ih (hne hll) (hne hml) ?_ ?_ (injective_step hinj hll hml) ?_
      · rw [depth_step hll] at hdl
        exact Nat.succ.inj hdl
      · rw [depth_step hml] at hdm
        exact Nat.succ.inj hdm
      · rwa [root_step hll,root_step hml] at hroot
    rw [level,level,complete_map,complete_map] at hlevels
    have hpairs : complete n (pairs (pad l)) = complete n (pairs (pad m)) := by
      refine map_inj_of_mem (fun p hp q hq => hinj p ?_ q ?_) hlevels
      · rw [joined_step hll]
        exact List.mem_append_left _ (List.mem_append_left _ (mem_complete hp))
      · rw [joined_step hml]
        exact List.mem_append_right _ (List.mem_append_left _ (mem_complete hq))
    rw [complete,complete,hpairs]

/-- The root depends on the leaves that are consumed. -/
theorem root_eq_of_complete_eq {n : ℕ} (hdl : depth node l = n) (hdm : depth node m = n)
    (h : complete n l = complete n m) : root node null l = root node null m := by
  induction n generalizing l m with
  | zero => exact congrArg (root node null) h
  | succ n ih =>
    have hll := not_short_of_depth hdl
    have hml := not_short_of_depth hdm
    rw [depth_step hll] at hdl
    rw [depth_step hml] at hdm
    rw [root_step hll,root_step hml]
    refine ih (Nat.succ.inj hdl) (Nat.succ.inj hdm) ?_
    rw [level,level,complete_map,complete_map,unpair_injective h]

/-- Where trees of different depths have one root, a leaf of the lower one is a node. -/
theorem leaf_eq_node_of_root_eq {n k : ℕ} (hl : l ≠ [])
    (hdl : depth node l = n) (hdm : depth node m = n + (k + 1))
    (hinj : ∀ p ∈ joined node l ++ joined node m, ∀ q ∈ joined node l ++ joined node m,
      node p = node q → p = q)
    (hroot : root node null l = root node null m) : ∃ a ∈ l, ∃ p ∈ joined node m, a = node p := by
  induction n generalizing l m with
  | zero =>
    have hl₁ := List.length_pos_of_ne_nil hl
    have hl₀ := depth_eq_zero.mp hdl
    obtain ⟨a,rfl⟩ := List.length_eq_one_iff.mp (show l.length = 1 by omega)
    have hdepth : depth node m = k + 1 := by omega
    obtain ⟨p,hp,hnode⟩ := root_joined hdepth
    rw [root,if_pos hl₀] at hroot
    exact ⟨a,List.mem_singleton_self a,p,hp,hroot.trans hnode⟩
  | succ n ih =>
    have hll := not_short_of_depth hdl
    have hdepth : depth node m = n + (k + 1) + 1 := by omega
    have hml := not_short_of_depth hdepth
    have hne : level node l ≠ [] := by
      intro h
      have hlen := level_length node l
      rw [h,List.length_nil] at hlen
      omega
    obtain ⟨a,ha,p,hp,rfl⟩ := ih (l := level node l) (m := level node m) hne
      (by rw [depth_step hll] at hdl; omega) (by rw [depth_step hml] at hdm; omega)
      (injective_step hinj hll hml) (by rwa [root_step hll,root_step hml] at hroot)
    -- the node was made of leaves on the one side and of nodes on the other
    obtain ⟨q,hq,hnode⟩ := List.mem_map.mp ha
    have hqp : q = p := by
      refine hinj q ?_ p ?_ hnode
      · rw [joined_step hll]
        exact List.mem_append_left _ (List.mem_append_left _ hq)
      · rw [joined_step hml]
        exact List.mem_append_right _ (List.mem_append_right _ hp)
    obtain ⟨r,hr,hfst⟩ := fst_joined hp hml
    exact ⟨q.1,mem_pad (mem_of_mem_pairs hq).1,r,hr,hqp ▸ hfst⟩

end Root
end MerkleTree
end Tkeycoin
