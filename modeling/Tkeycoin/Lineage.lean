import Mathlib.Data.List.Basic
import Mathlib.Data.List.Nodup
import Mathlib.Tactic.Common

/-! Lists whose members name their parents by keys, and the order in which parents and children
stand in them. -/
namespace Tkeycoin

structure Lineage (α κ : Type) where
  key : α → κ
  prev : α → κ
  root : α → Prop

namespace Lineage

variable {α κ : Type} (T : Lineage α κ)

/-- A member whose ancestors down to a root are members, and how many there are. -/
inductive Depth (l : List α) : α → ℕ → Prop
  | root {a} : a ∈ l → T.root a → Depth l a 0
  | child {p a n} : Depth l p n → a ∈ l → T.prev a = T.key p → Depth l a (n + 1)

/-- No two members have one key, and no member is the parent of a root. -/
structure Distinct (l : List α) : Prop where
  nodup : (l.map T.key).Nodup
  root : ∀ {a p}, a ∈ l → p ∈ l → T.root a → T.prev a ≠ T.key p

/-- Whoever goes back to a root stands behind its parent. -/
def ParentsFirst (l : List α) : Prop :=
  ∀ l₁ a l₂ n, l = l₁ ++ a :: l₂ → T.Depth l a (n + 1) → ∃ p ∈ l₁, T.prev a = T.key p

variable {T} {l l' : List α} {a b p x : α} {m n : ℕ}

theorem Depth.mem (h : T.Depth l a n) : a ∈ l := by
  cases h <;> assumption

theorem Depth.parent (h : T.Depth l a (n + 1)) : ∃ p, T.Depth l p n ∧ T.prev a = T.key p := by
  cases h with
  | child hp _ hprev => exact ⟨_,hp,hprev⟩

theorem Depth.mono (h : T.Depth l a n) (hsub : l ⊆ l') : T.Depth l' a n := by
  induction h with
  | root hmem hroot => exact .root (hsub hmem) hroot
  | child _ hmem hprev ih => exact .child ih (hsub hmem) hprev

/-- Only who is a member counts, and not where. -/
theorem depth_perm (h : l.Perm l') : T.Depth l a n ↔ T.Depth l' a n :=
  ⟨fun hd => hd.mono h.subset,fun hd => hd.mono h.symm.subset⟩

namespace Distinct

theorem left (h : T.Distinct (l ++ l')) : T.Distinct l where
  nodup := by
    have hall := h.nodup
    rw [List.map_append] at hall
    exact hall.of_append_left
  root ha hp := h.root (List.mem_append_left _ ha) (List.mem_append_left _ hp)

theorem eq_of_key (h : T.Distinct l) (ha : a ∈ l) (hb : b ∈ l) (heq : T.key a = T.key b) : a = b :=
  List.inj_on_of_nodup_map h.nodup ha hb heq

theorem not_mem_of_snoc (h : T.Distinct (l ++ [x])) : x ∉ l := by
  intro hx
  have hall := h.nodup.of_map
  rw [List.nodup_append] at hall
  exact hall.2.2 x hx x (List.mem_singleton_self x) rfl

end Distinct

namespace ParentsFirst

theorem left (h : T.ParentsFirst (l ++ [x])) : T.ParentsFirst l := by
  intro l₁ a l₂ n heq hd
  refine h l₁ a (l₂ ++ [x]) n ?_ (hd.mono (List.subset_append_left _ _))
  rw [heq,List.append_assoc,List.cons_append]

/-- The parent of a member is one already when it comes. -/
theorem parent_mem (h : T.ParentsFirst (l ++ [x])) (hd : T.Depth (l ++ [x]) a (n + 1)) :
    ∃ p ∈ l, T.prev a = T.key p := by
  rcases List.mem_append.mp hd.mem with ha | ha
  · obtain ⟨l₁,l₂,rfl⟩ := List.append_of_mem ha
    obtain ⟨p,hp,hprev⟩ := h l₁ a (l₂ ++ [x]) n (by rw [List.append_assoc,List.cons_append]) hd
    exact ⟨p,List.mem_append_left _ hp,hprev⟩
  · obtain rfl := List.mem_singleton.mp ha
    exact h l a [] n rfl hd

/-- The last member is nobody's parent. -/
theorem prev_ne (h : T.ParentsFirst (l ++ [x])) (hl : T.Distinct (l ++ [x]))
    (hx : T.Depth (l ++ [x]) x n) (ha : a ∈ l) : T.prev a ≠ T.key x := by
  intro hprev
  obtain ⟨p,hp,hpa⟩ := h.parent_mem (.child hx (List.mem_append_left _ ha) hprev)
  obtain rfl := hl.eq_of_key (List.mem_append_left _ hp) hx.mem (hpa.symm.trans hprev)
  exact hl.not_mem_of_snoc hp

/-- So those before it do without it. -/
theorem depth_left (h : T.ParentsFirst (l ++ [x])) (hl : T.Distinct (l ++ [x])) (ha : a ∈ l) :
    T.Depth (l ++ [x]) a n ↔ T.Depth l a n := by
  constructor
  · intro hd
    induction hd with
    | root _ hroot => exact .root ha hroot
    | child hp hmem hprev ih =>
      rcases List.mem_append.mp hp.mem with hpl | hpx
      · exact .child (ih hpl) ha hprev
      · obtain rfl := List.mem_singleton.mp hpx
        exact absurd hprev (h.prev_ne hl hp ha)
  · intro hd
    exact hd.mono (List.subset_append_left _ _)

/-- The depth of the last member is one more than that of its parent. -/
theorem depth_last (h : T.ParentsFirst (l ++ [x])) (hl : T.Distinct (l ++ [x])) :
    T.Depth (l ++ [x]) x n ↔
      T.root x ∧ n = 0 ∨ ∃ p m, T.Depth l p m ∧ T.prev x = T.key p ∧ n = m + 1 := by
  have hx : x ∈ l ++ [x] := List.mem_append_right _ (List.mem_singleton_self x)
  constructor
  · intro hd
    cases hd with
    | root _ hroot => exact .inl ⟨hroot,rfl⟩
    | @child p _ m hp _ hprev =>
      obtain ⟨q,hq,hqx⟩ := h.parent_mem (.child hp hx hprev)
      have hmem : q ∈ l ++ [x] := List.mem_append_left _ hq
      obtain rfl := hl.eq_of_key hp.mem hmem (hprev.symm.trans hqx)
      exact .inr ⟨p,m,(h.depth_left hl hq).mp hp,hprev,rfl⟩
  · rintro (⟨hroot,rfl⟩ | ⟨p,m,hp,hprev,rfl⟩)
    · exact .root hx hroot
    · exact .child (hp.mono (List.subset_append_left _ _)) hx hprev

end ParentsFirst

end Lineage
end Tkeycoin
