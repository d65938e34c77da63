import Mathlib.Data.List.Basic
import Mathlib.Tactic.Common

/-! Sets of records of which no two have the same key, as `std::unordered_set` keeps them. The list is
in the order of iteration. -/
namespace Tkeycoin
namespace KeyedSet

variable {α κ : Type} (key : α → κ)

/-- There is a record with the key. -/
def Has (set : List α) (k : κ) : Prop := ∃ b ∈ set, key b = k

section Has

variable {key} {set : List α} {k : κ} {a : α}

theorem not_has_nil : ¬ Has key [] k := by
  simp [Has]

theorem has_of_mem (h : a ∈ set) : Has key set (key a) := ⟨a,h,rfl⟩

theorem Has.mono {set' : List α} (h : Has key set k) (hsub : set ⊆ set') : Has key set' k := by
  obtain ⟨b,hb,hk⟩ := h
  exact ⟨b,hsub hb,hk⟩

end Has

variable [DecidableEq κ]

/-- `find`. -/
def find (set : List α) (k : κ) : Option α := set.find? fun b => key b = k

/-- `emplace`, which keeps what is there. -/
def emplace (set : List α) (a : α) : List α := if (find key set (key a)).isSome then set else a :: set

def erase (set : List α) (k : κ) : List α := set.filter fun b => key b ≠ k

/-- A change of the record with a key. -/
def modify (set : List α) (k : κ) (f : α → α) : List α := set.map fun b => if key b = k then f b else b

section Rules

variable {key} {set : List α} {k l : κ} {a : α} {f : α → α}

theorem find_isSome : (find key set k).isSome = true ↔ Has key set k := by
  simp [find,Has]

theorem has_of_find (h : find key set k = some a) : Has key set k := by
  rw [← find_isSome,h]
  rfl

theorem mem_emplace {b : α} : b ∈ emplace key set a ↔ b ∈ set ∨ b = a ∧ ¬ Has key set (key a) := by
  rw [emplace]
  by_cases hkey : Has key set (key a)
  · simp [find_isSome.mpr hkey,hkey]
  · have hnone : ¬ (find key set (key a)).isSome = true := fun h => hkey (find_isSome.mp h)
    simp [hnone,hkey,or_comm]

theorem has_emplace : Has key (emplace key set a) k ↔ Has key set k ∨ k = key a := by
  constructor
  · rintro ⟨b,hb,rfl⟩
    rcases mem_emplace.mp hb with hold | ⟨rfl,-⟩
    · exact .inl (has_of_mem hold)
    · exact .inr rfl
  · rintro (⟨b,hb,rfl⟩ | rfl)
    · exact has_of_mem (mem_emplace.mpr (.inl hb))
    · by_cases hkey : Has key set (key a)
      · exact hkey.mono fun b hb => mem_emplace.mpr (.inl hb)
      · exact has_of_mem (mem_emplace.mpr (.inr ⟨rfl,hkey⟩))

theorem mem_erase {b : α} : b ∈ erase key set k ↔ b ∈ set ∧ key b ≠ k := by
  simp [erase]

theorem has_erase : Has key (erase key set l) k ↔ Has key set k ∧ k ≠ l := by
  constructor
  · rintro ⟨b,hb,rfl⟩
    obtain ⟨hmem,hne⟩ := mem_erase.mp hb
    exact ⟨has_of_mem hmem,hne⟩
  · rintro ⟨⟨b,hb,rfl⟩,hne⟩
    exact has_of_mem (mem_erase.mpr ⟨hb,hne⟩)

/-- Changes that keep the key keep all keys. -/
theorem has_modify (hf : ∀ b, key (f b) = key b) : Has key (modify key set l f) k ↔ Has key set k := by
  have hkey (b : α) : key (if key b = l then f b else b) = key b := by
    split_ifs
    · exact hf b
    · rfl
  simp [Has,modify,hkey]

theorem mem_modify {b : α} : b ∈ modify key set k f ↔
    (∃ c ∈ set, key c = k ∧ b = f c) ∨ b ∈ set ∧ key b ≠ k := by
  constructor
  · intro hb
    obtain ⟨c,hc,rfl⟩ := List.mem_map.mp hb
    split_ifs with hkey
    · exact .inl ⟨c,hc,hkey,rfl⟩
    · exact .inr ⟨hc,hkey⟩
  · rintro (⟨c,hc,hkey,rfl⟩ | ⟨hb,hkey⟩)
    · exact List.mem_map.mpr ⟨c,hc,if_pos hkey⟩
    · exact List.mem_map.mpr ⟨b,hb,if_neg hkey⟩

theorem nodup_emplace (h : (set.map key).Nodup) : ((emplace key set a).map key).Nodup := by
  rw [emplace]
  split_ifs with hfind
  · exact h
  · rw [List.map_cons,List.nodup_cons]
    refine ⟨fun hmem => ?_,h⟩
    obtain ⟨b,hb,hkey⟩ := List.mem_map.mp hmem
    exact hfind (find_isSome.mpr ⟨b,hb,hkey⟩)

theorem nodup_erase (h : (set.map key).Nodup) : ((erase key set k).map key).Nodup :=
  h.sublist (List.filter_sublist.map key)

theorem map_modify (hf : ∀ b, key (f b) = key b) : (modify key set k f).map key = set.map key := by
  rw [modify,List.map_map]
  refine List.map_congr_left fun b _ => ?_
  rw [Function.comp_apply]
  split_ifs
  · exact hf b
  · rfl

end Rules

end KeyedSet
end Tkeycoin
