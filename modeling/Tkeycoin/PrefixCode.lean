import Mathlib.Data.List.Basic
import Mathlib.Logic.Function.Basic
import Mathlib.Tactic.Common

/-! Encodings that can be split off the front of whatever follows them. -/
namespace Tkeycoin

/-- What is encoded, and what follows it, can be read off the joined string. -/
def PrefixCode {α β : Type} (enc : α → List β) : Prop :=
  ∀ a b x y, enc a ++ x = enc b ++ y → a = b ∧ x = y

namespace PrefixCode

variable {α β γ : Type}

theorem injective {enc : α → List β} (h : PrefixCode enc) : Function.Injective enc := by
  intro a b hab
  exact (h a b [] [] (by rw [hab])).1

theorem of_width {enc : α → List β} {w : ℕ} (hw : ∀ a, (enc a).length = w)
    (hinj : Function.Injective enc) : PrefixCode enc := by
  intro a b x y h
  obtain ⟨hab,hxy⟩ := List.append_inj h (by rw [hw,hw])
  exact ⟨hinj hab,hxy⟩

theorem comp {enc : α → List β} (h : PrefixCode enc) {f : γ → α} (hf : Function.Injective f) :
    PrefixCode (fun c => enc (f c)) := by
  intro a b x y hab
  obtain ⟨hfab,hxy⟩ := h _ _ x y hab
  exact ⟨hf hfab,hxy⟩

/-- A code whose second part is read in the light of the first. -/
theorem pair {f : α → List β} {g : α → γ → List β} (hf : PrefixCode f) (hg : ∀ a, PrefixCode (g a)) :
    PrefixCode (fun p : α × γ => f p.1 ++ g p.1 p.2) := by
  rintro ⟨a,c⟩ ⟨b,d⟩ x y h
  simp only [List.append_assoc] at h
  obtain ⟨rfl,hrest⟩ := hf a b _ _ h
  obtain ⟨rfl,hxy⟩ := hg a c d x y hrest
  exact ⟨rfl,hxy⟩

end PrefixCode

/-- The blocks of a list one behind the other, each in the light of its index. -/
def blocks {α β : Type} (enc : ℕ → α → List β) : ℕ → List α → List β
  | _, [] => []
  | i, a :: l => enc i a ++ blocks enc (i+1) l

section Blocks

variable {α β : Type} {enc : ℕ → α → List β}

/-- As many blocks on both sides are the same blocks. -/
theorem blocks_inj (h : ∀ i, PrefixCode (enc i)) (i : ℕ) {l l' : List α} (hl : l.length = l'.length)
    {x y : List β} (hb : blocks enc i l ++ x = blocks enc i l' ++ y) : l = l' ∧ x = y := by
  induction l generalizing i l' with
  | nil =>
    have hnil : l' = [] := List.length_eq_zero_iff.mp hl.symm
    subst hnil
    exact ⟨rfl,hb⟩
  | cons a l ih =>
    cases l' with
    | nil => simp at hl
    | cons b l' =>
      simp only [blocks,List.append_assoc] at hb
      obtain ⟨rfl,hrest⟩ := h i a b _ _ hb
      obtain ⟨rfl,hxy⟩ := ih (i+1) (by simpa using hl) hrest
      exact ⟨rfl,hxy⟩

/-- Blocks behind a code of their number. -/
theorem counted_blocks_inj {N : ℕ} {count : ℕ → List β}
    (hcount : ∀ n m x y, n < N → m < N → count n ++ x = count m ++ y → n = m ∧ x = y)
    (h : ∀ i, PrefixCode (enc i)) (i : ℕ) {l l' : List α} (hl : l.length < N) (hl' : l'.length < N)
    {x y : List β}
    (hb : count l.length ++ (blocks enc i l ++ x) = count l'.length ++ (blocks enc i l' ++ y)) :
    l = l' ∧ x = y := by
  obtain ⟨hlen,hrest⟩ := hcount _ _ _ _ hl hl' hb
  exact blocks_inj h i hlen hrest

/-- Elements that are their own blocks. -/
theorem blocks_self (i : ℕ) (l : List α) : blocks (fun _ a => [a]) i l = l := by
  induction l generalizing i with
  | nil => rfl
  | cons a l ih => rw [blocks,ih,List.singleton_append]

end Blocks
end Tkeycoin
