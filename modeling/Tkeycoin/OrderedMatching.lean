import Mathlib.Data.List.Forall2
import Mathlib.Data.List.NodupEquivFin

/-! Items that get places in order, and the single pass that gives each item the first place that
suits it. -/
namespace Tkeycoin
namespace OrderedMatching

variable {α β : Type}

/-- Each item has a place of its own that suits it, and later items have later places. -/
def Assignable (suits : α → β → Prop) (items : List α) (places : List β) : Prop :=
  ∃ place : Fin items.length → Fin places.length, StrictMono place ∧
    ∀ i, suits (items.get i) (places.get (place i))

section Assignable

variable {suits : α → β → Prop} {item : α} {items : List α} {place : β} {places : List β}

theorem assignable_iff : Assignable suits items places ↔ List.SublistForall₂ suits items places := by
  rw [List.sublistForall₂_iff]
  constructor
  · intro h
    obtain ⟨place,hmono,hsuits⟩ := h
    refine ⟨List.ofFn fun i => places.get (place i),?_,?_⟩
    · apply List.forall₂_iff_get.mpr
      refine ⟨by simp,fun i h₁ _ => ?_⟩
      simpa using hsuits ⟨i,h₁⟩
    · apply List.sublist_iff_exists_fin_orderEmbedding_get_eq.mpr
      have hlength : (List.ofFn fun i => places.get (place i)).length = items.length := by simp
      refine ⟨OrderEmbedding.ofStrictMono (fun i => place (Fin.cast hlength i)) fun i j hij => ?_,
        fun i => ?_⟩
      · exact hmono hij
      · simp only [List.get_eq_getElem,List.getElem_ofFn]
        rfl
  · intro h
    obtain ⟨chosen,hsuits,hsub⟩ := h
    obtain ⟨place,hplace⟩ := List.sublist_iff_exists_fin_orderEmbedding_get_eq.mp hsub
    obtain ⟨hlength,hsuits⟩ := List.forall₂_iff_get.mp hsuits
    refine ⟨fun i => place (Fin.cast hlength i),fun i j hij => place.strictMono hij,fun i => ?_⟩
    rw [← hplace]
    exact hsuits i i.2 (hlength ▸ i.2)

/-- Without its first item an assignment is still one. -/
theorem sublistForall₂_tail (h : List.SublistForall₂ suits (item :: items) places) :
    List.SublistForall₂ suits items places := by
  induction places with
  | nil => cases h
  | cons place places ih =>
    cases h with
    | cons _ hrest => exact .cons_right hrest
    | cons_right hrest => exact .cons_right (ih hrest)

theorem assignable_nil : Assignable suits [] places := assignable_iff.mpr .nil

/-- There are not enough places. -/
theorem not_assignable_of_lt (h : places.length < items.length) : ¬ Assignable suits items places := by
  intro hassign
  obtain ⟨chosen,hsuits,hsub⟩ := List.sublistForall₂_iff.mp (assignable_iff.mp hassign)
  have hle := hsub.length_le
  rw [← hsuits.length_eq] at hle
  omega

/-- The first item may as well have the first place, if that suits it: the item that has it in an
assignment is the first one. -/
theorem assignable_cons_of_suits (h : suits item place) :
    Assignable suits (item :: items) (place :: places) ↔ Assignable suits items places := by
  simp only [assignable_iff]
  constructor
  · intro hassign
    cases hassign with
    | cons _ hrest => exact hrest
    | cons_right hrest => exact sublistForall₂_tail hrest
  · exact .cons h

theorem assignable_cons_of_not_suits (h : ¬ suits item place) :
    Assignable suits (item :: items) (place :: places) ↔ Assignable suits (item :: items) places := by
  simp only [assignable_iff]
  constructor
  · intro hassign
    cases hassign with
    | cons hsuits _ => exact absurd hsuits h
    | cons_right hrest => exact hrest
  · exact .cons_right

theorem assignable_congr {suits' : α → β → Prop}
    (h : ∀ item ∈ items, ∀ place ∈ places, (suits item place ↔ suits' item place)) :
    Assignable suits items places ↔ Assignable suits' items places := by
  apply exists_congr
  intro place
  apply and_congr_right
  intro _
  apply forall_congr'
  intro i
  exact h _ (List.get_mem _ _) _ (List.get_mem _ _)

end Assignable

/-- The answer of a test is yes. -/
def Accepts (answer : α → β → Option Bool) (item : α) (place : β) : Prop := answer item place = some true

/-- The pass comes to more items than places, and each test on its way has an answer. -/
inductive GivesUp (answer : α → β → Option Bool) : List α → List β → Prop
  | short {items places} : places.length < items.length → GivesUp answer items places
  | hit {item items place places} : answer item place = some true → GivesUp answer items places →
      GivesUp answer (item :: items) (place :: places)
  | miss {item items place places} : answer item place = some false →
      GivesUp answer (item :: items) places → GivesUp answer (item :: items) (place :: places)

section GivesUp

variable {answer : α → β → Option Bool} {items : List α} {places : List β}

theorem not_givesUp_nil : ¬ GivesUp answer [] places := by
  intro h
  cases h with
  | short hlt => simp at hlt

/-- Which way the pass goes on, when there are places enough. -/
theorem givesUp_cons_iff {item : α} {place : β} (hle : items.length ≤ places.length) :
    GivesUp answer (item :: items) (place :: places) ↔
      answer item place = some true ∧ GivesUp answer items places ∨
        answer item place = some false ∧ GivesUp answer (item :: items) places := by
  constructor
  · intro h
    cases h with
    | short hlt =>
      simp only [List.length_cons] at hlt
      omega
    | hit hyes hrest => exact .inl ⟨hyes,hrest⟩
    | miss hno hrest => exact .inr ⟨hno,hrest⟩
  · rintro (⟨hyes,hrest⟩ | ⟨hno,hrest⟩)
    · exact .hit hyes hrest
    · exact .miss hno hrest

theorem GivesUp.not_assignable (h : GivesUp answer items places) :
    ¬ Assignable (Accepts answer) items places := by
  induction h with
  | short hlt => exact not_assignable_of_lt hlt
  | @hit item items place places hyes _ ih =>
    have hsuits : Accepts answer item place := hyes
    rwa [assignable_cons_of_suits hsuits]
  | @miss item items place places hno _ ih =>
    have hsuits : ¬ Accepts answer item place := by simp [Accepts,hno]
    rwa [assignable_cons_of_not_suits hsuits]

/-- Where every test has an answer, the pass gives up exactly if there is no assignment. -/
theorem givesUp_iff (h : ∀ item ∈ items, ∀ place ∈ places, (answer item place).isSome) :
    GivesUp answer items places ↔
      ¬ Assignable (Accepts answer) items places := by
  refine ⟨GivesUp.not_assignable,fun hnot => ?_⟩
  induction places generalizing items with
  | nil =>
    cases items with
    | nil => exact absurd assignable_nil hnot
    | cons item items => exact .short (by simp)
  | cons place places ih =>
    cases items with
    | nil => exact absurd assignable_nil hnot
    | cons item items =>
      obtain ⟨ok,hok⟩ := Option.isSome_iff_exists.mp (h item (by simp) place (by simp))
      cases ok with
      | true =>
        have hsuits : Accepts answer item place := hok
        rw [assignable_cons_of_suits hsuits] at hnot
        exact .hit hok (ih (fun i hi p hp => h i (by simp [hi]) p (by simp [hp])) hnot)
      | false =>
        have hsuits : ¬ Accepts answer item place := by simp [Accepts,hok]
        rw [assignable_cons_of_not_suits hsuits] at hnot
        exact .miss hok (ih (fun i hi p hp => h i hi p (by simp [hp])) hnot)

end GivesUp

end OrderedMatching
end Tkeycoin
