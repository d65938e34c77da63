import Mathlib

/-! Alarms that are appointed again and again, and the runs of what they call. -/
namespace Tkeycoin
namespace AlarmHistory

variable {τ : Type}

/-- What happens to an alarm. A run may be forced before its time. -/
inductive Entry (τ : Type)
  | appointed (now alarm : τ)
  | handled (now : τ) (forced : Bool)
  deriving DecidableEq

open Entry

/-- The alarm time appointed last. The latest entry of a history stands first. -/
def appointedLast : List (Entry τ) → Option τ
  | [] => none
  | appointed _ alarm :: _ => some alarm
  | handled _ _ :: rest => appointedLast rest

/-- How often the handler has run since the last appointment. -/
def handledSince : List (Entry τ) → Nat
  | [] => 0
  | appointed _ _ :: _ => 0
  | handled _ _ :: rest => handledSince rest + 1

variable {now alarm : τ} {forced : Bool} {history : List (Entry τ)}

@[simp] theorem appointedLast_appointed :
    appointedLast (appointed now alarm :: history) = some alarm := rfl

@[simp] theorem appointedLast_handled :
    appointedLast (handled now forced :: history) = appointedLast history := rfl

@[simp] theorem handledSince_appointed : handledSince (appointed now alarm :: history) = 0 := rfl

@[simp] theorem handledSince_handled :
    handledSince (handled now forced :: history) = handledSince history + 1 := rfl

variable [LinearOrder τ]

/-- The alarm time that is still to be handled, where it lay ahead when it was appointed. -/
def awaited : List (Entry τ) → Option τ
  | appointed now alarm :: _ => if now < alarm then some alarm else none
  | _ => none

/-- The handler runs for appointments only, once for each at most and not before its time
unless forced. -/
structure Kept (history : List (Entry τ)) : Prop where
  once : ∀ rest, rest <:+ history → handledSince rest ≤ 1
  notEarly : ∀ now forced rest, handled now forced :: rest <:+ history →
    ∃ alarm, appointedLast rest = some alarm ∧ (forced = false → alarm ≤ now)

section Rules

@[simp] theorem awaited_appointed : awaited (appointed now alarm :: history) =
    if now < alarm then some alarm else none := rfl

@[simp] theorem awaited_handled : awaited (handled now forced :: history) = none := rfl

theorem awaited_some (h : awaited history = some alarm) :
    appointedLast history = some alarm ∧ handledSince history = 0 := by
  cases history with
  | nil => simp [awaited] at h
  | cons entry rest =>
    cases entry with
    | handled now forced => simp at h
    | appointed now time =>
      simp only [awaited_appointed,Option.ite_none_right_eq_some,Option.some.injEq] at h
      simp [h.2]

theorem Kept.nil : Kept ([] : List (Entry τ)) where
  once := by simp [handledSince]
  notEarly := by simp

theorem Kept.tail {entry : Entry τ} (h : Kept (entry :: history)) : Kept history where
  once rest hrest := h.once rest (hrest.trans (List.suffix_cons entry history))
  notEarly now forced rest hrest :=
    h.notEarly now forced rest (hrest.trans (List.suffix_cons entry history))

theorem kept_appointed : Kept (appointed now alarm :: history) ↔ Kept history := by
  constructor
  · exact Kept.tail
  · intro h
    constructor
    · intro rest hrest
      cases List.suffix_cons_iff.mp hrest with
      | inl heq => simp [heq]
      | inr hsuffix => exact h.once rest hsuffix
    · intro now forced rest hrest
      cases List.suffix_cons_iff.mp hrest with
      | inl heq => simp at heq
      | inr hsuffix => exact h.notEarly now forced rest hsuffix

theorem kept_handled : Kept (handled now forced :: history) ↔ Kept history ∧
    handledSince history = 0 ∧
      ∃ alarm, appointedLast history = some alarm ∧ (forced = false → alarm ≤ now) := by
  constructor
  · intro h
    have honce := h.once _ List.suffix_rfl
    simp only [handledSince_handled] at honce
    exact ⟨h.tail,by omega,h.notEarly now forced history List.suffix_rfl⟩
  · intro h
    constructor
    · intro rest hrest
      cases List.suffix_cons_iff.mp hrest with
      | inl heq => simp [heq,h.2.1]
      | inr hsuffix => exact h.1.once rest hsuffix
    · intro now' forced' rest hrest
      cases List.suffix_cons_iff.mp hrest with
      | inl heq =>
        simp only [List.cons.injEq,handled.injEq] at heq
        simpa [heq] using h.2.2
      | inr hsuffix => exact h.1.notEarly now' forced' rest hsuffix

end Rules

end AlarmHistory
end Tkeycoin
