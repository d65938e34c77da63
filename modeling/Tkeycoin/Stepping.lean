import Mathlib.Data.List.Infix

/-! Systems that take one event after another, and what holds along their runs. -/
namespace Tkeycoin
namespace Stepping

variable {σ ε : Type} (step : σ → ε → Option σ)

/-- The state behind some events. `none` where a step has no outcome. -/
def run : σ → List ε → Option σ
  | s, [] => some s
  | s, e :: events => (step s e).bind fun t => run t events

/-- A condition on each step of a run. -/
def Along (cond : σ → ε → Prop) : σ → List ε → Prop
  | _, [] => True
  | s, e :: events => ∀ t, step s e = some t → cond s e ∧ Along cond t events

section Rules

variable {step} {cond : σ → ε → Prop} {I : σ → Prop} {s t u : σ} {e : ε} {events more : List ε}

theorem run_cons : run step s (e :: events) = (step s e).bind fun t => run step t events := rfl

theorem run_append (s : σ) (events more : List ε) :
    run step s (events ++ more) = (run step s events).bind fun t => run step t more := by
  induction events generalizing s with
  | nil => rfl
  | cons e events ih =>
    rw [List.cons_append,run_cons,run_cons,Option.bind_assoc]
    simp only [ih]

theorem run_append_some (h : run step s events = some t) :
    run step s (events ++ more) = run step t more := by
  rw [run_append,h,Option.bind_some]

theorem run_cons_some : run step s (e :: events) = some u ↔
    ∃ t, step s e = some t ∧ run step t events = some u := by
  rw [run_cons,Option.bind_eq_some_iff]

theorem Along.of_forall (h : ∀ s e, cond s e) (s : σ) (events : List ε) : Along step cond s events := by
  induction events generalizing s with
  | nil => trivial
  | cons e events ih => exact fun t _ => ⟨h s e,ih t⟩

theorem Along.cons (hstep : step s e = some t) (hcond : cond s e) (h : Along step cond t events) :
    Along step cond s (e :: events) := by
  intro u hu
  cases hstep.symm.trans hu
  exact ⟨hcond,h⟩

theorem Along.mono {cond' : σ → ε → Prop} (himp : ∀ s e, cond s e → cond' s e)
    (h : Along step cond s events) : Along step cond' s events := by
  induction events generalizing s with
  | nil => trivial
  | cons e events ih =>
    intro t ht
    obtain ⟨he,hevents⟩ := h t ht
    exact ⟨himp s e he,ih hevents⟩

theorem Along.before (h : Along step cond s (events ++ more)) : Along step cond s events := by
  induction events generalizing s with
  | nil => trivial
  | cons e events ih =>
    intro t ht
    obtain ⟨he,hmore⟩ := h t ht
    exact ⟨he,ih hmore⟩

theorem Along.behind (h : Along step cond s (events ++ more)) (hrun : run step s events = some t) :
    Along step cond t more := by
  induction events generalizing s with
  | nil =>
    obtain rfl := Option.some.inj hrun
    exact h
  | cons e events ih =>
    obtain ⟨u,hu,hrest⟩ := run_cons_some.mp hrun
    exact ih (h u hu).2 hrest

/-- Two conditions that are the same in states with an invariant. -/
theorem along_congr {cond' : σ → ε → Prop} (hkeeps : ∀ s e t, I s → step s e = some t → I t)
    (hcond : ∀ s e t, I s → step s e = some t → (cond s e ↔ cond' s e)) (hs : I s) :
    Along step cond s events ↔ Along step cond' s events := by
  induction events generalizing s with
  | nil => exact Iff.rfl
  | cons e events ih =>
    exact forall₂_congr fun t ht => and_congr (hcond s e t hs ht) (ih (hkeeps s e t hs ht))

/-- What every step that meets the condition keeps holds behind every run of such steps. -/
theorem run_invariant (hstep : ∀ s e t, I s → cond s e → step s e = some t → I t)
    (hcond : Along step cond s events) (hs : I s) (hrun : run step s events = some t) : I t := by
  induction events generalizing s with
  | nil =>
    obtain rfl := Option.some.inj hrun
    exact hs
  | cons e events ih =>
    obtain ⟨u,hu,hrest⟩ := run_cons_some.mp hrun
    obtain ⟨he,hevents⟩ := hcond u hu
    exact ih hevents (hstep s e u hs he hu) hrest

/-- Where a step keeps an invariant exactly under a condition, a run keeps it at all its states
exactly if its steps meet the condition. -/
theorem run_iff (hstep : ∀ s e t, I s → step s e = some t → (I t ↔ cond s e)) (hs : I s) :
    (∀ before, before <+: events → ∀ t, run step s before = some t → I t) ↔ Along step cond s events := by
  induction events generalizing s with
  | nil =>
    refine ⟨fun _ => trivial,fun _ before hbefore t ht => ?_⟩
    obtain rfl := List.prefix_nil.mp hbefore
    obtain rfl := Option.some.inj ht
    exact hs
  | cons e events ih =>
    constructor
    · intro h t ht
      have hI : I t := h [e] ⟨events,rfl⟩ t (run_cons_some.mpr ⟨t,ht,rfl⟩)
      refine ⟨(hstep s e t hs ht).mp hI,(ih hI).mp fun before hbefore u hu => ?_⟩
      exact h (e :: before) ((List.prefix_cons_inj e).mpr hbefore) u (run_cons_some.mpr ⟨t,ht,hu⟩)
    · intro h before hbefore u hu
      cases before with
      | nil =>
        obtain rfl := Option.some.inj hu
        exact hs
      | cons e' before =>
        obtain ⟨rfl,hrest⟩ := List.cons_prefix_cons.mp hbefore
        obtain ⟨t,ht,hut⟩ := run_cons_some.mp hu
        obtain ⟨he,hevents⟩ := h t ht
        exact (ih ((hstep s e' t hs ht).mpr he)).mpr hevents before hrest u hut

/-- `run_iff` for an invariant that is read in states with something every step keeps. -/
theorem run_iff_within {B : σ → Prop} (hkeeps : ∀ s e t, B s → step s e = some t → B t)
    (hstep : ∀ s e t, B s → I s → step s e = some t → (I t ↔ cond s e)) (hb : B s) (hs : I s) :
    (∀ before, before <+: events → ∀ t, run step s before = some t → I t) ↔ Along step cond s events := by
  have hboth : (∀ before, before <+: events → ∀ t, run step s before = some t → B t ∧ I t) ↔
      Along step cond s events :=
    run_iff (fun s e t h ht => (and_iff_right (hkeeps s e t h.1 ht)).trans (hstep s e t h.1 h.2 ht))
      ⟨hb,hs⟩
  rw [← hboth]
  refine forall₄_congr fun before _ t ht => ?_
  have hbt : B t := run_invariant (fun s e t h _ => hkeeps s e t h)
    (Along.of_forall (fun _ _ => trivial) s before : Along step (fun _ _ => True) s before) hb ht
  exact (and_iff_right hbt).symm

/-- Steps that have an outcome in all states with an invariant make runs that have one. -/
theorem run_total (hstep : ∀ s e, I s → ∃ t, step s e = some t ∧ I t) (hs : I s) (events : List ε) :
    ∃ t, run step s events = some t ∧ I t := by
  induction events generalizing s with
  | nil => exact ⟨s,rfl,hs⟩
  | cons e events ih =>
    obtain ⟨u,hu,hI⟩ := hstep s e hs
    obtain ⟨t,ht,hIt⟩ := ih hI
    exact ⟨t,run_cons_some.mpr ⟨u,hu,ht⟩,hIt⟩

end Rules

end Stepping
end Tkeycoin
