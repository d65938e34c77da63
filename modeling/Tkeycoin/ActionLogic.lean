import Mathlib.Logic.Relation
import Mathlib.Tactic.Common

/-! Program logic for actions that may fail and carry a state: triples for one
run, correspondences between two runs, and the rules of a fuelled while loop. -/
namespace Tkeycoin
namespace ActionLogic

variable {ε σ τ α β γ δ : Type}

/-- From a state satisfying `P` the action returns into `Q` or fails into `E`. -/
def Triple (P : σ → Prop) (x : EStateM ε σ α) (Q : α → σ → Prop) (E : ε → σ → Prop) : Prop :=
  ∀ s, P s → match x.run s with
    | .ok a t => Q a t
    | .error e t => E e t

namespace Triple

variable {P : σ → Prop} {E : ε → σ → Prop}

theorem pure {a : α} {Q : α → σ → Prop} (h : ∀ s, P s → Q a s) :
    Triple P (Pure.pure a : EStateM ε σ α) Q E := by
  intro s hs
  simpa using h s hs

theorem bind {x : EStateM ε σ α} {f : α → EStateM ε σ β} {M : α → σ → Prop} {Q : β → σ → Prop}
    (hx : Triple P x M E) (hf : ∀ a, Triple (M a) (f a) Q E) : Triple P (x >>= f) Q E := by
  intro s hs
  have h₁ := hx s hs
  rw [EStateM.run_bind]
  cases h : x.run s with
  | error e t => simpa [h] using h₁
  | ok a t => exact hf a t (by simpa [h] using h₁)

theorem throw {e : ε} {Q : α → σ → Prop} (h : ∀ s, P s → E e s) :
    Triple P (throw e : EStateM ε σ α) Q E :=
  fun s hs => h s hs

theorem get {Q : σ → σ → Prop} (h : ∀ s, P s → Q s s) :
    Triple P (MonadState.get : EStateM ε σ σ) Q E :=
  fun s hs => h s hs

theorem set {s' : σ} {Q : PUnit → σ → Prop} (h : ∀ s, P s → Q ⟨⟩ s') :
    Triple P (MonadStateOf.set s' : EStateM ε σ PUnit) Q E :=
  fun s hs => h s hs

theorem modify {f : σ → σ} {Q : PUnit → σ → Prop} (h : ∀ s, P s → Q ⟨⟩ (f s)) :
    Triple P (modify f : EStateM ε σ PUnit) Q E :=
  fun s hs => h s hs

theorem ite {c : Prop} [Decidable c] {x y : EStateM ε σ α} {Q : α → σ → Prop}
    (hx : c → Triple P x Q E) (hy : ¬ c → Triple P y Q E) :
    Triple P (if c then x else y) Q E := by
  split
  · exact hx ‹_›
  · exact hy ‹_›

theorem consequence {P' : σ → Prop} {x : EStateM ε σ α} {Q Q' : α → σ → Prop} {E' : ε → σ → Prop}
    (h : Triple P' x Q' E') (hP : ∀ s, P s → P' s) (hQ : ∀ a s, Q' a s → Q a s)
    (hE : ∀ e s, E' e s → E e s) : Triple P x Q E := by
  intro s hs
  have h₁ := h s (hP s hs)
  cases hx : x.run s with
  | error e t => exact hE e t (by simpa [hx] using h₁)
  | ok a t => exact hQ a t (by simpa [hx] using h₁)

end Triple

/-- How the results of two pure computations correspond. When `lax` holds, a
failure on the left corresponds to anything on the right. -/
def ExceptMatch (lax : Prop) : Except ε α → Except ε α → Prop
  | .ok a, .ok b => a = b
  | .error e, .error e' => lax ∨ e = e'
  | .error _, .ok _ => lax
  | .ok _, .error _ => False

theorem ExceptMatch.refl (lax : Prop) (x : Except ε α) : ExceptMatch lax x x := by
  cases x <;> simp [ExceptMatch]

/-- With `lax` it is enough that a result on the left is the one on the right. -/
theorem ExceptMatch.of_lax {lax : Prop} {x y : Except ε α} (h : lax)
    (hxy : ∀ a, x = .ok a → y = .ok a) : ExceptMatch lax x y := by
  cases x with
  | ok a => simp [hxy a rfl,ExceptMatch]
  | error e => cases y <;> simp [ExceptMatch,h]

theorem ExceptMatch.mapError {lax : Prop} {x y : Except ε α} {ε' : Type} (f : ε → ε')
    (h : ExceptMatch lax x y) : ExceptMatch lax (x.mapError f) (y.mapError f) := by
  cases x with
  | ok a => cases y <;> exact h
  | error e =>
    cases y with
    | ok b => exact h
    | error e' =>
      rcases h with h | h
      · exact Or.inl h
      · exact Or.inr (congrArg f h)

/-- How the outcomes of two runs correspond. When `lax` holds, a failure on the
left corresponds to anything on the right. -/
def Matches (lax : Prop) (R : σ → τ → Prop) (V : α → β → Prop) :
    EStateM.Result ε σ α → EStateM.Result ε τ β → Prop
  | .ok a s, .ok b t => V a b ∧ R s t
  | .error e _, .error e' _ => lax ∨ e = e'
  | .error _ _, .ok _ _ => lax
  | .ok _ _, .error _ _ => False

/-- What `>>=` does with the outcome of its first action. -/
def andThen (f : α → EStateM ε σ β) : EStateM.Result ε σ α → EStateM.Result ε σ β
  | .ok a s => (f a).run s
  | .error e s => .error e s

theorem run_bind_andThen (x : EStateM ε σ α) (f : α → EStateM ε σ β) (s : σ) :
    (x >>= f).run s = andThen f (x.run s) := by
  rw [EStateM.run_bind]
  cases x.run s <;> rfl

theorem run_bind_ok {x : EStateM ε σ α} {f : α → EStateM ε σ β} {s t : σ} {a : α}
    (h : x.run s = .ok a t) : (x >>= f).run s = (f a).run t := by
  rw [EStateM.run_bind,h]

theorem run_bind_error {x : EStateM ε σ α} {f : α → EStateM ε σ β} {s t : σ} {e : ε}
    (h : x.run s = .error e t) : (x >>= f).run s = .error e t := by
  rw [EStateM.run_bind,h]

/-- Corresponding outcomes handed on to corresponding continuations. -/
theorem Matches.andThen {lax : Prop} {R : σ → τ → Prop} {V : α → β → Prop} {W : γ → δ → Prop}
    {x : EStateM.Result ε σ α} {y : EStateM.Result ε τ β} {f : α → EStateM ε σ γ}
    {g : β → EStateM ε τ δ} (hx : Matches lax R V x y)
    (hf : ∀ a b s t, x = .ok a s → y = .ok b t → V a b → R s t →
      Matches lax R W ((f a).run s) ((g b).run t)) :
    Matches lax R W (andThen f x) (andThen g y) := by
  cases x with
  | ok a s =>
    cases y with
    | ok b t => exact hf a b s t rfl rfl hx.1 hx.2
    | error e t => exact hx.elim
  | error e s =>
    cases y with
    | ok b t =>
      have hlax : lax := hx
      rw [ActionLogic.andThen,ActionLogic.andThen]
      cases (g b).run t <;> simp [Matches,hlax]
    | error e' t => exact hx

/-- From related states the two actions have corresponding outcomes. -/
def Sim (lax : Prop) (R : σ → τ → Prop) (V : α → β → Prop)
    (x : EStateM ε σ α) (y : EStateM ε τ β) : Prop :=
  ∀ s t, R s t → Matches lax R V (x.run s) (y.run t)

namespace Sim

variable {lax : Prop} {R : σ → τ → Prop} {V : α → β → Prop} {W : γ → δ → Prop}

theorem pure {a : α} {b : β} (h : V a b) :
    Sim lax R V (Pure.pure a : EStateM ε σ α) (Pure.pure b : EStateM ε τ β) :=
  fun _ _ hR => ⟨h, hR⟩

theorem bind {x : EStateM ε σ α} {y : EStateM ε τ β} {f : α → EStateM ε σ γ}
    {g : β → EStateM ε τ δ} (hx : Sim lax R V x y)
    (hf : ∀ a b, V a b → Sim lax R W (f a) (g b)) : Sim lax R W (x >>= f) (y >>= g) := by
  intro s t hR
  rw [run_bind_andThen,run_bind_andThen]
  exact Matches.andThen (hx s t hR) fun a b s' t' _ _ hV hR' => hf a b hV s' t' hR'

theorem throw (e : ε) : Sim lax R V (throw e : EStateM ε σ α) (throw e : EStateM ε τ β) :=
  fun _ _ _ => Or.inr rfl

/-- In a lax correspondence a failing left side needs no counterpart. -/
theorem throw_left (h : lax) (e : ε) (y : EStateM ε τ β) :
    Sim lax R V (MonadExcept.throw e : EStateM ε σ α) y := by
  intro s t _
  change Matches lax R V (.error e s) (y.run t)
  cases y.run t with
  | ok b t' => exact h
  | error e' t' => exact Or.inl h

theorem get : Sim lax R R (MonadState.get : EStateM ε σ σ) (MonadState.get : EStateM ε τ τ) :=
  fun _ _ hR => ⟨hR,hR⟩

theorem set {s' : σ} {t' : τ} (h : R s' t') :
    Sim lax R (fun _ _ => True) (MonadStateOf.set s' : EStateM ε σ PUnit)
      (MonadStateOf.set t' : EStateM ε τ PUnit) :=
  fun _ _ _ => ⟨trivial,h⟩

theorem modify {f : σ → σ} {g : τ → τ} (h : ∀ s t, R s t → R (f s) (g t)) :
    Sim lax R (fun _ _ => True) (modify f : EStateM ε σ PUnit) (modify g : EStateM ε τ PUnit) :=
  fun s t hR => ⟨trivial,h s t hR⟩

theorem ite {c c' : Prop} [Decidable c] [Decidable c'] {x x' : EStateM ε σ α}
    {y y' : EStateM ε τ β} (hc : c ↔ c') (hx : c → Sim lax R V x y)
    (hy : ¬ c → Sim lax R V x' y') :
    Sim lax R V (if c then x else x') (if c' then y else y') := by
  by_cases h : c
  · simpa [h,hc.mp h] using hx h
  · have h' : ¬ c' := fun hc' => h (hc.mpr hc')
    simpa [h,h'] using hy h

/-- An action on the left alone, when it keeps the correspondence. -/
theorem bind_left {x : EStateM ε σ α} {f : α → EStateM ε σ γ} {y : EStateM ε τ δ}
    (hx : Sim lax R (fun _ _ => True) x (Pure.pure () : EStateM ε τ Unit))
    (hf : ∀ a, Sim lax R W (f a) y) : Sim lax R W (x >>= f) y := by
  have h := bind hx (fun a (_ : Unit) _ => hf a)
  simpa using h

/-- A test that throws. The right one may pass where the left one throws. -/
theorem guard {c c' : Prop} [Decidable c] [Decidable c'] {x : EStateM ε σ α} {y : EStateM ε τ β}
    (e : ε) (hc : c' → c) (hs : lax ∨ (c → c')) (hxy : ¬ c → Sim lax R V x y) :
    Sim lax R V (if c then MonadExcept.throw e else x) (if c' then MonadExcept.throw e else y) := by
  by_cases h : c
  · rcases hs with hs | hs
    · simpa [h] using throw_left hs e _
    · simpa [h,hs h] using throw e
  · have h' : ¬ c' := fun hc' => h (hc hc')
    simpa [h,h'] using hxy h

theorem mono {V' : α → β → Prop} {x : EStateM ε σ α} {y : EStateM ε τ β}
    (h : Sim lax R V x y) (hV : ∀ a b, V a b → V' a b) : Sim lax R V' x y := by
  intro s t hR
  have h₁ := h s t hR
  cases hs : x.run s <;> cases ht : y.run t <;> simp_all [Matches]

end Sim

section Loop

variable (cond : σ → Bool) (body : EStateM ε σ Unit)

/-- `while (cond) body`, at most `fuel` times round. -/
def loop : ℕ → EStateM ε σ Unit
  | 0 => pure ()
  | fuel+1 => do
    let s ← get
    if cond s then
      body
      loop fuel
    else
      pure ()

/-- One completed round of the loop. -/
def Round (s t : σ) : Prop := cond s = true ∧ body.run s = .ok () t

/-- The states at the head of the loop, from a given one on. -/
abbrev Rounds : σ → σ → Prop := Relation.ReflTransGen (Round cond body)

theorem loop_succ_run (fuel : ℕ) (s : σ) :
    (loop cond body (fuel+1)).run s =
      if cond s then
        match body.run s with
        | .ok _ t => (loop cond body fuel).run t
        | .error e t => .error e t
      else .ok () s := by
  simp only [loop,EStateM.run_bind,EStateM.run_get]
  split
  · rw [EStateM.run_bind]
    cases body.run s <;> rfl
  · rfl

theorem loop_done (fuel : ℕ) (s : σ) (h : cond s = false) :
    (loop cond body fuel).run s = .ok () s := by
  cases fuel with
  | zero => rfl
  | succ fuel => simp [loop_succ_run,h]

variable {cond body}

/-- A loop that returns has gone one round and returns from there, or is done. -/
theorem loop_succ_ok {fuel : ℕ} {s t : σ} (h : (loop cond body (fuel+1)).run s = .ok () t) :
    (∃ s', Round cond body s s' ∧ (loop cond body fuel).run s' = .ok () t) ∨ cond s = false ∧ s = t := by
  rw [loop_succ_run] at h
  by_cases hc : cond s = true
  · cases hb : body.run s with
    | ok u s' => exact .inl ⟨s',⟨hc,hb⟩,by simpa [hc,hb] using h⟩
    | error e s' => simp [hc,hb] at h
  · have hst : s = t := by simpa [hc] using h
    exact .inr ⟨by simpa using hc,hst⟩

/-- A loop that fails has gone one round and fails from there, or its body fails. -/
theorem loop_succ_error {fuel : ℕ} {s t : σ} {e : ε} (h : (loop cond body (fuel+1)).run s = .error e t) :
    (∃ s', Round cond body s s' ∧ (loop cond body fuel).run s' = .error e t) ∨
      cond s = true ∧ body.run s = .error e t := by
  rw [loop_succ_run] at h
  by_cases hc : cond s = true
  · cases hb : body.run s with
    | ok u s' => exact .inl ⟨s',⟨hc,hb⟩,by simpa [hc,hb] using h⟩
    | error e' s' => exact .inr ⟨hc,by simpa [hc,hb] using h⟩
  · simp [hc] at h

/-- A loop that returns has gone through rounds to the state it returns. -/
theorem loop_rounds {fuel : ℕ} {s t : σ} (h : (loop cond body fuel).run s = .ok () t) :
    Rounds cond body s t := by
  induction fuel generalizing s with
  | zero =>
    have hst : s = t := by simpa [loop] using h
    exact hst ▸ .refl
  | succ fuel ih =>
    rcases loop_succ_ok h with ⟨s',hround,hrest⟩ | ⟨-,rfl⟩
    · exact .head hround (ih hrest)
    · exact .refl

/-- A loop that fails does so in the body, at a state its rounds reach. -/
theorem loop_error {fuel : ℕ} {s t : σ} {e : ε} (h : (loop cond body fuel).run s = .error e t) :
    ∃ s', Rounds cond body s s' ∧ cond s' = true ∧ body.run s' = .error e t := by
  induction fuel generalizing s with
  | zero => simp [loop] at h
  | succ fuel ih =>
    rcases loop_succ_error h with ⟨s',hround,hrest⟩ | ⟨hc,hb⟩
    · obtain ⟨r,hr,hcr,hbr⟩ := ih hrest
      exact ⟨r,.head hround hr,hcr,hbr⟩
    · exact ⟨s,.refl,hc,hb⟩

/-- What every round preserves holds at every state the rounds reach. -/
theorem rounds_invariant {I : σ → Prop} (hI : ∀ s t, I s → Round cond body s t → I t)
    {s t : σ} (hs : I s) (h : Rounds cond body s t) : I t := by
  induction h with
  | refl => exact hs
  | tail _ hr ih => exact hI _ _ ih hr

section Measure

variable {m : σ → ℕ} (hm : ∀ s t, Round cond body s t → m t < m s)
  (h0 : ∀ s, m s = 0 → cond s = false)
include hm h0

/-- With as much fuel as the measure, a returning loop has falsified its condition. -/
theorem loop_exits {fuel : ℕ} {s t : σ} (hf : m s ≤ fuel)
    (h : (loop cond body fuel).run s = .ok () t) : cond t = false := by
  induction fuel generalizing s with
  | zero =>
    have hst : s = t := by simpa [loop] using h
    exact hst ▸ h0 s (by omega)
  | succ fuel ih =>
    rcases loop_succ_ok h with ⟨s',hround,hrest⟩ | ⟨hc,rfl⟩
    · have hlt := hm s s' hround
      exact ih (by omega) hrest
    · exact hc

/-- Any two sufficient amounts of fuel give the same run. -/
theorem loop_fuel {fuel fuel' : ℕ} {s : σ} (hf : m s ≤ fuel) (hf' : m s ≤ fuel') :
    (loop cond body fuel).run s = (loop cond body fuel').run s := by
  induction fuel generalizing s fuel' with
  | zero =>
    have hc := h0 s (by omega)
    rw [loop_done _ _ _ _ hc,loop_done _ _ _ _ hc]
  | succ fuel ih =>
    by_cases hc : cond s = true
    · cases fuel' with
      | zero => simp [h0 s (by omega)] at hc
      | succ fuel' =>
        rw [loop_succ_run,loop_succ_run]
        cases hb : body.run s with
        | ok u s' =>
          have hlt := hm s s' ⟨hc,hb⟩
          simpa [hc] using ih (by omega) (by omega)
        | error e s' => rfl
    · have hc' : cond s = false := by simpa using hc
      rw [loop_done _ _ _ _ hc',loop_done _ _ _ _ hc']

/-- A state the rounds reach takes the loop to the same outcome. -/
theorem loop_of_rounds {fuel fuel' : ℕ} {s t : σ} (h : Rounds cond body s t)
    (hf : m s ≤ fuel) (hf' : m t ≤ fuel') :
    (loop cond body fuel).run s = (loop cond body fuel').run t := by
  induction h using Relation.ReflTransGen.head_induction_on generalizing fuel with
  | refl => exact loop_fuel hm h0 hf hf'
  | @head a c hr _ ih =>
    cases fuel with
    | zero => exact absurd hr.1 (by simp [h0 a (by omega)])
    | succ fuel =>
      have hlt := hm a c hr
      rw [loop_succ_run]
      simpa [hr.1,hr.2] using ih (by omega)

end Measure

/-- Two loops in lockstep: corresponding rounds give corresponding outcomes. The
correspondence of the heads may use that the left one is reached. -/
theorem loop_sim {lax : Prop} {R : σ → τ → Prop} {cond' : τ → Bool} {body' : EStateM ε τ Unit}
    {m : σ → ℕ} {m' : τ → ℕ} {s₀ : σ}
    (hm : ∀ s t, Round cond body s t → m t < m s) (h0 : ∀ s, m s = 0 → cond s = false)
    (hm' : ∀ s t, Round cond' body' s t → m' t < m' s) (h0' : ∀ s, m' s = 0 → cond' s = false)
    (hcond : ∀ s t, R s t → cond s = cond' t)
    (hbody : ∀ s t, Rounds cond body s₀ s → R s t → cond s = true →
      Matches lax R (fun _ _ => True) (body.run s) (body'.run t))
    {fuel fuel' : ℕ} {s : σ} {t : τ} (hs : Rounds cond body s₀ s) (hR : R s t)
    (hf : m s ≤ fuel) (hf' : m' t ≤ fuel') :
    Matches lax R (fun _ _ => True) ((loop cond body fuel).run s)
      ((loop cond' body' fuel').run t) := by
  induction fuel generalizing s t fuel' with
  | zero =>
    have hc := h0 s (by omega)
    rw [loop_done _ _ _ _ hc,loop_done _ _ _ _ (hcond s t hR ▸ hc)]
    exact ⟨trivial,hR⟩
  | succ fuel ih =>
    by_cases hc : cond s = true
    · have hc' : cond' t = true := hcond s t hR ▸ hc
      cases fuel' with
      | zero => simp [h0' t (by omega)] at hc'
      | succ fuel' =>
        have h₁ := hbody s t hs hR hc
        rw [loop_succ_run,loop_succ_run]
        simp only [hc,hc',if_true]
        cases hb : body.run s with
        | ok u s' =>
          cases hb' : body'.run t with
          | ok u' t' =>
            have hR' : R s' t' := by simpa [hb,hb',Matches] using h₁
            have hlt := hm s s' ⟨hc,hb⟩
            have hlt' := hm' t t' ⟨hc',hb'⟩
            exact ih (hs.tail ⟨hc,hb⟩) hR' (by omega) (by omega)
          | error e t' => simp [hb,hb',Matches] at h₁
        | error e s' =>
          cases hb' : body'.run t with
          | ok u' t' =>
            have hlax : lax := by simpa [hb,hb',Matches] using h₁
            cases hl : (loop cond' body' fuel').run t' <;> simp [Matches,hl,hlax]
          | error e' t' => simpa [hb,hb',Matches] using h₁
    · have hc' : cond s = false := by simpa using hc
      rw [loop_done _ _ _ _ hc',loop_done _ _ _ _ (hcond s t hR ▸ hc')]
      exact ⟨trivial,hR⟩

end Loop

end ActionLogic
end Tkeycoin
