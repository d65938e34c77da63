import Tkeycoin.ActionLogic

/-! Actions that commute with a change of the state: they neither look at what is changed nor touch it. -/
namespace Tkeycoin
namespace ActionLogic

variable {ε σ α β : Type}

/-- An outcome with its state changed. -/
def onState (g : σ → σ) : EStateM.Result ε σ α → EStateM.Result ε σ α
  | .ok a s => .ok a (g s)
  | .error e s => .error e (g s)

@[simp] theorem onState_ok (g : σ → σ) (a : α) (s : σ) :
    onState g (.ok a s : EStateM.Result ε σ α) = .ok a (g s) := rfl

@[simp] theorem onState_error (g : σ → σ) (e : ε) (s : σ) :
    onState g (.error e s : EStateM.Result ε σ α) = .error e (g s) := rfl

/-- The change may be made before the action or behind it. -/
def Commutes (g : σ → σ) (x : EStateM ε σ α) : Prop := ∀ s, x.run (g s) = onState g (x.run s)

namespace Commutes

variable {g : σ → σ}

theorem pure (a : α) : Commutes g (Pure.pure a : EStateM ε σ α) := fun _ => rfl

theorem throw (e : ε) : Commutes g (MonadExcept.throw e : EStateM ε σ α) := fun _ => rfl

theorem modify {f : σ → σ} (h : ∀ s, f (g s) = g (f s)) :
    Commutes g (modify f : EStateM ε σ PUnit) := by
  intro s
  change (.ok ⟨⟩ (f (g s)) : EStateM.Result ε σ PUnit) = .ok ⟨⟩ (g (f s))
  rw [h]

theorem bind {x : EStateM ε σ α} {f : α → EStateM ε σ β} (hx : Commutes g x)
    (hf : ∀ a, Commutes g (f a)) : Commutes g (x >>= f) := by
  intro s
  rw [EStateM.run_bind,EStateM.run_bind,hx s]
  cases x.run s with
  | ok a t => exact hf a t
  | error e t => rfl

/-- What is read of the state must be what the change leaves alone. -/
theorem get_bind {f : σ → EStateM ε σ α} (hread : ∀ s, f (g s) = f s) (hf : ∀ s, Commutes g (f s)) :
    Commutes g (get >>= f) := by
  intro s
  have hrun (u : σ) : (get >>= f).run u = (f u).run u := rfl
  rw [hrun,hrun,hread]
  exact hf s s

theorem ite {p : Prop} [Decidable p] {x y : EStateM ε σ α} (hx : Commutes g x) (hy : Commutes g y) :
    Commutes g (if p then x else y) := by
  split
  · exact hx
  · exact hy

end Commutes
end ActionLogic
end Tkeycoin
