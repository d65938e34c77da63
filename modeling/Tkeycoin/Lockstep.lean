import Tkeycoin.Correspondence
import Tkeycoin.Runs

/-! From corresponding rounds to corresponding calls of `execute`. -/
namespace Tkeycoin

open ActionLogic

namespace Interpreter

/-- The stacks hold the same byte strings, frame by frame. -/
def SameBytes (s t : Interpreter) : Prop :=
  s._stack.map StackFrame.asData = t._stack.map StackFrame.asData ∧
    s._altStack.map StackFrame.asData = t._altStack.map StackFrame.asData

/-- The same success or the same error, and after success the same byte strings. -/
def SameMeaning : Outcome → Outcome → Prop
  | .returned b code s,.returned b' code' t => b = b' ∧ code = code' ∧ (b = true → SameBytes s t)
  | .aborted fault,.aborted fault' => fault = fault'
  | _,_ => False

end Interpreter

namespace Correspondence

open Interpreter

variable {env env' : Env} {C : Correspondence env env'}

theorem sameBytes {s t : Interpreter} (h : C.Rel s t) : SameBytes s t := by
  have map_eq {l l' : Stack} (h : List.Forall₂ C.frame l l') :
      l.map StackFrame.asData = l'.map StackFrame.asData := by
    induction h with
    | nil => rfl
    | cons hf _ ih => rw [List.map_cons,List.map_cons,C.asData hf,ih]
  exact ⟨map_eq h.stack,map_eq h.altStack⟩

/-- Calls whose rounds correspond from reached states on. -/
theorem body_matches {script script' : Bytes} {s₀ t₀ : Interpreter}
    (hlen : script.length ≤ Script.MAX_SCRIPT_SIZE) (hlen' : script'.length ≤ Script.MAX_SCRIPT_SIZE)
    (hstart : C.Rel (start script s₀) (start script' t₀))
    (hmore : ∀ s t, C.Rel s t → more s = more t)
    (hstep : ∀ s t, Reached env script s₀ s → C.Rel s t →
      Matches C.lax C.Rel (fun _ _ => True) ((step env).run s) ((step env').run t)) :
    Matches C.lax C.Rel (fun _ _ => True) ((body env script).run (start script s₀))
      ((body env' script').run (start script' t₀)) := by
  have hloop := loop_sim (left_decreases env) more_of_left (left_decreases env') more_of_left hmore
    (fun s t hr h _ => hstep s t ⟨hlen,hr⟩ h) .refl hstart
    (show left (start script s₀) ≤ script.length from le_rfl)
    (show left (start script' t₀) ≤ script'.length from le_rfl)
  rw [body,body,if_neg (by omega),if_neg (by omega),run_bind_andThen,run_bind_andThen]
  refine hloop.andThen fun _ _ s t _ _ _ h => ?_
  refine Sim.bind (R := C.Rel) Sim.get (fun s t h => ?_) s t h
  exact Sim.guard _ (by simp [h.flags]) (Or.inr (by simp [h.flags])) fun _ => Sim.pure trivial

/-- Under a lax correspondence success on the left is success on the right. -/
theorem execute_true_of_matches {script script' : Bytes} {s₀ t₀ s : Interpreter} {code : ScriptError}
    (h : Matches C.lax C.Rel (fun _ _ => True) ((body env script).run (start script s₀))
      ((body env' script').run (start script' t₀)))
    (hx : execute env script s₀ = .returned true code s) :
    ∃ t, execute env' script' t₀ = .returned true code t ∧ C.Rel s t := by
  unfold execute at hx ⊢
  cases hb : (body env script).run (start script s₀) with
  | error e u => rw [hb] at hx; rcases e with _ | _ | _ <;> cases hx
  | ok _ u =>
    rw [hb] at hx h
    cases hx
    cases hb' : (body env' script').run (start script' t₀) with
    | error e t => rw [hb'] at h; exact h.elim
    | ok _ t =>
      rw [hb'] at h
      exact ⟨t,rfl,h.2⟩

/-- Under a strict correspondence the calls mean the same. -/
theorem sameMeaning_of_matches {script script' : Bytes} {s₀ t₀ : Interpreter} (hstrict : ¬ C.lax)
    (h : Matches C.lax C.Rel (fun _ _ => True) ((body env script).run (start script s₀))
      ((body env' script').run (start script' t₀))) :
    SameMeaning (execute env script s₀) (execute env' script' t₀) := by
  unfold execute
  rcases hb : (body env script).run (start script s₀) with ⟨_,s⟩ | ⟨e,s⟩ <;>
    rcases hb' : (body env' script').run (start script' t₀) with ⟨_,t⟩ | ⟨e',t⟩ <;> rw [hb,hb'] at h
  · exact ⟨rfl,rfl,fun _ => sameBytes h.2⟩
  · exact h.elim
  · exact absurd h hstrict
  · obtain rfl : e = e' := h.resolve_left hstrict
    rcases e with code | _ | fault
    · exact ⟨rfl,rfl,fun hc => absurd hc (by simp)⟩
    · exact ⟨rfl,rfl,fun hc => absurd hc (by simp)⟩
    · exact rfl

end Correspondence
end Tkeycoin
