import Mathlib

/-! Messages in flight that are delivered in any order, each to a handler that sends others. -/
namespace Tkeycoin
namespace Delivery

variable {M : Type}

/-- What was delivered, with what was sent for it. -/
abbrev Log (M : Type) := List (M × List M)

/-- What was sent on the way. -/
def generated (log : Log M) : List M := log.flatMap Prod.snd

@[simp] theorem generated_nil : generated ([] : Log M) = [] := rfl

@[simp] theorem generated_concat (log : Log M) (d : M × List M) :
    generated (log ++ [d]) = generated log ++ d.2 := by
  simp [generated]

/-- Deliveries one after another. A message without replies is not delivered. -/
inductive Run (handler : M → Option (List M)) (s : Multiset M) : Log M → Multiset M → Prop
  | start : Run handler s [] s
  | deliver {log m t replies} : Run handler s log (m ::ₘ t) → handler m = some replies →
      Run handler s (log ++ [(m,replies)]) (t + replies)

section Rules

variable {handler : M → Option (List M)} {s t : Multiset M} {log : Log M} {P : M → Prop}

/-- One delivery, at the start. -/
theorem Run.first {m : M} {replies : List M} (hm : m ∈ s) (h : handler m = some replies) :
    ∃ t, Run handler s [(m,replies)] t ∧ ∀ r ∈ replies, r ∈ t := by
  obtain ⟨u,rfl⟩ := Multiset.exists_cons_of_mem hm
  exact ⟨u + replies,Run.start.deliver h,fun r hr => Multiset.mem_add.mpr (.inr hr)⟩

/-- One delivery more, of any message that is in flight. -/
theorem Run.next {m : M} {replies : List M} (hrun : Run handler s log t) (hm : m ∈ t)
    (h : handler m = some replies) :
    ∃ u, Run handler s (log ++ [(m,replies)]) u ∧ ∀ r ∈ replies, r ∈ u := by
  obtain ⟨u,rfl⟩ := Multiset.exists_cons_of_mem hm
  exact ⟨u + replies,hrun.deliver h,fun r hr => Multiset.mem_add.mpr (.inr hr)⟩

/-- What each message makes of its replies holds of all that are in flight and were delivered. -/
theorem Run.forall (hreply : ∀ m replies, P m → handler m = some replies → ∀ r ∈ replies, P r)
    (hs : ∀ m ∈ s, P m) (hrun : Run handler s log t) :
    (∀ m ∈ t, P m) ∧ ∀ d ∈ log, P d.1 ∧ handler d.1 = some d.2 := by
  induction hrun with
  | start => exact ⟨hs,nofun⟩
  | @deliver log m t replies _ h ih =>
    obtain ⟨hflight,hlog⟩ := ih
    have hm : P m := hflight m (Multiset.mem_cons_self m t)
    refine ⟨fun r hr => ?_,fun d hd => ?_⟩
    · rcases Multiset.mem_add.mp hr with hold | hnew
      · exact hflight r (Multiset.mem_cons_of_mem hold)
      · exact hreply m replies hm h r hnew
    · rcases List.mem_append.mp hd with hold | hnew
      · exact hlog d hold
      · obtain rfl := List.mem_singleton.mp hnew
        exact ⟨hm,h⟩

/-- What was delivered was handled. -/
theorem Run.handled (hrun : Run handler s log t) : ∀ d ∈ log, handler d.1 = some d.2 :=
  fun d hd => ((hrun.forall (P := fun _ => True) (fun _ _ _ _ _ _ => trivial) fun _ _ => trivial).2 d hd).2

/-- Messages that pay for their replies, and for what these are worth, bound what is sent. -/
theorem Run.generated_le (worth : M → ℕ)
    (hreply : ∀ m replies, P m → handler m = some replies → ∀ r ∈ replies, P r)
    (hpay : ∀ m replies, P m → handler m = some replies →
      replies.length + (replies.map worth).sum ≤ worth m)
    (hs : ∀ m ∈ s, P m) (hrun : Run handler s log t) :
    (generated log).length + (t.map worth).sum ≤ (s.map worth).sum := by
  induction hrun with
  | start => simp
  | @deliver log m t replies hrun h ih =>
    have hm : P m := (hrun.forall hreply hs).1 m (Multiset.mem_cons_self m t)
    have hcost := hpay m replies hm h
    simp only [Multiset.map_cons,Multiset.sum_cons] at ih
    simp only [generated_concat,List.length_append,Multiset.map_add,Multiset.sum_add,Multiset.map_coe,
      Multiset.sum_coe]
    omega

/-- A message that has one of its kind among its replies is never the last. -/
theorem Run.endless (hreply : ∀ m, P m → ∃ replies, handler m = some replies ∧ ∃ r ∈ replies, P r)
    {m : M} (hm : m ∈ s) (hP : P m) (n : ℕ) :
    ∃ log t, Run handler s log t ∧ n ≤ (generated log).length ∧ ∃ m ∈ t, P m := by
  induction n with
  | zero => exact ⟨[],s,.start,Nat.zero_le _,m,hm,hP⟩
  | succ n ih =>
    obtain ⟨log,t,hrun,hn,m,hm,hP⟩ := ih
    obtain ⟨replies,h,r,hr,hPr⟩ := hreply m hP
    obtain ⟨u,hnext,hmem⟩ := hrun.next hm h
    have hpos : 0 < replies.length := List.length_pos_of_mem hr
    refine ⟨_,u,hnext,?_,r,hmem r hr,hPr⟩
    rw [generated_concat,List.length_append]
    dsimp only
    omega

end Rules

end Delivery
end Tkeycoin
