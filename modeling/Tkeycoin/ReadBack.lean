import Tkeycoin.InputStream
import Mathlib.Data.List.Forall2

/-! What programs read back of strings that stand at the front of a stream. -/
namespace Tkeycoin
namespace Reader

variable {α β γ : Type}

theorem run_bind (memory : ℕ → UInt8) (p : Reader α) (f : α → Reader β) (s : IStream) :
    run memory (p >>= f) s = (run memory p s).bind fun r => run memory (f r.1) r.2 := by
  change run memory (p.bind f) s = _
  induction p generalizing s with
  | done a => rfl
  | read count next ih => exact ih _ _
  | peek next ih => exact ih _ _
  | throw => rfl

theorem run_bind_some {memory : ℕ → UInt8} {p : Reader α} {f : α → Reader β} {s u : IStream} {b : β} :
    run memory (p >>= f) s = some (b,u) ↔
      ∃ a t, run memory p s = some (a,t) ∧ run memory (f a) t = some (b,u) := by
  rw [run_bind,Option.bind_eq_some_iff]
  exact Prod.exists

theorem run_pure_some {memory : ℕ → UInt8} {a b : α} {s t : IStream} :
    run memory (pure a) s = some (b,t) ↔ a = b ∧ s = t := by
  change some (a,s) = some (b,t) ↔ _
  simp

/-- The program makes a value of the string, whatever stands behind it. -/
def Reads (p : Reader α) (l : List UInt8) (a : α) : Prop :=
  ∀ (memory : ℕ → UInt8) (rest : List UInt8) (unset : ℕ),
    run memory p ⟨l ++ rest,false,unset⟩ = some (a,⟨rest,false,unset⟩)

section Rules

variable {p : Reader α} {f : α → Reader β} {l m : List UInt8} {a : α} {b : β}

theorem Reads.pure (a : α) : Reads (pure a) [] a := fun _ _ _ => rfl

theorem Reads.read {count : ℕ} (h : l.length = count) : Reads (.read count .done) l l := by
  intro memory rest unset
  simp [run,IStream.read,← h]

/-- What a program does behind one that reads its string. -/
theorem Reads.run_bind (h : Reads p l a) (memory : ℕ → UInt8) (rest : List UInt8) (unset : ℕ) :
    run memory (p >>= f) ⟨l ++ rest,false,unset⟩ = run memory (f a) ⟨rest,false,unset⟩ := by
  rw [Reader.run_bind,h]
  rfl

theorem Reads.bind (h : Reads p l a) (hf : Reads (f a) m b) : Reads (p >>= f) (l ++ m) b := by
  intro memory rest unset
  rw [List.append_assoc,h.run_bind,hf]

/-- Nothing is read behind the string. -/
theorem Reads.last (h : Reads p l a) (hf : f a = Pure.pure b) : Reads (p >>= f) l b := by
  rw [← List.append_nil l]
  exact h.bind (by rw [hf]; exact Reads.pure b)

/-- The value of a string can be changed behind its program. -/
theorem Reads.map (h : Reads p l a) (g : α → γ) : Reads (p >>= fun x => Pure.pure (g x)) l (g a) :=
  h.last rfl

end Rules

section Each

variable {p : Reader α} {q : β → Reader α} {code : β → List UInt8} {value : β → α}

theorem times_eq_forEach (p : Reader α) (l : List β) : p.times l.length = forEach (fun _ => p) l := by
  induction l with
  | nil => rfl
  | cons b l ih => rw [List.length_cons,times,forEach,ih]

theorem forEach_map (q : β → Reader α) (g : γ → β) (l : List γ) :
    forEach q (l.map g) = forEach (fun c => q (g c)) l := by
  induction l with
  | nil => rfl
  | cons c l ih => rw [List.map_cons,forEach,forEach,ih]

theorem forEach_reads {l : List β} (h : ∀ b ∈ l, Reads (q b) (code b) (value b)) :
    Reads (forEach q l) (l.flatMap code) (l.map value) := by
  induction l with
  | nil => exact Reads.pure []
  | cons b l ih =>
    obtain ⟨hb,hl⟩ := List.forall_mem_cons.mp h
    exact hb.bind ((ih hl).map (value b :: ·))

theorem times_reads {l : List β} (h : ∀ b ∈ l, Reads p (code b) (value b)) :
    Reads (p.times l.length) (l.flatMap code) (l.map value) := by
  rw [times_eq_forEach]
  exact forEach_reads h

/-- What holds between each element and the value that is read for it. -/
theorem forall_forEach {R : β → α → Prop} {memory : ℕ → UInt8}
    (h : ∀ b s a t, run memory (q b) s = some (a,t) → R b a) {m : List β} {s t : IStream} {l : List α}
    (hl : run memory (forEach q m) s = some (l,t)) : List.Forall₂ R m l := by
  induction m generalizing s l with
  | nil =>
    obtain ⟨rfl,-⟩ := run_pure_some.mp hl
    exact .nil
  | cons b m ih =>
    obtain ⟨a,s₁,ha,hrest⟩ := run_bind_some.mp hl
    obtain ⟨l',s₂,hl',hpure⟩ := run_bind_some.mp hrest
    obtain ⟨rfl,rfl⟩ := run_pure_some.mp hpure
    exact .cons (h _ _ _ _ ha) (ih hl')

/-- As many values are read as were asked for, and what holds of each. -/
theorem forall_times {P : α → Prop} {memory : ℕ → UInt8}
    (h : ∀ s a t, run memory p s = some (a,t) → P a) {n : ℕ} {s t : IStream} {l : List α}
    (hl : run memory (p.times n) s = some (l,t)) : l.length = n ∧ ∀ a ∈ l, P a := by
  have heq := times_eq_forEach p (List.replicate n ())
  rw [List.length_replicate] at heq
  rw [heq] at hl
  have hall := forall_forEach (R := fun _ a => P a) (fun _ s a t ha => h s a t ha) hl
  refine ⟨?_,fun a ha => ?_⟩
  · rw [← hall.length_eq,List.length_replicate]
  · obtain ⟨i,hi,rfl⟩ := List.mem_iff_getElem.mp ha
    exact hall.get (by rw [hall.length_eq]; exact hi) hi

theorem not_fail_of_run {memory : ℕ → UInt8} {s t : IStream} {a : α} (h : run memory p s = some (a,t))
    (ht : t.fail = false) : s.fail = false := by
  by_contra hfail
  have := run_fail (by simpa using hfail) h
  rw [ht] at this
  contradiction

/-- What holds of each value that is read of a stream that is long enough. -/
theorem forall_times_served {P : α → Prop} {memory : ℕ → UInt8}
    (h : ∀ s a t, run memory p s = some (a,t) → s.fail = false → t.fail = false → P a) {n : ℕ}
    {s t : IStream} {l : List α} (hl : run memory (p.times n) s = some (l,t)) (hs : s.fail = false)
    (ht : t.fail = false) : ∀ a ∈ l, P a := by
  induction n generalizing s t l with
  | zero =>
    obtain ⟨rfl,-⟩ := run_pure_some.mp hl
    nofun
  | succ n ih =>
    obtain ⟨a,s₁,ha,hrest⟩ := run_bind_some.mp hl
    obtain ⟨l',s₂,hl',hpure⟩ := run_bind_some.mp hrest
    obtain ⟨rfl,rfl⟩ := run_pure_some.mp hpure
    have hs₁ := not_fail_of_run hl' ht
    exact List.forall_mem_cons.mpr ⟨h _ _ _ ha hs hs₁,ih hl' hs₁ ht⟩

end Each

/-- How many bytes a program asks for. -/
def cost (memory : ℕ → UInt8) : Reader α → IStream → ℕ
  | done _, _ => 0
  | read count next, s => count + cost memory (next (s.read memory count).1) (s.read memory count).2
  | peek next, s => cost memory (next s.peek) s
  | throw, _ => 0

/-- The program asks for as many bytes as its value is written with, whether they are there or not. -/
def Sizes (p : Reader α) (code : α → List UInt8) : Prop :=
  ∀ (memory : ℕ → UInt8) (s t : IStream) (a : α), run memory p s = some (a,t) →
    cost memory p s = (code a).length

section Cost

variable {memory : ℕ → UInt8} {p : Reader α} {f : α → Reader β} {s t : IStream} {a : α}

theorem cost_bind (h : run memory p s = some (a,t)) :
    cost memory (p >>= f) s = cost memory p s + cost memory (f a) t := by
  change cost memory (p.bind f) s = _
  induction p generalizing s with
  | done b =>
    obtain ⟨rfl,rfl⟩ := run_pure_some.mp h
    exact (Nat.zero_add _).symm
  | read count next ih =>
    have hrest := ih _ h
    simp only [Reader.bind,cost,hrest,Nat.add_assoc]
  | peek next ih => exact ih _ h
  | throw => contradiction

/-- As long as what is asked for is there, nothing fails. -/
theorem run_served (h : run memory p s = some (a,t)) (hs : s.fail = false)
    (hcost : cost memory p s ≤ s.rest.length) :
    t.fail = false ∧ t.rest.length + cost memory p s = s.rest.length := by
  induction p generalizing s with
  | done b =>
    obtain ⟨-,rfl⟩ := run_pure_some.mp h
    exact ⟨hs,rfl⟩
  | read count next ih =>
    rw [cost] at hcost
    have hread : s.read memory count = (s.rest.take count,{ s with rest := s.rest.drop count }) := by
      rw [IStream.read,if_neg (by simp [hs]),if_pos (by omega)]
    have hdrop : (s.rest.drop count).length = s.rest.length - count := List.length_drop
    simp only [run,cost,hread] at h hcost ⊢
    obtain ⟨hfail,hlen⟩ := ih _ h hs (by dsimp only; omega)
    refine ⟨hfail,?_⟩
    dsimp only at hlen
    omega
  | peek next ih => exact ih _ h hs hcost
  | throw => contradiction

/-- Where nothing failed, what was asked for was there. -/
theorem cost_of_served (h : run memory p s = some (a,t)) (ht : t.fail = false) :
    t.rest.length + cost memory p s = s.rest.length := by
  induction p generalizing s with
  | done b =>
    obtain ⟨-,rfl⟩ := run_pure_some.mp h
    rfl
  | read count next ih =>
    have hs := not_fail_of_run h ht
    by_cases hlen : count ≤ s.rest.length
    · have hread : s.read memory count = (s.rest.take count,{ s with rest := s.rest.drop count }) := by
        rw [IStream.read,if_neg (by simp [hs]),if_pos hlen]
      have hdrop : (s.rest.drop count).length = s.rest.length - count := List.length_drop
      have hrest := ih _ h
      simp only [cost,hread] at hrest ⊢
      omega
    · have hfail : (s.read memory count).2.fail = true := by simp [IStream.read,hs,hlen]
      have := run_fail hfail h
      rw [ht] at this
      contradiction
  | peek next ih => exact ih _ h
  | throw => contradiction

/-- What so many runs of a program ask for. -/
theorem le_cost_times {count : ℕ} (h : ∀ s a t, run memory p s = some (a,t) → count ≤ cost memory p s)
    {n : ℕ} {s t : IStream} {l : List α} (hl : run memory (p.times n) s = some (l,t)) :
    n * count ≤ cost memory (p.times n) s := by
  induction n generalizing s t l with
  | zero => omega
  | succ n ih =>
    obtain ⟨a,s₁,ha,hrest⟩ := run_bind_some.mp hl
    obtain ⟨l',s₂,hl',-⟩ := run_bind_some.mp hrest
    have hfirst := h _ _ _ ha
    have hothers := ih hl'
    rw [Reader.times,cost_bind ha,cost_bind hl',Nat.succ_mul]
    omega

/-- The last of some runs comes behind the others. -/
theorem run_times_succ {n : ℕ} {l : List α} (h : run memory (p.times (n+1)) s = some (l,t)) :
    ∃ l' u a, run memory (p.times n) s = some (l',u) ∧ run memory p u = some (a,t) := by
  induction n generalizing s l with
  | zero =>
    obtain ⟨a,s₁,ha,hrest⟩ := run_bind_some.mp h
    obtain ⟨-,rfl⟩ := run_pure_some.mp hrest
    exact ⟨[],s,a,rfl,ha⟩
  | succ n ih =>
    obtain ⟨a,s₁,ha,hrest⟩ := run_bind_some.mp h
    obtain ⟨l₁,s₂,hl₁,hpure⟩ := run_bind_some.mp hrest
    obtain ⟨-,rfl⟩ := run_pure_some.mp hpure
    obtain ⟨l',u,b,hl',hb⟩ := ih hl₁
    exact ⟨a :: l',u,b,run_bind_some.mpr ⟨a,s₁,ha,run_bind_some.mpr ⟨l',u,hl',rfl⟩⟩,hb⟩

theorem unset_le_of_run (h : run memory p s = some (a,t)) : s.unset ≤ t.unset := by
  induction p generalizing s with
  | done b =>
    obtain ⟨-,rfl⟩ := run_pure_some.mp h
    exact Nat.le_refl _
  | read count next ih =>
    have hrest := ih _ h
    have hread : s.unset ≤ (s.read memory count).2.unset := by
      unfold IStream.read
      split_ifs <;> simp
    exact Nat.le_trans hread hrest
  | peek next ih => exact ih _ h
  | throw => contradiction

/-- A run depends on the memory of the variables that it leaves unset. -/
theorem run_congr {memory' : ℕ → UInt8} (h : run memory p s = some (a,t))
    (hmemory : ∀ i < t.unset, memory i = memory' i) : run memory' p s = some (a,t) := by
  induction p generalizing s with
  | done b => exact h
  | read count next ih =>
    have hunset : ∀ n, s.unset + n ≤ t.unset → s.unsetBytes memory n = s.unsetBytes memory' n := by
      intro n hn
      apply List.map_congr_left
      intro i hi
      exact hmemory _ (by have := List.mem_range.mp hi; omega)
    have hle := unset_le_of_run (p := next (s.read memory count).1) h
    have hread : s.read memory' count = s.read memory count := by
      unfold IStream.read at hle ⊢
      split_ifs at hle ⊢ with hfail hlen
      · rw [hunset count hle]
      · rfl
      · rw [hunset _ hle]
    change run memory' (next (s.read memory' count).1) (s.read memory' count).2 = _
    rw [hread]
    exact ih _ h
  | peek next ih => exact ih _ h
  | throw => contradiction

theorem read_length (memory : ℕ → UInt8) (s : IStream) (count : ℕ) :
    (s.read memory count).1.length = count := by
  unfold IStream.read IStream.unsetBytes
  split_ifs with hfail hle <;> simp <;> omega

theorem Sizes.read (count : ℕ) : Sizes (.read count .done) fun l => l := by
  intro memory s t l h
  obtain ⟨rfl,-⟩ := Prod.mk.inj (Option.some.inj h)
  exact (read_length memory s count).symm

theorem Sizes.forEach {q : β → Reader α} {code : α → List UInt8} (h : ∀ b, Sizes (q b) code) (m : List β) :
    Sizes (forEach q m) (List.flatMap code) := by
  intro memory s t l hl
  induction m generalizing s t l with
  | nil =>
    obtain ⟨rfl,-⟩ := run_pure_some.mp hl
    rfl
  | cons b m ih =>
    obtain ⟨a,s₁,ha,hrest⟩ := run_bind_some.mp hl
    obtain ⟨l',s₂,hl',hpure⟩ := run_bind_some.mp hrest
    obtain ⟨rfl,-⟩ := run_pure_some.mp hpure
    rw [Reader.forEach,cost_bind ha,cost_bind hl',h b _ _ _ _ ha,ih _ _ _ hl']
    exact List.length_append.symm

theorem Sizes.times {code : α → List UInt8} (h : Sizes p code) (n : ℕ) :
    Sizes (p.times n) (List.flatMap code) := by
  have heq := times_eq_forEach p (List.replicate n ())
  rw [List.length_replicate] at heq
  rw [heq]
  exact Sizes.forEach (fun _ => h) _

end Cost

end Reader
end Tkeycoin
