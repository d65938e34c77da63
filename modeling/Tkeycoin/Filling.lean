import Tkeycoin.ReadBack

/-! Programs that fill an object in from a stream. What they have set stays set when they throw. -/
namespace Tkeycoin

namespace Reader

variable {α β : Type}

/-- A program whose exception is caught. -/
def attempt : Reader α → Reader (Option α)
  | done a => done (some a)
  | read count next => read count fun bytes => attempt (next bytes)
  | peek next => peek fun byte => attempt (next byte)
  | throw => done none

theorem bind_done (p : Reader α) : p.bind done = p := by
  induction p with
  | done a => rfl
  | read count next ih => exact congrArg _ (funext ih)
  | peek next ih => exact congrArg _ (funext ih)
  | throw => rfl

theorem bind_bind {γ : Type} (p : Reader α) (f : α → Reader β) (g : β → Reader γ) :
    (p.bind f).bind g = p.bind fun a => (f a).bind g := by
  induction p with
  | done a => rfl
  | read count next ih => exact congrArg _ (funext ih)
  | peek next ih => exact congrArg _ (funext ih)
  | throw => rfl

instance : LawfulMonad Reader := .mk' Reader bind_done (fun _ _ => rfl) bind_bind

theorem attempt_bind (p : Reader α) (f : α → Reader β) :
    (p >>= f).attempt = p.attempt >>= fun o => match o with
      | some a => (f a).attempt
      | none => pure none := by
  change (p.bind f).attempt = p.attempt.bind _
  induction p with
  | done a => rfl
  | read count next ih => exact congrArg _ (funext ih)
  | peek next ih => exact congrArg _ (funext ih)
  | throw => rfl

theorem attempt_run {memory : ℕ → UInt8} {p : Reader α} {s t : IStream} {a : α}
    (h : run memory p s = some (a,t)) : run memory p.attempt s = some (some a,t) := by
  induction p generalizing s with
  | done b =>
    obtain ⟨rfl,rfl⟩ := Prod.mk.inj (Option.some.inj h)
    rfl
  | read count next ih => exact ih _ h
  | peek next ih => exact ih _ h
  | throw => contradiction

theorem run_of_attempt {memory : ℕ → UInt8} {p : Reader α} {s t : IStream} {a : α}
    (h : run memory p.attempt s = some (some a,t)) : run memory p s = some (a,t) := by
  induction p generalizing s with
  | done b =>
    obtain ⟨hb,rfl⟩ := Prod.mk.inj (Option.some.inj h)
    rw [← Option.some.inj hb]
    rfl
  | read count next ih => exact ih _ h
  | peek next ih => exact ih _ h
  | throw =>
    obtain ⟨hnone,-⟩ := Prod.mk.inj (Option.some.inj h)
    contradiction

theorem Reads.attempt {p : Reader α} {l : List UInt8} {a : α} (h : Reads p l a) :
    Reads p.attempt l (some a) :=
  fun memory rest unset => attempt_run (h memory rest unset)

/-- Every value the program can end with. -/
def Yields (Q : α → Prop) : Reader α → Prop
  | done a => Q a
  | read _ next => ∀ bytes, Yields Q (next bytes)
  | peek next => ∀ byte, Yields Q (next byte)
  | throw => True

section Yields

variable {Q : α → Prop} {R : β → Prop} {p : Reader α} {f g : α → Reader β}

theorem Yields.bind (h : p.Yields Q) (hf : ∀ a, Q a → (f a).Yields R) : (p >>= f).Yields R := by
  change (p.bind f).Yields R
  induction p with
  | done a => exact hf a h
  | read count next ih => exact fun bytes => ih bytes (h bytes)
  | peek next ih => exact fun byte => ih byte (h byte)
  | throw => trivial

theorem yields_true (p : Reader α) : p.Yields fun _ => True := by
  induction p with
  | done a => trivial
  | read count next ih => exact ih
  | peek next ih => exact ih
  | throw => trivial

theorem Yields.times (h : p.Yields Q) (n : ℕ) : (p.times n).Yields fun l => ∀ a ∈ l, Q a := by
  induction n with
  | zero => exact fun a ha => absurd ha List.not_mem_nil
  | succ n ih =>
    refine h.bind fun a ha => ih.bind fun l hl => ?_
    exact List.forall_mem_cons.mpr ⟨ha,hl⟩

theorem Yields.attempt (h : p.Yields Q) : p.attempt.Yields fun o => ∀ a, o = some a → Q a := by
  induction p with
  | done a => rintro _ ⟨⟩; exact h
  | read count next ih => exact fun bytes => ih bytes (h bytes)
  | peek next ih => exact fun byte => ih byte (h byte)
  | throw => exact nofun

/-- What comes after a program may differ where it does not end. -/
theorem Yields.bind_congr (h : p.Yields Q) (hfg : ∀ a, Q a → f a = g a) : p >>= f = p >>= g := by
  change p.bind f = p.bind g
  induction p with
  | done a => exact hfg a h
  | read count next ih => exact congrArg (Reader.read count) (funext fun bytes => ih bytes (h bytes))
  | peek next ih => exact congrArg Reader.peek (funext fun byte => ih byte (h byte))
  | throw => rfl

end Yields

end Reader

/-- What became of an object: all of it was read, or an exception came on the way. -/
inductive Filled (α : Type)
  | all (a : α)
  | thrown (a : α)

namespace Filled

variable {α β : Type}

def object : Filled α → α
  | all a => a
  | thrown a => a

/-- The object, if all of it was read. -/
def whole : Filled α → Option α
  | all a => some a
  | thrown _ => none

def map (f : α → β) : Filled α → Filled β
  | all a => all (f a)
  | thrown a => thrown (f a)

end Filled

/-- A program that fills an object in. -/
abbrev Filler (α : Type) := α → Reader (Filled α)

namespace Filler

variable {α β : Type}

/-- One field, which is set when it was read. -/
def field (reader : Reader β) (set : β → α → α) : Filler α := fun a => do
  match ← reader.attempt with
  | some b => pure (.all (set b a))
  | none => pure (.thrown a)

/-- An object within the object. -/
def part (get : α → β) (set : β → α → α) (p : Filler β) : Filler α := fun a => do
  let b ← p (get a)
  pure (b.map fun b => set b a)

/-- One after the other. -/
def all : List (Filler α) → Filler α
  | [] => fun a => pure (.all a)
  | p :: l => fun a => do
    match ← p a with
    | .all a => all l a
    | .thrown a => pure (.thrown a)

/-- Each element of a vector. -/
def elements (p : Filler α) : Filler (List α)
  | [] => pure (.all [])
  | a :: l => do
    match ← p a with
    | .all a =>
      let l ← elements p l
      pure (l.map (a :: ·))
    | .thrown a => pure (.thrown (a :: l))

/-- `resize`, which keeps the elements that are there. -/
def resize (new : α) (l : List α) (count : ℕ) : List α :=
  l.take count ++ List.replicate (count - l.length) new

/-- A vector made as long as it was read to be. -/
def vector (size : Reader ℕ) (new : α) (p : Filler α) : Filler (List α) := fun l => do
  match ← size.attempt with
  | some count => elements p (resize new l count)
  | none => pure (.thrown l)

/-- What a program leaves of an object. Exceptions are caught within it: the other branch is
never taken. -/
def apply (p : Filler α) (memory : ℕ → UInt8) (is : IStream) (a : α) : α :=
  match (p a).run memory is with
  | some (filled,_) => filled.object
  | none => a

/-- Without exceptions the program fills the object in as this one reads it. -/
def Agrees (p : Filler α) (a : α) (r : Reader α) : Prop :=
  (do pure (← p a).whole : Reader (Option α)) = r.attempt

section Agrees

variable {p : Filler α} {a : α} {r : Reader α}

/-- The program fills an object in without an exception where the other reads it. -/
theorem Agrees.run_iff (h : p.Agrees a r) {memory : ℕ → UInt8} {s t : IStream} {b : α} :
    r.run memory s = some (b,t) ↔ (p a).run memory s = some (.all b,t) := by
  constructor
  · intro hr
    have hrun := Reader.attempt_run hr
    rw [← h] at hrun
    obtain ⟨filled,u,hp,hwhole⟩ := Reader.run_bind_some.mp hrun
    obtain ⟨hb,rfl⟩ := Reader.run_pure_some.mp hwhole
    cases filled with
    | all c => rwa [← Option.some.inj hb]
    | thrown c => contradiction
  · intro hp
    apply Reader.run_of_attempt
    rw [← h]
    exact Reader.run_bind_some.mpr ⟨_,t,hp,rfl⟩

theorem Agrees.apply (h : p.Agrees a r) {memory : ℕ → UInt8} {s t : IStream} {b : α}
    (hr : r.run memory s = some (b,t)) : p.apply memory s a = b := by
  unfold Filler.apply
  rw [h.run_iff.mp hr]
  rfl

theorem field_agrees (reader : Reader β) (set : β → α → α) (a : α) :
    (field reader set).Agrees a (do pure (set (← reader) a)) := by
  unfold Agrees field
  rw [Reader.attempt_bind,bind_assoc]
  congr 1
  funext o
  cases o with
  | some b => rfl
  | none => rfl

theorem part_agrees {get : α → β} {set : β → α → α} {p : Filler β} {r : Reader β} {a : α}
    (h : p.Agrees (get a) r) : (part get set p).Agrees a (do pure (set (← r) a)) := by
  unfold Agrees part at *
  rw [Reader.attempt_bind,← h]
  simp only [bind_assoc,pure_bind]
  congr 1
  funext filled
  cases filled with
  | all b => rfl
  | thrown b => rfl

theorem all_nil (a : α) : (all []).Agrees a (pure a) := rfl

/-- One program after another, which may rely on what the values of the first have in common. -/
theorem all_cons {l : List (Filler α)} {f : β → α} {r : Reader β} {Q : β → Prop} {r' : β → Reader α}
    (h : p.Agrees a (do pure (f (← r)))) (hQ : r.Yields Q) (hl : ∀ b, Q b → (all l).Agrees (f b) (r' b)) :
    (all (p :: l)).Agrees a (r >>= r') := by
  let next : Option α → Reader (Option α) := fun o => match o with
    | some b => do pure (← all l b).whole
    | none => pure none
  have hleft : (do pure (← all (p :: l) a).whole) = (do pure (f (← r))).attempt >>= next := by
    rw [← h,all]
    simp only [bind_assoc,pure_bind]
    congr 1
    funext filled
    cases filled with
    | all b => rfl
    | thrown b => rfl
  unfold Agrees
  rw [hleft,Reader.attempt_bind,Reader.attempt_bind,bind_assoc]
  refine hQ.attempt.bind_congr fun o ho => ?_
  cases o with
  | some b => exact hl b (ho b rfl)
  | none => rfl

theorem all_field {l : List (Filler α)} {reader : Reader β} {set : β → α → α} {r' : β → Reader α}
    (hl : ∀ b, (all l).Agrees (set b a) (r' b)) : (all (field reader set :: l)).Agrees a (reader >>= r') :=
  all_cons (field_agrees reader set a) reader.yields_true fun b _ => hl b

theorem all_part {l : List (Filler α)} {get : α → β} {set : β → α → α} {p : Filler β} {r : Reader β}
    {Q : β → Prop} {r' : β → Reader α} (h : p.Agrees (get a) r) (hQ : r.Yields Q)
    (hl : ∀ b, Q b → (all l).Agrees (set b a) (r' b)) : (all (part get set p :: l)).Agrees a (r >>= r') :=
  all_cons (part_agrees h) hQ hl

theorem elements_agrees {q : α → Reader α} {l : List α} (h : ∀ a ∈ l, p.Agrees a (q a)) :
    (elements p).Agrees l (Reader.forEach q l) := by
  induction l with
  | nil => rfl
  | cons a l ih =>
    obtain ⟨ha,hl⟩ := List.forall_mem_cons.mp h
    have hrest := ih hl
    unfold Agrees at *
    rw [Reader.forEach,Reader.attempt_bind,← ha,elements]
    simp only [bind_assoc,pure_bind]
    congr 1
    funext filled
    cases filled with
    | thrown b => rfl
    | all b =>
      simp only [Filled.whole,Reader.attempt_bind,← hrest,bind_assoc,pure_bind]
      congr 1
      funext rest
      cases rest with
      | all l => rfl
      | thrown l => rfl

/-- A vector that had no elements. -/
theorem vector_agrees (size : Reader ℕ) (h : p.Agrees a r) :
    (vector size a p).Agrees [] (do r.times (← size)) := by
  unfold Agrees vector
  rw [Reader.attempt_bind,bind_assoc]
  congr 1
  funext o
  cases o with
  | none => rfl
  | some count =>
    have hnew : resize a [] count = List.replicate count a := by simp [resize]
    have hcount : (elements p).Agrees (resize a [] count) (Reader.forEach (fun _ => r) (resize a [] count)) :=
      elements_agrees fun b hb => List.eq_of_mem_replicate (hnew ▸ hb) ▸ h
    rwa [← Reader.times_eq_forEach,hnew,List.length_replicate,← hnew] at hcount

end Agrees

section Reads

variable {p : Filler α} {a b c : α} {l m : List UInt8}

open Reader

theorem field_reads {reader : Reader β} {b : β} (h : Reads reader l b) (set : β → α → α) (a : α) :
    Reads (field reader set a) l (.all (set b a)) :=
  h.attempt.last rfl

theorem part_reads {get : α → β} {p : Filler β} {b : β} (h : Reads (p (get a)) l (.all b))
    (set : β → α → α) : Reads (part get set p a) l (.all (set b a)) :=
  h.last rfl

/-- Each program reads what is written for it, and the last of them the end. -/
theorem all_reads {programs : List (Filler α)} (h : Reads (p a) l (.all b))
    (hall : Reads (all programs b) m (.all c)) : Reads (all (p :: programs) a) (l ++ m) (.all c) :=
  h.bind hall

theorem all_reads_last (h : Reads (p a) l (.all b)) : Reads (all [p] a) l (.all b) :=
  h.last rfl

end Reads

/-- What the program leaves as it was, whether it comes to an exception or not. -/
def Keeps {γ : Type} (p : Filler α) (f : α → γ) : Prop :=
  ∀ a memory s filled t, (p a).run memory s = some (filled,t) → f filled.object = f a

section Keeps

variable {γ δ : Type} {f : α → γ}

open Reader

/-- A field stays as it was, or it is set to what was read. -/
theorem field_run {reader : Reader β} {set : β → α → α} {a : α} {memory : ℕ → UInt8} {s t : IStream}
    {filled : Filled α} (h : (field reader set a).run memory s = some (filled,t)) :
    filled.object = a ∨ ∃ b u, reader.run memory s = some (b,u) ∧ filled.object = set b a := by
  obtain ⟨o,u,ho,hset⟩ := run_bind_some.mp h
  cases o with
  | some b =>
    obtain ⟨rfl,-⟩ := run_pure_some.mp hset
    exact .inr ⟨b,u,run_of_attempt ho,rfl⟩
  | none =>
    obtain ⟨rfl,-⟩ := run_pure_some.mp hset
    exact .inl rfl

theorem field_keeps {reader : Reader β} {set : β → α → α} (h : ∀ b a, f (set b a) = f a) :
    (field reader set).Keeps f := by
  intro a memory s filled t hrun
  rcases field_run hrun with hsame | ⟨b,_,_,hset⟩
  · rw [hsame]
  · rw [hset,h]

theorem part_keeps {get : α → β} {set : β → α → α} {p : Filler β} {g : β → δ} (hp : p.Keeps g)
    (h : ∀ a b, g b = g (get a) → f (set b a) = f a) : (part get set p).Keeps f := by
  intro a memory s filled t hrun
  obtain ⟨inner,u,hinner,hset⟩ := run_bind_some.mp hrun
  obtain ⟨rfl,-⟩ := run_pure_some.mp hset
  have hkept := h a _ (hp _ _ _ _ _ hinner)
  cases inner with
  | all b => exact hkept
  | thrown b => exact hkept

/-- Another part of the object. -/
theorem part_keeps_other {get : α → β} {set : β → α → α} (p : Filler β)
    (h : ∀ b a, f (set b a) = f a) : (part get set p).Keeps f :=
  part_keeps (g := fun _ => ()) (fun _ _ _ _ _ _ => rfl) fun a b _ => h b a

theorem all_keeps_nil : (all []).Keeps f := by
  intro a memory s filled t hrun
  obtain ⟨rfl,-⟩ := run_pure_some.mp hrun
  rfl

theorem all_keeps_cons {p : Filler α} {programs : List (Filler α)} (hp : p.Keeps f)
    (hprograms : (all programs).Keeps f) : (all (p :: programs)).Keeps f := by
  intro a memory s filled t hrun
  obtain ⟨first,u,hfirst,hrest⟩ := run_bind_some.mp hrun
  have hkept := hp _ _ _ _ _ hfirst
  cases first with
  | all b => exact (hprograms _ _ _ _ _ hrest).trans hkept
  | thrown b =>
    obtain ⟨rfl,-⟩ := run_pure_some.mp hrest
    exact hkept

end Keeps

end Filler
end Tkeycoin
