import Mathlib.Data.Int.Basic
import Mathlib.Data.List.Basic
import Mathlib.Tactic.Linarith

/-! Text streams as `std::istringstream` serves them character by character, programs
over them, and a rule for when all loops of a program end. -/
namespace Tkeycoin

/-- A stream over a buffer, its position and its two failure bits. -/
structure TextStream where
  data : List UInt8
  pos : ℕ
  eofbit : Bool
  failbit : Bool
  deriving DecidableEq

/-- How a program on a stream stops early: by an exception, or in a loop that has not
ended within its bound. -/
inductive Failure (ε : Type)
  | thrown (e : ε)
  | endless
  deriving DecidableEq

theorem except_bind_ok {ε α β : Type} {x : Except ε α} {f : α → Except ε β} {b : β} (h : x >>= f = .ok b) :
    ∃ a, x = .ok a ∧ f a = .ok b := by
  cases x with
  | error e => cases h
  | ok a => exact ⟨a,rfl,h⟩

theorem except_map_ok {ε α β : Type} {x : Except ε α} {f : α → β} {b : β} (h : x.map f = .ok b) :
    ∃ a, x = .ok a ∧ f a = b := by
  cases x with
  | error e => exact nomatch h
  | ok a => exact ⟨a,rfl,Except.ok.inj h⟩

abbrev Scanner (ε α : Type) := StateT TextStream (Except (Failure ε)) α

namespace TextStream

def ofBytes (data : List UInt8) : TextStream := ⟨data,0,false,false⟩

def good (s : TextStream) : Bool := !s.eofbit && !s.failbit

/-- Characters left. -/
def left (s : TextStream) : ℕ := s.data.length - s.pos

end TextStream

namespace Scanner

variable {ε α β : Type}

def raise (e : ε) : Scanner ε α := throw (.thrown e)

/-- `is.eof()`. -/
def eof : Scanner ε Bool := do
  let s ← get
  pure s.eofbit

/-- `is.get()`, without a character at the end and on a stream that is not good. -/
def getChar : Scanner ε (Option UInt8) := do
  let s ← get
  match s.good,s.data[s.pos]? with
  | true,some c =>
    set { s with pos := s.pos + 1 }
    pure (some c)
  | true,none =>
    set { s with eofbit := true, failbit := true }
    pure none
  | false,_ =>
    set { s with failbit := true }
    pure none

/-- `is.peek()`. -/
def peekChar : Scanner ε (Option UInt8) := do
  let s ← get
  match s.good,s.data[s.pos]? with
  | true,some c => pure (some c)
  | true,none =>
    set { s with eofbit := true }
    pure none
  | false,_ =>
    set { s with failbit := true }
    pure none

/-- `is.ignore()`. -/
def ignore : Scanner ε Unit := do
  let s ← get
  match s.good,s.data[s.pos]? with
  | true,some _ => set { s with pos := s.pos + 1 }
  | true,none => set { s with eofbit := true }
  | false,_ => set { s with failbit := true }

/-- `is.tellg()`, where a stream that is not good has no position. -/
def tellg : Scanner ε (Option ℕ) := do
  let s ← get
  if s.good then pure (some s.pos)
  else
    set { s with failbit := true }
    pure none

/-- `is.clear(std::istream::goodbit)`. -/
def clear : Scanner ε Unit := modify fun s => { s with eofbit := false, failbit := false }

/-- `is.seekg(pos)`. -/
def seekg (pos : Option ℕ) : Scanner ε Unit := do
  let s ← get
  match s.failbit,pos with
  | false,some p =>
    if p ≤ s.data.length then set { s with pos := p, eofbit := false }
    else set { s with eofbit := false, failbit := true }
  | _,_ => set { s with eofbit := false, failbit := true }

/-- `is.seekg(-n, std::iostream::cur)`. -/
def seekBack (n : ℕ) : Scanner ε Unit := do
  let s ← get
  if !s.failbit ∧ n ≤ s.pos then set { s with pos := s.pos - n, eofbit := false }
  else set { s with eofbit := false, failbit := true }

/-- A program from here, with the stream put back behind it. -/
def lookAhead (x : Scanner ε α) : Scanner ε α := do
  let pos ← tellg
  let a ← x
  clear
  seekg pos
  pure a

/-- The body of a loop goes on with a value or ends with one. -/
def iterate (body : β → Scanner ε (β ⊕ α)) : ℕ → β → Scanner ε α
  | 0, _ => throw .endless
  | n+1, b => do
    match ← body b with
    | .inl b' => iterate body n b'
    | .inr a => pure a

/-- A loop that takes a character in every round has at most this many rounds. -/
def loop (body : β → Scanner ε (β ⊕ α)) (b : β) : Scanner ε α := do
  let s ← get
  iterate body (s.data.length + 1) b

def skipStep (p : UInt8 → Bool) : Scanner ε (Unit ⊕ Unit) := do
  let c ← peekChar
  if c.any p then
    ignore
    pure (.inl ())
  else pure (.inr ())

/-- `while (p(is.peek())) is.ignore();`. -/
def skipWhile (p : UInt8 → Bool) : Scanner ε Unit := loop (fun _ => skipStep p) ()

/-- From a stream with up to `bound` characters left the program is not stuck in a loop,
and takes as many as `cost` says. -/
def Ends (bound : ℤ) (cost : α → ℤ) (x : Scanner ε α) : Prop :=
  ∀ s : TextStream, s.pos ≤ s.data.length → (s.left : ℤ) ≤ bound → match x.run s with
    | .ok (a,t) => t.data = s.data ∧ t.pos ≤ t.data.length ∧ t.left + cost a ≤ s.left
    | .error e => e ≠ .endless

/-- The same from a stream with this character ahead. -/
def EndsAt (c : UInt8) (bound : ℤ) (cost : α → ℤ) (x : Scanner ε α) : Prop :=
  ∀ s : TextStream, s.pos ≤ s.data.length → (s.left : ℤ) ≤ bound → s.good = true → s.data[s.pos]? = some c →
    match x.run s with
    | .ok (a,t) => t.data = s.data ∧ t.pos ≤ t.data.length ∧ t.left + cost a ≤ s.left
    | .error e => e ≠ .endless

namespace EndsAt

variable {c : UInt8} {bound : ℤ} {cost : α → ℤ}

theorem of_ends {x : Scanner ε α} (h : Ends bound cost x) : EndsAt c bound cost x := fun s hs hl _ _ => h s hs hl

theorem ite {p : Prop} [Decidable p] {x y : Scanner ε α} (hx : p → EndsAt c bound cost x)
    (hy : ¬ p → EndsAt c bound cost y) : EndsAt c bound cost (if p then x else y) := by
  split_ifs with h
  · exact hx h
  · exact hy h

theorem ignore {x : Scanner ε α} (h : Ends (bound-1) (fun a => cost a - 1) x) :
    EndsAt c bound cost (do Scanner.ignore; x) := by
  intro s hs hl hgood hc
  have hlt : s.pos < s.data.length := (List.getElem?_eq_some_iff.mp hc).1
  have hrun : (Scanner.ignore : Scanner ε Unit).run s = .ok ((),{ s with pos := s.pos + 1 }) := by
    simp [Scanner.ignore,hgood,hc]
    rfl
  have hleft : (TextStream.left { s with pos := s.pos + 1 } : ℤ) = s.left - 1 := by
    simp only [TextStream.left]
    omega
  have hx := h { s with pos := s.pos + 1 } hlt (by omega)
  rw [StateT.run_bind,hrun]
  change match x.run { s with pos := s.pos + 1 } with
    | .ok (a,t) => t.data = s.data ∧ t.pos ≤ t.data.length ∧ t.left + cost a ≤ s.left
    | .error e => e ≠ .endless
  cases hr : x.run { s with pos := s.pos + 1 } with
  | error e => simpa only [hr] using hx
  | ok r =>
    simp only [hr] at hx
    exact ⟨hx.1,hx.2.1,by linarith [hx.2.2]⟩

end EndsAt

namespace Ends

variable {bound : ℤ} {cost : α → ℤ}

theorem mono {bound' : ℤ} {cost' : α → ℤ} {x : Scanner ε α} (h : Ends bound cost x) (hb : bound' ≤ bound)
    (hc : ∀ a, cost' a ≤ cost a) : Ends bound' cost' x := by
  intro s hs hl
  have hx := h s hs (hl.trans hb)
  cases hr : x.run s with
  | error e => simpa [hr] using hx
  | ok r =>
    obtain ⟨hd,hp,hl⟩ : r.2.data = s.data ∧ r.2.pos ≤ r.2.data.length ∧ r.2.left + cost r.1 ≤ s.left := by
      simpa [hr] using hx
    exact ⟨hd,hp,by linarith [hc r.1]⟩

theorem pure {a : α} (h : cost a ≤ 0) : Ends bound cost (Pure.pure a : Scanner ε α) :=
  fun _ hs _ => ⟨rfl,hs,by linarith⟩

theorem raise (e : ε) : Ends bound cost (Scanner.raise e : Scanner ε α) := fun _ _ _ => nofun

theorem bind {costb : β → ℤ} {x : Scanner ε α} {f : α → Scanner ε β} (hx : Ends bound cost x)
    (hf : ∀ a, Ends (bound - cost a) (fun b => costb b - cost a) (f a)) : Ends bound costb (x >>= f) := by
  intro s hs hl
  have h₁ := hx s hs hl
  rw [StateT.run_bind]
  cases hr : x.run s with
  | error e =>
    simp only [hr] at h₁
    exact h₁
  | ok r =>
    obtain ⟨hd,hp,hc⟩ : r.2.data = s.data ∧ r.2.pos ≤ r.2.data.length ∧ r.2.left + cost r.1 ≤ s.left := by
      simpa [hr] using h₁
    have h₂ := hf r.1 r.2 hp (by linarith)
    change match (f r.1).run r.2 with
      | .ok (a,t) => t.data = s.data ∧ t.pos ≤ t.data.length ∧ t.left + costb a ≤ s.left
      | .error e => e ≠ .endless
    cases hr₂ : (f r.1).run r.2 with
    | error e => simpa [hr₂] using h₂
    | ok r₂ =>
      obtain ⟨hd₂,hp₂,hc₂⟩ : r₂.2.data = r.2.data ∧ r₂.2.pos ≤ r₂.2.data.length ∧
          r₂.2.left + (costb r₂.1 - cost r.1) ≤ r.2.left := by simpa [hr₂] using h₂
      exact ⟨hd₂.trans hd,hp₂,by linarith⟩

theorem ite {p : Prop} [Decidable p] {x y : Scanner ε α} (hx : p → Ends bound cost x)
    (hy : ¬ p → Ends bound cost y) : Ends bound cost (if p then x else y) := by
  split_ifs with h
  · exact hx h
  · exact hy h

theorem eof : Ends bound (fun _ => 0) (Scanner.eof : Scanner ε Bool) := fun _ hs _ => ⟨rfl,hs,by simp⟩

theorem getChar : Ends bound (fun c => if c.isSome then 1 else 0) (Scanner.getChar : Scanner ε (Option UInt8)) := by
  intro s hs hl
  cases hg : s.good with
  | false =>
    have hrun : (Scanner.getChar : Scanner ε (Option UInt8)).run s = .ok (none,{ s with failbit := true }) := by
      simp [Scanner.getChar,hg]
      rfl
    rw [hrun]
    exact ⟨rfl,hs,by simp [TextStream.left]⟩
  | true =>
    cases hc : s.data[s.pos]? with
    | none =>
      have hrun : (Scanner.getChar : Scanner ε (Option UInt8)).run s =
          .ok (none,{ s with eofbit := true, failbit := true }) := by
        simp [Scanner.getChar,hg,hc]
        rfl
      rw [hrun]
      exact ⟨rfl,hs,by simp [TextStream.left]⟩
    | some c =>
      have hrun : (Scanner.getChar : Scanner ε (Option UInt8)).run s =
          .ok (some c,{ s with pos := s.pos + 1 }) := by
        simp [Scanner.getChar,hg,hc]
        rfl
      have hlt : s.pos < s.data.length := (List.getElem?_eq_some_iff.mp hc).1
      rw [hrun]
      refine ⟨rfl,hlt,?_⟩
      simp only [TextStream.left,Option.isSome_some,if_true]
      omega

/-- Nothing but the failure bits changes. -/
theorem of_bits {x : Scanner ε α} (h : ∀ s, ∃ a e f, x.run s = .ok (a,⟨s.data,s.pos,e,f⟩)) :
    Ends bound (fun _ => 0) x := by
  intro s hs hl
  obtain ⟨a,e,f,hr⟩ := h s
  rw [hr]
  exact ⟨rfl,hs,by simp [TextStream.left]⟩

theorem peekChar : Ends bound (fun _ => 0) (Scanner.peekChar : Scanner ε (Option UInt8)) := by
  refine of_bits fun s => ?_
  cases hg : s.good with
  | false => exact ⟨none,s.eofbit,true,by simp [Scanner.peekChar,hg]; rfl⟩
  | true =>
    cases hc : s.data[s.pos]? with
    | none => exact ⟨none,true,s.failbit,by simp [Scanner.peekChar,hg,hc]; rfl⟩
    | some c => exact ⟨some c,s.eofbit,s.failbit,by simp [Scanner.peekChar,hg,hc]; rfl⟩

theorem tellg : Ends bound (fun _ => 0) (Scanner.tellg : Scanner ε (Option ℕ)) := by
  refine of_bits fun s => ?_
  cases hg : s.good with
  | false => exact ⟨none,s.eofbit,true,by simp [Scanner.tellg,hg]; rfl⟩
  | true => exact ⟨some s.pos,s.eofbit,s.failbit,by simp [Scanner.tellg,hg]; rfl⟩

theorem clear : Ends bound (fun _ => 0) (Scanner.clear : Scanner ε Unit) :=
  of_bits fun _ => ⟨(),false,false,rfl⟩

theorem ignore : Ends bound (fun _ => 0) (Scanner.ignore : Scanner ε Unit) := by
  intro s hs hl
  cases hg : s.good with
  | false =>
    have hrun : (Scanner.ignore : Scanner ε Unit).run s = .ok ((),{ s with failbit := true }) := by
      simp [Scanner.ignore,hg]
      rfl
    rw [hrun]
    exact ⟨rfl,hs,by simp [TextStream.left]⟩
  | true =>
    cases hc : s.data[s.pos]? with
    | none =>
      have hrun : (Scanner.ignore : Scanner ε Unit).run s = .ok ((),{ s with eofbit := true }) := by
        simp [Scanner.ignore,hg,hc]
        rfl
      rw [hrun]
      exact ⟨rfl,hs,by simp [TextStream.left]⟩
    | some c =>
      have hlt : s.pos < s.data.length := (List.getElem?_eq_some_iff.mp hc).1
      have hrun : (Scanner.ignore : Scanner ε Unit).run s = .ok ((),{ s with pos := s.pos + 1 }) := by
        simp [Scanner.ignore,hg,hc]
        rfl
      rw [hrun]
      refine ⟨rfl,hlt,?_⟩
      simp only [TextStream.left]
      omega

theorem seekBack (n : ℕ) : Ends bound (fun _ => -n) (Scanner.seekBack n : Scanner ε Unit) := by
  intro s hs hl
  by_cases h : (!s.failbit) = true ∧ n ≤ s.pos
  · have hrun : (Scanner.seekBack n : Scanner ε Unit).run s =
        .ok ((),{ s with pos := s.pos - n, eofbit := false }) := by
      simp only [Scanner.seekBack,StateT.run_bind,StateT.run_get,pure_bind,if_pos h]
      rfl
    rw [hrun]
    refine ⟨rfl,(Nat.sub_le _ _).trans hs,?_⟩
    simp only [TextStream.left]
    omega
  · have hrun : (Scanner.seekBack n : Scanner ε Unit).run s =
        .ok ((),{ s with eofbit := false, failbit := true }) := by
      simp only [Scanner.seekBack,StateT.run_bind,StateT.run_get,pure_bind,if_neg h]
      rfl
    rw [hrun]
    refine ⟨rfl,hs,?_⟩
    simp only [TextStream.left]
    omega

theorem lookAhead {x : Scanner ε α} (h : Ends bound (fun _ => 0) x) :
    Ends bound (fun _ => 0) (Scanner.lookAhead x) := by
  intro s hs hl
  have htell : ∃ pos f, (Scanner.tellg : Scanner ε (Option ℕ)).run s = .ok (pos,⟨s.data,s.pos,s.eofbit,f⟩) ∧
      (pos = some s.pos ∨ pos = none) := by
    cases hg : s.good with
    | false => exact ⟨none,true,by simp [Scanner.tellg,hg]; rfl,.inr rfl⟩
    | true => exact ⟨some s.pos,s.failbit,by simp [Scanner.tellg,hg]; rfl,.inl rfl⟩
  obtain ⟨pos,f,ht,hpos⟩ := htell
  have hx := h ⟨s.data,s.pos,s.eofbit,f⟩ hs hl
  have hrun : (Scanner.lookAhead x).run s = (do
      let a ← x
      Scanner.clear
      Scanner.seekg pos
      Pure.pure a : Scanner ε α).run ⟨s.data,s.pos,s.eofbit,f⟩ := by
    rw [Scanner.lookAhead,StateT.run_bind,ht]
    rfl
  rw [hrun,StateT.run_bind]
  cases hr : x.run ⟨s.data,s.pos,s.eofbit,f⟩ with
  | error e =>
    simp only [hr] at hx
    exact hx
  | ok r =>
    simp only [hr] at hx
    obtain ⟨hd,hp,hc⟩ := hx
    rcases hpos with rfl | rfl
    · have hseek : s.pos ≤ r.2.data.length := by rw [hd]; exact hs
      have hback : (do Scanner.clear; Scanner.seekg (some s.pos); Pure.pure r.1 : Scanner ε α).run r.2 =
          .ok (r.1,⟨r.2.data,s.pos,false,false⟩) := by
        simp [Scanner.clear,Scanner.seekg,hseek]
        rfl
      change match (do Scanner.clear; Scanner.seekg (some s.pos); Pure.pure r.1 : Scanner ε α).run r.2 with
        | .ok (_,t) => t.data = s.data ∧ t.pos ≤ t.data.length ∧ (t.left : ℤ) + 0 ≤ s.left
        | .error e => e ≠ .endless
      rw [hback]
      exact ⟨hd,hseek,by simp [TextStream.left,hd]⟩
    · exact ⟨hd,hp,hc⟩

theorem skip {costb : β → ℤ} {x : Scanner ε α} {f : α → Scanner ε β} (hx : Ends bound (fun _ => 0) x)
    (hf : ∀ a, Ends bound costb (f a)) : Ends bound costb (x >>= f) :=
  bind hx fun a => (hf a).mono (by omega) fun _ => by omega

/-- A character that is taken counts for what follows. -/
theorem take {costb : β → ℤ} {f : Option UInt8 → Scanner ε β} (hnone : Ends bound costb (f none))
    (hsome : ∀ c, Ends (bound-1) (fun b => costb b - 1) (f (some c))) :
    Ends bound costb (Scanner.getChar >>= f) := by
  refine bind getChar fun c => ?_
  cases c with
  | none => exact hnone.mono (by simp) fun _ => by simp
  | some c => exact hsome c

/-- Where a character is ahead it counts when it is ignored, too. -/
theorem peek {costb : β → ℤ} {f : Option UInt8 → Scanner ε β} (hnone : Ends bound costb (f none))
    (hsome : ∀ c, EndsAt c bound costb (f (some c))) : Ends bound costb (Scanner.peekChar >>= f) := by
  intro s hs hl
  by_cases h : s.good = true ∧ ∃ c, s.data[s.pos]? = some c
  · obtain ⟨hgood,c,hc⟩ := h
    have hrun : (Scanner.peekChar : Scanner ε (Option UInt8)).run s = .ok (some c,s) := by
      simp [Scanner.peekChar,hgood,hc]
      rfl
    rw [StateT.run_bind,hrun]
    exact hsome c s hs hl hgood hc
  · have hrun : ∃ e f, (Scanner.peekChar : Scanner ε (Option UInt8)).run s = .ok (none,⟨s.data,s.pos,e,f⟩) := by
      cases hgood : s.good with
      | false => exact ⟨s.eofbit,true,by simp [Scanner.peekChar,hgood]; rfl⟩
      | true =>
        cases hc : s.data[s.pos]? with
        | none => exact ⟨true,s.failbit,by simp [Scanner.peekChar,hgood,hc]; rfl⟩
        | some c => exact absurd ⟨hgood,c,hc⟩ h
    obtain ⟨e,f,hrun⟩ := hrun
    rw [StateT.run_bind,hrun]
    exact hnone ⟨s.data,s.pos,e,f⟩ hs hl

/-- Other exceptions do not make a loop endless. -/
theorem rethrow {x y : Scanner ε α} (h : Ends bound cost x)
    (hy : ∀ s, y.run s = x.run s ∨ ∃ e, y.run s = .error (.thrown e)) : Ends bound cost y := by
  intro s hs hl
  rcases hy s with hr | ⟨e,hr⟩
  · rw [hr]
    exact h s hs hl
  · rw [hr]
    exact nofun

theorem iterate {body : β → Scanner ε (β ⊕ α)} {n : ℕ} (hn : bound < n)
    (h : ∀ b, Ends bound (Sum.elim (fun _ => 1) cost) (body b)) (b : β) :
    Ends bound cost (Scanner.iterate body n b) := by
  induction n generalizing bound b with
  | zero =>
    intro s hs hl
    simp only [Nat.cast_zero] at hn
    omega
  | succ n ih =>
    refine bind (h b) fun r => ?_
    cases r with
    | inl b' =>
      have hrest : Ends (bound - 1) cost (Scanner.iterate body n b') := by
        refine ih (by push_cast at hn; omega) (fun b => ?_) b'
        exact (h b).mono (by omega) fun _ => le_rfl
      exact hrest.mono le_rfl fun a => by simp
    | inr a => exact pure (by simp)

/-- A loop ends if a round that goes on takes a character. -/
theorem loop {body : β → Scanner ε (β ⊕ α)} (h : ∀ b, Ends bound (Sum.elim (fun _ => 1) cost) (body b))
    (b : β) : Ends bound cost (Scanner.loop body b) := by
  intro s hs hl
  have hlen : (s.left : ℤ) < (s.data.length + 1 : ℕ) := by
    simp only [TextStream.left]
    omega
  exact iterate hlen (fun b => (h b).mono hl fun _ => le_rfl) b s hs le_rfl

/-- A result may cost what every result of the program is worth. -/
theorem of_result {cost' : α → ℤ} {x : Scanner ε α} (h : Ends bound cost x)
    (hx : ∀ s a t, x.run s = .ok (a,t) → cost' a ≤ cost a) : Ends bound cost' x := by
  intro s hs hl
  have hends := h s hs hl
  cases hr : x.run s with
  | error e => simpa [hr] using hends
  | ok r =>
    obtain ⟨hd,hp,hc⟩ : r.2.data = s.data ∧ r.2.pos ≤ r.2.data.length ∧ r.2.left + cost r.1 ≤ s.left := by
      simpa [hr] using hends
    exact ⟨hd,hp,by linarith [hx s r.1 r.2 hr]⟩

/-- Where a round takes what it adds to the value of the loop, and a character at least. -/
theorem iterate_worth {body : β → Scanner ε (β ⊕ α)} {worth : β → ℤ} {n : ℕ} (hn : bound < n)
    (h : ∀ b, Ends bound (Sum.elim (fun b' => max 1 (worth b' - worth b)) fun a => cost a - worth b) (body b)) (b : β) :
    Ends bound (fun a => cost a - worth b) (Scanner.iterate body n b) := by
  induction n generalizing bound b with
  | zero =>
    intro s hs hl
    simp only [Nat.cast_zero] at hn
    omega
  | succ n ih =>
    refine bind (h b) fun r => ?_
    cases r with
    | inl b' =>
      have hone : (1 : ℤ) ≤ max 1 (worth b' - worth b) := le_max_left _ _
      have hworth : worth b' - worth b ≤ max 1 (worth b' - worth b) := le_max_right _ _
      have hrest : Ends (bound - max 1 (worth b' - worth b)) (fun a => cost a - worth b') (Scanner.iterate body n b') := by
        refine ih (by push_cast at hn; omega) (fun b => ?_) b'
        exact (h b).mono (by omega) fun _ => le_rfl
      refine hrest.mono le_rfl fun a => ?_
      simp only [Sum.elim_inl]
      omega
    | inr a => exact pure (by simp)

theorem loop_worth {body : β → Scanner ε (β ⊕ α)} {worth : β → ℤ}
    (h : ∀ b, Ends bound (Sum.elim (fun b' => max 1 (worth b' - worth b)) fun a => cost a - worth b) (body b)) (b : β) :
    Ends bound (fun a => cost a - worth b) (Scanner.loop body b) := by
  intro s hs hl
  have hlen : (s.left : ℤ) < (s.data.length + 1 : ℕ) := by
    simp only [TextStream.left]
    omega
  exact iterate_worth hlen (fun b => (h b).mono hl fun _ => le_rfl) b s hs le_rfl

theorem skipStep (p : UInt8 → Bool) :
    Ends bound (Sum.elim (fun _ => 1) fun _ => 0) (Scanner.skipStep p : Scanner ε (Unit ⊕ Unit)) := by
  intro s hs hl
  by_cases h : s.good = true ∧ ∃ c, s.data[s.pos]? = some c ∧ p c = true
  · obtain ⟨hg,c,hc,hp⟩ := h
    have hlt : s.pos < s.data.length := (List.getElem?_eq_some_iff.mp hc).1
    have hrun : (Scanner.skipStep p : Scanner ε (Unit ⊕ Unit)).run s = .ok (.inl (),{ s with pos := s.pos + 1 }) := by
      simp [Scanner.skipStep,Scanner.peekChar,Scanner.ignore,hg,hc,hp]
      rfl
    rw [hrun]
    refine ⟨rfl,hlt,?_⟩
    simp only [TextStream.left,Sum.elim_inl]
    omega
  · have hstop : ∃ e f, (Scanner.skipStep p : Scanner ε (Unit ⊕ Unit)).run s =
        .ok (.inr (),⟨s.data,s.pos,e,f⟩) := by
      cases hg : s.good with
      | false => exact ⟨s.eofbit,true,by simp [Scanner.skipStep,Scanner.peekChar,hg]; rfl⟩
      | true =>
        cases hc : s.data[s.pos]? with
        | none => exact ⟨true,s.failbit,by simp [Scanner.skipStep,Scanner.peekChar,hg,hc]; rfl⟩
        | some c =>
          have hp : p c = false := by simpa [hg,hc] using h
          exact ⟨s.eofbit,s.failbit,by simp [Scanner.skipStep,Scanner.peekChar,hg,hc,hp]; rfl⟩
    obtain ⟨e,f,hr⟩ := hstop
    rw [hr]
    exact ⟨rfl,hs,by simp [TextStream.left]⟩

theorem skipWhile (p : UInt8 → Bool) : Ends bound (fun _ => 0) (Scanner.skipWhile p : Scanner ε Unit) :=
  loop (fun _ => skipStep p) ()

end Ends
end Scanner
end Tkeycoin
