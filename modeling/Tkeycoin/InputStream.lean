import Mathlib.Data.List.Basic
import Mathlib.Tactic.Common

/-! Programs that read a stream which may end too early, as `std::istream` serves them. -/
namespace Tkeycoin

/-- A program over `read`, `peek` and `throw`. -/
inductive Reader (α : Type) : Type
  | done (a : α)
  | read (count : ℕ) (next : List UInt8 → Reader α)
  | peek (next : Option UInt8 → Reader α)
  | throw

namespace Reader

variable {α β γ : Type}

def bind : Reader α → (α → Reader β) → Reader β
  | done a, f => f a
  | read count next, f => read count fun bytes => bind (next bytes) f
  | peek next, f => peek fun byte => bind (next byte) f
  | throw, _ => throw

instance : Monad Reader where
  pure := done
  bind := bind

/-- A program some number of times. -/
def times (p : Reader α) : ℕ → Reader (List α)
  | 0 => pure []
  | n+1 => do
    let a ← p
    let l ← times p n
    pure (a :: l)

/-- A program for each of some elements. -/
def forEach (p : β → Reader α) : List β → Reader (List α)
  | [] => pure []
  | b :: l => do
    let a ← p b
    let l ← forEach p l
    pure (a :: l)

end Reader

/-- What is left of a stream, whether a read failed, and how much was left unset by reads
that did. -/
structure IStream where
  rest : List UInt8
  fail : Bool
  unset : ℕ

namespace IStream

def ofBytes (l : List UInt8) : IStream := ⟨l,false,0⟩

/-- What stands in variables that no read has set. -/
def unsetBytes (memory : ℕ → UInt8) (s : IStream) (count : ℕ) : List UInt8 :=
  (List.range count).map fun i => memory (s.unset + i)

/-- `read`: too short a stream is read to its end and fails, and a failed stream serves
nothing. -/
def read (memory : ℕ → UInt8) (s : IStream) (count : ℕ) : List UInt8 × IStream :=
  if s.fail then (s.unsetBytes memory count,{ s with unset := s.unset + count })
  else if count ≤ s.rest.length then (s.rest.take count,{ s with rest := s.rest.drop count })
  else
    (s.rest ++ s.unsetBytes memory (count - s.rest.length),
      ⟨[],true,s.unset + (count - s.rest.length)⟩)

def peek (s : IStream) : Option UInt8 := if s.fail then none else s.rest.head?

end IStream

namespace Reader

variable {α β : Type}

/-- A program on a stream. `none` is an exception. -/
def run (memory : ℕ → UInt8) : Reader α → IStream → Option (α × IStream)
  | done a, s => some (a,s)
  | read count next, s => run memory (next (s.read memory count).1) (s.read memory count).2
  | peek next, s => run memory (next s.peek) s
  | throw, _ => none

/-- How a program ends that may not read beyond the end. -/
inductive Ending (α : Type)
  | value (a : α) (rest : List UInt8)
  | short
  | exception

/-- A program on a string it may not read beyond. -/
def scan : Reader α → List UInt8 → Ending α
  | done a, l => .value a l
  | read count next, l => if count ≤ l.length then scan (next (l.take count)) (l.drop count) else .short
  | peek next, l => scan (next l.head?) l
  | throw, _ => .exception

section Scan

variable {memory : ℕ → UInt8}

theorem run_fail {p : Reader α} {s t : IStream} {a : α} (hs : s.fail = true)
    (h : run memory p s = some (a,t)) : t.fail = true := by
  induction p generalizing s with
  | done b =>
    obtain ⟨-,rfl⟩ := Prod.mk.inj (Option.some.inj h)
    exact hs
  | read count next ih =>
    refine ih _ ?_ h
    rw [IStream.read,if_pos hs]
    exact hs
  | peek next ih => exact ih _ hs h
  | throw => contradiction

/-- As long as nothing fails, a stream serves what a string serves. -/
theorem run_scan (memory : ℕ → UInt8) (p : Reader α) (l : List UInt8) (unset : ℕ) :
    match scan p l with
    | .value a rest => run memory p ⟨l,false,unset⟩ = some (a,⟨rest,false,unset⟩)
    | .short => ∀ a t, run memory p ⟨l,false,unset⟩ = some (a,t) → t.fail = true
    | .exception => run memory p ⟨l,false,unset⟩ = none := by
  induction p generalizing l with
  | done a => rfl
  | read count next ih =>
    by_cases hlen : count ≤ l.length
    · have hread : IStream.read memory ⟨l,false,unset⟩ count = (l.take count,⟨l.drop count,false,unset⟩) := by
        simp [IStream.read,hlen]
      simp only [scan,run,hread,if_pos hlen]
      exact ih _ _
    · simp only [scan,if_neg hlen]
      intro a t h
      have hfail : (IStream.read memory ⟨l,false,unset⟩ count).2.fail = true := by
        simp [IStream.read,hlen]
      exact run_fail hfail h
  | peek next ih => exact ih _ _
  | throw => rfl

end Scan

/-- The program reads a string to its end and not beyond. -/
def Consumes (p : Reader α) (l : List UInt8) : Prop := ∃ a, scan p l = .value a []

/-- What a program that comes to an end on a stream has read is all of it and no more
exactly if it consumes the string. -/
theorem run_exact_iff {p : Reader α} {l : List UInt8} {memory : ℕ → UInt8} {a : α} {t : IStream}
    (h : run memory p (.ofBytes l) = some (a,t)) : t.rest = [] ∧ t.fail = false ↔ Consumes p l := by
  have hscan := run_scan memory p l 0
  cases hend : scan p l with
  | value b rest =>
    rw [hend] at hscan
    obtain ⟨-,rfl⟩ := Prod.mk.inj (Option.some.inj (hscan.symm.trans h))
    constructor
    · rintro ⟨rfl,-⟩
      exact ⟨b,hend⟩
    · rintro ⟨c,hc⟩
      rw [hend] at hc
      exact ⟨(Ending.value.inj hc).2,rfl⟩
  | short =>
    rw [hend] at hscan
    have hfail := hscan a t h
    constructor
    · rintro ⟨-,hnot⟩
      rw [hfail] at hnot
      contradiction
    · rintro ⟨c,hc⟩
      rw [hend] at hc
      contradiction
  | exception =>
    rw [hend] at hscan
    exact absurd (hscan.symm.trans h) nofun

end Reader
end Tkeycoin
