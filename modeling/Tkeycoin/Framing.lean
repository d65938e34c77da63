import Mathlib.Data.List.Basic
import Mathlib.Logic.Relation
import Mathlib.Tactic.Common

/-! Frames cut from a stream that arrives in pieces. -/
namespace Tkeycoin

/-- What the front of a string is: too little, no frame, or a frame and what follows it. -/
inductive Cut (α β : Type)
  | more
  | bad
  | frame (a : α) (rest : List β)

/-- A way to cut frames that does not change its mind when more arrives. -/
structure Framing (α β : Type) where
  cut : List β → Cut α β
  shorter : ∀ {l a r}, cut l = .frame a r → r.length < l.length
  frame_append : ∀ {l a r} m, cut l = .frame a r → cut (l ++ m) = .frame a (r ++ m)
  bad_append : ∀ {l} m, cut l = .bad → cut (l ++ m) = .bad
  last_completes : ∀ {l b a r}, cut l = .more → cut (l ++ [b]) = .frame a r → r = []

/-- The frames handed on, what is buffered, and whether no more is taken. -/
structure Receiver (α β : Type) where
  handed : List α
  buffer : List β
  closed : Bool

namespace Framing

variable {α β : Type} (F : Framing α β) (stops : List α → Bool)

/-- The frames of a stream behind those handed on before, up to the one that stops it. -/
def accepted (handed : List α) (l : List β) : List α :=
  match _h : F.cut l with
  | .frame a rest =>
    a :: if stops (handed ++ [a]) then [] else accepted (handed ++ [a]) rest
  | _ => []
termination_by l.length
decreasing_by exact F.shorter _h

variable {F stops}

theorem accepted_frame {handed : List α} {l rest : List β} {a : α} (h : F.cut l = .frame a rest) :
    F.accepted stops handed l =
      a :: if stops (handed ++ [a]) then [] else F.accepted stops (handed ++ [a]) rest := by
  rw [accepted]
  split
  · rename_i a' rest' h'
    obtain ⟨rfl,rfl⟩ := Cut.frame.inj (h.symm.trans h')
    rfl
  · rename_i hno
    exact absurd h (hno a rest)

theorem accepted_more {handed : List α} {l : List β} (h : F.cut l = .more) :
    F.accepted stops handed l = [] := by
  rw [accepted]
  split
  · rename_i h'
    rw [h] at h'
    contradiction
  · rfl

theorem accepted_bad {handed : List α} {l : List β} (h : F.cut l = .bad) :
    F.accepted stops handed l = [] := by
  rw [accepted]
  split
  · rename_i h'
    rw [h] at h'
    contradiction
  · rfl

theorem cut_of_mem_accepted {handed : List α} {l : List β} {a : α} (h : a ∈ F.accepted stops handed l) :
    ∃ m rest, F.cut m = .frame a rest := by
  induction handed, l using accepted.induct (F := F) with
  | case1 handed l b rest hcut ih =>
    rw [accepted_frame hcut,List.mem_cons] at h
    rcases h with rfl | h
    · exact ⟨l,rest,hcut⟩
    · split_ifs at h
      · contradiction
      · exact ih h
  | case2 handed l hno =>
    cases hcut : F.cut l with
    | frame b rest => exact absurd hcut (hno b rest)
    | more =>
      rw [accepted_more hcut] at h
      contradiction
    | bad =>
      rw [accepted_bad hcut] at h
      contradiction

variable (F stops)

/-- What a receiver hands on if a string follows. -/
def ahead (s : Receiver α β) (l : List β) : List α :=
  if s.closed then [] else F.accepted stops s.handed (s.buffer ++ l)

/-- A frame handed on, with the rest left in the buffer unless the frame stops the stream. -/
def take (s : Receiver α β) (a : α) (rest : List β) : Receiver α β :=
  ⟨s.handed ++ [a],if stops (s.handed ++ [a]) then [] else rest,stops (s.handed ++ [a])⟩

/-- What a receiver does with its buffer: one frame, or closing on what is none. -/
inductive Step : Receiver α β → Receiver α β → Prop
  | frame {s a rest} : s.closed = false → F.cut s.buffer = .frame a rest → Step s (take stops s a rest)
  | bad {s} : s.closed = false → F.cut s.buffer = .bad → Step s ⟨s.handed,[],true⟩

/-- A string put behind the buffer. -/
def feed (s : Receiver α β) (l : List β) : Receiver α β := { s with buffer := s.buffer ++ l }

variable {F stops}

theorem feed_ahead (s : Receiver α β) (l m : List β) :
    F.ahead stops (feed s l) m = F.ahead stops s (l ++ m) := by
  simp only [ahead,feed,List.append_assoc]

/-- A step moves frames from those ahead to those handed on. -/
theorem Step.handed_ahead {s t : Receiver α β} (h : F.Step stops s t) (l : List β) :
    t.handed ++ F.ahead stops t l = s.handed ++ F.ahead stops s l := by
  cases h with
  | frame hopen hcut =>
    rename_i a rest
    have hall := F.frame_append l hcut
    simp only [ahead,hopen,Bool.false_eq_true,if_false,accepted_frame hall,take]
    split_ifs <;> simp
  | bad hopen hcut =>
    have hall := F.bad_append l hcut
    simp only [ahead,hopen,Bool.false_eq_true,if_false,if_true,accepted_bad hall]

theorem steps_handed_ahead {s t : Receiver α β} (h : Relation.ReflTransGen (F.Step stops) s t)
    (l : List β) : t.handed ++ F.ahead stops t l = s.handed ++ F.ahead stops s l := by
  induction h with
  | refl => rfl
  | tail _ hstep ih => rw [hstep.handed_ahead,ih]

/-- Nothing can be taken from the buffer. -/
def Settled (F : Framing α β) (s : Receiver α β) : Prop := s.closed = true ∨ F.cut s.buffer = .more

theorem Settled.ahead_nil {s : Receiver α β} (h : F.Settled s) : F.ahead stops s [] = [] := by
  rw [ahead]
  rcases h with hclosed | hmore
  · rw [if_pos hclosed]
  · split_ifs
    · rfl
    · rw [List.append_nil,accepted_more hmore]

/-- A receiver of pieces: after each it takes some steps. -/
inductive Receives (F : Framing α β) (stops : List α → Bool) :
    Receiver α β → List (List β) → Receiver α β → Prop
  | nil (s) : Receives F stops s [] s
  | cons {s t u piece pieces} : Relation.ReflTransGen (F.Step stops) (feed s piece) t →
      Receives F stops t pieces u → Receives F stops s (piece :: pieces) u

/-- However the stream is cut into pieces, the frames handed on are those at its front. -/
theorem Receives.handed_ahead {s t : Receiver α β} {pieces : List (List β)}
    (h : Receives F stops s pieces t) :
    t.handed ++ F.ahead stops t [] = s.handed ++ F.ahead stops s pieces.flatten := by
  induction h with
  | nil s => rfl
  | cons hsteps _ ih =>
    rw [ih,steps_handed_ahead hsteps,feed_ahead,List.flatten_cons]
    rfl

theorem accepted_nil {handed : List α} : F.accepted stops handed [] = [] := by
  cases hcut : F.cut [] with
  | frame a rest => exact absurd (F.shorter hcut) (Nat.not_lt_zero _)
  | more => exact accepted_more hcut
  | bad => exact accepted_bad hcut

section Codes

variable {γ δ : Type} {code : γ → List β} {l : List γ}

/-- Of strings that are frames or not, those at the front of a stream of them are cut, in their order. -/
theorem accepted_prefix {view : α → δ} {value : γ → δ}
    (h : ∀ c ∈ l, ∀ rest, F.cut (code c ++ rest) = .bad ∨
      ∃ a, F.cut (code c ++ rest) = .frame a rest ∧ view a = value c) (handed : List α) :
    (F.accepted stops handed (l.flatMap code)).map view <+: l.map value := by
  induction l generalizing handed with
  | nil =>
    rw [List.flatMap_nil,accepted_nil]
    exact List.prefix_rfl
  | cons c l ih =>
    obtain ⟨hc,hl⟩ := List.forall_mem_cons.mp h
    rw [List.flatMap_cons]
    rcases hc (l.flatMap code) with hbad | ⟨a,hframe,ha⟩
    · rw [accepted_bad hbad]
      exact List.nil_prefix
    · rw [accepted_frame hframe,List.map_cons,List.map_cons,ha]
      refine (List.prefix_cons_inj _).mpr ?_
      split_ifs
      · exact List.nil_prefix
      · exact ih hl _

/-- A stream of frames, none of which stops it, is cut into all of them. -/
theorem accepted_codes {frame : γ → α} (hstops : ∀ handed, stops handed = false)
    (h : ∀ c ∈ l, ∀ rest, F.cut (code c ++ rest) = .frame (frame c) rest) (handed : List α) :
    F.accepted stops handed (l.flatMap code) = l.map frame := by
  induction l generalizing handed with
  | nil => exact accepted_nil
  | cons c l ih =>
    obtain ⟨hc,hl⟩ := List.forall_mem_cons.mp h
    rw [List.flatMap_cons,accepted_frame (hc _),if_neg (by simp [hstops]),ih hl]
    rfl

end Codes

end Framing
end Tkeycoin
