import Mathlib.Data.List.Basic
import Mathlib.Tactic.Common
import Mathlib.Tactic.Ring

/-! Functions that take a string in blocks of one width, whatever pieces it comes in. -/
namespace Tkeycoin
namespace BlockStream

variable {σ β : Type} (f : σ → List β → σ) (w : ℕ)

/-- The first blocks of a string, one after the other. -/
def feed : σ → List β → ℕ → σ
  | s, _, 0 => s
  | s, l, n+1 => feed (f s (l.take w)) (l.drop w) n

/-- All whole blocks, and what is left of the string. -/
def absorb (s : σ) (l : List β) : σ × List β :=
  (feed f w s l (l.length / w),l.drop (w * (l.length / w)))

theorem feed_add (s : σ) (l : List β) (m n : ℕ) :
    feed f w s l (m + n) = feed f w (feed f w s l m) (l.drop (w * m)) n := by
  induction m generalizing s l with
  | zero => simp [feed]
  | succ m ih =>
    have hdrop : (l.drop w).drop (w * m) = l.drop (w * (m+1)) := by
      rw [List.drop_drop]
      congr 1
      ring
    rw [show m + 1 + n = (m + n) + 1 by omega,feed,feed,ih,hdrop]

/-- Blocks do not look behind their end. -/
theorem feed_append (s : σ) (l l' : List β) (n : ℕ) (h : w * n ≤ l.length) :
    feed f w s (l ++ l') n = feed f w s l n := by
  induction n generalizing s l with
  | zero => rfl
  | succ n ih =>
    have hw : w ≤ l.length := le_trans (Nat.le_mul_of_pos_right w n.succ_pos) h
    have hrest : w * n ≤ (l.drop w).length := by
      rw [List.length_drop]
      rw [Nat.mul_succ] at h
      omega
    rw [feed,feed,List.take_append_of_le_length hw,List.drop_append_of_le_length hw,ih _ _ hrest]

variable {w}

theorem absorb_rest_length (s : σ) (l : List β) : (absorb f w s l).2.length = l.length % w := by
  rw [absorb,List.length_drop,Nat.mod_eq_sub_mul_div]

theorem absorb_short (s : σ) {l : List β} (h : l.length < w) : absorb f w s l = (s,l) := by
  rw [absorb,Nat.div_eq_of_lt h,feed,Nat.mul_zero,List.drop_zero]

/-- A piece is absorbed behind what the pieces before it left. -/
theorem absorb_append (hw : 0 < w) (s : σ) (l l' : List β) :
    absorb f w s (l ++ l') = absorb f w (absorb f w s l).1 ((absorb f w s l).2 ++ l') := by
  have hdiv : (l ++ l').length / w =
      l.length / w + ((absorb f w s l).2 ++ l').length / w := by
    rw [List.length_append,List.length_append,absorb_rest_length]
    conv_lhs => rw [← Nat.div_add_mod l.length w,Nat.add_assoc,Nat.mul_add_div hw]
  have hle : w * (l.length / w) ≤ l.length := Nat.mul_div_le _ _
  have hdrop : (l ++ l').drop (w * (l.length / w)) = (absorb f w s l).2 ++ l' :=
    List.drop_append_of_le_length hle
  rw [absorb,absorb]
  congr 1
  · rw [hdiv,feed_add,feed_append f w s l l' _ hle,hdrop]
    rfl
  · rw [hdiv,Nat.mul_add,← List.drop_drop,hdrop]

theorem absorb_block (hw : 0 < w) (s : σ) {l : List β} (hl : l.length = w) :
    absorb f w s l = (feed f w s l 1,[]) := by
  rw [absorb,hl,Nat.div_self hw,Nat.mul_one,← hl,List.drop_length]

end BlockStream
end Tkeycoin
