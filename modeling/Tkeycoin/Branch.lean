import Mathlib.Data.List.Basic
import Mathlib.Data.List.Nodup
import Mathlib.Tactic.Common

/-! Branches of a tree whose nodes know their parents and their heights. -/
namespace Tkeycoin

structure Tree (ι : Type) where
  parent : ι → Option ι
  height : ι → Option ℕ

namespace Tree

variable {ι : Type}

section Walks

variable (T : Tree ι)

/-- Down from a node as long as it is higher than a bound, with what is left on a stack. -/
def descend (higher : ι → Bool) : ℕ → Option ι → List ι → Option (Option ι × List ι)
  | 0, _, _ => none
  | _+1, none, stack => some (none,stack)
  | fuel+1, some a, stack =>
    if higher a then descend higher fuel (T.parent a) (a :: stack) else some (some a,stack)

/-- Down from two nodes until they meet: what the one leaves goes on a stack, and what the
other leaves goes from the end of a branch. -/
def meet [DecidableEq ι] : ℕ → Option ι → Option ι → List ι → List ι → Option (List ι × List ι)
  | 0, _, _, _, _ => none
  | fuel+1, some a, some b, stack, branch =>
    if a = b then some (stack,branch)
    else meet fuel (T.parent a) (T.parent b) (a :: stack) branch.dropLast
  | _+1, _, _, stack, branch => some (stack,branch)

end Walks

variable (T : Tree ι)

/-- Heights count the steps to the only root. -/
structure Rooted : Prop where
  root_unique : ∀ {a b}, T.height a = some 0 → T.height b = some 0 → a = b
  parent_of_succ : ∀ {a n}, T.height a = some (n + 1) → ∃ p, T.parent a = some p ∧ T.height p = some n

/-- A list that starts at the root and in which each node stands behind its parent. -/
structure IsBranch (l : List ι) : Prop where
  height : ∀ {i a}, l[i]? = some a → T.height a = some i
  parent : ∀ {i a}, l[i + 1]? = some a → T.parent a = l[i]?

/-- A list in which each node stands behind its parent, above a node of this height. -/
inductive Ascends : Option ι → ℕ → List ι → Prop
  | nil (below n) : Ascends below n []
  | cons {below n a l} : T.parent a = below → T.height a = some n → Ascends (some a) (n + 1) l →
      Ascends below n (a :: l)

variable {T}

namespace IsBranch

variable {l : List ι} (hl : T.IsBranch l)
include hl

theorem index_unique {i j : ℕ} {a : ι} (hi : l[i]? = some a) (hj : l[j]? = some a) : i = j :=
  Option.some.inj ((hl.height hi).symm.trans (hl.height hj))

theorem nodup : l.Nodup := by
  rw [List.nodup_iff_getElem?_ne_getElem?]
  intro i j hij hj heq
  have hsome : l[j]? = some l[j] := List.getElem?_eq_getElem hj
  exact absurd (hl.index_unique (heq.trans hsome) hsome) (Nat.ne_of_lt hij)

theorem take (n : ℕ) : T.IsBranch (l.take n) where
  height {i a} h := by
    rw [List.getElem?_take] at h
    split_ifs at h
    exact hl.height h
  parent {i a} h := by
    rw [List.getElem?_take] at h
    split_ifs at h with hi
    rw [hl.parent h,List.getElem?_take_of_lt (by omega)]

theorem snoc {a : ι} (hparent : ∀ i, l.length = i + 1 → T.parent a = l[i]?)
    (hheight : T.height a = some l.length) : T.IsBranch (l ++ [a]) where
  height {i b} h := by
    rcases Nat.lt_or_ge i l.length with hi | hi
    · rw [List.getElem?_append_left hi] at h
      exact hl.height h
    · rw [List.getElem?_append_right hi,List.getElem?_singleton] at h
      split_ifs at h with h0
      obtain rfl : l.length = i := by omega
      exact Option.some.inj h ▸ hheight
  parent {i b} h := by
    rcases Nat.lt_or_ge (i + 1) l.length with hi | hi
    · rw [List.getElem?_append_left hi] at h
      rw [hl.parent h,List.getElem?_append_left (by omega)]
    · rw [List.getElem?_append_right hi,List.getElem?_singleton] at h
      split_ifs at h with h0
      have hlen : l.length = i + 1 := by omega
      rw [← Option.some.inj h,hparent i hlen,List.getElem?_append_left (by omega)]

/-- A branch goes on with a list that ascends from its end. -/
theorem append {below : Option ι} {m : List ι} (hbelow : ∀ i, l.length = i + 1 → l[i]? = below)
    (h : T.Ascends below l.length m) : T.IsBranch (l ++ m) := by
  induction m generalizing l below with
  | nil => simpa using hl
  | cons a m ih =>
    cases h with
    | cons hparent hheight hrest =>
      have hsnoc := hl.snoc (a := a) (fun i hi => hparent.trans (hbelow i hi).symm) hheight
      have hend : ∀ i, (l ++ [a]).length = i + 1 → (l ++ [a])[i]? = some a := by
        intro i hi
        rw [List.length_append,List.length_singleton] at hi
        rw [List.getElem?_append_right (by omega)]
        have : i - l.length = 0 := by omega
        rw [this]
        rfl
      have hall := ih hsnoc hend (by rwa [List.length_append,List.length_singleton])
      rwa [List.append_assoc] at hall

/-- Two branches with a node in common do not differ below it. -/
theorem agree {m : List ι} (hm : T.IsBranch m) {i : ℕ} {a : ι} (hli : l[i]? = some a) (hmi : m[i]? = some a) :
    l.take (i + 1) = m.take (i + 1) := by
  induction i generalizing a with
  | zero =>
    rw [List.take_add_one,List.take_add_one,hli,hmi]
    rfl
  | succ i ih =>
    have hbelow : l[i]? = m[i]? := (hl.parent hli).symm.trans (hm.parent hmi)
    have hlen : i < l.length := by
      have hlast := (List.getElem?_eq_some_iff.mp hli).1
      omega
    have hi : l[i]? = some l[i] := List.getElem?_eq_getElem hlen
    rw [List.take_add_one,List.take_add_one (l := m),hli,hmi,ih hi (hbelow.symm.trans hi)]

/-- A branch stays one while its nodes keep their heights and parents. -/
theorem congr {T' : Tree ι} (hheight : ∀ {a n}, T.height a = some n → T'.height a = some n)
    (hparent : ∀ {a p}, T.parent a = some p → T'.parent a = some p) : T'.IsBranch l where
  height h := hheight (hl.height h)
  parent {i a} h := by
    obtain ⟨hlen,-⟩ := List.getElem?_eq_some_iff.mp h
    have hi : l[i]? = some l[i] := List.getElem?_eq_getElem (by omega)
    rw [hi]
    exact hparent ((hl.parent h).trans hi)

end IsBranch

/-- A tree stays rooted while its nodes keep their parents. -/
theorem Rooted.congr {T' : Tree ι} (hT : T.Rooted) (hheight : ∀ a, T'.height a = T.height a)
    (hparent : ∀ {a p}, T.parent a = some p → T'.parent a = some p) : T'.Rooted where
  root_unique {a b} ha hb := by
    rw [hheight] at ha hb
    exact hT.root_unique ha hb
  parent_of_succ {a n} ha := by
    rw [hheight] at ha
    obtain ⟨p,hp,hn⟩ := hT.parent_of_succ ha
    exact ⟨p,hparent hp,by rw [hheight,hn]⟩

/-- A node one step above the bound leaves itself on the stack, and a lower one nothing. -/
theorem descend_eq (higher : ι → Bool) {fuel : ℕ} {a : ι} (stack : List ι) (hfuel : 2 ≤ fuel)
    (hparent : higher a = true → ∃ p, T.parent a = some p ∧ higher p = false) :
    T.descend higher fuel (some a) stack =
      some (if higher a then (T.parent a,a :: stack) else (some a,stack)) := by
  obtain ⟨fuel,rfl⟩ := Nat.exists_eq_add_of_le' hfuel
  rw [show fuel + 2 = (fuel + 1) + 1 from rfl,descend]
  split_ifs with ha
  · obtain ⟨p,hp,hlow⟩ := hparent ha
    rw [hp,descend,if_neg (by simp [hlow])]
  · rfl

/-- What is on the stack stays under what comes on it. -/
theorem meet_suffix [DecidableEq ι] {fuel : ℕ} {a b : Option ι} {stack branch stack' branch' : List ι}
    (h : T.meet fuel a b stack branch = some (stack',branch')) : stack <:+ stack' := by
  induction fuel generalizing a b stack branch with
  | zero => exact nomatch h
  | succ fuel ih =>
    have hdone (h : some (stack,branch) = some (stack',branch')) : stack <:+ stack' :=
      (Prod.mk.inj (Option.some.inj h)).1 ▸ List.suffix_refl stack
    cases a with
    | none => exact hdone h
    | some a =>
      cases b with
      | none => exact hdone h
      | some b =>
        rw [meet] at h
        split_ifs at h
        · exact hdone h
        · exact (List.suffix_cons a stack).trans (ih h)

/-- Two nodes of one height meet at the latest at the root. The branch ends where they meet,
and what is on the stack ascends from there. -/
theorem meet_branch [DecidableEq ι] (hT : T.Rooted) {n fuel : ℕ} {a b : ι} {stack l : List ι}
    (hfuel : n < fuel) (ha : T.height a = some n) (hl : T.IsBranch l) (hb : l[n]? = some b)
    (hlen : l.length = n + 1) (hstack : T.Ascends (some a) (n + 1) stack) :
    ∃ m stack', T.meet fuel (some a) (some b) stack l = some (stack',m) ∧
      stack <:+ stack' ∧ m.length + stack'.length = l.length + stack.length ∧
      T.IsBranch (m ++ stack') := by
  induction n generalizing fuel a b stack l with
  | zero =>
    obtain ⟨fuel,rfl⟩ := Nat.exists_eq_succ_of_ne_zero (Nat.ne_of_gt hfuel)
    obtain rfl : a = b := hT.root_unique ha (hl.height hb)
    refine ⟨l,stack,by rw [meet,if_pos rfl],List.suffix_rfl,rfl,?_⟩
    refine hl.append ?_ (by rwa [hlen])
    intro i hi
    rw [← hb]
    congr 1
    omega
  | succ n ih =>
    obtain ⟨fuel,rfl⟩ := Nat.exists_eq_succ_of_ne_zero (Nat.ne_zero_of_lt hfuel)
    rw [meet]
    split_ifs with hab
    · subst hab
      refine ⟨l,stack,rfl,List.suffix_rfl,rfl,?_⟩
      refine hl.append ?_ (by rwa [hlen])
      intro i hi
      rw [← hb]
      congr 1
      omega
    · obtain ⟨p,hpa,hp⟩ := hT.parent_of_succ ha
      obtain ⟨q,hqb,-⟩ := hT.parent_of_succ (hl.height hb)
      have hq : l[n]? = some q := by rw [← hl.parent hb,hqb]
      have hdrop : l.dropLast = l.take (n + 1) := by
        rw [List.dropLast_eq_take,hlen]
        rfl
      have hlen' : (l.take (n + 1)).length = n + 1 := by
        rw [List.length_take]
        omega
      have hless : n < fuel := by omega
      obtain ⟨m,stack',hmeet,hsuffix,hlength,hbranch⟩ := ih (a := p) (b := q)
        (l := l.take (n + 1)) hless hp (hl.take _)
        (by rw [List.getElem?_take_of_lt (by omega)]; exact hq) hlen' (.cons hpa ha hstack)
      rw [hpa,hqb,hdrop]
      refine ⟨m,stack',hmeet,(List.suffix_cons a stack).trans hsuffix,?_,hbranch⟩
      rw [hlength,hlen',hlen,List.length_cons]
      omega

end Tree
end Tkeycoin
