import Mathlib.Data.List.Basic
import Mathlib.Tactic.Common

/-! Lists cut in two, and the first place in them where a pattern stands. -/
namespace Tkeycoin
namespace Splitting

variable {α : Type}

/-- The front of two lists ends in the first or goes on in the second. -/
theorem front_cases {l a s : List α} (h : l <+: a ++ s) :
    (l.length < a.length ∧ l = a.take l.length) ∨ ∃ more, l = a ++ more ∧ more <+: s := by
  by_cases hlt : l.length < a.length
  · have htake := List.prefix_iff_eq_take.mp h
    rw [List.take_append_of_le_length (Nat.le_of_lt hlt)] at htake
    exact Or.inl ⟨hlt,htake⟩
  · have hfront : a <+: l :=
      List.prefix_of_prefix_length_le (List.prefix_append a s) h (Nat.le_of_not_lt hlt)
    obtain ⟨more,rfl⟩ := hfront
    exact Or.inr ⟨more,rfl,(List.prefix_append_right_inj a).mp h⟩

theorem forall_split_cons {a : α} {l : List α} {P : List α → α → Prop} :
    (∀ before b after, a :: l = before ++ b :: after → P before b) ↔
      P [] a ∧ ∀ before b after, l = before ++ b :: after → P (a :: before) b := by
  constructor
  · intro h
    refine ⟨h [] a l rfl,fun before b after hl => h (a :: before) b after ?_⟩
    rw [hl,List.cons_append]
  · intro h before b after hl
    cases before with
    | nil =>
      obtain ⟨rfl,rfl⟩ := List.cons.inj hl
      exact h.1
    | cons c before =>
      obtain ⟨rfl,htail⟩ := List.cons.inj hl
      exact h.2 before b after htail

/-- Where two lists differ within `n` elements, what both begin with is shorter. -/
theorem prefix_short {p k s : List α} {n : ℕ} (hk : p <+: k) (hs : p <+: s) (hne : k.take n ≠ s.take n) : p <+: s.take (n - 1) := by
  have hlt : p.length < n := by
    by_contra hge
    apply hne
    obtain ⟨more,rfl⟩ := hk
    obtain ⟨rest,rfl⟩ := hs
    rw [List.take_append_of_le_length (Nat.not_lt.mp hge),List.take_append_of_le_length (Nat.not_lt.mp hge)]
  apply List.prefix_of_prefix_length_le hs (List.take_prefix _ _)
  have hle := hs.length_le
  rw [List.length_take]
  omega

section Lexicographic

variable [LT α] [Std.Asymm (α := α) (· < ·)] [Std.Trichotomous (α := α) (· < ·)] {p k s : List α}

theorem prefix_le (h : p <+: s) : p ≤ s := by
  induction p generalizing s with
  | nil => exact List.nil_le s
  | cons a p ih =>
    obtain ⟨more,rfl⟩ := h
    exact List.cons_le_cons_iff.mpr (.inr ⟨rfl,ih (List.prefix_append p more)⟩)

/-- Between a list and its beginning there are only lists with this beginning. -/
theorem prefix_between (h : p <+: s) (hlow : p ≤ k) (hhigh : k ≤ s) : p <+: k := by
  induction p generalizing s k with
  | nil => exact List.nil_prefix
  | cons a p ih =>
    obtain ⟨more,rfl⟩ := h
    cases k with
    | nil => exact absurd (List.nil_lt_cons a p) (List.not_lt.mpr hlow)
    | cons b k =>
      rcases List.cons_le_cons_iff.mp hlow with hab | ⟨rfl,hlow'⟩
      · rcases List.cons_le_cons_iff.mp hhigh with hba | ⟨rfl,-⟩
        · exact absurd hba (Std.Asymm.asymm _ _ hab)
        · exact absurd hab (Std.Asymm.asymm _ _ hab)
      · rcases List.cons_le_cons_iff.mp hhigh with hba | ⟨-,hhigh'⟩
        · exact absurd hba (Std.Asymm.asymm _ _ hba)
        · exact (List.cons_prefix_cons).mpr ⟨rfl,ih (List.prefix_append p more) hlow' hhigh'⟩

end Lexicographic

variable [DecidableEq α]

/-- The first place where a pattern stands, as `memmem` finds it. -/
def find (pat : List α) : List α → Option ℕ
  | [] => if pat = [] then some 0 else none
  | a :: l => if pat.isPrefixOf (a :: l) then some 0 else (find pat l).map (· + 1)

section Rules

variable {pat l more : List α} {i k : ℕ}

theorem find_cons (a : α) (l : List α) : find pat (a :: l) =
    if pat <+: a :: l then some 0 else (find pat l).map (· + 1) := by
  simp only [find,List.isPrefixOf_iff_prefix]

/-- The pattern stands where it is found. -/
theorem find_le (h : find pat l = some i) : i + pat.length ≤ l.length := by
  induction l generalizing i with
  | nil =>
    simp only [find,Option.ite_none_right_eq_some,Option.some.injEq] at h
    simp [h.1,← h.2]
  | cons a l ih =>
    rw [find_cons] at h
    split_ifs at h with hpat
    · obtain rfl := Option.some.inj h
      simpa using hpat.length_le
    · obtain ⟨j,hj,rfl⟩ := Option.map_eq_some_iff.mp h
      have := ih hj
      simp only [List.length_cons]
      omega

/-- It is found at the same place when more follows. -/
theorem find_append (h : find pat l = some i) (more : List α) : find pat (l ++ more) = some i := by
  induction l generalizing i with
  | nil =>
    simp only [find,Option.ite_none_right_eq_some,Option.some.injEq] at h
    rw [h.1,← h.2]
    cases more <;> simp [find]
  | cons a l ih =>
    rw [find_cons] at h
    rw [List.cons_append,find_cons,← List.cons_append]
    split_ifs at h with hpat
    · rw [if_pos (hpat.trans (List.prefix_append _ _)),h]
    · obtain ⟨j,hj,rfl⟩ := Option.map_eq_some_iff.mp h
      have hlen := find_le hj
      have hnot : ¬ pat <+: a :: l ++ more := by
        intro hpat'
        exact hpat (List.prefix_of_prefix_length_le hpat' (List.prefix_append _ _)
          (by simp only [List.length_cons]; omega))
      rw [if_neg hnot,ih hj]
      rfl

/-- It is not found before its end has come. -/
theorem find_take (h : find pat l = some i) (hk : k < i + pat.length) : find pat (l.take k) = none := by
  cases hfind : find pat (l.take k) with
  | none => rfl
  | some j =>
    have hall := find_append hfind (l.drop k)
    rw [List.take_append_drop,h] at hall
    obtain rfl := Option.some.inj hall
    have hle := find_le hfind
    rw [List.length_take] at hle
    omega

/-- A pattern that begins with something new is found behind what has it not. -/
theorem find_front {a : α} {pat l : List α} (hnew : a ∉ l) (rest : List α) :
    find (a :: pat) (l ++ a :: pat ++ rest) = some l.length := by
  induction l with
  | nil => simp [find]
  | cons b l ih =>
    have hne : a ≠ b := fun heq => hnew (by simp [heq])
    have hnot : ¬ a :: pat <+: b :: (l ++ a :: pat ++ rest) := by
      intro hpat
      exact hne (List.cons_prefix_cons.mp hpat).1
    rw [List.cons_append,List.cons_append,find_cons,if_neg hnot,
      ih fun hmem => hnew (List.mem_cons_of_mem b hmem)]
    rfl

end Rules

end Splitting
end Tkeycoin
