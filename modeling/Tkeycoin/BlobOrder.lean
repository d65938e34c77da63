import Tkeycoin.Serialization

/-! `std::lexicographical_compare` over digits of which the highest come first, and the comparisons of
`Blob`. -/
namespace Tkeycoin

/-- `std::lexicographical_compare` with a predicate. -/
def lexicographicalCompare {α : Type} (comp : α → α → Bool) : List α → List α → Bool
  | _, [] => false
  | [], _ :: _ => true
  | a :: l, b :: m =>
    if comp a b then true
    else if comp b a then false
    else lexicographicalCompare comp l m

section Lexicographic

variable {α : Type} {comp : α → α → Bool}

/-- A predicate that holds one way or the other decides on the first elements. -/
theorem lexicographicalCompare_first (htotal : ∀ a b, comp a b = true ∨ comp b a = true) (a b : α)
    (l m : List α) : lexicographicalCompare comp (a :: l) (b :: m) = comp a b := by
  rw [lexicographicalCompare]
  cases hab : comp a b with
  | true => simp
  | false =>
    have hba : comp b a = true := by simpa [hab] using htotal a b
    simp [hba]

/-- A predicate that is the other one the other way round. -/
theorem lexicographicalCompare_flip (l m : List α) (hlen : l.length = m.length) :
    lexicographicalCompare (fun a b => comp b a) l m = lexicographicalCompare comp m l := by
  induction l generalizing m with
  | nil =>
    cases m with
    | nil => rfl
    | cons b m => simp at hlen
  | cons a l ih =>
    cases m with
    | nil => simp at hlen
    | cons b m =>
      simp only [List.length_cons,Nat.add_right_cancel_iff] at hlen
      simp only [lexicographicalCompare,ih m hlen]

end Lexicographic

/-- Byte strings of one length are ordered as their numbers are. -/
theorem lexicographicalCompare_lt_iff (l m : Bytes) (hlen : l.length = m.length) :
    lexicographicalCompare (fun a b => decide (a < b)) l m = true ↔ beValue l < beValue m := by
  induction l generalizing m with
  | nil =>
    cases m with
    | nil => simp [lexicographicalCompare]
    | cons b m => simp at hlen
  | cons a l ih =>
    cases m with
    | nil => simp at hlen
    | cons b m =>
      simp only [List.length_cons,Nat.add_right_cancel_iff] at hlen
      have hl := beValue_lt l
      have hm := beValue_lt m
      rw [hlen] at hl
      rw [beValue_cons,beValue_cons,hlen,lexicographicalCompare]
      simp only [decide_eq_true_eq]
      rcases Nat.lt_trichotomy a.toNat b.toNat with hlt | heq | hgt
      · have hstep : 256 ^ m.length * (a.toNat + 1) ≤ 256 ^ m.length * b.toNat := Nat.mul_le_mul_left _ hlt
        rw [Nat.mul_add] at hstep
        rw [if_pos (UInt8.lt_iff_toNat_lt.mpr hlt)]
        exact iff_of_true rfl (by omega)
      · obtain rfl := UInt8.toNat_inj.mp heq
        rw [if_neg (UInt8.lt_irrefl a),if_neg (UInt8.lt_irrefl a),ih m hlen]
        omega
      · have hstep : 256 ^ m.length * (b.toNat + 1) ≤ 256 ^ m.length * a.toNat := Nat.mul_le_mul_left _ hgt
        rw [Nat.mul_add] at hstep
        rw [if_neg (fun h => by have := UInt8.lt_iff_toNat_lt.mp h; omega),if_pos (UInt8.lt_iff_toNat_lt.mpr hgt)]
        exact iff_of_false (by simp) (by omega)

theorem beValue_inj {l m : Bytes} (hlen : l.length = m.length) (h : beValue l = beValue m) : l = m := by
  have hl := leBytes_leValue l.reverse
  have hm := leBytes_leValue m.reverse
  rw [List.length_reverse] at hl hm
  rw [beValue,beValue] at h
  rw [h,hlen,hm] at hl
  exact (List.reverse_inj.mp hl).symm

namespace Blob

variable {BITS : ℕ}

/-- The unsigned integer that a blob denotes. -/
def value (a : Blob BITS) : ℕ := leValue a.toList

/-- The bytes from `crbegin` on. -/
def reversed (a : Blob BITS) : Bytes := a.toList.reverse

/-- `operator<`. -/
def less (lhs rhs : Blob BITS) : Bool :=
  lexicographicalCompare (fun l r => decide (l < r)) lhs.reversed rhs.reversed

/-- `operator<=`. -/
def lessEqual (lhs rhs : Blob BITS) : Bool :=
  lexicographicalCompare (fun l r => decide (l ≤ r)) lhs.reversed rhs.reversed

/-- `operator>`. -/
def greater (lhs rhs : Blob BITS) : Bool :=
  lexicographicalCompare (fun l r => decide (l > r)) lhs.reversed rhs.reversed

/-- `operator>=`. -/
def greaterEqual (lhs rhs : Blob BITS) : Bool :=
  lexicographicalCompare (fun l r => decide (l ≥ r)) lhs.reversed rhs.reversed

/-- `operator==` of `std::array`. -/
def equal (lhs rhs : Blob BITS) : Bool := lhs.toList == rhs.toList

/-- `operator!=` of `std::array`. -/
def notEqual (lhs rhs : Blob BITS) : Bool := ! equal lhs rhs

theorem reversed_length (a : Blob BITS) : a.reversed.length = (BITS + 7) / 8 := by simp [reversed]

theorem beValue_reversed (a : Blob BITS) : beValue a.reversed = a.value := by
  rw [beValue,reversed,List.reverse_reverse,value]

theorem value_inj {a b : Blob BITS} : a.value = b.value ↔ a = b := by
  constructor
  · intro h
    rw [← beValue_reversed,← beValue_reversed] at h
    have hlist := beValue_inj (by rw [reversed_length,reversed_length]) h
    exact List.Vector.toList_injective (List.reverse_inj.mp hlist)
  · exact congrArg value

/-- The six comparisons of two blobs are those of the numbers. -/
structure Numeric (a b : Blob BITS) : Prop where
  less : less a b = true ↔ a.value < b.value
  lessEqual : lessEqual a b = true ↔ a.value ≤ b.value
  greater : greater a b = true ↔ a.value > b.value
  greaterEqual : greaterEqual a b = true ↔ a.value ≥ b.value
  equal : equal a b = true ↔ a.value = b.value
  notEqual : notEqual a b = true ↔ a.value ≠ b.value

theorem less_iff (a b : Blob BITS) : less a b = true ↔ a.value < b.value := by
  rw [less,lexicographicalCompare_lt_iff _ _ (by rw [reversed_length,reversed_length]),beValue_reversed,
    beValue_reversed]

theorem greater_iff (a b : Blob BITS) : greater a b = true ↔ a.value > b.value := by
  have hlen : a.reversed.length = b.reversed.length := by rw [reversed_length,reversed_length]
  rw [greater,@lexicographicalCompare_flip _ (fun l r => decide (l < r)) _ _ hlen]
  exact less_iff b a

theorem equal_iff (a b : Blob BITS) : equal a b = true ↔ a.value = b.value := by
  rw [equal,beq_iff_eq,value_inj]
  exact List.Vector.toList_injective.eq_iff

/-- The most significant byte. -/
def top (a : Blob BITS) : Option UInt8 := a.reversed.head?

/-- A blob of some width from its most significant byte on. -/
theorem reversed_cons (hBITS : 0 < BITS) (a : Blob BITS) : ∃ byte rest, a.reversed = byte :: rest := by
  cases hrev : a.reversed with
  | nil =>
    have hlen := reversed_length a
    rw [hrev,List.length_nil] at hlen
    omega
  | cons byte rest => exact ⟨byte,rest,rfl⟩

/-- Only the most significant bytes are compared with `<=`. -/
theorem lessEqual_cons {a b : Blob BITS} {x y : UInt8} {l m : Bytes} (ha : a.reversed = x :: l)
    (hb : b.reversed = y :: m) : lessEqual a b = true ↔ x ≤ y := by
  rw [lessEqual,ha,hb,lexicographicalCompare_first (fun x y => by simpa using UInt8.le_total x y)]
  exact decide_eq_true_iff

theorem greaterEqual_cons {a b : Blob BITS} {x y : UInt8} {l m : Bytes} (ha : a.reversed = x :: l)
    (hb : b.reversed = y :: m) : greaterEqual a b = true ↔ y ≤ x := by
  rw [greaterEqual,ha,hb,lexicographicalCompare_first (fun x y => by simpa using UInt8.le_total y x)]
  exact decide_eq_true_iff

/-- Blobs with different most significant bytes are ordered as these are. -/
theorem value_lt_of_top {a b : Blob BITS} {x y : UInt8} {l m : Bytes} (ha : a.reversed = x :: l)
    (hb : b.reversed = y :: m) (h : x < y) : a.value < b.value := by
  have hla := reversed_length a
  have hlb := reversed_length b
  rw [ha,List.length_cons] at hla
  rw [hb,List.length_cons] at hlb
  have hlen : l.length = m.length := by omega
  have hl := beValue_lt l
  have hstep : 256 ^ m.length * (x.toNat + 1) ≤ 256 ^ m.length * y.toNat :=
    Nat.mul_le_mul_left _ (UInt8.lt_iff_toNat_lt.mp h)
  rw [hlen] at hl
  rw [Nat.mul_add] at hstep
  rw [← beValue_reversed,← beValue_reversed,ha,hb,beValue_cons,beValue_cons,hlen]
  omega

theorem numeric_of_pos (hBITS : 0 < BITS) (a b : Blob BITS) : Numeric a b ↔ a = b ∨ a.top ≠ b.top := by
  obtain ⟨x,l,ha⟩ := reversed_cons hBITS a
  obtain ⟨y,m,hb⟩ := reversed_cons hBITS b
  have htop : a.top ≠ b.top ↔ x ≠ y := by
    rw [top,top,ha,hb]
    simp
  have hle := lessEqual_cons ha hb
  have hge := greaterEqual_cons ha hb
  have hne : notEqual a b = true ↔ a.value ≠ b.value := by
    rw [notEqual,Bool.not_eq_true',← Bool.not_eq_true,equal_iff]
  rw [htop]
  constructor
  · intro h
    by_cases hxy : x = y
    · have hxle : x ≤ y := UInt8.le_of_eq hxy
      have hyle : y ≤ x := UInt8.le_of_eq hxy.symm
      have h₁ : a.value ≤ b.value := h.lessEqual.mp (hle.mpr hxle)
      have h₂ : b.value ≤ a.value := h.greaterEqual.mp (hge.mpr hyle)
      exact .inl (value_inj.mp (Nat.le_antisymm h₁ h₂))
    · exact .inr hxy
  · intro h
    refine ⟨less_iff a b,?_,greater_iff a b,?_,equal_iff a b,hne⟩
    · rw [hle]
      rcases h with rfl | hxy
      · rw [ha] at hb
        exact iff_of_true (UInt8.le_of_eq (List.cons.inj hb).1) (Nat.le_refl _)
      · rcases UInt8.lt_or_lt_of_ne hxy with hlt | hgt
        · exact iff_of_true (UInt8.le_of_lt hlt) (Nat.le_of_lt (value_lt_of_top ha hb hlt))
        · exact iff_of_false (UInt8.not_le.mpr hgt) (Nat.not_le.mpr (value_lt_of_top hb ha hgt))
    · rw [hge]
      rcases h with rfl | hxy
      · rw [ha] at hb
        exact iff_of_true (UInt8.le_of_eq (List.cons.inj hb).1.symm) (Nat.le_refl _)
      · rcases UInt8.lt_or_lt_of_ne hxy with hlt | hgt
        · exact iff_of_false (UInt8.not_le.mpr hlt) (Nat.not_le.mpr (value_lt_of_top ha hb hlt))
        · exact iff_of_true (UInt8.le_of_lt hgt) (Nat.le_of_lt (value_lt_of_top hb ha hgt))

/-- The comparisons of two blobs are those of their numbers exactly if the blobs are equal and have a byte at
all, or their most significant bytes differ. -/
theorem numeric_iff (a b : Blob BITS) : Numeric a b ↔ 0 < BITS ∧ a = b ∨ a.top ≠ b.top := by
  by_cases hBITS : 0 < BITS
  · rw [numeric_of_pos hBITS,and_iff_right hBITS]
  · have hempty : ∀ c : Blob BITS, c.reversed = [] := by
      intro c
      apply List.eq_nil_of_length_eq_zero
      rw [reversed_length]
      omega
    have hle : lessEqual a b = false := by
      rw [lessEqual,hempty a,hempty b]
      rfl
    have htop : a.top = b.top := by rw [top,top,hempty a,hempty b]
    have heq : a.value = b.value := by rw [← beValue_reversed,← beValue_reversed,hempty a,hempty b]
    apply iff_of_false
    · intro h
      have h₁ := h.lessEqual.mpr (Nat.le_of_eq heq)
      rw [hle] at h₁
      contradiction
    · intro h
      rcases h with ⟨hpos,-⟩ | hne
      · exact hBITS hpos
      · exact hne htop

/-- Two and one in two bytes. -/
def two : Blob 16 := ⟨[2,0],rfl⟩

def one : Blob 16 := ⟨[1,0],rfl⟩

/-- Two is less than or equal to one. -/
theorem two_lessEqual_one : ¬ ∀ BITS, ∀ a b : Blob BITS, Numeric a b := by
  intro h
  have hle := (h 16 two one).lessEqual.mp (by decide)
  exact absurd hle (by decide)

end Blob
end Tkeycoin
