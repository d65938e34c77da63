import Tkeycoin.ScriptReading
import Mathlib.Data.List.Infix

/-! What `FindAndDelete` removes from a script. -/
namespace Tkeycoin
namespace Script

/-- What the scan of a script steps over: an occurrence of the needle, or other bytes. -/
inductive Piece
  | occurrence
  | other (bytes : Bytes)
  deriving DecidableEq

namespace Piece

def bytes (needle : Bytes) : Piece → Bytes
  | occurrence => needle
  | other bytes => bytes

/-- What is left of a piece. -/
def kept : Piece → Bytes
  | occurrence => []
  | other bytes => bytes

end Piece

/-- The scan from the left: at each boundary an occurrence, or else an instruction, or the rest of a
script that cannot be read on. -/
def piecesFrom (needle : Bytes) : ℕ → Bytes → List Piece
  | 0, _ => []
  | fuel+1, p =>
    if p = [] then []
    else if needle <+: p then .occurrence :: piecesFrom needle fuel (p.drop needle.length)
    else
      match getScriptOp p with
      | (none,_) => [.other p]
      | (some _,next) => .other (p.take (p.length - next.length)) :: piecesFrom needle fuel next

def pieces (needle haystack : Bytes) : List Piece := piecesFrom needle haystack.length haystack

/-- The number of the occurrences at boundaries, and the script without them. -/
def deletion (needle haystack : Bytes) : ℕ × Bytes :=
  ((pieces needle haystack).count .occurrence,(pieces needle haystack).flatMap Piece.kept)

/-- The last of the pieces is an occurrence. -/
def EndsInOccurrence (needle haystack : Bytes) : Prop :=
  (pieces needle haystack).getLast? = some .occurrence

/-- The scan as a relation. -/
inductive Scanned (needle : Bytes) : Bytes → List Piece → Prop
  | nil : Scanned needle [] []
  | occurrence {rest l} : Scanned needle rest l → Scanned needle (needle ++ rest) (.occurrence :: l)
  | instruction {c rest i l} : ¬ needle <+: c ++ rest → getScriptOp (c ++ rest) = (some i,rest) →
      Scanned needle rest l → Scanned needle (c ++ rest) (.other c :: l)
  | rest {p q} : p ≠ [] → ¬ needle <+: p → getScriptOp p = (none,q) → Scanned needle p [.other p]

section Scan

variable {needle p q c rest : Bytes} {i : OpCode × ScriptData} {l : List Piece}

/-- A read instruction and the bytes behind it are the script. -/
theorem getScriptOp_split (h : getScriptOp p = (some i,rest)) :
    p.take (p.length - rest.length) ++ rest = p := by
  obtain ⟨c,rfl,_⟩ := getScriptOp_local h
  simp

theorem scanned_piecesFrom (hneedle : needle ≠ []) (fuel : ℕ) (h : p.length ≤ fuel) :
    Scanned needle p (piecesFrom needle fuel p) := by
  have hpos := List.length_pos_of_ne_nil hneedle
  induction fuel generalizing p with
  | zero =>
    obtain rfl : p = [] := List.eq_nil_of_length_eq_zero (by omega)
    exact .nil
  | succ fuel ih =>
    rw [piecesFrom]
    split_ifs with hnil hoccurs
    · exact hnil ▸ .nil
    · obtain ⟨rest,rfl⟩ := hoccurs
      rw [List.drop_left]
      rw [List.length_append] at h
      exact .occurrence (ih (by omega))
    · rcases hread : getScriptOp p with ⟨_ | i,next⟩
      · exact .rest hnil hoccurs hread
      · have hlength := getScriptOp_length hread
        have hsplit := getScriptOp_split hread
        have hrest := ih (show next.length ≤ fuel by omega)
        have hpiece : Scanned needle (p.take (p.length - next.length) ++ next)
            (.other (p.take (p.length - next.length)) :: piecesFrom needle fuel next) := by
          apply Scanned.instruction (by rwa [hsplit]) (by rwa [hsplit]) hrest
        rwa [hsplit] at hpiece

theorem scanned_pieces (hneedle : needle ≠ []) (haystack : Bytes) :
    Scanned needle haystack (pieces needle haystack) :=
  scanned_piecesFrom hneedle _ le_rfl

/-- The pieces make up the script. -/
theorem Scanned.bytes (h : Scanned needle p l) : l.flatMap (Piece.bytes needle) = p := by
  induction h with
  | nil => rfl
  | occurrence _ ih => simp [Piece.bytes,ih]
  | instruction _ _ _ ih => simp [Piece.bytes,ih]
  | rest _ _ _ => simp [Piece.bytes]

/-- Without occurrences all of the script is kept. -/
theorem Scanned.kept (h : Scanned needle p l) (hnone : l.count .occurrence = 0) :
    l.flatMap Piece.kept = p := by
  induction h with
  | nil => rfl
  | occurrence _ ih => simp at hnone
  | instruction _ _ _ ih =>
    have hrest := ih (by simpa using hnone)
    simp [Piece.kept,hrest]
  | rest _ _ _ => simp [Piece.kept]

theorem Scanned.nil_iff (hneedle : needle ≠ []) (h : Scanned needle p l) : l = [] ↔ p = [] := by
  cases h with
  | nil => simp
  | occurrence _ => simp [hneedle]
  | instruction _ hread _ =>
    have hlength := getScriptOp_length hread
    simp only [reduceCtorEq,false_iff]
    intro hnil
    simp [hnil] at hlength
  | rest hne _ _ => simp [hne]

end Scan

section Loop

variable {needle p pc pc2 c rest result : Bytes} {i : OpCode × ScriptData} {l : List Piece}

/-- Not enough bytes are left for an occurrence with more behind it. -/
theorem skipNeedle_short (fuel : ℕ) (h : pc.length ≤ needle.length) : skipNeedle needle fuel pc = (0,pc) := by
  cases fuel with
  | zero => rfl
  | succ fuel => rw [skipNeedle,if_neg (by omega)]

theorem skipNeedle_none (fuel : ℕ) (h : ¬ needle <+: pc) : skipNeedle needle fuel pc = (0,pc) := by
  cases fuel with
  | zero => rfl
  | succ fuel =>
    rw [skipNeedle,if_neg]
    intro hoccurs
    exact h (hoccurs.2 ▸ List.take_prefix _ _)

/-- Enough fuel is enough. -/
theorem skipNeedle_fuel (hneedle : needle ≠ []) {fuel fuel' : ℕ} (h : pc.length ≤ fuel)
    (h' : pc.length ≤ fuel') : skipNeedle needle fuel pc = skipNeedle needle fuel' pc := by
  have hpos := List.length_pos_of_ne_nil hneedle
  induction fuel generalizing pc fuel' with
  | zero => rw [skipNeedle_short _ (by omega),skipNeedle_short _ (by omega)]
  | succ fuel ih =>
    cases fuel' with
    | zero => rw [skipNeedle_short _ (by omega),skipNeedle_short _ (by omega)]
    | succ fuel' =>
      rw [skipNeedle,skipNeedle]
      split_ifs with hoccurs
      · have hlength : (pc.drop needle.length).length < pc.length := by
          rw [List.length_drop]
          omega
        have hrest : skipNeedle needle fuel (pc.drop needle.length) =
            skipNeedle needle fuel' (pc.drop needle.length) := ih (by omega) (by omega)
        rw [hrest]
      · rfl

/-- An occurrence with more behind it is skipped. -/
theorem skipNeedle_occurrence (hneedle : needle ≠ []) (hrest : rest ≠ []) :
    skipNeedle needle (needle ++ rest).length (needle ++ rest) =
      ((skipNeedle needle rest.length rest).1 + 1,(skipNeedle needle rest.length rest).2) := by
  have hpos := List.length_pos_of_ne_nil hneedle
  have hmore := List.length_pos_of_ne_nil hrest
  obtain ⟨fuel,hfuel⟩ : ∃ n, (needle ++ rest).length = n + 1 :=
    ⟨(needle ++ rest).length - 1,by rw [List.length_append]; omega⟩
  have hoccurs : needle.length < (needle ++ rest).length ∧
      (needle ++ rest).take needle.length = needle := by
    rw [List.length_append]
    exact ⟨by omega,List.take_left⟩
  rw [List.length_append] at hfuel
  rw [List.length_append,hfuel,skipNeedle,if_pos hoccurs,List.drop_left]
  rw [skipNeedle_fuel hneedle (show rest.length ≤ fuel by omega) le_rfl]

theorem take_copied (c pc : Bytes) : (c ++ pc).take ((c ++ pc).length - pc.length) = c := by
  simp

theorem loop_occurrence (hneedle : needle ≠ []) (hrest : rest ≠ []) (fuel found : ℕ) :
    findAndDeleteLoop needle (fuel+1) (c ++ (needle ++ rest)) (needle ++ rest) result found =
      findAndDeleteLoop needle (fuel+1) ([] ++ rest) rest (result ++ c) (found+1) := by
  simp only [findAndDeleteLoop,take_copied,skipNeedle_occurrence hneedle hrest,List.append_nil]
  have hcount : found + ((skipNeedle needle rest.length rest).1 + 1) =
      found + 1 + (skipNeedle needle rest.length rest).1 := by omega
  rw [hcount]

theorem loop_instruction {next : Bytes} (hskip : skipNeedle needle pc.length pc = (0,pc))
    (hread : getScriptOp pc = (some i,next)) (fuel found : ℕ) :
    findAndDeleteLoop needle (fuel+1) (c ++ pc) pc result found =
      findAndDeleteLoop needle fuel pc next (result ++ c) found := by
  simp only [findAndDeleteLoop,take_copied,hskip,hread,Nat.add_zero]

theorem loop_rest (hskip : skipNeedle needle pc.length pc = (0,pc))
    (hread : getScriptOp pc = (none,p)) (fuel found : ℕ) :
    findAndDeleteLoop needle (fuel+1) (c ++ pc) pc result found = (found,result ++ c,pc) := by
  simp only [findAndDeleteLoop,take_copied,hskip,hread,Nat.add_zero]

/-- No occurrence is found in so few bytes, the needle itself included. -/
theorem loop_short (fuel found : ℕ) (h : pc.length ≤ needle.length) :
    (findAndDeleteLoop needle fuel (c ++ pc) pc result found).1 = found := by
  induction fuel generalizing c pc result with
  | zero => rfl
  | succ fuel ih =>
    have hskip := skipNeedle_short pc.length h
    rcases hread : getScriptOp pc with ⟨_ | i,next⟩
    · rw [loop_rest hskip hread]
    · have hlength := getScriptOp_length hread
      rw [loop_instruction hskip hread,← getScriptOp_split hread]
      exact ih (by omega)

/-- From a boundary on the loop finds the occurrences and copies the other bytes, but for an
occurrence at the very end, which it does not find. -/
theorem loop_scanned (hneedle : needle ≠ []) (h : Scanned needle pc l) (c result : Bytes)
    (fuel found : ℕ) (hfuel : pc.length < fuel) :
    (l.getLast? = some .occurrence →
        (findAndDeleteLoop needle fuel (c ++ pc) pc result found).1 < found + l.count .occurrence) ∧
      (l.getLast? ≠ some .occurrence →
        (findAndDeleteLoop needle fuel (c ++ pc) pc result found).1 = found + l.count .occurrence ∧
        (findAndDeleteLoop needle fuel (c ++ pc) pc result found).2.1 ++
            (findAndDeleteLoop needle fuel (c ++ pc) pc result found).2.2 =
          result ++ c ++ l.flatMap Piece.kept) := by
  obtain ⟨fuel,rfl⟩ : ∃ n, fuel = n + 1 := ⟨fuel - 1,by omega⟩
  induction h generalizing c result found fuel with
  | nil =>
    rw [loop_rest (skipNeedle_short _ (Nat.zero_le _)) rfl]
    simp
  | @occurrence rest l hrest ih =>
    by_cases hnil : rest = []
    · have hl : l = [] := (hrest.nil_iff hneedle).mpr hnil
      have hfew : (needle ++ rest).length ≤ needle.length := by simp [hnil]
      rw [loop_short (fuel + 1) found hfew,hl]
      simp
    · have hl : l ≠ [] := fun hl => hnil ((hrest.nil_iff hneedle).mp hl)
      obtain ⟨piece,l,rfl⟩ := List.exists_cons_of_ne_nil hl
      rw [loop_occurrence hneedle hnil,List.getLast?_cons_cons]
      obtain ⟨hends,hgoes⟩ := ih [] (result ++ c) (found + 1) fuel (by simp at hfuel; omega)
      refine ⟨fun hlast => ?_,fun hlast => ?_⟩
      · have hlt := hends hlast
        rw [List.count_cons_self]
        omega
      · obtain ⟨hcount,hbytes⟩ := hgoes hlast
        rw [hcount,hbytes,List.count_cons_self]
        refine ⟨by omega,?_⟩
        simp [Piece.kept]
  | @instruction b rest i l hoccurs hread hrest ih =>
    have hlength := getScriptOp_length hread
    have hlast : (Piece.other b :: l).getLast? = some .occurrence ↔ l.getLast? = some .occurrence := by
      cases l <;> simp [List.getLast?_cons_cons]
    have hcount : (Piece.other b :: l).count .occurrence = l.count .occurrence := by simp
    obtain ⟨fuel,rfl⟩ : ∃ n, fuel = n + 1 := ⟨fuel - 1,by omega⟩
    obtain ⟨hends,hgoes⟩ := ih b (result ++ c) found fuel (by omega)
    rw [loop_instruction (skipNeedle_none _ hoccurs) hread,ne_eq,hlast,hcount]
    refine ⟨hends,fun hnot => ?_⟩
    obtain ⟨hfound,hbytes⟩ := hgoes hnot
    refine ⟨hfound,?_⟩
    rw [hbytes]
    simp [Piece.kept]
  | @rest p q hne hoccurs hread =>
    rw [loop_rest (skipNeedle_none _ hoccurs) hread]
    simp [Piece.kept]

end Loop

variable {needle : Bytes} (hneedle : needle ≠ []) (haystack : Bytes)
include hneedle

theorem findAndDelete_of_not_ends (h : ¬ EndsInOccurrence needle haystack) :
    findAndDelete haystack needle = deletion needle haystack := by
  have hscan := scanned_pieces hneedle haystack
  obtain ⟨hcount,hbytes⟩ := (loop_scanned hneedle hscan [] [] (haystack.length + 1) 0
    (Nat.lt_succ_self _)).2 h
  simp only [List.nil_append,Nat.zero_add] at hcount hbytes
  simp only [findAndDelete,if_neg hneedle,deletion,hcount,hbytes]
  split_ifs with hfound
  · rfl
  · have hnone : (pieces needle haystack).count .occurrence = 0 := by omega
    rw [hnone,hscan.kept hnone]

theorem findAndDelete_fewer (h : EndsInOccurrence needle haystack) :
    (findAndDelete haystack needle).1 < (deletion needle haystack).1 := by
  have hlt := (loop_scanned hneedle (scanned_pieces hneedle haystack) [] [] (haystack.length + 1) 0
    (Nat.lt_succ_self _)).1 h
  simp only [List.nil_append,Nat.zero_add] at hlt
  simp only [findAndDelete,if_neg hneedle,deletion]
  split_ifs
  · exact hlt
  · exact Nat.zero_lt_of_lt hlt

/-- The pieces are those of the script, and `FindAndDelete` removes its occurrences at boundaries,
exactly if none of them stands at the very end. -/
theorem findAndDelete_iff :
    (pieces needle haystack).flatMap (Piece.bytes needle) = haystack ∧
      (findAndDelete haystack needle = deletion needle haystack ↔
        ¬ EndsInOccurrence needle haystack) := by
  refine ⟨(scanned_pieces hneedle haystack).bytes,fun h hends => ?_,
    findAndDelete_of_not_ends hneedle haystack⟩
  have hlt := findAndDelete_fewer hneedle haystack hends
  rw [h] at hlt
  omega

omit hneedle in
/-- Two occurrences with an instruction behind them. -/
theorem findAndDelete_iff_two :
    (pieces [1,5] [1,5,1,5,0xac]).flatMap (Piece.bytes [1,5]) = [1,5,1,5,0xac] ∧
      (findAndDelete [1,5,1,5,0xac] [1,5] = deletion [1,5] [1,5,1,5,0xac] ↔
        ¬ EndsInOccurrence [1,5] [1,5,1,5,0xac]) :=
  findAndDelete_iff (by decide) _

omit hneedle in
/-- A push that is all of the script is not removed from it. -/
theorem findAndDelete_misses_last :
    findAndDelete [1,5] [1,5] ≠ deletion [1,5] [1,5] := by
  decide

end Script
end Tkeycoin
