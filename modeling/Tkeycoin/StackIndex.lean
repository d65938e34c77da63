import Tkeycoin.StackEffects

/-! Which frames PICK and ROLL take, for all the numbers on the top of the stack. -/
namespace Tkeycoin
namespace Interpreter

section Index

variable {env : Env} {β : Type} (f : Stack → Action β) {frame : StackFrame} {x : ScriptNum}
  {below alt : Stack} {ops : ℕ} {fl : List Bool} {cur sep : Bytes}

/-- What PICK and ROLL begin with. -/
def index (env : Env) (f : Stack → Action β) : Action β := do
  ensureStackHasEnoughFrames 2
  let n ← takeIndex env
  ensureStackHasEnoughFrames (toSizeT n)
  let tmp ← takeToTmp n
  f tmp

theorem index_nothing : (index env f).run ⟨ops,[frame],alt,fl,cur,sep⟩ =
    .error (.script .invalidStackOperation) ⟨ops,[frame],alt,fl,cur,sep⟩ := by
  have hshort : [frame].length < 2 := by simp
  rw [index,EStateM.run_bind,ensure_starved hshort]

/-- With a frame below, the number decides. -/
theorem index_run (hnumber : frame.asNumber (env.isSet .minimalData) = .ok x) (hbelow : below ≠ []) :
    (index env f).run ⟨ops,frame :: below,alt,fl,cur,sep⟩ =
      if below.length < toSizeT (1 + x.getint) then
        .error (.script .invalidStackOperation) ⟨ops,below,alt,fl,cur,sep⟩
      else if rounds (1 + x.getint) ≤ below.length then
        (f (below.take (rounds (1 + x.getint))).reverse).run
          ⟨ops,below.drop (rounds (1 + x.getint)),alt,fl,cur,sep⟩
      else .error (.abort .noFrame) ⟨ops,below,alt,fl,cur,sep⟩ := by
  have htwo : 2 ≤ (frame :: below).length := by
    have := List.length_pos_of_ne_nil hbelow
    simp only [List.length_cons]
    omega
  rw [index,EStateM.run_bind,ensure_enough htwo]
  simp only [EStateM.run_bind,takeIndex_run_cons,hnumber]
  by_cases hsize : below.length < toSizeT (1 + x.getint)
  · rw [ensure_starved hsize,if_pos hsize]
  · rw [ensure_enough (not_lt.mp hsize),if_neg hsize]
    simp only [takeToTmp_run]
    split_ifs <;> rfl

/-- The counter of the loop, for numbers that are not clamped. -/
theorem index_counter (h₀ : -2^31 ≤ x._value.toInt) (h₁ : x._value.toInt < 2^31 - 1) :
    (1 + x.getint).toInt = x._value.toInt + 1 := by
  have hint := ScriptNum.getint_toInt x
  rw [Int32.toInt_add,hint]
  simp only [Int32.toInt_one,Int.bmod_def]
  omega

/-- The largest number wraps around. -/
theorem index_counter_top (h : 2^31 - 1 ≤ x._value.toInt) : (1 + x.getint).toInt = -2^31 := by
  have hint := ScriptNum.getint_toInt x
  rw [Int32.toInt_add,hint]
  simp only [Int32.toInt_one,Int.bmod_def]
  omega

theorem index_counter_bottom (h : x._value.toInt < -2^31) : (1 + x.getint).toInt = 1 - 2^31 := by
  have hint := ScriptNum.getint_toInt x
  rw [Int32.toInt_add,hint]
  simp only [Int32.toInt_one,Int.bmod_def]
  omega

/-- A number of a frame below, and of more frames than an index counts. -/
theorem index_within (hnumber : frame.asNumber (env.isSet .minimalData) = .ok x)
    (h₀ : 0 ≤ x._value.toInt) (h₁ : x._value.toInt < below.length) (h₂ : x._value.toInt < 2^31 - 1) :
    (index env f).run ⟨ops,frame :: below,alt,fl,cur,sep⟩ =
      (f (below.take x._value.toInt.toNat).reverse).run
        ⟨ops,below.drop x._value.toInt.toNat,alt,fl,cur,sep⟩ := by
  have hbelow : below ≠ [] := by
    intro hnil
    simp only [hnil,List.length_nil] at h₁
    omega
  have hcounter := index_counter (x := x) (by omega) h₂
  have hsize : ¬ below.length < toSizeT (1 + x.getint) := by
    rw [toSizeT,hcounter]
    omega
  have hrounds : rounds (1 + x.getint) = x._value.toInt.toNat := by
    rw [rounds,hcounter]
    omega
  rw [index_run f hnumber hbelow,if_neg hsize,hrounds,if_pos (by omega)]

/-- A number of no frame, but for minus one, and a number that is clamped. -/
theorem index_outside (hnumber : frame.asNumber (env.isSet .minimalData) = .ok x)
    (hsize : below.length < 2^63) (h : below = [] ∨ x._value.toInt < -1 ∨ below.length ≤ x._value.toInt ∨
      2^31 - 1 ≤ x._value.toInt) :
    ∃ t, (index env f).run ⟨ops,frame :: below,alt,fl,cur,sep⟩ =
      .error (.script .invalidStackOperation) t := by
  by_cases hbelow : below = []
  · rw [hbelow,index_nothing]
    exact ⟨_,rfl⟩
  · have hlarge : below.length < toSizeT (1 + x.getint) := by
      rw [toSizeT]
      by_cases htop : 2^31 - 1 ≤ x._value.toInt
      · rw [index_counter_top htop]
        omega
      · by_cases hbottom : x._value.toInt < -2^31
        · rw [index_counter_bottom hbottom]
          omega
        · rw [index_counter (by omega) (by omega)]
          have hcases := h.resolve_left hbelow
          omega
    rw [index_run f hnumber hbelow,if_pos hlarge]
    exact ⟨_,rfl⟩

/-- Minus one passes the check, and the loop goes on below zero. -/
theorem index_minusOne (hnumber : frame.asNumber (env.isSet .minimalData) = .ok x) (hbelow : below ≠ [])
    (h : x._value.toInt = -1) :
    (index env f).run ⟨ops,frame :: below,alt,fl,cur,sep⟩ =
      if 2^32 - 1 ≤ below.length then
        (f (below.take (2^32 - 1)).reverse).run ⟨ops,below.drop (2^32 - 1),alt,fl,cur,sep⟩
      else .error (.abort .noFrame) ⟨ops,below,alt,fl,cur,sep⟩ := by
  have hcounter : (1 + x.getint).toInt = 0 := by
    rw [index_counter (by omega) (by omega),h]
    rfl
  have hsize : ¬ below.length < toSizeT (1 + x.getint) := by
    rw [toSizeT,hcounter]
    omega
  have hrounds : rounds (1 + x.getint) = 2^32 - 1 := by
    rw [rounds,hcounter]
    rfl
  rw [index_run f hnumber hbelow,if_neg hsize,hrounds]

end Index

/-- A copy of a frame below on top of the stack. -/
def picked (i : ℕ) (below : Stack) : Stack := below[i]?.toList ++ below

/-- A frame from below on top of the others. -/
def rolled (i : ℕ) (below : Stack) : Stack := below[i]?.toList ++ below.eraseIdx i

/-- The action takes the number on top and does this with the stack below, if there is a frame of
that number, and refuses it otherwise. -/
def TakesIndex (result : ℕ → Stack → Stack) (x : Action Unit) (n : ℤ) (below : Stack)
    (s : Interpreter) : Prop :=
  if 0 ≤ n ∧ n < below.length then x.run s = .ok () { s with _stack := result n.toNat below }
  else ∃ t, x.run s = .error (.script .invalidStackOperation) t

/-- The number is not minus one, or nothing is below, and it is not clamped while there are so many
frames. -/
def CountsRight (n : ℤ) (below : Stack) : Prop :=
  (n ≠ -1 ∨ below = []) ∧ (n < 2^31 - 1 ∨ below.length ≤ n)

section Handlers

variable {env : Env} {f : Stack → Action Unit} {result : ℕ → Stack → Stack} {frame : StackFrame}
  {x : ScriptNum} {below : Stack} {s : Interpreter}

/-- What is common to PICK and ROLL. A loop from minus one on never ends in the error. -/
theorem takesIndex_iff (hstack : s._stack = frame :: below)
    (hnumber : frame.asNumber (env.isSet .minimalData) = .ok x) (hsize : below.length < 2^63)
    (hf : ∀ i, i < below.length → (f (below.take i).reverse).run { s with _stack := below.drop i } =
      .ok () { s with _stack := result i below })
    (hends : ∀ i t, (f (below.take i).reverse).run { s with _stack := below.drop i } ≠
      .error (.script .invalidStackOperation) t) :
    TakesIndex result (index env f) x._value.toInt below s ↔ CountsRight x._value.toInt below := by
  obtain ⟨ops,stack,alt,fl,cur,sep⟩ := s
  obtain rfl : stack = frame :: below := hstack
  rw [TakesIndex,CountsRight]
  by_cases hin : 0 ≤ x._value.toInt ∧ x._value.toInt < below.length
  · rw [if_pos hin]
    by_cases htop : x._value.toInt < 2^31 - 1
    · have hrun := hf x._value.toInt.toNat (by omega)
      rw [index_within f hnumber hin.1 hin.2 htop,hrun]
      simp only [true_iff]
      exact ⟨.inl (by omega),.inl htop⟩
    · obtain ⟨t,ht⟩ := index_outside f hnumber hsize (.inr (.inr (.inr (not_lt.mp htop))))
      rw [ht]
      simp only [reduceCtorEq,false_iff]
      omega
  · rw [if_neg hin]
    by_cases hminus : x._value.toInt = -1 ∧ below ≠ []
    · have hwrong : ¬ ((x._value.toInt ≠ -1 ∨ below = []) ∧
          (x._value.toInt < 2^31 - 1 ∨ below.length ≤ x._value.toInt)) := by
        rintro ⟨h | h,_⟩
        · exact h hminus.1
        · exact hminus.2 h
      simp only [hwrong,iff_false]
      intro h
      obtain ⟨t,ht⟩ := h
      rw [index_minusOne f hnumber hminus.2 hminus.1] at ht
      split_ifs at ht
      · exact hends _ t ht
      · cases ht
    · have hout : below = [] ∨ x._value.toInt < -1 ∨ below.length ≤ x._value.toInt ∨
          2^31 - 1 ≤ x._value.toInt := by
        by_cases hbelow : below = []
        · exact .inl hbelow
        · have hne : x._value.toInt ≠ -1 := fun h => hminus ⟨h,hbelow⟩
          omega
      simp only [index_outside f hnumber hsize hout,true_iff]
      refine ⟨?_,by omega⟩
      by_cases hbelow : below = []
      · exact .inr hbelow
      · exact .inl fun h => hminus ⟨h,hbelow⟩

end Handlers

section Opcodes

variable {env : Env} {s : Interpreter} {frame : StackFrame} {x : ScriptNum} {below : Stack}

/-- A list parted before a position. -/
theorem parted_at {i : ℕ} (h : i < below.length) : ∃ y rest, below.drop i = y :: rest ∧
    below[i]?.toList = [y] ∧ below.take i ++ y :: rest = below ∧ below.eraseIdx i = below.take i ++ rest := by
  have hdrop := List.drop_eq_getElem_cons h
  have hget : below[i]?.toList = [below[i]] := by simp [h]
  have hwhole := List.take_append_drop i below
  rw [hdrop] at hwhole
  exact ⟨below[i],below.drop (i + 1),hdrop,hget,hwhole,List.eraseIdx_eq_take_drop_succ below i⟩

theorem opPick_iff (hstack : s._stack = frame :: below)
    (hnumber : frame.asNumber (env.isSet .minimalData) = .ok x) (hsize : below.length < 2^63) :
    TakesIndex picked (opPick env) x._value.toInt below s ↔ CountsRight x._value.toInt below := by
  apply takesIndex_iff hstack hnumber hsize
  · intro i hi
    obtain ⟨y,rest,hdrop,hget,hwhole,_⟩ := parted_at hi
    rw [picked,hget,hdrop]
    simp [EStateM.run_bind,hwhole]
  · intro i t
    cases hdrop : below.drop i with
    | nil => simp [EStateM.run_bind,top]
    | cons y rest => simp [EStateM.run_bind]

theorem opRoll_iff (hstack : s._stack = frame :: below)
    (hnumber : frame.asNumber (env.isSet .minimalData) = .ok x) (hsize : below.length < 2^63) :
    TakesIndex rolled (opRoll env) x._value.toInt below s ↔ CountsRight x._value.toInt below := by
  apply takesIndex_iff hstack hnumber hsize
  · intro i hi
    obtain ⟨y,rest,hdrop,hget,_,herase⟩ := parted_at hi
    rw [rolled,hget,herase,hdrop]
    simp [EStateM.run_bind]
  · intro i t
    cases hdrop : below.drop i with
    | nil => simp [EStateM.run_bind,take]
    | cons y rest => simp [EStateM.run_bind]

end Opcodes

/-- On a stack as large as a container may be, both opcodes take their numbers right but for minus
one with frames below, and for numbers of frames that an `int` does not count. -/
theorem pick_roll_iff (env : Env) (s : Interpreter) (frame : StackFrame) (x : ScriptNum) (below : Stack)
    (hstack : s._stack = frame :: below)
    (hnumber : frame.asNumber (env.isSet .minimalData) = .ok x) (hsize : below.length < 2^63) :
    (TakesIndex picked (opPick env) x._value.toInt below s ↔ CountsRight x._value.toInt below) ∧
      (TakesIndex rolled (opRoll env) x._value.toInt below s ↔ CountsRight x._value.toInt below) :=
  ⟨opPick_iff hstack hnumber hsize,opRoll_iff hstack hnumber hsize⟩

/-- Three frames, and the number of the lowest one. -/
theorem pick_roll_iff_lowest :
    (TakesIndex picked (opPick (.ofFlags .empty refusing .base ⟨id,id,id⟩)) 2 [.data [7],.data [8],.data [9]]
        ⟨0,[.number ⟨2⟩,.data [7],.data [8],.data [9]],[],[],[],[]⟩ ↔
        CountsRight 2 [.data [7],.data [8],.data [9]]) ∧
      (TakesIndex rolled (opRoll (.ofFlags .empty refusing .base ⟨id,id,id⟩)) 2
        [.data [7],.data [8],.data [9]] ⟨0,[.number ⟨2⟩,.data [7],.data [8],.data [9]],[],[],[],[]⟩ ↔
        CountsRight 2 [.data [7],.data [8],.data [9]]) :=
  pick_roll_iff _ _ (.number ⟨2⟩) ⟨2⟩ _ rfl rfl (by decide)

/-- With minus one over a frame both take frames that are not there. -/
theorem minusOne_not_refused :
    ¬ TakesIndex picked (opPick (.ofFlags .empty refusing .base ⟨id,id,id⟩)) (-1) [.data [7]]
        ⟨0,[.number ⟨-1⟩,.data [7]],[],[],[],[]⟩ ∧
      ¬ TakesIndex rolled (opRoll (.ofFlags .empty refusing .base ⟨id,id,id⟩)) (-1) [.data [7]]
        ⟨0,[.number ⟨-1⟩,.data [7]],[],[],[],[]⟩ := by
  have hpick : (opPick (.ofFlags .empty refusing .base ⟨id,id,id⟩)).run
      ⟨0,[.number ⟨-1⟩,.data [7]],[],[],[],[]⟩ =
        .error (.abort .noFrame) ⟨0,[.data [7]],[],[],[],[]⟩ := rfl
  have hroll : (opRoll (.ofFlags .empty refusing .base ⟨id,id,id⟩)).run
      ⟨0,[.number ⟨-1⟩,.data [7]],[],[],[],[]⟩ =
        .error (.abort .noFrame) ⟨0,[.data [7]],[],[],[],[]⟩ := rfl
  simp [TakesIndex,hpick,hroll]

end Interpreter
end Tkeycoin
