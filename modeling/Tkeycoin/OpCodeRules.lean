import Tkeycoin.Executed

/-! Opcodes without a meaning: the reserved, the undefined and the disabled ones, and the scripts that
are accepted with them. -/
namespace Tkeycoin

open ActionLogic

namespace OpCode

def opReserved : OpCode := 0x50
def opVer : OpCode := 0x62
def opCat : OpCode := 0x7e
def opSubstr : OpCode := 0x7f
def opLeft : OpCode := 0x80
def opRight : OpCode := 0x81
def opInvert : OpCode := 0x83
def opAnd : OpCode := 0x84
def opOr : OpCode := 0x85
def opXor : OpCode := 0x86
def opReserved1 : OpCode := 0x89
def opReserved2 : OpCode := 0x8a
def op2Mul : OpCode := 0x8d
def op2Div : OpCode := 0x8e
def opMul : OpCode := 0x95
def opDiv : OpCode := 0x96
def opMod : OpCode := 0x97
def opLShift : OpCode := 0x98
def opRShift : OpCode := 0x99

/-- Reserved, or beyond the last of the opcodes. -/
def Undefined (opCode : OpCode) : Prop :=
  opCode ∈ [opReserved,opVer,opVerIf,opVerNotIf,opReserved1,opReserved2] ∨ opNop10 < opCode

instance (opCode : OpCode) : Decidable (Undefined opCode) := inferInstanceAs (Decidable (_ ∨ _))

/-- The opcodes of the test that is commented out. -/
def Disabled (opCode : OpCode) : Prop :=
  opCode ∈ [opCat,opSubstr,opLeft,opRight,opInvert,opAnd,opOr,opXor,op2Mul,op2Div,opMul,opDiv,opMod,
    opLShift,opRShift]

instance (opCode : OpCode) : Decidable (Disabled opCode) := inferInstanceAs (Decidable (_ ∈ _))

/-- The conditionals that only an assertion looks at. -/
def VersionIf (opCode : OpCode) : Prop := opCode = opVerIf ∨ opCode = opVerNotIf

instance (opCode : OpCode) : Decidable (VersionIf opCode) := inferInstanceAs (Decidable (_ ∨ _))

end OpCode

namespace Interpreter

open OpCode

section Step

variable {env : Env} {s t : Interpreter} {opCode : OpCode} {d : ScriptData}

/-- The labels of the switch. -/
def labels : List OpCode := ((cases ⟨fun _ => false,refusing,.base,⟨id,id,id⟩⟩ 0 []).map Prod.fst).flatten

theorem mem_labels {c : List OpCode × Action Unit} (hc : c ∈ cases env opCode d) (hop : opCode ∈ c.1) :
    opCode ∈ labels := by
  have hlabels : (cases env opCode d).map Prod.fst =
      (cases ⟨fun _ => false,refusing,.base,⟨id,id,id⟩⟩ 0 []).map Prod.fst := by
    simp only [cases,List.map_cons,List.map_nil]
  rw [labels,← hlabels]
  exact List.mem_flatten.mpr ⟨c.1,List.mem_map_of_mem hc,hop⟩

/-- An opcode without a label gets to the default of the switch. -/
theorem dispatch_default (h : opCode ∉ labels) : dispatch env opCode d = throwScript .badOpCode := by
  have hcases : ∀ c ∈ cases env opCode d, opCode ∈ c.1 → c.2 = throwScript .badOpCode := by
    intro c hc hop
    exact absurd (mem_labels hc hop) h
  exact dispatch_induction env (P := fun x => x = throwScript .badOpCode) hcases fun _ => rfl

theorem labels_meaningful :
    ∀ opCode ∈ labels, ¬ (Undefined opCode ∧ ¬ VersionIf opCode ∨ Disabled opCode) := by
  decide +kernel

theorem meaningless_range (opCode : OpCode) : Undefined opCode ∧ ¬ VersionIf opCode ∨ Disabled opCode →
    ¬ (OpCode.opIf ≤ opCode ∧ opCode ≤ OpCode.opEndIf) ∧ ¬ opCode < OpCode.opPushData1 := by
  revert opCode
  exact ScriptNum.forall_byte (by decide)

/-- Executed, an opcode without a meaning ends the run, but for the conditionals among them. -/
theorem step_unlabelled (h : ExecutedAhead s opCode d t)
    (hop : Undefined opCode ∧ ¬ VersionIf opCode ∨ Disabled opCode) :
    (step env).run s = .error (.script .badOpCode) t := by
  obtain ⟨hcond,hpush⟩ := meaningless_range opCode hop
  rw [step_of_dispatch h hcond hpush,dispatch_default fun hlabel => labels_meaningful opCode hlabel hop]
  rfl

/-- These conditionals do nothing, in an executed branch or not. -/
theorem conditional_versionIf (h : VersionIf opCode) : conditional env opCode = pure () := by
  rcases h with rfl | rfl <;> rfl

end Step

section Runs

variable (env : Env) (script : Bytes) (s₀ : Interpreter)

/-- An accepted script executes no undefined opcode, and has none of the disabled ones and of the
version conditionals at a boundary. -/
def OnlyMeaningful : Prop :=
  ∀ code u, execute env script s₀ = .returned true code u →
    (∀ s opCode d t, Reached env script s₀ s → ExecutedAhead s opCode d t → ¬ Undefined opCode) ∧
      ∀ p i q, Script.Boundary script p → Script.getScriptOp p = (some i,q) →
        ¬ VersionIf i.1 ∧ ¬ Disabled i.1

/-- The run comes to no version conditional, and executes the disabled opcodes it comes to. -/
def NoSilentOpCode : Prop :=
  ∀ s opCode d t, Reached env script s₀ s → Ahead s opCode d t →
    ¬ VersionIf opCode ∧ (Disabled opCode → mustExecuted t = true)

theorem onlyMeaningful_of_noSilent (h : NoSilentOpCode env script s₀) : OnlyMeaningful env script s₀ := by
  intro code u haccepted
  constructor
  · intro s opCode d t hr hahead hundefined
    have hplain := (h s opCode d t hr hahead.1).1
    exact not_accepted_of_step hr hahead.1.more (step_unlabelled hahead (.inl ⟨hundefined,hplain⟩))
      haccepted
  · intro p i q hb hread
    obtain ⟨s,v,hr,hahead⟩ := ahead_of_accepted haccepted hb hread
    obtain ⟨hplain,hexecuted⟩ := h s i.1 i.2 v hr hahead
    refine ⟨hplain,fun hdisabled => ?_⟩
    exact not_accepted_of_step hr hahead.more
      (step_unlabelled ⟨hahead,hexecuted hdisabled⟩ (.inr hdisabled)) haccepted

/-- The rule is kept wherever the run comes to no version conditional and to no disabled opcode that
it does not execute, and an accepted script keeps it in no other case. -/
theorem onlyMeaningful_iff :
    (NoSilentOpCode env script s₀ → OnlyMeaningful env script s₀) ∧
      ∀ code u, execute env script s₀ = .returned true code u →
        (OnlyMeaningful env script s₀ ↔ NoSilentOpCode env script s₀) := by
  have honly := onlyMeaningful_of_noSilent env script s₀
  refine ⟨honly,fun code u haccepted => ⟨fun h s opCode d t hr hahead => ?_,honly⟩⟩
  obtain ⟨hplain,henabled⟩ := (h code u haccepted).2 _ _ _ hr.boundary hahead.read
  exact ⟨hplain,fun hdisabled => absurd hdisabled henabled⟩

/-- VERIF alone is accepted, and so is CAT in a branch that is not taken. -/
theorem silent_accepted :
    ¬ OnlyMeaningful (.ofFlags .empty refusing .base ⟨id,id,id⟩) [0x65] fresh ∧
      ¬ OnlyMeaningful (.ofFlags .empty refusing .base ⟨id,id,id⟩) [0x00,0x63,0x7e,0x68] fresh := by
  constructor
  · intro h
    have haccepted : execute (.ofFlags .empty refusing .base ⟨id,id,id⟩) [0x65] fresh =
        .returned true .ok ⟨1,[],[],[],[],[0x65]⟩ := by decide +kernel
    exact ((h _ _ haccepted).2 [0x65] (OpCode.opVerIf,[]) [] .refl (by decide)).1 (by decide)
  · intro h
    have haccepted : execute (.ofFlags .empty refusing .base ⟨id,id,id⟩) [0x00,0x63,0x7e,0x68] fresh =
        .returned true .ok ⟨3,[],[],[],[],[0x00,0x63,0x7e,0x68]⟩ := by decide +kernel
    have hfirst : Script.Follows [0x00,0x63,0x7e,0x68] [0x63,0x7e,0x68] := ⟨(OpCode.op0,[]),by decide⟩
    have hsecond : Script.Follows [0x63,0x7e,0x68] [0x7e,0x68] := ⟨(OpCode.opIf,[]),by decide⟩
    exact ((h _ _ haccepted).2 [0x7e,0x68] (opCat,[]) [0x68] (.tail (.single hfirst) hsecond)
      (by decide)).2 (by decide)

end Runs
end Interpreter
end Tkeycoin
