import Tkeycoin.Interpreter

/-! `Interpreter::execute`: reading an instruction, carrying it out, the loop and its outcome. -/
namespace Tkeycoin
namespace Interpreter

/-- No enclosing conditional has its other branch selected. -/
def mustExecuted (s : Interpreter) : Bool := s._conditionalExecutionFlags.count false == 0

/-- Read the next instruction and apply the limits that do not look at the stack. -/
def fetch : Action (OpCode × ScriptData) := do
  let s ← get
  match Script.getScriptOp s._curScriptPosition with
  | (none,_) => throwScript .badOpCode
  | (some instruction,next) =>
    set { s with _curScriptPosition := next }
    if instruction.2.length > Script.MAX_SCRIPT_ELEMENT_SIZE then throwScript .pushSize
    else if instruction.1 > OpCode.op16 then
      countOps 1
      pure instruction
    else pure instruction

def sizeLimits : Action Unit := do
  let s ← get
  if s._stack.length + s._altStack.length > Script.MAX_STACK_SIZE then throwScript .stackSize
  else pure ()

def pushFlag (flag : Bool) : Action Unit :=
  modify fun s => { s with _conditionalExecutionFlags := flag :: s._conditionalExecutionFlags }

section Step

variable (env : Env)

/-- The operand is neither empty, nor the byte one, nor a number up to 255. -/
def notMinimalIf : StackFrame → Bool
  | .data d => d.length > 1 || (d.length == 1 && d.head? != some 1)
  | .number n => n.getint > 0xff

/-- `OP_IF` and `OP_NOTIF`. -/
def opIf (opCode : OpCode) : Action Unit := do
  let s ← get
  if !mustExecuted s then pushFlag false
  else if s._stack = [] then throwScript .unbalancedConditional
  else
    let stackFrame ← take
    if env.sigversion = .witnessV0 ∧ env.isSet .minimalIf ∧ notMinimalIf stackFrame then
      throwScript .minimalIf
    else
      let executionFlag := stackFrame.castToBool
      pushFlag (if opCode = OpCode.opNotIf then !executionFlag else executionFlag)

def opElse : Action Unit := do
  let s ← get
  match s._conditionalExecutionFlags with
  | [] => throwScript .unbalancedConditional
  | flag :: flags => set { s with _conditionalExecutionFlags := (!flag) :: flags }

def opEndIf : Action Unit := do
  let s ← get
  match s._conditionalExecutionFlags with
  | [] => throwScript .unbalancedConditional
  | _ :: flags => set { s with _conditionalExecutionFlags := flags }

/-- The opcodes from `OP_IF` to `OP_ENDIF`, executed branch or not. `OP_VERIF` and
`OP_VERNOTIF` reach an assertion that holds of them. -/
def conditional (opCode : OpCode) : Action Unit :=
  if opCode = OpCode.opIf ∨ opCode = OpCode.opNotIf then opIf env opCode
  else if opCode = OpCode.opElse then opElse
  else if opCode = OpCode.opEndIf then opEndIf
  else pure ()

/-- The cases of the switch: the labels of each and its handler. -/
def cases (opCode : OpCode) (data : ScriptData) : List (List OpCode × Action Unit) :=
  [ ([OpCode.opPushData1], opPushData1 env data),
    ([OpCode.opPushData2], opPushData2 env data),
    ([OpCode.opPushData4], opPushData4 env data),
    ([OpCode.op1Negate,OpCode.op1,OpCode.op2,OpCode.op3,OpCode.op4,OpCode.op5,OpCode.op6,
      OpCode.op7,OpCode.op8,OpCode.op9,OpCode.op10,OpCode.op11,OpCode.op12,OpCode.op13,
      OpCode.op14,OpCode.op15,OpCode.op16], opN opCode),
    ([OpCode.opNop], opNop),
    ([OpCode.opCheckLockTimeVerify], opCheckLockTimeVerify env),
    ([OpCode.opCheckSequenceVerify], opCheckSequenceVerify env),
    ([OpCode.opNop1,OpCode.opNop4,OpCode.opNop5,OpCode.opNop6,OpCode.opNop7,OpCode.opNop8,
      OpCode.opNop9,OpCode.opNop10], opNoop env),
    ([OpCode.opVerify], opVerify),
    ([OpCode.opReturn], opReturn),
    ([OpCode.opToAltStack], opToAltStack),
    ([OpCode.opFromAltStack], opFromAltStack),
    ([OpCode.op2Drop], op2Drop),
    ([OpCode.op2Dup], op2Dup),
    ([OpCode.op3Dup], op3Dup),
    ([OpCode.op2Over], op2Over),
    ([OpCode.op2Rot], op2Rot),
    ([OpCode.op2Swap], op2Swap),
    ([OpCode.opIfDup], opIfDup),
    ([OpCode.opDepth], opDepth),
    ([OpCode.opDrop], opDrop),
    ([OpCode.opDup], opDup),
    ([OpCode.opNip], opNip),
    ([OpCode.opOver], opOver),
    ([OpCode.opPick], opPick env),
    ([OpCode.opRoll], opRoll env),
    ([OpCode.opRot], opRot),
    ([OpCode.opSwap], opSwap),
    ([OpCode.opTuck], opTuck),
    ([OpCode.opSize], opSize),
    ([OpCode.opEqual], opEqual),
    ([OpCode.opEqualVerify], opEqualVerify),
    ([OpCode.op1Add], op1Add env),
    ([OpCode.op1Sub], op1Sub env),
    ([OpCode.opNegate], opNegate env),
    ([OpCode.opAbs], opAbs env),
    ([OpCode.opNot], opNot env),
    ([OpCode.op0NotEqual], op0NotEqual env),
    ([OpCode.opAdd], opAdd env),
    ([OpCode.opSub], opSub env),
    ([OpCode.opBoolAnd], opBoolAnd env),
    ([OpCode.opBoolOr], opBoolOr env),
    ([OpCode.opNumEqual], opNumEqual env),
    ([OpCode.opNumEqualVerify], opNumEqualVerify env),
    ([OpCode.opNumNotEqual], opNumNotEqual env),
    ([OpCode.opLessThan], opLessThan env),
    ([OpCode.opGreaterThan], opGreaterThan env),
    ([OpCode.opLessThanOrEqual], opLessThanOrEqual env),
    ([OpCode.opGreaterThanOrEqual], opGreaterThanOrEqual env),
    ([OpCode.opMin], opMin env),
    ([OpCode.opMax], opMax env),
    ([OpCode.opWithin], opWithin env),
    ([OpCode.opRipemd160], opRipemd env),
    ([OpCode.opSha1], opSha1 env),
    ([OpCode.opSha256], opSha256 env),
    ([OpCode.opHash160], opHash160 env),
    ([OpCode.opHash256], opHash256 env),
    ([OpCode.opCodeSeparator], opCodeSeparator env),
    ([OpCode.opCheckSig], opCheckSig env),
    ([OpCode.opCheckSigVerify], opCheckSigVerify env),
    ([OpCode.opCheckMultiSig], opCheckMultiSig env),
    ([OpCode.opCheckMultiSigVerify], opCheckMultiSigVerify env) ]

/-- The opcodes whose handlers look at the script itself. -/
def signatureOpCodes : List OpCode :=
  [OpCode.opCheckSig,OpCode.opCheckSigVerify,OpCode.opCheckMultiSig,OpCode.opCheckMultiSigVerify]

def dispatch (opCode : OpCode) (data : ScriptData) : Action Unit :=
  match (cases env opCode data).find? (fun c => c.1.contains opCode) with
  | some c => c.2
  | none => throwScript .badOpCode

/-- Carry out an instruction. After a direct push the loop continues at once,
past the size limits. -/
def carryOut (opCode : OpCode) (data : ScriptData) : Action Unit := do
  let s ← get
  if OpCode.opIf ≤ opCode ∧ opCode ≤ OpCode.opEndIf then
    conditional env opCode
    sizeLimits
  else if mustExecuted s then
    if opCode < OpCode.opPushData1 then opPushData env opCode data
    else
      dispatch env opCode data
      sizeLimits
  else sizeLimits

/-- The body of the loop. -/
def step : Action Unit := do
  let instruction ← fetch
  carryOut env instruction.1 instruction.2

/-- `_curScriptPosition < _endScriptPosition`. -/
def more (s : Interpreter) : Bool := s._curScriptPosition != []

/-- The `try` block. Every round takes a byte of the script at least. -/
def body (script : Bytes) : Action Unit := do
  if script.length > Script.MAX_SCRIPT_SIZE then throwScript .scriptSize
  else
    ActionLogic.loop more (step env) script.length
    let s ← get
    if s._conditionalExecutionFlags ≠ [] then throwScript .unbalancedConditional else pure ()

/-- What a call of `execute` comes to. -/
inductive Outcome
  | returned (result : Bool) (error : ScriptError) (state : Interpreter)
  | aborted (fault : Fault)
  deriving DecidableEq

/-- The members a call sets before it starts; stacks and conditional flags stay. -/
def start (script : Bytes) (s : Interpreter) : Interpreter :=
  { s with _opCount := 0, _curScriptPosition := script, _separatorPosition := script }

def execute (script : Bytes) (s : Interpreter) : Outcome :=
  match (body env script).run (start script s) with
  | .ok () t => .returned true .ok t
  | .error (.script code) t => .returned false code t
  | .error .exception t => .returned false .unknownError t
  | .error (.abort fault) _ => .aborted fault

end Step

/-- A new interpreter. -/
def fresh : Interpreter := ⟨0,[],[],[],[],[]⟩

/-- A checker that refuses everything, for examples. -/
def refusing : SignatureChecker := ⟨fun _ _ _ _ => .ok false,fun _ => .ok false,fun _ => .ok false⟩

end Interpreter
end Tkeycoin
