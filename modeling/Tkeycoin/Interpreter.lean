import Tkeycoin.ActionLogic
import Tkeycoin.Flags
import Tkeycoin.SignatureEncoding

/-! The script interpreter: its state, the stack primitives and every opcode handler. -/
namespace Tkeycoin

inductive SigVersion
  | base | witnessV0
  deriving DecidableEq

/-- Failures of the code itself: a missing frame, an index beyond the end of a
vector, a violated assertion. -/
inductive Fault
  | noFrame | outOfRange | assertion
  deriving DecidableEq

/-- Ways a run of the loop body ends early: a `ScriptException`, any other
exception, or the end of the process. -/
inductive Stop
  | script (code : ScriptError)
  | exception
  | abort (fault : Fault)
  deriving DecidableEq

/-- A checker may throw or violate an assertion of its own. -/
inductive CheckerStop
  | script (code : ScriptError)
  | exception
  | assertion
  deriving DecidableEq

def CheckerStop.toStop : CheckerStop → Stop
  | script code => .script code
  | exception => .exception
  | assertion => .abort .assertion

/-- `BaseSignatureChecker`. -/
structure SignatureChecker where
  checkSig : ScriptData → ScriptData → Bytes → SigVersion → Except CheckerStop Bool
  checkLockTime : ScriptNum → Except CheckerStop Bool
  checkSequence : ScriptNum → Except CheckerStop Bool

/-- The hash functions of the crypto library. -/
structure Crypto where
  ripemd160 : Bytes → Bytes
  sha1 : Bytes → Bytes
  sha256 : Bytes → Bytes

namespace Crypto

def hash160 (c : Crypto) (b : Bytes) : Bytes := c.ripemd160 (c.sha256 b)

def hash256 (c : Crypto) (b : Bytes) : Bytes := c.sha256 (c.sha256 b)

end Crypto

/-- The constant members of the interpreter, with the flags as a test. -/
structure Env where
  isSet : ScriptVerifyFlags → Bool
  checker : SignatureChecker
  sigversion : SigVersion
  crypto : Crypto

/-- The constructor, given the flags as the source keeps them. -/
def Env.ofFlags (flags : Flags ScriptVerifyFlags) (checker : SignatureChecker)
    (sigversion : SigVersion) (crypto : Crypto) : Env :=
  ⟨flags.isSet,checker,sigversion,crypto⟩

abbrev Stack := List StackFrame

/-- The variable members. Stacks list their top first, the conditional flags
their back; a position is the part of the script behind it. -/
structure Interpreter where
  _opCount : ℕ
  _stack : Stack
  _altStack : Stack
  _conditionalExecutionFlags : List Bool
  _curScriptPosition : Bytes
  _separatorPosition : Bytes
  deriving DecidableEq

abbrev Action := EStateM Stop Interpreter

namespace Interpreter

def throwScript {α : Type} (code : ScriptError) : Action α := throw (.script code)

def abort {α : Type} (fault : Fault) : Action α := throw (.abort fault)

def lift {α : Type} : Except Stop α → Action α
  | .ok a => pure a
  | .error stop => throw stop

def liftScript {α : Type} (x : Except ScriptError α) : Action α := lift (x.mapError .script)

def liftChecker (x : Except CheckerStop Bool) : Action Bool := lift (x.mapError CheckerStop.toStop)

def ensureStackHasEnoughFrames (need : ℕ) : Action Unit := do
  let s ← get
  if s._stack.length < need then throwScript .invalidStackOperation else pure ()

/-- `_stack.take()`. -/
def take : Action StackFrame := do
  let s ← get
  match s._stack with
  | [] => abort .noFrame
  | frame :: rest =>
    set { s with _stack := rest }
    pure frame

/-- `_stack.pop()`. -/
def pop : Action Unit := do
  let _ ← take
  pure ()

/-- `_stack.top()`. -/
def top : Action StackFrame := do
  let s ← get
  match s._stack with
  | [] => abort .noFrame
  | frame :: _ => pure frame

def push (frame : StackFrame) : Action Unit :=
  modify fun s => { s with _stack := frame :: s._stack }

def pushNumber (n : ScriptNum) : Action Unit := push (.number n)

def pushBool (b : Bool) : Action Unit := pushNumber (ScriptNum.ofBool b)

/-- `_stack.take().asData()`. -/
def takeData : Action ScriptData := do
  let frame ← take
  pure frame.asData

/-- `_stack.top().asData()`. The frame is converted where it lies. -/
def topData : Action ScriptData := do
  let frame ← take
  push (.data frame.asData)
  pure frame.asData

section Handlers

variable (env : Env)

/-- `_stack.take().asNumber(flags.isSet(ScriptVerifyFlags::MINIMALDATA))`. -/
def takeNumber : Action ScriptNum := do
  let frame ← take
  liftScript (frame.asNumber (env.isSet .minimalData))

/-- The checks two push handlers share on a single byte. -/
def smallNumberByte (data : ScriptData) : Bool :=
  match data with
  | [byte] => (1 ≤ byte && byte ≤ 16) || byte == 0x81
  | _ => false

/-- Data of up to `sizeof(int32_t)` bytes is pushed as a number. -/
def pushNumberOrData (data : ScriptData) : Action Unit := do
  if data.length ≤ 4 then
    let n ← liftScript (ScriptNum.ofData data (env.isSet .minimalData) ScriptNum.nDefaultMaxNumSize)
    pushNumber n
  else push (.data data)

def opPushData (opCode : OpCode) (data : ScriptData) : Action Unit := do
  if env.isSet .minimalData ∧ ((data = [] ∧ opCode ≠ OpCode.op0) ∨ smallNumberByte data = true) then
    throwScript .minimalData
  else pushNumberOrData env data

def opPushData1 (data : ScriptData) : Action Unit := do
  if env.isSet .minimalData ∧ (data = [] ∨ smallNumberByte data = true ∨
      (data.length ≠ 1 ∧ data.length < OpCode.opPushData1.toNat)) then
    throwScript .minimalData
  else pushNumberOrData env data

def opPushData2 (data : ScriptData) : Action Unit := do
  if env.isSet .minimalData ∧ data.length ≤ 0xff then throwScript .minimalData
  else push (.data data)

def opPushData4 (data : ScriptData) : Action Unit := do
  if env.isSet .minimalData ∧ data.length ≤ 0xffff then throwScript .minimalData
  else push (.data data)

def opN (opCode : OpCode) : Action Unit :=
  pushNumber ⟨Int64.ofInt ((opCode.toNat : ℤ) - OpCode.op1.toNat + 1)⟩

def opNop : Action Unit := pure ()

def opCheckLockTimeVerify : Action Unit := do
  if !env.isSet .checkLockTimeVerify then pure ()
  else
    ensureStackHasEnoughFrames 1
    let data ← topData
    let nLockTime ← liftScript (ScriptNum.ofData data (env.isSet .minimalData) 5)
    if nLockTime._value < 0 then throwScript .negativeLockTime
    else
      let ok ← liftChecker (env.checker.checkLockTime nLockTime)
      if !ok then throwScript .unsatisfiedLockTime else pure ()

/-- `TxIn::SEQUENCE_LOCKTIME_DISABLE_FLAG`. -/
def SEQUENCE_LOCKTIME_DISABLE_FLAG : Int64 := 0x80000000

def opCheckSequenceVerify : Action Unit := do
  if !env.isSet .checkSequenceVerify then pure ()
  else
    ensureStackHasEnoughFrames 1
    let data ← topData
    let nSequence ← liftScript (ScriptNum.ofData data (env.isSet .minimalData) 5)
    if nSequence._value < 0 then throwScript .negativeLockTime
    else if nSequence._value &&& SEQUENCE_LOCKTIME_DISABLE_FLAG ≠ 0 then pure ()
    else
      let ok ← liftChecker (env.checker.checkSequence nSequence)
      if !ok then throwScript .unsatisfiedLockTime else pure ()

def opNoop : Action Unit := do
  if env.isSet .discourageUpgradableNops then throwScript .discourageUpgradableNops else pure ()

/-- What the VERIFY opcodes do with the condition on top. -/
def verifyTop (code : ScriptError) : Action Unit := do
  let frame ← top
  if !frame.castToBool then throwScript code else pop

def opVerify : Action Unit := do
  ensureStackHasEnoughFrames 1
  verifyTop .verify

def opReturn : Action Unit := throwScript .opReturn

def opToAltStack : Action Unit := do
  ensureStackHasEnoughFrames 1
  let frame ← take
  modify fun s => { s with _altStack := frame :: s._altStack }

def opFromAltStack : Action Unit := do
  let s ← get
  match s._altStack with
  | [] => throwScript .invalidAltStackOperation
  | frame :: rest =>
    set { s with _altStack := rest }
    push frame

def op2Drop : Action Unit := do
  ensureStackHasEnoughFrames 2
  pop
  pop

/-- Push the frames in the order they are listed. -/
def pushAll : List StackFrame → Action Unit
  | [] => pure ()
  | frame :: frames => do
    push frame
    pushAll frames

def op2Dup : Action Unit := do
  ensureStackHasEnoughFrames 2
  let x2 ← take
  let x1 ← top
  pushAll [x2,x1,x2]

def op3Dup : Action Unit := do
  ensureStackHasEnoughFrames 3
  let x3 ← take
  let x2 ← take
  let x1 ← top
  pushAll [x2,x3,x1,x2,x3]

def op2Over : Action Unit := do
  ensureStackHasEnoughFrames 4
  let x4 ← take
  let x3 ← take
  let x2 ← take
  let x1 ← top
  pushAll [x2,x3,x4,x1,x2]

def op2Rot : Action Unit := do
  ensureStackHasEnoughFrames 6
  let x6 ← take
  let x5 ← take
  let x4 ← take
  let x3 ← take
  let x2 ← take
  let x1 ← take
  pushAll [x3,x4,x5,x6,x1,x2]

def op2Swap : Action Unit := do
  ensureStackHasEnoughFrames 4
  let x4 ← take
  let x3 ← take
  let x2 ← take
  let x1 ← take
  pushAll [x3,x4,x1,x2]

def opIfDup : Action Unit := do
  ensureStackHasEnoughFrames 1
  let x ← top
  if x.castToBool then push x else pure ()

def opDepth : Action Unit := do
  let s ← get
  pushNumber (ScriptNum.ofNat s._stack.length)

def opDrop : Action Unit := do
  ensureStackHasEnoughFrames 1
  pop

def opDup : Action Unit := do
  ensureStackHasEnoughFrames 1
  let x ← top
  push x

def opNip : Action Unit := do
  ensureStackHasEnoughFrames 2
  let x2 ← take
  pop
  push x2

def opOver : Action Unit := do
  ensureStackHasEnoughFrames 2
  let x2 ← take
  let x1 ← top
  pushAll [x2,x1]

/-- `while (--n) tmp.push(_stack.take())`, with the frames put onto `tmp` so far. -/
def takeLoop : Int32 → Stack → Stack → Option (Stack × Stack)
  | n, tmp, [] => if n - 1 = 0 then some (tmp,[]) else none
  | n, tmp, frame :: rest =>
    if n - 1 = 0 then some (tmp,frame :: rest) else takeLoop (n-1) (frame :: tmp) rest

def takeToTmp (n : Int32) : Action Stack := do
  let s ← get
  match takeLoop n [] s._stack with
  | none => abort .noFrame
  | some (tmp,rest) =>
    set { s with _stack := rest }
    pure tmp

/-- `1 + operand.getint()`, whose largest value wraps. -/
def takeIndex : Action Int32 := do
  let n ← takeNumber env
  pure (1 + n.getint)

/-- The conversion of a signed number to `size_t`. -/
def toSizeT (n : Int32) : ℕ := (n.toInt % 2^64).toNat

def opPick : Action Unit := do
  ensureStackHasEnoughFrames 2
  let n ← takeIndex env
  ensureStackHasEnoughFrames (toSizeT n)
  let tmp ← takeToTmp n
  let xN ← top
  pushAll tmp
  push xN

def opRoll : Action Unit := do
  ensureStackHasEnoughFrames 2
  let n ← takeIndex env
  ensureStackHasEnoughFrames (toSizeT n)
  let tmp ← takeToTmp n
  let xN ← take
  pushAll tmp
  push xN

def opRot : Action Unit := do
  ensureStackHasEnoughFrames 3
  let x3 ← take
  let x2 ← take
  let x1 ← take
  pushAll [x2,x3,x1]

def opSwap : Action Unit := do
  ensureStackHasEnoughFrames 2
  let x2 ← take
  let x1 ← take
  pushAll [x2,x1]

def opTuck : Action Unit := do
  ensureStackHasEnoughFrames 2
  let x2 ← take
  let x1 ← take
  pushAll [x2,x1,x2]

def opSize : Action Unit := do
  ensureStackHasEnoughFrames 1
  let data ← topData
  pushNumber (ScriptNum.ofNat data.length)

def opEqual : Action Unit := do
  ensureStackHasEnoughFrames 2
  let x2 ← takeData
  let x1 ← takeData
  pushBool (x1 == x2)

def opEqualVerify : Action Unit := do
  opEqual
  verifyTop .equalVerify

/-- The opcodes `x -- f(x)`. -/
def unaryNum (f : ScriptNum → Except ScriptError ScriptNum) : Action Unit := do
  ensureStackHasEnoughFrames 1
  let x ← takeNumber env
  let r ← liftScript (f x)
  pushNumber r

def op1Add : Action Unit := unaryNum env fun x => .ok ⟨x._value + 1⟩

def op1Sub : Action Unit := unaryNum env fun x => .ok ⟨x._value - 1⟩

def opNegate : Action Unit := unaryNum env ScriptNum.neg

def opAbs : Action Unit := unaryNum env fun x => if x._value < 0 then x.neg else .ok x

def opNot : Action Unit := unaryNum env fun x => .ok (ScriptNum.ofBool (x._value == 0))

def op0NotEqual : Action Unit := unaryNum env fun x => .ok (ScriptNum.ofBool (x._value != 0))

/-- The opcodes `x1 x2 -- f(x1, x2)`. -/
def binaryNum (f : ScriptNum → ScriptNum → ScriptNum) : Action Unit := do
  ensureStackHasEnoughFrames 2
  let x2 ← takeNumber env
  let x1 ← takeNumber env
  pushNumber (f x1 x2)

def opAdd : Action Unit := binaryNum env fun x1 x2 => ⟨x1._value + x2._value⟩

def opSub : Action Unit := binaryNum env fun x1 x2 => ⟨x1._value - x2._value⟩

def opBoolAnd : Action Unit :=
  binaryNum env fun x1 x2 => ScriptNum.ofBool (x1._value != 0 && x2._value != 0)

def opBoolOr : Action Unit :=
  binaryNum env fun x1 x2 => ScriptNum.ofBool (x1._value != 0 || x2._value != 0)

def opNumEqual : Action Unit :=
  binaryNum env fun x1 x2 => ScriptNum.ofBool (x1._value == x2._value)

def opNumEqualVerify : Action Unit := do
  opNumEqual env
  verifyTop .numEqualVerify

def opNumNotEqual : Action Unit :=
  binaryNum env fun x1 x2 => ScriptNum.ofBool (x1._value != x2._value)

def opLessThan : Action Unit :=
  binaryNum env fun x1 x2 => ScriptNum.ofBool (x1._value < x2._value)

def opGreaterThan : Action Unit :=
  binaryNum env fun x1 x2 => ScriptNum.ofBool (x1._value > x2._value)

def opLessThanOrEqual : Action Unit :=
  binaryNum env fun x1 x2 => ScriptNum.ofBool (x1._value ≤ x2._value)

def opGreaterThanOrEqual : Action Unit :=
  binaryNum env fun x1 x2 => ScriptNum.ofBool (x1._value ≥ x2._value)

def opMin : Action Unit := binaryNum env fun x1 x2 => if x1._value < x2._value then x1 else x2

def opMax : Action Unit := binaryNum env fun x1 x2 => if x1._value > x2._value then x1 else x2

def opWithin : Action Unit := do
  ensureStackHasEnoughFrames 3
  let x3 ← takeNumber env
  let x2 ← takeNumber env
  let x1 ← takeNumber env
  pushBool (x2._value ≤ x1._value && x1._value < x3._value)

/-- The opcodes `in -- hash`. -/
def hashTop (h : Bytes → Bytes) : Action Unit := do
  ensureStackHasEnoughFrames 1
  let inData ← takeData
  push (.data (h inData))

def opRipemd : Action Unit := hashTop env.crypto.ripemd160

def opSha1 : Action Unit := hashTop env.crypto.sha1

def opSha256 : Action Unit := hashTop env.crypto.sha256

def opHash160 : Action Unit := hashTop env.crypto.hash160

def opHash256 : Action Unit := hashTop env.crypto.hash256

def opCodeSeparator : Action Unit := do
  if env.sigversion = .base ∧ env.isSet .constScriptCode then throwScript .opCodeSeparator
  else modify fun s => { s with _separatorPosition := s._curScriptPosition }

/-- Its body is `assert(false)`. -/
def isLowDERSignature (_vchSig : StackFrame) : Except Stop Bool := .error (.abort .assertion)

def checkSignatureEncoding : StackFrame → Except Stop Bool
  | .number _ => .ok false
  | .data [] => .ok true
  | .data sigData =>
    if env.isSet .verifyDerSig || env.isSet .lowS || env.isSet .strictEnc then
      match SignatureEncoding.isValidSignatureEncoding sigData with
      | none => .error (.abort .outOfRange)
      | some false => .error (.script .sigDer)
      | some true =>
        if env.isSet .lowS then isLowDERSignature (.data sigData)
        else if env.isSet .strictEnc ∧ SignatureEncoding.isDefinedHashtypeSignature (.data sigData) = false then
          .error (.script .sigHashType)
        else .ok true
    else .ok true

def checkPubKeyEncoding (pubKey : ScriptData) : Except Stop Bool :=
  if env.isSet .strictEnc ∧ SignatureEncoding.isCompressedOrUncompressedPubKey pubKey = false then
    .error (.script .pubKeyType)
  else if env.isSet .witnessPubKeyType ∧ env.sigversion = .witnessV0 ∧
      SignatureEncoding.isCompressedPubKey pubKey = false then
    .error (.script .witnessPubKeyType)
  else .ok true

/-- Drop a signature from the script code, except in segwit scripts. -/
def dropSignature (scriptCode : Bytes) (sig : ScriptData) : Action Bytes := do
  if env.sigversion = .base then
    let found := Script.findAndDelete scriptCode (Script.push sig)
    if found.1 > 0 ∧ env.isSet .constScriptCode then throwScript .sigFindAndDelete
    else pure found.2
  else pure scriptCode

/-- Encoding checks, whose results are ignored, and the signature check. -/
def checkSignature (sig pubKey : ScriptData) (scriptCode : Bytes) : Action Bool := do
  let _ ← lift (checkSignatureEncoding env (.data sig))
  let _ ← lift (checkPubKeyEncoding env pubKey)
  liftChecker (env.checker.checkSig sig pubKey scriptCode env.sigversion)

def opCheckSig : Action Unit := do
  ensureStackHasEnoughFrames 2
  let pubKey ← takeData
  let sig ← takeData
  let s ← get
  let scriptCode ← dropSignature env s._separatorPosition sig
  let isValid ← checkSignature env sig pubKey scriptCode
  if isValid = false ∧ env.isSet .nullFail ∧ sig ≠ [] then throwScript .sigNullFail
  else pushBool isValid

def opCheckSigVerify : Action Unit := do
  opCheckSig env
  verifyTop .checkSigVerify

/-- `_opCount += n`, which may go over the limit. -/
def countOps (n : ℕ) : Action Unit := do
  let s ← get
  set { s with _opCount := s._opCount + n }
  if s._opCount + n > Script.MAX_OPS_PER_SCRIPT then throwScript .opCount else pure ()

def takeDatas : ℕ → Action (List ScriptData)
  | 0 => pure []
  | n+1 => do
    let data ← takeData
    let datas ← takeDatas n
    pure (data :: datas)

/-- A count between zero and a bound. -/
def takeCount (bound : ℕ) (code : ScriptError) : Action ℕ := do
  let n ← takeNumber env
  if n.getint < 0 ∨ n.getint.toInt > bound then throwScript code else pure n.getint.toInt.toNat

def dropSignatures : List ScriptData → Bytes → Action Bytes
  | [], scriptCode => pure scriptCode
  | sig :: sigs, scriptCode => do
    let scriptCode ← dropSignature env scriptCode sig
    dropSignatures sigs scriptCode

/-- The signatures and keys from the current indexes on. -/
def checkSignatures (scriptCode : Bytes) : List ScriptData → List ScriptData → Action Bool
  | [], _ => pure true
  | _ :: _, [] => abort .outOfRange
  | sig :: sigs, pubKey :: keys => do
    let fOk ← checkSignature env sig pubKey scriptCode
    let sigsLeft := if fOk then sigs else sig :: sigs
    if sigsLeft.length > keys.length then pure false
    else checkSignatures scriptCode sigsLeft keys

/-- The dummy frame below the signatures is checked and removed. -/
def popDummy : Action Unit := do
  ensureStackHasEnoughFrames 1
  if env.isSet .nullDummy then
    let data ← topData
    if data ≠ [] then throwScript .sigNullDummy else pop
  else pop

/-- No depth check precedes the taking of the signature count. -/
def opCheckMultiSig : Action Unit := do
  ensureStackHasEnoughFrames 1
  let keysCount ← takeCount env Script.MAX_PUBKEYS_PER_MULTISIG .pubKeyCount
  countOps keysCount
  ensureStackHasEnoughFrames keysCount
  let keys ← takeDatas keysCount
  let sigsCount ← takeCount env keysCount .sigCount
  countOps sigsCount
  ensureStackHasEnoughFrames sigsCount
  let sigs ← takeDatas sigsCount
  let s ← get
  let scriptCode ← dropSignatures env sigs s._separatorPosition
  let fSuccess ← checkSignatures env scriptCode sigs keys
  popDummy env
  pushBool fSuccess

def opCheckMultiSigVerify : Action Unit := do
  opCheckMultiSig env
  verifyTop .checkMultiSigVerify

end Handlers
end Interpreter
end Tkeycoin
