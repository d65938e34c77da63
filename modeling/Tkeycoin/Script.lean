import Tkeycoin.ScriptNum

/-! Scripts: opcodes, the instruction reader and removal of a pattern from a script. -/
namespace Tkeycoin

abbrev OpCode := UInt8

namespace OpCode

def op0 : OpCode := 0x00
def opPushData1 : OpCode := 0x4c
def opPushData2 : OpCode := 0x4d
def opPushData4 : OpCode := 0x4e
def op1Negate : OpCode := 0x4f
def op1 : OpCode := 0x51
def op2 : OpCode := 0x52
def op3 : OpCode := 0x53
def op4 : OpCode := 0x54
def op5 : OpCode := 0x55
def op6 : OpCode := 0x56
def op7 : OpCode := 0x57
def op8 : OpCode := 0x58
def op9 : OpCode := 0x59
def op10 : OpCode := 0x5a
def op11 : OpCode := 0x5b
def op12 : OpCode := 0x5c
def op13 : OpCode := 0x5d
def op14 : OpCode := 0x5e
def op15 : OpCode := 0x5f
def op16 : OpCode := 0x60
def opNop : OpCode := 0x61
def opIf : OpCode := 0x63
def opNotIf : OpCode := 0x64
def opVerIf : OpCode := 0x65
def opVerNotIf : OpCode := 0x66
def opElse : OpCode := 0x67
def opEndIf : OpCode := 0x68
def opVerify : OpCode := 0x69
def opReturn : OpCode := 0x6a
def opToAltStack : OpCode := 0x6b
def opFromAltStack : OpCode := 0x6c
def op2Drop : OpCode := 0x6d
def op2Dup : OpCode := 0x6e
def op3Dup : OpCode := 0x6f
def op2Over : OpCode := 0x70
def op2Rot : OpCode := 0x71
def op2Swap : OpCode := 0x72
def opIfDup : OpCode := 0x73
def opDepth : OpCode := 0x74
def opDrop : OpCode := 0x75
def opDup : OpCode := 0x76
def opNip : OpCode := 0x77
def opOver : OpCode := 0x78
def opPick : OpCode := 0x79
def opRoll : OpCode := 0x7a
def opRot : OpCode := 0x7b
def opSwap : OpCode := 0x7c
def opTuck : OpCode := 0x7d
def opSize : OpCode := 0x82
def opEqual : OpCode := 0x87
def opEqualVerify : OpCode := 0x88
def op1Add : OpCode := 0x8b
def op1Sub : OpCode := 0x8c
def opNegate : OpCode := 0x8f
def opAbs : OpCode := 0x90
def opNot : OpCode := 0x91
def op0NotEqual : OpCode := 0x92
def opAdd : OpCode := 0x93
def opSub : OpCode := 0x94
def opBoolAnd : OpCode := 0x9a
def opBoolOr : OpCode := 0x9b
def opNumEqual : OpCode := 0x9c
def opNumEqualVerify : OpCode := 0x9d
def opNumNotEqual : OpCode := 0x9e
def opLessThan : OpCode := 0x9f
def opGreaterThan : OpCode := 0xa0
def opLessThanOrEqual : OpCode := 0xa1
def opGreaterThanOrEqual : OpCode := 0xa2
def opMin : OpCode := 0xa3
def opMax : OpCode := 0xa4
def opWithin : OpCode := 0xa5
def opRipemd160 : OpCode := 0xa6
def opSha1 : OpCode := 0xa7
def opSha256 : OpCode := 0xa8
def opHash160 : OpCode := 0xa9
def opHash256 : OpCode := 0xaa
def opCodeSeparator : OpCode := 0xab
def opCheckSig : OpCode := 0xac
def opCheckSigVerify : OpCode := 0xad
def opCheckMultiSig : OpCode := 0xae
def opCheckMultiSigVerify : OpCode := 0xaf
def opNop1 : OpCode := 0xb0
def opCheckLockTimeVerify : OpCode := 0xb1
def opCheckSequenceVerify : OpCode := 0xb2
def opNop4 : OpCode := 0xb3
def opNop5 : OpCode := 0xb4
def opNop6 : OpCode := 0xb5
def opNop7 : OpCode := 0xb6
def opNop8 : OpCode := 0xb7
def opNop9 : OpCode := 0xb8
def opNop10 : OpCode := 0xb9

end OpCode

abbrev ScriptData := Bytes

namespace Script

def MAX_SCRIPT_ELEMENT_SIZE : ℕ := 520
def MAX_OPS_PER_SCRIPT : ℕ := 201
def MAX_PUBKEYS_PER_MULTISIG : ℕ := 20
def MAX_SCRIPT_SIZE : ℕ := 10000
def MAX_STACK_SIZE : ℕ := 1000

/-- `operator<<(const std::vector<uint8_t>&)` on an empty script. The length is
narrowed to the width of its field. -/
def push (b : Bytes) : Bytes :=
  (if b.length < OpCode.opPushData1.toNat then [UInt8.ofNat b.length]
    else if b.length ≤ 0xff then OpCode.opPushData1 :: leBytes 1 b.length
    else if b.length ≤ 0xffff then OpCode.opPushData2 :: leBytes 2 b.length
    else OpCode.opPushData4 :: leBytes 4 b.length) ++ b

/-- The width of the length field behind a PUSHDATA opcode. -/
def lengthWidth (opcode : OpCode) : ℕ :=
  if opcode = OpCode.opPushData1 then 1 else if opcode = OpCode.opPushData2 then 2 else 4

/-- The size of the immediate operand, and the position after it is read. -/
def operandSize (opcode : OpCode) (pc : Bytes) : Option (ℕ × Bytes) :=
  if opcode < OpCode.opPushData1 then some (opcode.toNat,pc)
  else if pc.length < lengthWidth opcode then none
  else some (leValue (pc.take (lengthWidth opcode)),pc.drop (lengthWidth opcode))

/-- Read one instruction. The position comes back even when the reading fails;
the bytes left are compared as an `unsigned int`. -/
def getScriptOp : Bytes → Option (OpCode × ScriptData) × Bytes
  | [] => (none,[])
  | opcode :: pc =>
    if opcode ≤ OpCode.opPushData4 then
      match operandSize opcode pc with
      | none => (none,pc)
      | some (nSize,pc) =>
        if pc.length % 2^32 < nSize then (none,pc)
        else (some (opcode,pc.take nSize),pc.drop nSize)
    else (some (opcode,[]),pc)

/-- Step over the needle as long as it stands at the position. -/
def skipNeedle (needle : Bytes) : ℕ → Bytes → ℕ × Bytes
  | 0, pc => (0,pc)
  | fuel+1, pc =>
    if needle.length < pc.length ∧ pc.take needle.length = needle then
      let r := skipNeedle needle fuel (pc.drop needle.length)
      (r.1+1,r.2)
    else (0,pc)

/-- The do-while loop of `FindAndDelete`: `pc2` is where the uncopied bytes start. -/
def findAndDeleteLoop (needle : Bytes) : ℕ → Bytes → Bytes → Bytes → ℕ → ℕ × Bytes × Bytes
  | 0, pc2, _, result, found => (found,result,pc2)
  | fuel+1, pc2, pc, result, found =>
    let result := result ++ pc2.take (pc2.length - pc.length)
    let skipped := skipNeedle needle pc.length pc
    match getScriptOp skipped.2 with
    | (none,_) => (found+skipped.1,result,skipped.2)
    | (some _,next) => findAndDeleteLoop needle fuel skipped.2 next result (found+skipped.1)

/-- The number of removals and the script after them. -/
def findAndDelete (haystack needle : Bytes) : ℕ × Bytes :=
  if needle = [] then (0,haystack)
  else
    let r := findAndDeleteLoop needle (haystack.length+1) haystack haystack [] 0
    if r.1 > 0 then (r.1,r.2.1 ++ r.2.2) else (0,haystack)

theorem operandSize_length {opcode : OpCode} {pc pc' : Bytes} {n : ℕ}
    (h : operandSize opcode pc = some (n,pc')) : pc'.length ≤ pc.length := by
  unfold operandSize at h
  split_ifs at h
  · have hp : opcode.toNat = n ∧ pc = pc' := by simpa using h
    rw [hp.2]
  · have hp : leValue (pc.take (lengthWidth opcode)) = n ∧ pc.drop (lengthWidth opcode) = pc' := by
      simpa using h
    rw [← hp.2,List.length_drop]
    omega

/-- Reading never goes back, and a read instruction takes at least its opcode. -/
theorem getScriptOp_length {pc pc' : Bytes} {r : OpCode × ScriptData}
    (h : getScriptOp pc = (some r,pc')) : pc'.length < pc.length := by
  cases pc with
  | nil => simp [getScriptOp] at h
  | cons opcode pc =>
    simp only [getScriptOp] at h
    split at h
    · cases ho : operandSize opcode pc with
      | none => simp [ho] at h
      | some p =>
        obtain ⟨n,q⟩ := p
        have hl := operandSize_length ho
        simp only [ho] at h
        split at h
        · simp at h
        · have hp : q.drop n = pc' := congrArg Prod.snd h
          rw [← hp,List.length_drop,List.length_cons]
          omega
    · have hp : pc = pc' := congrArg Prod.snd h
      simp [hp]

end Script
end Tkeycoin
