import Tkeycoin.Script

/-! Stack frames hold a number or bytes and convert on demand. -/
namespace Tkeycoin

inductive StackFrame
  | number (n : ScriptNum)
  | data (d : ScriptData)
  deriving DecidableEq

namespace StackFrame

def isData : StackFrame → Bool
  | number _ => false
  | data _ => true

/-- The non-constant `asData()`. -/
def asData : StackFrame → ScriptData
  | number n => n.getvch
  | data d => d

/-- The non-constant `asNumber()`: a number is taken as it is, whatever its size. -/
def asNumber (requireMinimizeData : Bool) : StackFrame → Except ScriptError ScriptNum
  | number n => .ok n
  | data d => ScriptNum.ofData d requireMinimizeData ScriptNum.nDefaultMaxNumSize

/-- `CastToBool`. Bytes are true when any of them is, the sign of a zero included. -/
def castToBool : StackFrame → Bool
  | number n => n._value != 0
  | data d => d.any (· != 0)

@[simp] theorem asData_data (d : ScriptData) : (data d).asData = d := rfl

@[simp] theorem asData_number (n : ScriptNum) : (number n).asData = n.getvch := rfl

/-- Writing a number out as bytes does not change its truth value. -/
@[simp] theorem castToBool_getvch (n : ScriptNum) :
    (data n.getvch).castToBool = (number n).castToBool := by
  have h := ScriptNum.serialize_any_ne_zero n._value
  simpa [castToBool,ScriptNum.getvch] using h

end StackFrame
end Tkeycoin
