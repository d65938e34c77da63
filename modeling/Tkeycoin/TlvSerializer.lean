import Tkeycoin.JsonSerializer

/-! `TlvSerializer`: values behind tokens, with strings, arrays and objects up to a token of their end. -/
namespace Tkeycoin
namespace TlvSerializer

open Scanner

namespace Token

def END : UInt8 := 0
def FALSE : UInt8 := 1
def TRUE : UInt8 := 2
def NULL : UInt8 := 3
def ZERO : UInt8 := 10
def NEG_INT_8 : UInt8 := 11
def POS_INT_8 : UInt8 := 12
def NEG_INT_16 : UInt8 := 13
def POS_INT_16 : UInt8 := 14
def NEG_INT_32 : UInt8 := 15
def POS_INT_32 : UInt8 := 16
def NEG_INT_64 : UInt8 := 17
def POS_INT_64 : UInt8 := 18
def FLOAT_32 : UInt8 := 23
def FLOAT_64 : UInt8 := 24
def STRING : UInt8 := 30
def ARRAY : UInt8 := 40
def OBJECT : UInt8 := 50
def BINARY_255 : UInt8 := 81
def BINARY_64K : UInt8 := 82
def BINARY_4G : UInt8 := 83

end Token

/-- How the serializer stops early: by a `std::runtime_error`, or with undefined behaviour. -/
inductive Fault
  | thrown (msg : Bytes) | undefined
  deriving DecidableEq

abbrev Decoder (α : Type) := Scanner Fault α

section Decoding

variable {α : Type}

def fail (msg : String) : Decoder α := raise (.thrown (text msg))

/-- `what()`, as C strings are read. -/
def what (msg : Bytes) : Bytes := msg.takeWhile (· ≠ 0)

/-- `catch`, and an exception with its context. -/
def catching (context : String) (x : Decoder α) : Decoder α := fun s =>
  match x s with
  | .error (.thrown (.thrown e)) => .error (.thrown (.thrown (text context ++ what e)))
  | r => r

def putUtf8Symbol (symbol : UInt32) : Bytes := JsonSerializer.putUnicodeSymbolAsUtf8 symbol

/-- `while (--bytes > 0)`. -/
def followBytes : ℕ → UInt32 → Decoder UInt32
  | 0, chr => pure chr
  | bytes+1, chr => do
    if ← eof then fail "Unxpected end of data during parse utf8 symbol"
    else
      match ← getChar with
      | some c =>
        if c &&& 0xc0 = 0x80 then followBytes bytes ((chr <<< 6) ||| (c &&& 0x3f).toUInt32)
        else fail "Bad symbol in string value"
      | none => fail "Bad symbol in string value"

/-- A control character that a string may not have. -/
def isControl (c : UInt8) : Bool := c < 0x20 && c != 0x09 && c != 0x0d && c != 0x0a

/-- A symbol of a string, or the token of its end. -/
def decodeChar (str : Bytes) : Decoder (Bytes ⊕ Bytes) := do
  let c ← peekChar
  match c with
  | none => fail "Unexpect out of data during parse string value"
  | some c =>
    if c = Token.END then
      ignore
      pure (.inr str)
    else if isControl c then fail "Bad symbol in string value"
    else if c > 0xfd then fail "Bad symbol in string value"
    else if c < 0x80 then
      ignore
      pure (.inl (str ++ [c]))
    else
      ignore
      match JsonSerializer.leadByte c with
      | some (bytes,chr) =>
        let chr ← followBytes bytes chr
        pure (.inl (str ++ putUtf8Symbol chr))
      | none => fail "Bad symbol in string value"

def decodeString : Decoder Bytes := do
  let token ← getChar
  if token ≠ some Token.STRING then fail "Wrong token for open string" else loop decodeChar []

/-- `is.read()`, which leaves what it does not get undefined. -/
def readBytes : ℕ → Bytes → Decoder Bytes
  | 0, bytes => pure bytes
  | size+1, bytes => do
    match ← getChar with
    | some c => readBytes size (bytes ++ [c])
    | none => raise .undefined

/-- `SBinary(const std::string&)`: room is reserved and the characters are copied there, but none comes into the
vector. -/
def SBinary.ofString (_value : Bytes) : Bytes := []

/-- Bytes one after another. One that is not there is `0xff`. -/
def binaryBytes : ℕ → Bytes → Decoder Bytes
  | 0, bin => pure bin
  | size+1, bin => do
    let atEnd ← eof
    let next ← if atEnd then pure (some 0) else peekChar
    if next = none then fail "Unexpect out of data during parse binary data"
    else
      let c ← getChar
      binaryBytes size (bin ++ [c.getD 0xff])

/-- The size behind the token of a binary. -/
def binarySize (token : Option UInt8) : Decoder ℕ := do
  if token = some Token.BINARY_255 then
    let c ← getChar
    pure (c.getD 0xff).toNat
  else if token = some Token.BINARY_64K then
    let size_le ← readBytes 2 []
    pure (leValue size_le)
  else if token = some Token.BINARY_4G then
    let size_le ← readBytes 4 []
    pure (leValue size_le)
  else fail "Wrong token for open binary"

def decodeBinary : Decoder Bytes := do
  let token ← getChar
  let size ← binarySize token
  let bin ← binaryBytes size []
  pure (SBinary.ofString bin)

def decodeBool : Decoder Bool := do
  let token ← getChar
  if token = some Token.TRUE then pure true
  else if token = some Token.FALSE then pure false
  else fail "Wrong token for boolean value"

def decodeNull : Decoder Unit := do
  let token ← getChar
  if token ≠ some Token.NULL then fail "Wrong token for null value" else pure ()

/-- Whether an integer is negative, and of how many bytes it is. -/
def integerToken (token : Option UInt8) : Option (Bool × ℕ) :=
  if token = some Token.NEG_INT_64 then some (true,8)
  else if token = some Token.POS_INT_64 then some (false,8)
  else if token = some Token.NEG_INT_32 then some (true,4)
  else if token = some Token.POS_INT_32 then some (false,4)
  else if token = some Token.NEG_INT_16 then some (true,2)
  else if token = some Token.POS_INT_16 then some (false,2)
  else if token = some Token.NEG_INT_8 then some (true,1)
  else if token = some Token.POS_INT_8 then some (false,1)
  else if token = some Token.ZERO then some (false,0)
  else none

/-- The bytes of a number. -/
def numberBytes : ℕ → Bytes → Decoder Bytes
  | 0, data => pure data
  | bytes+1, data => do
    match ← getChar with
    | some c => numberBytes bytes (data ++ [c])
    | none => fail "Unexpect out of data during parse number value"

/-- The product is an `uint64_t`, and the value an `int64_t`. -/
def decodeInteger : Decoder ℤ := do
  let token ← getChar
  match integerToken token with
  | some (negative,bytes) =>
    let data ← numberBytes bytes []
    pure (((if negative then -1 else 1) * (leValue data : ℤ)).bmod (2^64))
  | none => fail "Wrong token for integer value"

/-- A floating point value is left as its bytes. -/
def decodeFloat : Decoder Bytes := do
  let token ← getChar
  if token = some Token.FLOAT_32 then numberBytes 4 []
  else if token = some Token.FLOAT_64 then numberBytes 8 []
  else fail "Wrong token for float value"

section Containers

variable (value : Decoder SVal)

/-- What follows an element or field: the end of its container, or another. -/
def nextOrEnd {β : Type} (goOn : β) (container : SVal) : Decoder (β ⊕ SVal) := do
  let c ← peekChar
  if c = some Token.END then
    ignore
    pure (.inr container)
  else pure (.inl goOn)

def decodeField (obj : List (Bytes × SVal)) : Decoder (List (Bytes × SVal) ⊕ SVal) := do
  if ← eof then fail "Unexpect out of data during parse object"
  else
    let key ← catching "Can't parse field-key of object ← " decodeString
    let field ← catching "Can't parse field-value of object ← " value
    nextOrEnd (SObj.emplace key field obj) (.obj (SObj.emplace key field obj))

def decodeObject : Decoder SVal := do
  let token ← getChar
  if token ≠ some Token.OBJECT then fail "Wrong token for open object"
  else
    let c ← peekChar
    if c = some Token.END then
      ignore
      pure (.obj [])
    else loop (decodeField value) []

def decodeElement (arr : List SVal) : Decoder (List SVal ⊕ SVal) := do
  if ← eof then fail "Unexpect out of data during parse array"
  else
    let element ← catching "Can't parse element of array ← " value
    nextOrEnd (arr ++ [element]) (.arr (arr ++ [element]))

def decodeArray : Decoder SVal := do
  let token ← getChar
  if token ≠ some Token.ARRAY then fail "Wrong token for open array"
  else
    let c ← peekChar
    if c = some Token.END then
      ignore
      pure (.arr [])
    else loop (decodeElement value) []

/-- What `decodeValue` does at a token. -/
def valueAt (token : Option UInt8) : Decoder SVal :=
  if token = some Token.FALSE ∨ token = some Token.TRUE then .bool <$> decodeBool
  else if token = some Token.NULL then (fun _ => .null) <$> decodeNull
  else if (integerToken token).isSome then .int <$> decodeInteger
  else if token = some Token.FLOAT_32 ∨ token = some Token.FLOAT_64 then .float <$> decodeFloat
  else if token = some Token.STRING then .str <$> decodeString
  else if token = some Token.ARRAY then decodeArray value
  else if token = some Token.OBJECT then decodeObject value
  else if token = some Token.BINARY_255 ∨ token = some Token.BINARY_64K ∨ token = some Token.BINARY_4G then
    .binary <$> decodeBinary
  else fail "Unknown token at parse value"

end Containers

/-- Values nest up to a depth. -/
def decodeValue : ℕ → Decoder SVal
  | 0 => throw .endless
  | depth+1 => do
    if ← eof then fail "Unexpect out of data during parse value"
    else
      let token ← peekChar
      valueAt (decodeValue depth) token

/-- No value nests deeper than its bytes are many. -/
def decodeStream (strict : Bool) (depth : ℕ) : Decoder SVal := do
  let atEnd ← eof
  let next ← if atEnd then pure none else peekChar
  if next = none then fail "No data for parsing"
  else
    catching "Can't decode TLV ← " do
      let value ← decodeValue depth
      let atEnd ← eof
      if !atEnd && strict then fail "Redundant bytes after parsed data" else pure value

def decode (strict : Bool) (data : Bytes) : Except (Failure Fault) SVal :=
  ((decodeStream strict (data.length + 1)).run (.ofBytes data)).map Prod.fst

end Decoding

section Encoding

def encodeString (value : Bytes) : Bytes := Token.STRING :: value ++ [Token.END]

def encodeBinary (bin : Bytes) : Except Fault Bytes :=
  if bin.length ≤ 0xff then .ok (Token.BINARY_255 :: leBytes 1 bin.length ++ bin)
  else if bin.length ≤ 0xffff then .ok (Token.BINARY_64K :: leBytes 2 bin.length ++ bin)
  else if bin.length ≤ 0xffffffff then .ok (Token.BINARY_4G :: leBytes 4 bin.length ++ bin)
  else .error (.thrown (text "Too long binary data"))

/-- `llabs` is not defined for the least `int64_t`. -/
def encodeNumber (value : ℤ) : Except Fault Bytes :=
  if value = 0 then .ok [Token.ZERO]
  else if value = -2^63 then .error .undefined
  else
    let negative := value < 0
    let absValue := value.natAbs
    if absValue ≤ 0xff then .ok ((if negative then Token.NEG_INT_8 else Token.POS_INT_8) :: leBytes 1 absValue)
    else if absValue ≤ 0xffff then .ok ((if negative then Token.NEG_INT_16 else Token.POS_INT_16) :: leBytes 2 absValue)
    else if absValue ≤ 0xffffffff then
      .ok ((if negative then Token.NEG_INT_32 else Token.POS_INT_32) :: leBytes 4 absValue)
    else .ok ((if negative then Token.NEG_INT_64 else Token.POS_INT_64) :: leBytes 8 absValue)

-- what `encodeNumber` writes for a floating point number
variable (float : Bytes → Except Fault Bytes)

mutual

def encodeValue : SVal → Except Fault Bytes
  | .str value => .ok (encodeString value)
  | .int value => encodeNumber value
  | .float literal => float literal
  | .obj fields => (encodeFields fields).map fun members => Token.OBJECT :: members ++ [Token.END]
  | .arr elements => (encodeElements elements).map fun members => Token.ARRAY :: members ++ [Token.END]
  | .bool value => .ok [if value then Token.TRUE else Token.FALSE]
  | .null => .ok [Token.NULL]
  | .binary value => encodeBinary value
  | .undefined => .error (.thrown (text "Unknown value type"))

def encodeElements : List SVal → Except Fault Bytes
  | [] => .ok []
  | element :: elements => do
    let first ← encodeValue element
    let more ← encodeElements elements
    pure (first ++ more)

/-- Keys are written as strings are. -/
def encodeFields : List (Bytes × SVal) → Except Fault Bytes
  | [] => .ok []
  | (key,value) :: fields => do
    let first ← encodeValue value
    let more ← encodeFields fields
    pure (encodeString key ++ first ++ more)

end

def encode (value : SVal) : Except Fault Bytes :=
  (encodeValue float value).mapError fun
    | .thrown e => .thrown (text "Can't encode into TLV ← " ++ what e)
    | .undefined => .undefined

end Encoding

end TlvSerializer
end Tkeycoin
