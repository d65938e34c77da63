import Tkeycoin.LittleEndian
import Tkeycoin.TextStream

/-! `JsonSerializer`: decoding of values from a text stream, with its errors, and encoding. -/
namespace Tkeycoin

/-- `SVal`. A floating point value is left as the literal it is read from. -/
inductive SVal
  | undefined
  | null
  | bool (value : Bool)
  | int (value : ℤ)
  | float (literal : Bytes)
  | str (value : Bytes)
  | binary (value : Bytes)
  | arr (elements : List SVal)
  | obj (fields : List (Bytes × SVal))

/-- The exceptions derived from `std::exception`. -/
inductive StdException
  | runtimeError (msg : Bytes)
  | jsonParse (msg : Bytes)
  | badAlloc
  deriving DecidableEq

def text (s : String) : Bytes := s.toUTF8.data.toList

/-- `what()`, as C strings are read. -/
def StdException.what : StdException → Bytes
  | runtimeError msg => msg.takeWhile (· ≠ 0)
  | jsonParse msg => msg.takeWhile (· ≠ 0)
  | badAlloc => text "std::bad_alloc"

namespace SObj

/-- `emplace` of `std::map`: fields in the order of their keys, and a key that is there
already keeps its value. -/
def emplace (key : Bytes) (value : SVal) : List (Bytes × SVal) → List (Bytes × SVal)
  | [] => [(key,value)]
  | field :: fields =>
    if key = field.1 then field :: fields
    else if key.map UInt8.toNat < field.1.map UInt8.toNat then (key,value) :: field :: fields
    else field :: emplace key value fields

end SObj

namespace Base64

def isBase64 (c : UInt8) : Bool :=
  (0x30 ≤ c && c ≤ 0x39) || (0x41 ≤ c && c ≤ 0x5a) || (0x61 ≤ c && c ≤ 0x7a) || c == 0x2b || c == 0x2f

/-- `base64_chars.find`, cut to a byte. -/
def find (c : UInt8) : UInt8 :=
  if 0x41 ≤ c ∧ c ≤ 0x5a then c - 0x41
  else if 0x61 ≤ c ∧ c ≤ 0x7a then c - 0x61 + 26
  else if 0x30 ≤ c ∧ c ≤ 0x39 then c - 0x30 + 52
  else if c = 0x2b then 62
  else if c = 0x2f then 63
  else 255

def quartet (c₀ c₁ c₂ c₃ : UInt8) : Bytes :=
  [(find c₀ <<< 2) + ((find c₁ &&& 0x30) >>> 4),
    ((find c₁ &&& 0x0f) <<< 4) + ((find c₂ &&& 0x3c) >>> 2),
    ((find c₂ &&& 0x03) <<< 6) + find c₃]

def decodeQuartets : Bytes → Bytes
  | c₀ :: c₁ :: c₂ :: c₃ :: rest => quartet c₀ c₁ c₂ c₃ ++ decodeQuartets rest
  | [c₀,c₁,c₂] => (quartet c₀ c₁ c₂ 0).take 2
  | [c₀,c₁] => (quartet c₀ c₁ 0 0).take 1
  | _ => []

/-- Other characters are skipped, and the first `=` ends the data. -/
def decode (encoded : Bytes) : Bytes := decodeQuartets ((encoded.takeWhile (· ≠ 0x3d)).filter isBase64)

/-- A character of `base64_chars`. -/
def symbol (n : UInt8) : UInt8 :=
  if n < 26 then 0x41 + n
  else if n < 52 then 0x61 + (n - 26)
  else if n < 62 then 0x30 + (n - 52)
  else if n = 62 then 0x2b
  else 0x2f

def symbols (b₀ b₁ b₂ : UInt8) : Bytes :=
  [symbol ((b₀ &&& 0xfc) >>> 2),symbol (((b₀ &&& 0x03) <<< 4) + ((b₁ &&& 0xf0) >>> 4)),
    symbol (((b₁ &&& 0x0f) <<< 2) + ((b₂ &&& 0xc0) >>> 6)),symbol (b₂ &&& 0x3f)]

def encode : Bytes → Bytes
  | b₀ :: b₁ :: b₂ :: rest => symbols b₀ b₁ b₂ ++ encode rest
  | [b₀,b₁] => (symbols b₀ b₁ 0).take 3 ++ [0x3d]
  | [b₀] => (symbols b₀ 0 0).take 2 ++ [0x3d,0x3d]
  | [] => []

end Base64

namespace JsonSerializer

open Scanner

abbrev Decoder (α : Type) := Scanner StdException α

def quote : UInt8 := 0x22
def backslash : UInt8 := 0x5c
def comma : UInt8 := 0x2c
def colon : UInt8 := 0x3a
def minus : UInt8 := 0x2d
def point : UInt8 := 0x2e
def question : UInt8 := 0x3f
def equal : UInt8 := 0x3d
def openObject : UInt8 := 0x7b
def closeObject : UInt8 := 0x7d
def openArray : UInt8 := 0x5b
def closeArray : UInt8 := 0x5d

def isSpace (c : UInt8) : Bool := c == 0x20 || (0x09 ≤ c && c ≤ 0x0d)

def isDigit (c : UInt8) : Bool := 0x30 ≤ c && c ≤ 0x39

/-- `std::to_string(pos)`, with the position of a stream that has none converted to `size_t`. -/
def positionText : Option ℕ → Bytes
  | some pos => text (toString pos)
  | none => text "18446744073709551615"

/-- The characters near a position, up to twenty of them as they are written. -/
def nearText : Bytes → Bytes → Bytes
  | [], near => near
  | c :: rest, near =>
    if near.length < 20 then
      nearText rest (near ++
        if c = 0x09 then text "\\t"
        else if c = 0x0a then text "\\n"
        else if c = 0x0d then text "\\r"
        else if c = 0x08 then text "\\b"
        else if c = 0x0c then text "\\f"
        else [c])
    else near

section Errors

variable {α : Type}

/-- `JsonParseExeption(msg)`. -/
def fail (msg : Bytes) : Decoder α := raise (.jsonParse msg)

/-- `JsonParseExeption(msg, is.tellg())`. -/
def failAt (msg : String) (pos : Option ℕ) : Decoder α :=
  fail (text msg ++ text " at position " ++ positionText pos)

/-- `JsonParseExeption(msg, pos, is)`. -/
def failNear (msg : String) (pos : Option ℕ) : Decoder α := do
  let s ← get
  let remain := match pos with
    | some p => nearText (s.data.drop p) []
    | none => []
  fail (text msg ++ text " at position " ++ positionText pos ++ text " (remain: '" ++ remain ++ text "')")

/-- The error where the stream stands. -/
def failHere (msg : String) : Decoder α := do
  let pos ← tellg
  failAt msg pos

/-- The error where the stream stands, with the characters from there. -/
def failNearHere (msg : String) : Decoder α := do
  let pos ← tellg
  failNear msg pos

/-- `catch (const std::runtime_error&)`, which no parse error is. -/
def catchRuntimeError (context : String) (x : Decoder α) : Decoder α := fun s =>
  match x s with
  | .error (.thrown (.runtimeError msg)) =>
    .error (.thrown (.jsonParse (text context ++ (StdException.runtimeError msg).what)))
  | r => r

end Errors

/-- Go on with `a`, or leave the loop. -/
def again {α β : Type} (b : β) : Decoder (β ⊕ α) := pure (.inl b)

def done {α β : Type} (a : α) : Decoder (β ⊕ α) := pure (.inr a)

def skipSpaces : Decoder Unit := skipWhile isSpace

/-- `is.get()` is each of the characters in turn, up to the first that is another. -/
def getAll : Bytes → Decoder Bool
  | [] => pure true
  | c :: rest => do
    let got ← getChar
    if got = some c then getAll rest else pure false

def skipDigits : Decoder Unit := skipWhile isDigit

/-- What `std::istream` reads of a number: the characters from here on that can be part
of one. A stream that ends there has no more data. -/
def readLiteral (accepts : UInt8 → Bool) : Decoder Bytes := do
  let s ← get
  if s.good then
    let literal := (s.data.drop s.pos).takeWhile accepts
    set { s with pos := s.pos + literal.length, eofbit := s.pos + literal.length == s.data.length }
    pure literal
  else pure []

/-- The value of a decimal literal. -/
def digitsValue (digits : Bytes) : ℤ := digits.foldl (fun n c => 10 * n + (c.toNat - 0x30)) 0

def literalValue : Bytes → ℤ
  | [] => 0
  | c :: digits => if c = minus then -digitsValue digits else digitsValue (c :: digits)

/-- `is >> value` for `int64_t`. A literal beyond its range is a failure with the nearest value. -/
def readInt : Decoder ℤ := do
  let literal ← readLiteral fun c => c == minus || isDigit c
  let value := literalValue literal
  if value < -2^63 then
    modify fun s => { s with failbit := true }
    pure (-2^63)
  else if 2^63 ≤ value then
    modify fun s => { s with failbit := true }
    pure (2^63-1)
  else pure value

/-- `is >> value` for `double`, where `fits` tells the literals within its range. -/
def readFloat (fits : Bytes → Bool) : Decoder Bytes := do
  let literal ← readLiteral fun c => c == minus || c == 0x2b || c == point || c == 0x65 || c == 0x45 || isDigit c
  if fits literal then pure literal
  else
    modify fun s => { s with failbit := true }
    pure literal

def putUnicodeSymbolAsUtf8 (symbol : UInt32) : Bytes :=
  let part (lead mask : UInt32) (shift : UInt32) : UInt8 := (lead ||| (mask &&& (symbol >>> shift))).toUInt8
  if symbol ≤ 0x7f then [symbol.toUInt8]
  else if symbol ≤ 0x7ff then [part 0xc0 0x1f 6,part 0x80 0x3f 0]
  else if symbol ≤ 0xffff then [part 0xe0 0x0f 12,part 0x80 0x3f 6,part 0x80 0x3f 0]
  else if symbol ≤ 0x1fffff then [part 0xf0 0x07 18,part 0x80 0x3f 12,part 0x80 0x3f 6,part 0x80 0x3f 0]
  else if symbol ≤ 0x3ffffff then
    [part 0xf8 0x03 24,part 0x80 0x3f 18,part 0x80 0x3f 12,part 0x80 0x3f 6,part 0x80 0x3f 0]
  else if symbol ≤ 0x7fffffff then
    [part 0xfc 0x01 30,part 0x80 0x3f 24,part 0x80 0x3f 18,part 0x80 0x3f 12,part 0x80 0x3f 6,part 0x80 0x3f 0]
  else []

def hexDigit (c : UInt8) : Option UInt32 :=
  if 0x30 ≤ c ∧ c ≤ 0x39 then some (c - 0x30).toUInt32
  else if 0x41 ≤ c ∧ c ≤ 0x46 then some (10 + c - 0x41).toUInt32
  else if 0x61 ≤ c ∧ c ≤ 0x66 then some (10 + c - 0x61).toUInt32
  else none

/-- The digits of `\uXXXX`. -/
def hexDigits : ℕ → UInt32 → Decoder UInt32
  | 0, val => pure val
  | n+1, val => do
    if ← eof then failHere "Unxpected end of data during parse escaped-sequence of utf8 symbol"
    else
      let c ← getChar
      match c.bind hexDigit with
      | some digit => hexDigits n ((val <<< 4) ||| digit)
      | none =>
        seekBack 1
        failNearHere "Wrong token for escaped-sequece of utf8 symbol"

/-- The symbols a backslash and one character stand for. -/
def escapes : List (UInt8 × UInt32) :=
  [(quote,0x22),(backslash,0x5c),(0x2f,0x2f),(0x62,0x08),(0x66,0x0c),(0x6e,0x0a),(0x74,0x09),(0x72,0x0d)]

def decodeEscaped : Decoder UInt32 := do
  let c ← getChar
  if c ≠ some backslash then
    seekBack 1
    failNearHere "Wrong token for start escaped-sequence"
  else if ← eof then failHere "Unexpected end of data during try parse escaped symbol"
  else
    let c ← getChar
    match c.bind (List.lookup · escapes) with
    | some symbol => pure symbol
    | none =>
      if c = some 0x75 then hexDigits 4 0
      else
        seekBack 1
        failNearHere "Wrong token for escaped-sequece"

/-- The symbol of an escaped sequence, or of the two that make a surrogate pair. -/
def decodeSymbol (pos : Option ℕ) : Decoder UInt32 := do
  let symbol ← decodeEscaped
  if 0xd800 ≤ symbol ∧ symbol ≤ 0xdfff then
    if symbol &&& 0xfc00 ≠ 0xd800 then
      failAt "Bad escaped symbol: wrong for first byte of utf-16 surrogate pair" pos
    else
      let symbol2 ← decodeEscaped
      if symbol2 &&& 0xfc00 ≠ 0xdc00 then
        failAt "Bad escaped symbol: wrong for second byte of utf-16 surrogate pair" pos
      else pure (((((symbol >>> 6) &&& 0x0f) + 1) <<< 16) ||| ((symbol &&& 0x3f) <<< 10) ||| (symbol2 &&& 0x3ff))
  else pure symbol

/-- How many bytes follow the first of a symbol, and what that one carries of it. -/
def leadByte (c : UInt8) : Option (ℕ × UInt32) :=
  if c &&& 0xfc = 0xfc then some (5,(c &&& 0x01).toUInt32)
  else if c &&& 0xf8 = 0xf8 then some (4,(c &&& 0x03).toUInt32)
  else if c &&& 0xf0 = 0xf0 then some (3,(c &&& 0x07).toUInt32)
  else if c &&& 0xe0 = 0xe0 then some (2,(c &&& 0x0f).toUInt32)
  else if c &&& 0xc0 = 0xc0 then some (1,(c &&& 0x1f).toUInt32)
  else none

/-- `while (--bytes > 0)`. -/
def followBytes : ℕ → UInt32 → Decoder UInt32
  | 0, chr => pure chr
  | bytes+1, chr => do
    if ← eof then failHere "Unxpected end of data during parse utf8 symbol"
    else
      match ← getChar with
      | some c =>
        if c &&& 0xc0 = 0x80 then followBytes bytes ((chr <<< 6) ||| (c &&& 0x3f).toUInt32)
        else
          seekBack 1
          failHere "Bad symbol in string value: invalid utf8 byte"
      | none =>
        seekBack 1
        failHere "Bad symbol in string value: invalid utf8 byte"

/-- A character of a string, or its closing quote. -/
def decodeChar (str : Bytes) : Decoder (Bytes ⊕ Bytes) := do
  if ← eof then failHere "Unexpected out of data during parse string value"
  else
    match ← getChar with
    | none =>
      seekBack 1
      failHere "Bad symbol in string value: control symbol"
    | some c =>
      if c = quote then done str
      else if c = backslash then
        seekBack 1
        let pos ← tellg
        let symbol ← decodeSymbol pos
        again (str ++ putUnicodeSymbolAsUtf8 symbol)
      else if c < 0x20 ∧ isSpace c = false then
        seekBack 1
        failHere "Bad symbol in string value: control symbol"
      else if c > 0xfd then
        seekBack 1
        failHere "Bad symbol in string value: prohibited utf8 byte"
      else if c < 0x80 then again (str ++ [c])
      else
        match leadByte c with
        | none =>
          seekBack 1
          failHere "Bad symbol in string value: invalid utf8 byte"
        | some (bytes,chr) =>
          let chr ← followBytes bytes chr
          again (str ++ putUnicodeSymbolAsUtf8 chr)

def decodeString : Decoder Bytes := do
  let c ← getChar
  if c ≠ some quote then
    seekBack 1
    failNearHere "Wrong token for open string"
  else loop decodeChar []

/-- `"=?B?`, which opens a base64-encoded binary string. -/
def openBinary : Bytes := [quote,equal,question,0x42,question]

/-- A character of a binary string, or the two that close it behind a question mark. -/
def decodeBinaryChar (b64 : Bytes) : Decoder (Bytes ⊕ Bytes) := do
  if ← eof then failHere "Unexpected out of data during parse base64-encoded binary string"
  else
    match ← getChar with
    | none => failHere "Unexpected out of data during parse base64-encoded binary string"
    | some c =>
      if c = quote then
        seekBack 1
        failNearHere "Wrong token for close base64-encoded binary string"
      else if c = question then
        let c ← getChar
        if c ≠ some equal then
          seekBack 2
          failNearHere "Wrong token for close base64-encoded binary string"
        else
          let c ← getChar
          if c ≠ some quote then
            seekBack 3
            failNearHere "Wrong token for close base64-encoded binary string"
          else done (Base64.decode b64)
      else again (b64 ++ [c])

def decodeBinary : Decoder Bytes := do
  let pos ← tellg
  if ← getAll openBinary then loop decodeBinaryChar []
  else failNear "Wrong token for open base64-encoded binary string" pos

def expectDigits : Decoder Unit := do
  let c ← peekChar
  if c.any isDigit then skipDigits else failNearHere "Wrong token for numeric value"

/-- What may stand behind a number. -/
def endsNumber (c : Option UInt8) : Decoder Bool := do
  let atEnd ← eof
  pure (c == some comma || c == some closeArray || c == some closeObject || c.any isSpace || atEnd)

def skipSign (sign : UInt8 → Bool) : Decoder Unit := do
  let c ← peekChar
  if c.any sign then ignore else pure ()

def scanFraction : Decoder Unit := do
  let c ← peekChar
  if c = some point then
    ignore
    expectDigits
  else pure ()

def scanExponent : Decoder Unit := do
  let c ← peekChar
  if c = some 0x65 ∨ c = some 0x45 then
    ignore
    skipSign fun c => c == minus || c == 0x2b
    expectDigits
  else pure ()

/-- Look over a number: whether it has a fraction or an exponent. -/
def scanNumber : Decoder Bool := do
  skipSign (· == minus)
  expectDigits
  let c ← peekChar
  scanFraction
  scanExponent
  let next ← peekChar
  if ← endsNumber next then pure (c == some point || c == some 0x65 || c == some 0x45)
  else failNearHere "Wrong token for numeric value"

/-- The rest of `true` or `false`. -/
def restOfBool (c : Option UInt8) : Decoder Bool :=
  if c = some 0x74 then getAll [0x72,0x75,0x65]
  else if c = some 0x66 then getAll [0x61,0x6c,0x73,0x65]
  else pure false

def decodeBool : Decoder SVal := do
  let c ← getChar
  if ← restOfBool c then pure (.bool (c == some 0x74))
  else if ← eof then failHere "Unexpected end of data during try parse boolean value"
  else
    seekBack 1
    failNearHere "Wrong token for boolean value"

def decodeNull : Decoder SVal := do
  if ← getAll [0x6e,0x75,0x6c,0x6c] then pure .null
  else if ← eof then failHere "Unexpected end of data during try parse null value"
  else
    seekBack 1
    failNearHere "Wrong token for null value"

/-- What separates the elements of an array or object from each other and from its end. -/
def separator {α β : Type} (close : UInt8) (wrong : String) (goOn : β) (value : α) : Decoder (β ⊕ α) := do
  skipSpaces
  let c ← getChar
  if c = some comma then
    skipSpaces
    again goOn
  else if c = some close then done value
  else
    seekBack 1
    failNearHere wrong

section Values

variable (value : Decoder SVal)

/-- A field of an object. -/
def decodeField (obj : List (Bytes × SVal)) : Decoder (List (Bytes × SVal) ⊕ SVal) := do
  if ← eof then failHere "Unexpected out of data during parse object"
  else
    let key ← catchRuntimeError "Can't parse field-key of object ← " decodeString
    skipSpaces
    let c ← getChar
    if c ≠ some colon then
      seekBack 1
      failNearHere "Wrong token after field-key of object"
    else
      skipSpaces
      let field ← catchRuntimeError "Can't parse field-value of object ← " value
      let obj := SObj.emplace key field obj
      separator closeObject "Wrong token after field-value of object" obj (.obj obj)

def decodeObject : Decoder SVal := do
  let c ← getChar
  if c ≠ some openObject then
    seekBack 1
    failNearHere "Wrong token for open object"
  else
    skipSpaces
    let c ← peekChar
    if c = some closeObject then
      ignore
      pure (.obj [])
    else loop (decodeField value) []

/-- An element of an array. -/
def decodeElement (arr : List SVal) : Decoder (List SVal ⊕ SVal) := do
  if ← eof then failHere "Unexpected out of data during parse array"
  else
    let element ← catchRuntimeError "Can't parse element of array ← " value
    let arr := arr ++ [element]
    separator closeArray "Wrong token after element of array" arr (.arr arr)

def decodeArray : Decoder SVal := do
  let c ← getChar
  if c ≠ some openArray then
    seekBack 1
    failNearHere "Wrong token for open array"
  else
    skipSpaces
    let c ← peekChar
    if c = some closeArray then
      ignore
      pure (.arr [])
    else loop (decodeElement value) []

end Values

/-- The literals that a `double` can hold. -/
abbrev FloatRange := Bytes → Bool

def decodeNumber (fits : FloatRange) : Decoder SVal := do
  if ← lookAhead scanNumber then
    let literal ← readFloat fits
    pure (.float literal)
  else
    let n ← readInt
    pure (.int n)

/-- Values nest up to a depth. -/
def decodeValue (fits : FloatRange) : ℕ → Decoder SVal
  | 0 => throw .endless
  | depth+1 => do
    skipSpaces
    if ← eof then failHere "Unexpected out of data during parse value"
    else
      let c ← peekChar
      if c = some minus ∨ c.any isDigit = true then decodeNumber fits
      else if c = some quote then
        if ← lookAhead (getAll openBinary) then
          let binary ← decodeBinary
          pure (.binary binary)
        else
          let str ← decodeString
          pure (.str str)
      else if c = some 0x74 ∨ c = some 0x66 then decodeBool
      else if c = some openObject then decodeObject (decodeValue fits depth)
      else if c = some openArray then decodeArray (decodeValue fits depth)
      else if c = some 0x6e then decodeNull
      else failNearHere "Unknown token at parse value"

/-- Every exception of the value gets the context of the decoder. -/
def catchException {α : Type} (context : String) (x : Decoder α) : Decoder α := fun s =>
  match x s with
  | .error (.thrown e) => .error (.thrown (.jsonParse (text context ++ e.what)))
  | r => r

/-- A value and, when the serializer is strict, nothing behind it. No value nests deeper
than its text is long. -/
def decodeStream (fits : FloatRange) (strict : Bool) (depth : ℕ) : Decoder SVal := do
  if ← eof then fail (text "No data for parsing")
  else
    let value ← catchException "Can't decode JSON ← " (decodeValue fits depth)
    skipSpaces
    let atEnd ← eof
    if !atEnd && strict then failNearHere "Redundant bytes after parsed data"
    else pure value

def decode (fits : FloatRange) (strict : Bool) (data : Bytes) : Except (Failure StdException) SVal :=
  ((decodeStream fits strict (data.length + 1)).run (.ofBytes data)).map Prod.fst

/-- A character of a string without `ESCAPED_UNICODE`. -/
def encodeChar (c : UInt8) : Bytes :=
  if c = quote then [backslash,quote]
  else if c = backslash then [backslash,backslash]
  else if c = 0x08 then text "\\b"
  else if c = 0x0c then text "\\f"
  else if c = 0x0a then text "\\n"
  else if c = 0x09 then text "\\t"
  else if c = 0x0d then text "\\r"
  else [c]

def encodeString (string : Bytes) : Bytes := [quote] ++ string.flatMap encodeChar ++ [quote]

section Encoding

-- how a double is written
variable (floatText : Bytes → Bytes)

mutual

def encodeValue : SVal → Except StdException Bytes
  | .undefined => .error (.runtimeError (text "Undefined value"))
  | .null => .ok (text "null")
  | .bool value => .ok (if value then text "true" else text "false")
  | .int value => .ok (text (toString value))
  | .float literal => .ok (floatText literal)
  | .str value => .ok (encodeString value)
  | .binary value => .ok (text "\"=?B?" ++ Base64.encode value ++ text "?=\"")
  | .arr elements =>
    (encodeElements elements).map fun parts => [openArray] ++ [comma].intercalate parts ++ [closeArray]
  | .obj fields =>
    (encodeFields fields).map fun parts => [openObject] ++ [comma].intercalate parts ++ [closeObject]

def encodeElements : List SVal → Except StdException (List Bytes)
  | [] => .ok []
  | element :: elements => do
    let part ← encodeValue element
    let parts ← encodeElements elements
    pure (part :: parts)

def encodeFields : List (Bytes × SVal) → Except StdException (List Bytes)
  | [] => .ok []
  | (key,value) :: fields => do
    let part ← encodeValue value
    let parts ← encodeFields fields
    pure ((encodeString key ++ [colon] ++ part) :: parts)

end

def encode (value : SVal) : Except StdException Bytes :=
  (encodeValue floatText value).mapError fun e => .jsonParse (text "Can't encode into JSON ← " ++ e.what)

end Encoding

end JsonSerializer
end Tkeycoin
