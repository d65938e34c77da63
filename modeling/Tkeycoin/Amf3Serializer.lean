import Tkeycoin.Amf3Integers

/-! `Amf3Serializer`: values and the table of the strings that were written or read. -/
namespace Tkeycoin
namespace Amf3

open Scanner

/-- The strings so far, and `stringToIndex`, which has them all. -/
structure StringTable where
  strings : List Bytes
  index : Bytes → Option ℕ
  sound : ∀ s i, index s = some i → strings[i]? = some s
  complete : ∀ s ∈ strings, ∃ i, index s = some i

namespace StringTable

def empty : StringTable := ⟨[],fun _ => none,nofun,nofun⟩

/-- `putSring`. -/
def put (table : StringTable) (string : Bytes) : StringTable where
  strings := table.strings ++ [string]
  index s := if s = string then some table.strings.length else table.index s
  sound s i h := by
    split_ifs at h with hs
    · obtain rfl := Option.some.inj h
      rw [hs,List.getElem?_append_right (Nat.le_refl _),Nat.sub_self]
      rfl
    · have hi := table.sound s i h
      rw [List.getElem?_append_left (List.getElem?_eq_some_iff.mp hi).1]
      exact hi
  complete s hs := by
    split_ifs with heq
    · exact ⟨_,rfl⟩
    · exact table.complete s ((List.mem_append.mp hs).resolve_right (fun h => heq (List.mem_singleton.mp h)))

/-- `getIndex`: an `int32_t`, or -1. -/
def getIndex (table : StringTable) (string : Bytes) : ℤ :=
  match table.index string with
  | some i => (i : ℤ).bmod (2^32)
  | none => -1

/-- `getIndex`, which is not -1 for an index that 31 bits can hold. -/
theorem getIndex_eq {table : StringTable} {s : Bytes} (hfew : table.strings.length ≤ 2^31) :
    (s ∉ table.strings ∧ table.getIndex s = -1) ∨
      ∃ i, table.strings[i]? = some s ∧ i < table.strings.length ∧ table.getIndex s = i := by
  rw [getIndex]
  cases hindex : table.index s with
  | none =>
    refine .inl ⟨fun hs => ?_,rfl⟩
    obtain ⟨i,hi⟩ := table.complete s hs
    rw [hindex] at hi
    exact nomatch hi
  | some i =>
    have hi := table.sound s i hindex
    have hlt := (List.getElem?_eq_some_iff.mp hi).1
    refine .inr ⟨i,hi,hlt,?_⟩
    exact Int.bmod_eq_of_le (by omega) (by omega)

end StringTable

structure Traits where
  className : Bytes
  dynamic : Bool
  externalizable : Bool
  attributes : List Bytes

/-- `Amf3Context`, but for its streams. -/
structure Context where
  table : StringTable
  traits : List Traits

def Context.empty : Context := ⟨.empty,[]⟩

section Decoding

variable {α : Type}

def fail (msg : String) : Decoder α := raise (text msg)

/-- `what()`, as C strings are read. -/
def what (msg : Bytes) : Bytes := msg.takeWhile (· ≠ 0)

/-- `catch`, and another exception in place of the first. -/
def catching (context : Bytes → Bytes) (x : Decoder α) : Decoder α := fun s =>
  match x s with
  | .error (.thrown e) => .error (.thrown (context e))
  | r => r

/-- An exception where the stream stands. -/
def failHere (msg : String) : Decoder α := do
  let pos ← tellg
  raise (text msg ++ text " at position " ++ JsonSerializer.positionText pos)

/-- How many bytes follow the first of a symbol, and what that one carries of it. -/
def leadByte (c : UInt8) : Option (ℕ × UInt32) :=
  if c &&& 0xf8 = 0xf0 then some (3,(c &&& 0x07).toUInt32)
  else if c &&& 0xf0 = 0xe0 then some (2,(c &&& 0x0f).toUInt32)
  else if c &&& 0xe0 = 0xc0 then some (1,(c &&& 0x1f).toUInt32)
  else none

/-- `while (--bytes > 0)`. -/
def followBytes : ℕ → UInt32 → Decoder UInt32
  | 0, utf8Symbol => pure utf8Symbol
  | bytes+1, utf8Symbol => do
    if ← eof then failHere "Unxpected end of data during parse utf8 symbol"
    else
      let c ← peekChar
      match c with
      | some c =>
        if c &&& 0xc0 = 0x80 then
          ignore
          followBytes bytes ((utf8Symbol <<< 6) ||| (c &&& 0x3f).toUInt32)
        else failHere "Bad symbol in string value: invalid utf8 byte"
      | none => failHere "Bad symbol in string value: invalid utf8 byte"

/-- At the end the symbol is `-1`. -/
def decodeUtf8Symbol (strict : Bool) : Decoder UInt32 := do
  if ← eof then fail "Unexpected out of data during parse utf8 symbol"
  else
    match ← getChar with
    | none => pure 0xffffffff
    | some c =>
      if c < 0x80 then pure c.toUInt32
      else if c > 0xfd then fail "Bad symbol in string value: prohibited utf8 byte"
      else if c ≤ 0xf7 then
        match leadByte c with
        | some (bytes,utf8Symbol) => followBytes bytes utf8Symbol
        | none => if strict then fail "Bad symbol in string value: invalid utf8 byte" else pure 0x1a
      else fail "Bad symbol in string value: prohibited utf8 byte"

/-- The bytes of a symbol of up to 21 bits, as `JsonSerializer` has them. -/
def putUtf8Symbol (symbol : UInt32) : Decoder Bytes :=
  if symbol ≤ 0x1fffff then pure (JsonSerializer.putUnicodeSymbolAsUtf8 symbol) else fail "Bad unicode symbol"

/-- A symbol of a string, with the `size_t` of the bytes to come. -/
def decodeStringSymbol (strict : Bool) : Bytes × ℕ → Decoder ((Bytes × ℕ) ⊕ Bytes)
  | (str,length) =>
    if length = 0 then pure (.inr str)
    else do
      let symbol ← decodeUtf8Symbol strict
      let bytes ← putUtf8Symbol symbol
      pure (.inl (str ++ bytes,(length + 2^64 - bytes.length) % 2^64))

/-- A string that is not empty and not in the table comes into it. -/
def remember (ctx : Context) (str : Bytes) : Context :=
  if str ≠ [] ∧ ctx.table.getIndex str = -1 then { ctx with table := ctx.table.put str } else ctx

def decodeHeadlessString (strict : Bool) (ctx : Context) : Decoder (Bytes × Context) := do
  let tmp ← catching (fun _ => text "Can't parse header of string") decodeHeadlessInteger
  if tmp &&& 1 = 1 then
    let str ← loop (decodeStringSymbol strict) ([],(tmp >>> 1).toNat)
    pure (str,remember ctx str)
  else
    match ctx.table.strings[(tmp >>> 1).toNat]? with
    | some str => pure (str,remember ctx str)
    | none => raise (text "Not found string reference with index=" ++ text (toString (tmp >>> 1).toNat))

def decodeToken (token : UInt8) (msg : String) : Decoder Unit := do
  let c ← getChar
  if c.getD 0xff ≠ token then fail msg else pure ()

def decodeString (strict : Bool) (ctx : Context) : Decoder (SVal × Context) := do
  decodeToken 6 "Wrong token for open string"
  let (str,ctx) ← decodeHeadlessString strict ctx
  pure (.str str,ctx)

/-- Bytes one after another. One that is not there is `0xff`. -/
def decodeBinaryBytes : ℕ → Bytes → Decoder Bytes
  | 0, bin => pure bin
  | length+1, bin => do
    if ← eof then fail "Unexpected out of data during parse binary value"
    else
      let c ← getChar
      decodeBinaryBytes length (bin ++ [c.getD 0xff])

def decodeBinary : Decoder SVal := do
  decodeToken 12 "Wrong token for open binary"
  let tmp ← catching (fun _ => text "Can't parse length of binary") decodeHeadlessInteger
  if tmp &&& 1 = 1 then
    let bin ← decodeBinaryBytes (tmp >>> 1).toNat []
    pure (.binary bin)
  else fail "Binary referencece not supported yet"

def decodeBool : Decoder SVal := do
  let c ← getChar
  if c = some 3 then pure (.bool true)
  else if c = some 2 then pure (.bool false)
  else fail "Wrong token for boolean value"

def decodeInteger : Decoder SVal := do
  decodeToken 4 "Wrong token for integer value"
  let n ← decodeHeadlessInteger
  pure (.int n.toNat)

/-- The eight bytes of a floating point value. -/
def decodeFloatBytes : ℕ → Bytes → Decoder Bytes
  | 0, bytes => pure bytes
  | i+1, bytes => do
    if ← eof then fail "Unexpect out of data during parse float value"
    else
      let c ← getChar
      decodeFloatBytes i (bytes ++ [c.getD 0xff])

def decodeFloat : Decoder SVal := do
  decodeToken 5 "Wrong token for float value"
  let bytes ← decodeFloatBytes 8 []
  pure (.float bytes)

end Decoding

section Containers

variable (strict : Bool) (decodeValue : Context → Decoder (SVal × Context))

/-- A pair of the associative portion, or the empty name behind them. -/
def decodeAssociative (ctx : Context) : Decoder (Context ⊕ Context) :=
  catching (fun e => text "Can't parse key-value in associative portion of array ← " ++ what e) do
    let (name,ctx) ← decodeHeadlessString strict ctx
    if name = [] then pure (.inr ctx)
    else
      let (_,ctx) ← decodeValue ctx
      pure (.inl ctx)

def decodeElements : ℕ → List SVal → Context → Decoder (List SVal × Context)
  | 0, arr, ctx => pure (arr,ctx)
  | length+1, arr, ctx => do
    let (element,ctx) ← catching (fun e => text "Can't parse element #" ++ text (toString arr.length) ++
      text " in dense portion of array ← " ++ what e) (decodeValue ctx)
    decodeElements length (arr ++ [element]) ctx

def decodeArray (ctx : Context) : Decoder (SVal × Context) := do
  decodeToken 9 "Wrong token for open array"
  let tmp ← catching (fun _ => text "Can't parse size of array") decodeHeadlessInteger
  if tmp &&& 1 = 1 then
    let ctx ← loop (decodeAssociative strict decodeValue) ctx
    let (arr,ctx) ← decodeElements decodeValue (tmp >>> 1).toNat [] ctx
    pure (.arr arr,ctx)
  else fail "Array reference not supported yet"

def decodeAttributes : ℕ → List Bytes → Context → Decoder (List Bytes × Context)
  | 0, attributes, ctx => pure (attributes,ctx)
  | count+1, attributes, ctx => do
    let (attr,ctx) ← decodeHeadlessString strict ctx
    decodeAttributes count (attributes ++ [attr]) ctx

/-- What the header of an object says of it. -/
def decodeTraits (ctx : Context) : Decoder (Traits × Context) := do
  let tmp ← decodeHeadlessInteger
  if tmp &&& 1 = 0 then pure (⟨[],false,false,[]⟩,ctx)
  else if tmp &&& 3 = 1 then
    match ctx.traits[(tmp >>> 2).toNat]? with
    | some traits => pure (traits,ctx)
    | none => raise (text "Not found traits reference with index=" ++ text (toString (tmp >>> 2).toNat))
  else if tmp &&& 7 = 7 then
    let (className,ctx) ← decodeHeadlessString strict ctx
    let traits : Traits := ⟨className,false,true,[]⟩
    pure (traits,{ ctx with traits := ctx.traits ++ [traits] })
  else
    let (className,ctx) ← decodeHeadlessString strict ctx
    if tmp &&& 8 ≠ 0 then
      let (attributes,ctx) ← decodeAttributes strict (tmp >>> 4).toNat [] ctx
      let traits : Traits := ⟨className,true,false,attributes⟩
      pure (traits,{ ctx with traits := ctx.traits ++ [traits] })
    else
      let traits : Traits := ⟨className,false,false,[]⟩
      pure (traits,{ ctx with traits := ctx.traits ++ [traits] })

def decodeSealed : List Bytes → List (Bytes × SVal) → Context → Decoder (List (Bytes × SVal) × Context)
  | [], obj, ctx => pure (obj,ctx)
  | name :: names, obj, ctx => do
    let (value,ctx) ← decodeValue ctx
    decodeSealed names (SObj.emplace name value obj) ctx

/-- A dynamic field, with the key of the one before it, or the empty key behind them. -/
def decodeDynamic : Bytes × List (Bytes × SVal) × Context →
    Decoder ((Bytes × List (Bytes × SVal) × Context) ⊕ (SVal × Context))
  | (prevKey,obj,ctx) => do
    let (key,ctx) ← catching (fun e => text "Can't parse key of object field (prev field: " ++ prevKey ++
      text ") ← " ++ what e) (decodeHeadlessString strict ctx)
    if key = [] then pure (.inr (.obj obj,ctx))
    else
      let (value,ctx) ← catching (fun e => text "Can't parse value of object field '" ++ key ++ text "' ← " ++ what e)
        (decodeValue ctx)
      pure (.inl (key,SObj.emplace key value obj,ctx))

def decodeObject (ctx : Context) : Decoder (SVal × Context) := do
  decodeToken 10 "Wrong token for open object"
  let (traits,ctx) ← catching (fun e => text "Can't parse header of object ← " ++ what e) (decodeTraits strict ctx)
  if traits.externalizable then pure (.obj [],ctx)
  else
    let (obj,ctx) ← decodeSealed decodeValue traits.attributes [] ctx
    if traits.dynamic then loop (decodeDynamic strict decodeValue) ([],obj,ctx) else pure (.obj obj,ctx)

/-- The records of a dictionary, whose values are not kept. -/
def decodeRecords : ℕ → List (Bytes × SVal) → Context → Decoder (List (Bytes × SVal) × Context)
  | 0, obj, ctx => pure (obj,ctx)
  | length+1, obj, ctx => do
    let (key,ctx) ← catching (fun e => text "Can't parse key of dictionary record ← " ++ what e)
      (decodeHeadlessString strict ctx)
    let (_,ctx) ← catching (fun e => text "Can't parse value of dictionary record ← " ++ what e) (decodeValue ctx)
    decodeRecords length (SObj.emplace key .undefined obj) ctx

def decodeDictionary (ctx : Context) : Decoder (SVal × Context) := do
  decodeToken 17 "Wrong token for open dictionary"
  let tmp ← catching (fun _ => text "Can't parse length of dictionary") decodeHeadlessInteger
  let _ ← getChar
  if tmp &&& 1 = 1 then
    let (obj,ctx) ← decodeRecords strict decodeValue (tmp >>> 1).toNat [] ctx
    pure (.obj obj,ctx)
  else fail "Dictionary reference not supported yet"

end Containers

/-- Values nest up to a depth. -/
def decodeValue (strict : Bool) : ℕ → Context → Decoder (SVal × Context)
  | 0, _ => throw .endless
  | depth+1, ctx => do
    if ← eof then fail "Unexpect out of data during parse value"
    else
      let token ← peekChar
      match token.getD 0xff with
      | 0 => (fun _ => (.undefined,ctx)) <$> decodeToken 0 "Wrong token for undefined value"
      | 1 => (fun _ => (.null,ctx)) <$> decodeToken 1 "Wrong token for null value"
      | 2 | 3 => (·,ctx) <$> decodeBool
      | 4 => (·,ctx) <$> decodeInteger
      | 5 => (·,ctx) <$> decodeFloat
      | 6 => decodeString strict ctx
      | 9 => decodeArray strict (decodeValue strict depth) ctx
      | 17 => decodeDictionary strict (decodeValue strict depth) ctx
      | 12 => (·,ctx) <$> decodeBinary
      | 10 => decodeObject strict (decodeValue strict depth) ctx
      | 7 | 8 | 11 | 13 | 14 | 15 | 16 => fail "Unsupported token at parse value"
      | _ => fail "Unknown token at parse value"

/-- `decode` with `HEADLESS`. No value nests deeper than its bytes are many. -/
def decodeStream (strict : Bool) (depth : ℕ) : Decoder SVal := do
  if ← eof then fail "No data for parsing"
  else
    catching (fun e => text "Can't decode AMF ← " ++ what e) do
      let (value,_) ← decodeValue strict depth .empty
      let atEnd ← eof
      if !atEnd && strict then fail "Redundant bytes after parsed data" else pure value

def decode (strict : Bool) (data : Bytes) : Except (Failure Bytes) SVal :=
  ((decodeStream strict (data.length + 1)).run (.ofBytes data)).map Prod.fst

section Encoding

abbrev Written := Except Fault (Bytes × Context)

/-- The length of something that is written in place, as an `uint32_t`. -/
def encodeLength (length : ℕ) : Except Fault Bytes :=
  encodeHeadlessInteger ((length <<< 1 ||| 1) % 2^32 : ℕ)

def encodeHeadlessString (ctx : Context) (str : Bytes) : Written := do
  let index := ctx.table.getIndex str
  if index = -1 then
    let header ← encodeLength str.length
    if str ≠ [] then pure (header ++ str,{ ctx with table := ctx.table.put str }) else pure (header,ctx)
  else
    let header ← encodeHeadlessInteger (cut (2 * index))
    pure (header,ctx)

-- what `encodeNumber` writes for a floating point number
variable (float : Bytes → Except Fault Bytes)

mutual

def encodeValue (ctx : Context) : SVal → Written
  | .undefined => .error (.thrown (text "Undefined value"))
  | .null => .ok ([1],ctx)
  | .bool value => .ok ([if value then 3 else 2],ctx)
  | .int value => (encodeNumber value).map (·,ctx)
  | .float literal => (float literal).map (·,ctx)
  | .str value => (encodeHeadlessString ctx value).map fun w => (6 :: w.1,w.2)
  | .binary value => (encodeLength value.length).map fun header => (12 :: header ++ value,ctx)
  | .arr elements => do
    let header ← encodeLength elements.length
    let (name,ctx) ← encodeHeadlessString ctx []
    let (dense,ctx) ← encodeElements ctx elements
    pure (9 :: header ++ name ++ dense,ctx)
  | .obj fields => do
    let header ← encodeHeadlessInteger 0x0b
    let (className,ctx) ← encodeHeadlessString ctx []
    let (members,ctx) ← encodeMembers ctx fields
    let (final,ctx) ← encodeHeadlessString ctx []
    pure (10 :: header ++ className ++ members ++ final,ctx)

def encodeElements (ctx : Context) : List SVal → Written
  | [] => .ok ([],ctx)
  | element :: elements => do
    let (first,ctx) ← encodeValue ctx element
    let (more,ctx) ← encodeElements ctx elements
    pure (first ++ more,ctx)

def encodeMembers (ctx : Context) : List (Bytes × SVal) → Written
  | [] => .ok ([],ctx)
  | (key,value) :: fields => do
    let (name,ctx) ← encodeHeadlessString ctx key
    let (first,ctx) ← encodeValue ctx value
    let (more,ctx) ← encodeMembers ctx fields
    pure (name ++ first ++ more,ctx)

end

def encode (value : SVal) : Except Fault Bytes :=
  match encodeValue float .empty value with
  | .ok (bytes,_) => .ok bytes
  | .error (.thrown e) => .error (.thrown (text "Can't encode into AMF ← " ++ what e))
  | .error .undefined => .error .undefined

end Encoding

end Amf3
end Tkeycoin
