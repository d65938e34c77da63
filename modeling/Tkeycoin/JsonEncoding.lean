import Tkeycoin.Hex
import Tkeycoin.JsonSerializer

/-! `JsonSerializer::encode` with the flag `ESCAPED_UNICODE`, and with the format of the stream that the
elements of a value share. -/
namespace Tkeycoin
namespace JsonSerializer
namespace Encoder

/-- What is written, and whether the stream writes integers with `std::hex` behind it. -/
abbrev Written := Bytes × Bool

def badSymbol : StdException := .runtimeError (text "Bad symbol in string value")

/-- `while (--bytes > 0)`: the symbol, and what follows it in the string. -/
def followBytes : ℕ → UInt32 → Bytes → Except StdException (UInt32 × Bytes)
  | 0, chr, rest => .ok (chr,rest)
  | _+1, _, [] => .error (.runtimeError (text "Uncompleted utf8 symbol"))
  | bytes+1, chr, c :: rest =>
    if c &&& 0xc0 ≠ 0x80 then .error badSymbol
    else followBytes bytes ((chr <<< 6) ||| (c &&& 0x3f).toUInt32) rest

theorem followBytes_length {bytes : ℕ} {chr chr' : UInt32} {string rest : Bytes}
    (h : followBytes bytes chr string = .ok (chr',rest)) : rest.length ≤ string.length := by
  induction bytes generalizing chr string with
  | zero =>
    obtain ⟨-,rfl⟩ := Prod.mk.inj (Except.ok.inj h)
    exact Nat.le_refl _
  | succ bytes ih =>
    cases string with
    | nil => contradiction
    | cons c string =>
      rw [followBytes] at h
      split_ifs at h
      exact (ih h).trans (Nat.le_succ _)

section Strings

variable (escaped : Bool)

/-- The characters of the `switch`. -/
def switchChar (c : UInt8) : Option Bytes :=
  if c = quote then some [backslash,quote]
  else if c = backslash then some [backslash,backslash]
  else if c = 0x2f then some (if escaped then [backslash,0x2f] else [0x2f])
  else if c = 0x08 then some (text "\\b")
  else if c = 0x0c then some (text "\\f")
  else if c = 0x0a then some (text "\\n")
  else if c = 0x09 then some (text "\\t")
  else if c = 0x0d then some (text "\\r")
  else none

def put (front : Bytes) (w : Except StdException Written) : Except StdException Written :=
  w.map fun w => (front ++ w.1,w.2)

/-- The loop over the characters of a string. -/
def encodeChars : Bytes → Bool → Except StdException Written
  | [], hex => .ok ([],hex)
  | c :: rest, hex =>
    match switchChar escaped c with
    | some chars => put chars (encodeChars rest hex)
    | none =>
      if escaped = false then put [c] (encodeChars rest hex)
      else if c > 0xfd then .error badSymbol
      else if c < 0x80 then put [c] (encodeChars rest hex)
      else
        match leadByte c with
        | none => .error badSymbol
        | some (bytes,chr) =>
          match _h : followBytes bytes chr rest with
          | .error e => .error e
          -- the stream is left with std::hex
          | .ok (chr,rest') => put (text "\\u" ++ Hex.padded 4 chr.toNat) (encodeChars rest' true)
termination_by string => string.length
decreasing_by
  all_goals simp only [List.length_cons]
  · omega
  · omega
  · omega
  · have hle := followBytes_length _h
    omega

def encodeString (string : Bytes) (hex : Bool) : Except StdException Written :=
  (encodeChars escaped string hex).map fun w => ([quote] ++ w.1 ++ [quote],w.2)

end Strings

/-- `os << value` of an `int64_t`, which `std::hex` writes as it is in memory. -/
def encodeNumber (value : ℤ) (hex : Bool) : Bytes :=
  if hex then Hex.written (value % 2 ^ 64).toNat else text (toString value)

section Values

variable (escaped : Bool) (floatText : Bytes → Bytes)

mutual

def encodeValue : SVal → Bool → Except StdException Written
  | .undefined, _ => .error (.runtimeError (text "Undefined value"))
  | .null, hex => .ok (text "null",hex)
  | .bool value, hex => .ok (if value then text "true" else text "false",hex)
  | .int value, hex => .ok (encodeNumber value hex,hex)
  | .float literal, hex => .ok (floatText literal,hex)
  | .str value, hex => encodeString escaped value hex
  | .binary value, hex => .ok (text "\"=?B?" ++ Base64.encode value ++ text "?=\"",hex)
  | .arr elements, hex =>
    (encodeElements elements hex).map fun w => ([openArray] ++ [comma].intercalate w.1 ++ [closeArray],w.2)
  | .obj fields, hex =>
    (encodeFields fields hex).map fun w => ([openObject] ++ [comma].intercalate w.1 ++ [closeObject],w.2)

def encodeElements : List SVal → Bool → Except StdException (List Bytes × Bool)
  | [], hex => .ok ([],hex)
  | element :: elements, hex => do
    let (part,hex) ← encodeValue element hex
    let (parts,hex) ← encodeElements elements hex
    pure (part :: parts,hex)

def encodeFields : List (Bytes × SVal) → Bool → Except StdException (List Bytes × Bool)
  | [], hex => .ok ([],hex)
  | (key,value) :: fields, hex => do
    let (name,hex) ← encodeString escaped key hex
    let (part,hex) ← encodeValue value hex
    let (parts,hex) ← encodeFields fields hex
    pure ((name ++ [colon] ++ part) :: parts,hex)

end

/-- `encode` to a stream of its own. -/
def encode (value : SVal) : Except StdException Bytes :=
  ((encodeValue escaped floatText value false).map Prod.fst).mapError
    fun e => .jsonParse (text "Can't encode into JSON ← " ++ e.what)

end Values

section Plain

variable (floatText : Bytes → Bytes)

/-- Without the flag each character is written for itself, and the format of the stream stays. -/
theorem encodeChars_plain (string : Bytes) (hex : Bool) :
    encodeChars false string hex = .ok (string.flatMap encodeChar,hex) := by
  induction string with
  | nil => rw [encodeChars,List.flatMap_nil]
  | cons c string ih =>
    have hput (front : Bytes) : put front (.ok (string.flatMap encodeChar,hex))
        = .ok (front ++ string.flatMap encodeChar,hex) := rfl
    have hchar : (switchChar false c).getD [c] = encodeChar c := by
      by_cases hslash : c = 0x2f
      · subst hslash
        rfl
      · rw [switchChar,encodeChar,if_neg hslash]
        split_ifs <;> rfl
    rw [encodeChars,ih,List.flatMap_cons,← hchar]
    cases switchChar false c with
    | none => simp only [if_true,hput,Option.getD_none]
    | some chars => simp only [hput,Option.getD_some]

theorem encodeString_plain (string : Bytes) (hex : Bool) :
    encodeString false string hex = .ok (JsonSerializer.encodeString string,hex) := by
  rw [encodeString,encodeChars_plain]
  rfl

mutual

theorem encodeValue_plain : ∀ value : SVal,
    encodeValue false floatText value false = (JsonSerializer.encodeValue floatText value).map (·,false)
  | .undefined => rfl
  | .null => rfl
  | .bool _ => rfl
  | .int _ => rfl
  | .float _ => rfl
  | .str value => encodeString_plain value false
  | .binary _ => rfl
  | .arr elements => by
    rw [encodeValue,encodeElements_plain elements,JsonSerializer.encodeValue]
    cases JsonSerializer.encodeElements floatText elements <;> rfl
  | .obj fields => by
    rw [encodeValue,encodeFields_plain fields,JsonSerializer.encodeValue]
    cases JsonSerializer.encodeFields floatText fields <;> rfl

theorem encodeElements_plain : ∀ elements : List SVal,
    encodeElements false floatText elements false = (JsonSerializer.encodeElements floatText elements).map (·,false)
  | [] => rfl
  | element :: elements => by
    rw [encodeElements,encodeValue_plain element,JsonSerializer.encodeElements]
    cases JsonSerializer.encodeValue floatText element with
    | error e => rfl
    | ok part =>
      change (encodeElements false floatText elements false >>= fun w => pure (part :: w.1,w.2)) = _
      rw [encodeElements_plain elements]
      cases JsonSerializer.encodeElements floatText elements <;> rfl

theorem encodeFields_plain : ∀ fields : List (Bytes × SVal),
    encodeFields false floatText fields false = (JsonSerializer.encodeFields floatText fields).map (·,false)
  | [] => rfl
  | (key,value) :: fields => by
    rw [encodeFields,encodeString_plain,JsonSerializer.encodeFields]
    change (encodeValue false floatText value false >>= fun w => encodeFields false floatText fields w.2 >>= fun v =>
      pure ((JsonSerializer.encodeString key ++ [colon] ++ w.1) :: v.1,v.2)) = _
    rw [encodeValue_plain value]
    cases JsonSerializer.encodeValue floatText value with
    | error e => rfl
    | ok part =>
      change (encodeFields false floatText fields false >>= fun v =>
        pure ((JsonSerializer.encodeString key ++ [colon] ++ part) :: v.1,v.2)) = _
      rw [encodeFields_plain fields]
      cases JsonSerializer.encodeFields floatText fields <;> rfl

end

/-- Without the flag this is the encoding that knows no flag. -/
theorem encode_plain (value : SVal) : encode false floatText value = JsonSerializer.encode floatText value := by
  rw [encode,encodeValue_plain,JsonSerializer.encode]
  cases JsonSerializer.encodeValue floatText value <;> rfl

end Plain

end Encoder
end JsonSerializer
end Tkeycoin
