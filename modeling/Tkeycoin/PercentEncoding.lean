import Tkeycoin.JsonRoundTrip

/-! `PercentEncoding`: bytes are encoded one by one, and symbols of one to six of them are decoded. -/
namespace Tkeycoin
namespace PercentEncoding

open Scanner TextStream
open JsonSerializer (utf8)

def percent : UInt8 := 0x25

/-- `unreserved`. All other characters need to be encoded. -/
def unreserved (c : UInt8) : Bool :=
  (0x41 ≤ c && c ≤ 0x5a) || (0x61 ≤ c && c ≤ 0x7a) || (0x30 ≤ c && c ≤ 0x39) || c == 0x2d || c == 0x5f || c == 0x2e ||
    c == 0x7e

/-- A digit as `std::hex` and `std::uppercase` write it. -/
def hexSymbol (d : UInt8) : UInt8 := if d < 10 then 0x30 + d else 0x37 + d

def encodeByte (c : UInt8) : Bytes :=
  if unreserved c then [c] else [percent,hexSymbol (c >>> 4),hexSymbol (c &&& 0x0f)]

def encode (input : Bytes) : Bytes := input.flatMap encodeByte

/-- A decoder that may throw a `std::runtime_error`. -/
abbrev Decoder (α : Type) := Scanner Bytes α

def hexValue (c : UInt8) : Option UInt8 :=
  if 0x30 ≤ c ∧ c ≤ 0x39 then some (c - 0x30)
  else if 0x61 ≤ c ∧ c ≤ 0x66 then some (10 + (c - 0x61))
  else if 0x41 ≤ c ∧ c ≤ 0x46 then some (10 + (c - 0x41))
  else none

def decodeDigit : Decoder UInt8 := do
  if ← eof then raise (text "Unxpected end of data during try parse percent-encoded symbol")
  else
    match ← getChar with
    | none => raise (text "Unxpected end of data during try parse percent-encoded symbol")
    | some c =>
      match hexValue c with
      | some digit => pure digit
      | none => raise (text "Wrong percent-encoded symbol")

def decodePercentEscapedByte : Decoder UInt8 := do
  let c ← getChar
  if c ≠ some percent then raise (text "Wrong token for start percent-encoded sequence")
  else
    let high ← decodeDigit
    let low ← decodeDigit
    pure ((high <<< 4) ||| low)

/-- `catch (...)` around a decoder. What is done to the stream behind it does not depend on how far that came. -/
def attempt {α : Type} (x : Decoder α) : Decoder (Option α) := fun s =>
  match x s with
  | .ok (a,t) => .ok (some a,t)
  | .error (.thrown _) => .ok (none,s)
  | .error .endless => .error .endless

/-- The stream goes back, and the first byte stands for itself. -/
def backTo (p : Option ℕ) (fc : UInt8) : Decoder (UInt32 × Bool) := do
  clear
  seekg p
  pure (fc.toUInt32,true)

/-- `while (--bytes > 0)`, with the symbol and whether the input is still taken for UTF-8. -/
def followBytes (p : Option ℕ) (fc : UInt8) : ℕ → UInt32 → Decoder (UInt32 × Bool)
  | 0, symbol => pure (symbol,true)
  | bytes+1, symbol => do
    if ← eof then pure (fc.toUInt32,false)
    else
      match ← attempt decodePercentEscapedByte with
      | none => backTo p fc
      | some c =>
        if c &&& 0xc0 ≠ 0x80 then backTo p fc
        else followBytes p fc bytes ((symbol <<< 6) ||| (c &&& 0x3f).toUInt32)

/-- The first byte tells how many follow, as in a string of `JsonSerializer`. -/
def decodePercentEscaped (isUtf8 : Bool) : Decoder (UInt32 × Bool) := do
  let c ← decodePercentEscapedByte
  if !isUtf8 then pure (c.toUInt32,false)
  else
    match JsonSerializer.leadByte c with
    | some (bytes,symbol) =>
      let p ← tellg
      followBytes p c bytes symbol
    | none => if c &&& 0x80 = 0 then pure (c.toUInt32,true) else pure (c.toUInt32,false)

/-- A character, or the end. -/
def decodeChar : Bytes × Bool → Decoder ((Bytes × Bool) ⊕ Bytes)
  | (out,isUtf8) => do
    if ← eof then pure (.inr out)
    else
      let c ← peekChar
      match c with
      | none => pure (.inr out)
      | some c =>
        if c = percent then
          let (symbol,isUtf8) ← decodePercentEscaped isUtf8
          pure (.inl (out ++ JsonSerializer.putUnicodeSymbolAsUtf8 symbol,isUtf8))
        else
          ignore
          pure (.inl (out ++ [c],isUtf8))

def decode (input : Bytes) : Except (Failure Bytes) Bytes :=
  ((loop decodeChar ([],true)).run (.ofBytes input)).map Prod.fst

end PercentEncoding

namespace HttpUri

def plusToSpace (c : UInt8) : UInt8 := if c = 0x2b then 0x20 else c

def urldecode (input : Bytes) : Except (Failure Bytes) Bytes := PercentEncoding.decode (input.map plusToSpace)

def urlencode (input : Bytes) : Bytes := PercentEncoding.encode input

end HttpUri

namespace PercentEncoding

open Scanner TextStream
open JsonSerializer (utf8)

section Steps

variable {data rest rest₀ : Bytes} {c fc : UInt8} {α : Type}

theorem backTo_fresh (hsuffix : rest₀ <:+ data) : Gives (Fresh data rest)
    (backTo (some (data.length - rest₀.length)) fc) (fc.toUInt32,true) (Fresh data rest₀) := by
  intro s hs
  have hle : data.length - rest₀.length ≤ s.data.length := by
    rw [hs.1.served]
    exact Nat.sub_le _ _
  refine ⟨⟨s.data,data.length - rest₀.length,false,false⟩,?_,
    ⟨hs.1.served,hsuffix,Nat.sub_add_cancel hsuffix.length_le,rfl,fun _ => rfl⟩,rfl⟩
  simp only [backTo,clear,seekg,StateT.run_bind,StateT.run_modify,StateT.run_get,pure_bind,if_pos hle]
  rfl

theorem attempt_gives {P Q : TextStream → Prop} {x : Decoder α} {a : α} (h : Gives P x a Q) :
    Gives P (attempt x) (some a) Q := by
  intro s hs
  obtain ⟨t,ht,hQ⟩ := h s hs
  refine ⟨t,?_,hQ⟩
  change attempt x s = _
  rw [attempt,show x s = .ok (a,t) from ht]

theorem attempt_settles {P : TextStream → Prop} {Q : α → TextStream → Prop} {x : Decoder α} (h : Settles P x Q) :
    Settles P (attempt x) fun r t => r.elim (P t) (Q · t) := by
  intro s hs
  have hx := h s hs
  cases hr : x.run s with
  | error e =>
    cases e with
    | thrown e =>
      have hrun : (attempt x).run s = .ok (none,s) := by
        change attempt x s = _
        rw [attempt,show x s = .error (.thrown e) from hr]
      rw [hrun]
      exact hs
    | endless =>
      simp only [hr] at hx
      exact absurd rfl hx
  | ok r =>
    have hrun : (attempt x).run s = .ok (some r.1,r.2) := by
      change attempt x s = _
      rw [attempt,show x s = .ok r from hr]
    simp only [hr] at hx
    rw [hrun]
    exact hx

end Steps

section Totality

variable {data rest rest₀ : Bytes} {c fc : UInt8}

/-- A digit is there, or there is an exception. -/
theorem decodeDigit_settles : Settles (Fresh data rest) decodeDigit fun _ t =>
    ∃ c rest', rest = c :: rest' ∧ Fresh data rest' t := by
  refine Settles.after eof_fresh ?_
  rw [if_neg Bool.false_ne_true]
  cases rest with
  | nil =>
    have hnothing : ∀ a : Option UInt8, a = none → Settles (fun _ => True)
        (match a with
          | none => raise (text "Unxpected end of data during try parse percent-encoded symbol")
          | some c => match hexValue c with
            | some digit => pure digit
            | none => raise (text "Wrong percent-encoded symbol") : Decoder UInt8)
        fun _ t => ∃ c rest', [] = c :: rest' ∧ Fresh data rest' t := by
      rintro a rfl
      exact Settles.raise _
    intro s hs
    obtain ⟨t,ht,-⟩ := getChar_end s hs.1
    rw [StateT.run_bind,ht]
    exact hnothing none rfl t trivial
  | cons c rest =>
    refine Settles.after getChar_fresh ?_
    cases hdigit : hexValue c with
    | none =>
      simp only [hdigit]
      exact Settles.raise _
    | some digit =>
      simp only [hdigit]
      exact Settles.pure fun s hs => ⟨c,rest,rfl,hs⟩

/-- Three characters are taken. -/
theorem decodePercentEscapedByte_settles : Settles (Fresh data rest) decodePercentEscapedByte fun _ t =>
    ∃ rest', rest.length = rest'.length + 3 ∧ Fresh data rest' t := by
  cases rest with
  | nil =>
    intro s hs
    obtain ⟨t,ht,-⟩ := getChar_end (ε := Bytes) s hs.1
    rw [decodePercentEscapedByte,StateT.run_bind,ht]
    exact nofun
  | cons c rest =>
    refine Settles.after getChar_fresh ?_
    by_cases hc : some c ≠ some percent
    · rw [if_pos hc]
      exact Settles.raise _
    · rw [if_neg hc]
      refine decodeDigit_settles.bind fun high => ?_
      rintro s ⟨c₁,rest₁,rfl,hs⟩
      have hlow : Settles (Fresh data rest₁) (do
          let low ← decodeDigit
          pure ((high <<< 4) ||| low) : Decoder UInt8) fun _ t =>
            ∃ rest', (c :: c₁ :: rest₁).length = rest'.length + 3 ∧ Fresh data rest' t := by
        refine decodeDigit_settles.bind fun low => ?_
        rintro t ⟨c₂,rest₂,rfl,ht⟩
        exact ⟨rest₂,rfl,ht⟩
      exact hlow s hs

/-- The stream goes on behind all following bytes, or where it stood behind the first. -/
theorem followBytes_settles (hsuffix : rest₀ <:+ data) (bytes : ℕ) (symbol : UInt32) :
    Settles (Fresh data rest) (followBytes (some (data.length - rest₀.length)) fc bytes symbol) fun r t =>
      (r.1 = fc.toUInt32 ∧ Fresh data rest₀ t) ∨
        ∃ rest', Fresh data rest' t ∧ rest.length = rest'.length + 3 * bytes ∧ (bytes = 0 → r.1 = symbol) ∧
          (bytes = 1 → ∃ f : UInt8, r.1 = (symbol <<< 6) ||| (f &&& 0x3f).toUInt32) := by
  induction bytes generalizing rest symbol with
  | zero => exact Settles.pure fun s hs => .inr ⟨rest,hs,rfl,fun _ => rfl,nofun⟩
  | succ bytes ih =>
    refine Settles.after eof_fresh ?_
    rw [if_neg Bool.false_ne_true]
    refine (attempt_settles decodePercentEscapedByte_settles).bind fun c => ?_
    have hback (rest' : Bytes) : Settles (Fresh data rest') (backTo (some (data.length - rest₀.length)) fc) fun r t =>
        (r.1 = fc.toUInt32 ∧ Fresh data rest₀ t) ∨
          ∃ rest', Fresh data rest' t ∧ rest.length = rest'.length + 3 * (bytes + 1) ∧ (bytes + 1 = 0 → r.1 = symbol) ∧
            (bytes + 1 = 1 → ∃ f : UInt8, r.1 = (symbol <<< 6) ||| (f &&& 0x3f).toUInt32) := by
      intro s hs
      obtain ⟨t,ht,hfresh⟩ := backTo_fresh hsuffix s hs
      rw [ht]
      exact .inl ⟨rfl,hfresh⟩
    cases c with
    | none => exact hback rest
    | some c =>
      rintro s ⟨rest',hlength,hs⟩
      by_cases hc : c &&& 0xc0 ≠ 0x80
      · simp only [if_pos hc]
        exact hback rest' s hs
      · simp only [if_neg hc]
        refine (ih _).mono ?_ s hs
        rintro r t (⟨hfc,ht⟩ | ⟨rest'',ht,hlength',hsymbol,-⟩)
        · exact .inl ⟨hfc,ht⟩
        · refine .inr ⟨rest'',ht,by omega,nofun,fun hone => ⟨c,hsymbol (Nat.succ.inj hone)⟩⟩

theorem length_put (symbol : UInt32) : (JsonSerializer.putUnicodeSymbolAsUtf8 symbol).length ≤ 6 ∧
    (symbol ≤ 0x7ff → (JsonSerializer.putUnicodeSymbolAsUtf8 symbol).length ≤ 2) := by
  rw [JsonSerializer.putUnicodeSymbolAsUtf8]
  constructor
  · split_ifs <;> simp
  · intro h
    by_cases hone : symbol ≤ 0x7f
    · rw [if_pos hone]
      exact Nat.le_succ _
    · rw [if_neg hone,if_pos h]
      exact Nat.le_refl _

theorem leadByte_one : ∀ c : UInt8, ∀ r ∈ JsonSerializer.leadByte c, 0 < r.1 ∧ (r.1 = 1 → r.2 ≤ 0x1f) :=
  ScriptNum.forall_byte (by decide)

theorem two_bytes {symbol : UInt32} (h : symbol ≤ 0x1f) (f : UInt8) :
    (symbol <<< 6) ||| (f &&& 0x3f).toUInt32 ≤ 0x7ff := by
  have hle : symbol.toNat ≤ 31 := UInt32.le_iff_toNat_le.mp h
  have hshift : symbol.toNat <<< 6 % 2^32 < 2^11 := by
    rw [Nat.shiftLeft_eq]
    omega
  have hlow : f.toNat &&& 63 < 2^11 := (Nat.and_le_right).trans_lt (by decide)
  apply UInt32.le_iff_toNat_le.mpr
  rw [UInt32.toNat_or,UInt32.toNat_shiftLeft,UInt8.toNat_toUInt32,UInt8.toNat_and]
  exact Nat.le_of_lt_succ (Nat.or_lt_two_pow hshift hlow)

theorem byte_le (c : UInt8) : c.toUInt32 ≤ 0x7ff := by
  apply UInt32.le_iff_toNat_le.mpr
  have hlt := c.toNat_lt
  rw [UInt8.toNat_toUInt32]
  exact (Nat.le_of_lt hlt).trans (by decide)

/-- Fewer characters are put out than are taken. -/
theorem decodePercentEscaped_settles (isUtf8 : Bool) : Settles (Fresh data rest) (decodePercentEscaped isUtf8) fun r t =>
    ∃ rest', Fresh data rest' t ∧
      (JsonSerializer.putUnicodeSymbolAsUtf8 r.1).length + rest'.length < rest.length := by
  refine decodePercentEscapedByte_settles.bind fun c => ?_
  rintro s ⟨rest₁,hlength,hs⟩
  have hbyte : (JsonSerializer.putUnicodeSymbolAsUtf8 c.toUInt32).length + rest₁.length < rest.length := by
    have htwo := (length_put c.toUInt32).2 (byte_le c)
    omega
  cases isUtf8 with
  | false => exact ⟨rest₁,hs,hbyte⟩
  | true =>
    simp only [Bool.not_true,Bool.false_eq_true,if_false]
    cases hlead : JsonSerializer.leadByte c with
    | none =>
      by_cases hc : c &&& 0x80 = 0
      · simp only [if_pos hc]
        exact ⟨rest₁,hs,hbyte⟩
      · simp only [if_neg hc]
        exact ⟨rest₁,hs,hbyte⟩
    | some r =>
      obtain ⟨bytes,symbol⟩ := r
      obtain ⟨hpos,hone⟩ := leadByte_one c (bytes,symbol) hlead
      have hfollow : Settles (Fresh data rest₁) (followBytes (some (data.length - rest₁.length)) c bytes symbol)
          fun r t => ∃ rest', Fresh data rest' t ∧
            (JsonSerializer.putUnicodeSymbolAsUtf8 r.1).length + rest'.length < rest.length := by
        refine (followBytes_settles hs.1.suffix bytes symbol).mono ?_
        rintro r t (⟨hfc,ht⟩ | ⟨rest',ht,hlength',-,hsymbol⟩)
        · rw [hfc]
          exact ⟨rest₁,ht,hbyte⟩
        · refine ⟨rest',ht,?_⟩
          have hsix := (length_put r.1).1
          by_cases hbytes : bytes = 1
          · obtain ⟨f,hf⟩ := hsymbol hbytes
            have htwo := (length_put r.1).2 (hf ▸ two_bytes (hone hbytes) f)
            omega
          · omega
      exact Settles.after tellg_fresh hfollow s hs

/-- What the characters behind a place make of the output. -/
def Decoded (out rest : Bytes) (r : Bytes) : Prop :=
  (percent ∉ rest → r = out ++ rest) ∧ (percent ∈ rest → r.length < out.length + rest.length)

theorem Decoded.length_le {out r : Bytes} (h : Decoded out rest r) : r.length ≤ out.length + rest.length := by
  by_cases hmem : percent ∈ rest
  · exact Nat.le_of_lt (h.2 hmem)
  · rw [h.1 hmem,List.length_append]

theorem decodeChars_settle {n : ℕ} (hn : rest.length < n) (out : Bytes) (isUtf8 : Bool) :
    Settles (Fresh data rest) (iterate decodeChar n (out,isUtf8)) fun r _ => Decoded out rest r := by
  induction n generalizing rest out isUtf8 with
  | zero => exact absurd hn (Nat.not_lt_zero _)
  | succ n ih =>
    refine iterate_settles (R := fun r t => r.elim (fun b => ∃ rest', Fresh data rest' t ∧ rest'.length < n ∧
      ∀ r, Decoded b.1 rest' r → Decoded out rest r) (Decoded out rest)) ?_ (fun b => ?_) fun a t h => h
    · refine Settles.after eof_fresh ?_
      rw [if_neg Bool.false_ne_true]
      cases rest with
      | nil =>
        intro s hs
        obtain ⟨t,ht,-⟩ := peekChar_end (ε := Bytes) s hs.1
        rw [StateT.run_bind,ht]
        exact ⟨fun _ => (List.append_nil out).symm,fun h => absurd h List.not_mem_nil⟩
      | cons c rest =>
        rw [List.length_cons] at hn
        refine Settles.after peekChar_fresh ?_
        by_cases hc : c = percent
        · subst hc
          simp only [if_true]
          refine (decodePercentEscaped_settles isUtf8).bind fun r => ?_
          rintro s ⟨rest',hs,hlength⟩
          rw [List.length_cons] at hlength
          refine ⟨rest',hs,by omega,fun r' hr => ⟨fun h => absurd List.mem_cons_self h,fun _ => ?_⟩⟩
          have hle := hr.length_le
          rw [List.length_append] at hle
          rw [List.length_cons]
          omega
        · simp only [if_neg hc]
          refine Settles.after ignore_fresh (Settles.pure fun s hs => ⟨rest,hs,by omega,fun r hr => ⟨fun h => ?_,fun h => ?_⟩⟩)
          · rw [hr.1 (fun hmem => h (List.mem_cons_of_mem _ hmem)),List.append_assoc,List.singleton_append]
          · have hlt := hr.2 ((List.mem_cons.mp h).resolve_left (Ne.symm hc))
            rw [List.length_append,List.length_singleton] at hlt
            rw [List.length_cons]
            omega
    · rintro s ⟨rest',hs,hlength,hr⟩
      exact (ih hlength b.1 b.2).mono (fun r _ h => hr r h) s hs

/-- Decoding ends. Without a percent sign nothing changes, and with one the text becomes shorter. -/
theorem decode_settles (input : Bytes) : match decode input with
    | .ok r => Decoded [] input r
    | .error e => e ≠ .endless := by
  have hloop := decodeChars_settle (Nat.lt_succ_self input.length) [] true (.ofBytes input) (fresh_ofBytes input)
  rw [decode]
  change match (((iterate decodeChar (input.length + 1) ([],true)).run (.ofBytes input)).map Prod.fst) with
    | .ok r => Decoded [] input r
    | .error e => e ≠ .endless
  cases hr : (iterate decodeChar (input.length + 1) ([],true)).run (.ofBytes input) with
  | error e =>
    simp only [hr] at hloop
    exact hloop
  | ok r =>
    simp only [hr] at hloop
    exact hloop

end Totality

section RoundTrips

variable {data rest : Bytes} {c : UInt8}

theorem hexValue_symbol : ∀ c : UInt8, hexValue (hexSymbol (c >>> 4)) = some (c >>> 4) ∧
    hexValue (hexSymbol (c &&& 0x0f)) = some (c &&& 0x0f) ∧ ((c >>> 4) <<< 4) ||| (c &&& 0x0f) = c :=
  ScriptNum.forall_byte (by decide)

theorem decodeDigit_gives {digit : UInt8} (h : hexValue c = some digit) :
    Gives (Fresh data (c :: rest)) decodeDigit digit (Fresh data rest) := by
  apply Gives.bind eof_fresh
  apply Gives.bind getChar_fresh
  simp only [h]
  exact Gives.pure

/-- The three characters of a byte. -/
def triple (c : UInt8) : Bytes := [percent,hexSymbol (c >>> 4),hexSymbol (c &&& 0x0f)]

theorem decodePercentEscapedByte_gives (c : UInt8) :
    Gives (Fresh data (triple c ++ rest)) decodePercentEscapedByte c (Fresh data rest) := by
  obtain ⟨hhigh,hlow,hjoin⟩ := hexValue_symbol c
  apply Gives.bind getChar_fresh
  rw [if_neg (not_not.mpr rfl)]
  apply Gives.bind (decodeDigit_gives hhigh)
  apply Gives.bind (decodeDigit_gives hlow)
  rw [hjoin]
  exact Gives.pure

theorem followBytes_gives {p : Option ℕ} {fc : UInt8} {follows : Bytes} (h : ∀ f ∈ follows, f &&& 0xc0 = 0x80)
    (part : UInt32) : Gives (Fresh data (follows.flatMap triple ++ rest)) (followBytes p fc follows.length part)
      (follows.foldl JsonSerializer.follow part,true) (Fresh data rest) := by
  induction follows generalizing part with
  | nil => exact Gives.pure
  | cons f follows ih =>
    rw [List.flatMap_cons,List.append_assoc]
    apply Gives.bind eof_fresh
    apply Gives.bind (attempt_gives (decodePercentEscapedByte_gives f))
    simp only [if_neg (not_not.mpr (h f List.mem_cons_self))]
    exact ih (fun g hg => h g (List.mem_cons_of_mem _ hg)) _

theorem ascii_lead : ∀ c : UInt8, c < 0x80 → JsonSerializer.leadByte c = none ∧ c &&& 0x80 = 0 :=
  ScriptNum.forall_byte (by decide)

theorem high_reserved : ∀ c : UInt8, 0x80 ≤ c → unreserved c = false := ScriptNum.forall_byte (by decide)

theorem percent_reserved : ∀ c : UInt8, unreserved c = true → c ≠ percent := ScriptNum.forall_byte (by decide)

/-- A symbol that has to be encoded comes back from the triples of its bytes. -/
theorem decodePercentEscaped_gives {c : Char} (h : ∀ b ∈ String.utf8EncodeChar c, unreserved b = false) :
    Gives (Fresh data (encode (String.utf8EncodeChar c) ++ rest)) (decodePercentEscaped true) (c.val,true)
      (Fresh data rest) := by
  have hencode : ∀ l : Bytes, (∀ b ∈ l, unreserved b = false) → encode l = l.flatMap triple := by
    intro l hl
    apply List.flatMap_congr
    intro b hb
    rw [encodeByte,hl b hb]
    rfl
  rw [hencode _ h]
  by_cases hc : c.val ≤ 0x7f
  · obtain ⟨hlow,hval,hutf8⟩ := JsonSerializer.low_of_val hc
    obtain ⟨hlead,hbit⟩ := ascii_lead _ hlow
    rw [hutf8,List.flatMap_singleton]
    apply Gives.bind (decodePercentEscapedByte_gives _)
    simp only [hlead,if_pos hbit,hval]
    exact Gives.pure
  · obtain ⟨lead,part,follows,hbytes,hlead,hfold,-,-,hfollows⟩ :=
      (JsonSerializer.spelling_char c (UInt32.not_le.mp hc)).spelled
    rw [hbytes,List.flatMap_cons,List.append_assoc]
    apply Gives.bind (decodePercentEscapedByte_gives lead)
    simp only [hlead]
    apply Gives.bind tellg_fresh
    rw [← hfold]
    exact followBytes_gives hfollows part

/-- The bytes of a symbol are all encoded, or it is one character that is not. -/
theorem char_cases (c : Char) : (∀ b ∈ String.utf8EncodeChar c, unreserved b = false) ∨
    ∃ b, String.utf8EncodeChar c = [b] ∧ unreserved b = true := by
  by_cases hc : c.val ≤ 0x7f
  · obtain ⟨-,-,hutf8⟩ := JsonSerializer.low_of_val hc
    rw [hutf8,List.forall_mem_singleton]
    cases hb : unreserved c.val.toUInt8 with
    | false => exact .inl rfl
    | true => exact .inr ⟨_,rfl,hb⟩
  · obtain ⟨hhigh,-⟩ := JsonSerializer.high_bytes (UInt32.not_le.mp hc)
    exact .inl fun b hb => high_reserved b (hhigh b hb)

theorem encode_append (front back : Bytes) : encode (front ++ back) = encode front ++ encode back :=
  List.flatMap_append

theorem length_encodeByte (c : UInt8) : 0 < (encodeByte c).length := by
  rw [encodeByte]
  split_ifs <;> exact Nat.succ_pos _

theorem decodeChar_end (out : Bytes) : Gives (Fresh data []) (decodeChar (out,true)) (.inr out) fun _ => True := by
  apply Gives.bind eof_fresh
  rw [if_neg Bool.false_ne_true]
  intro s hs
  obtain ⟨t,ht,-⟩ := peekChar_end (ε := Bytes) s hs.1
  refine ⟨t,?_,trivial⟩
  rw [StateT.run_bind,ht]
  rfl

theorem decodeChars_gives (cs : List Char) {n : ℕ} (hn : (encode (utf8 cs)).length < n) (out : Bytes) :
    Gives (Fresh data (encode (utf8 cs))) (iterate decodeChar n (out,true)) (out ++ utf8 cs) fun _ => True := by
  induction cs generalizing out n with
  | nil =>
    cases n with
    | zero => exact absurd hn (Nat.not_lt_zero _)
    | succ n =>
      rw [utf8,List.flatMap_nil,List.append_nil]
      exact iterate_ends (decodeChar_end _)
  | cons c cs ih =>
    have hcons : utf8 (c :: cs) = String.utf8EncodeChar c ++ utf8 cs := List.flatMap_cons
    rw [hcons,encode_append] at hn
    rw [hcons,encode_append,← List.append_assoc]
    rw [List.length_append] at hn
    obtain ⟨b,l,hbytes⟩ := List.exists_cons_of_ne_nil (String.utf8EncodeChar_ne_nil (c := c))
    have hpos : 0 < (encode (String.utf8EncodeChar c)).length := by
      rw [hbytes,encode,List.flatMap_cons,List.length_append]
      exact Nat.add_pos_left (length_encodeByte b) _
    cases n with
    | zero => exact absurd hn (Nat.not_lt_zero _)
    | succ n =>
      have hround : Gives (Fresh data (encode (String.utf8EncodeChar c) ++ encode (utf8 cs))) (decodeChar (out,true))
          (.inl (out ++ String.utf8EncodeChar c,true)) (Fresh data (encode (utf8 cs))) := by
        apply Gives.bind eof_fresh
        rw [if_neg Bool.false_ne_true]
        rcases char_cases c with hall | ⟨d,hd,hunreserved⟩
        · have hhead : encode (String.utf8EncodeChar c) = percent :: (encode (String.utf8EncodeChar c)).tail := by
            rw [hbytes,encode,List.flatMap_cons,encodeByte,hall b (hbytes ▸ List.mem_cons_self)]
            rfl
          have hsymbol : Gives (Fresh data (encode (String.utf8EncodeChar c) ++ encode (utf8 cs)))
              (decodePercentEscaped true) (c.val,true) (Fresh data (encode (utf8 cs))) := decodePercentEscaped_gives hall
          rw [hhead,List.cons_append] at hsymbol ⊢
          apply Gives.bind peekChar_fresh
          simp only [if_true]
          apply Gives.bind hsymbol
          rw [JsonSerializer.putUnicodeSymbolAsUtf8_val]
          exact Gives.pure
        · have hplain : encode [d] = [d] := by
            rw [encode,List.flatMap_singleton,encodeByte,if_pos hunreserved]
          rw [hd,hplain,List.singleton_append]
          apply Gives.bind peekChar_fresh
          simp only [if_neg (percent_reserved d hunreserved)]
          exact Gives.bind ignore_fresh Gives.pure
      exact iterate_goes hround (ih (by omega) _)

theorem decodeChars_plain (hrest : percent ∉ rest) {n : ℕ} (hn : rest.length < n) (out : Bytes) :
    Gives (Fresh data rest) (iterate decodeChar n (out,true)) (out ++ rest) fun _ => True := by
  induction rest generalizing out n with
  | nil =>
    cases n with
    | zero => exact absurd hn (Nat.not_lt_zero _)
    | succ n =>
      rw [List.append_nil]
      exact iterate_ends (decodeChar_end _)
  | cons c rest ih =>
    obtain ⟨hc,hrest⟩ := not_or.mp (mt List.mem_cons.mpr hrest)
    cases n with
    | zero => exact absurd hn (Nat.not_lt_zero _)
    | succ n =>
      have hround : Gives (Fresh data (c :: rest)) (decodeChar (out,true)) (.inl (out ++ [c],true))
          (Fresh data rest) := by
        apply Gives.bind eof_fresh
        apply Gives.bind peekChar_fresh
        simp only [if_neg (Ne.symm hc)]
        exact Gives.bind ignore_fresh Gives.pure
      rw [List.append_cons]
      exact iterate_goes hround (ih hrest (Nat.lt_of_succ_lt_succ hn) _)

/-- Without a percent sign all characters stand for themselves. -/
theorem decode_plain {input : Bytes} (h : percent ∉ input) : decode input = .ok input := by
  obtain ⟨t,ht,-⟩ := decodeChars_plain h (Nat.lt_succ_self _) [] _ (fresh_ofBytes input)
  rw [decode]
  change ((iterate decodeChar (input.length + 1) ([],true)).run (.ofBytes input)).map Prod.fst = _
  rw [ht]
  rfl

/-- Unreserved characters, and triples of a percent sign and two hexadecimal digits. -/
inductive Encoded : Bytes → Prop
  | nil : Encoded []
  | plain {c : UInt8} {rest : Bytes} (char : unreserved c = true) (more : Encoded rest) : Encoded (c :: rest)
  | triple {high low : UInt8} {rest : Bytes} (digits : (hexValue high).isSome ∧ (hexValue low).isSome)
    (more : Encoded rest) : Encoded (percent :: high :: low :: rest)

theorem encode_encoded (input : Bytes) : Encoded (encode input) := by
  induction input with
  | nil => exact .nil
  | cons c input ih =>
    obtain ⟨hhigh,hlow,-⟩ := hexValue_symbol c
    rw [encode,List.flatMap_cons,encodeByte]
    cases hc : unreserved c with
    | true => exact .plain hc ih
    | false => exact .triple ⟨by rw [hhigh]; rfl,by rw [hlow]; rfl⟩ ih

theorem plus_not_encoded {encoded : Bytes} (h : Encoded encoded) : encoded.map HttpUri.plusToSpace = encoded := by
  have hplain : ∀ c : UInt8, unreserved c = true → HttpUri.plusToSpace c = c := ScriptNum.forall_byte (by decide)
  have hdigit : ∀ c : UInt8, (hexValue c).isSome → HttpUri.plusToSpace c = c := ScriptNum.forall_byte (by decide)
  have hpercent : HttpUri.plusToSpace percent = percent := rfl
  induction h with
  | nil => rfl
  | plain char more ih => rw [List.map_cons,hplain _ char,ih]
  | triple digits more ih =>
    rw [List.map_cons,List.map_cons,List.map_cons,hpercent,hdigit _ digits.1,hdigit _ digits.2,ih]

theorem urldecode_encoded (cs : List Char) : HttpUri.urldecode (HttpUri.urlencode (utf8 cs)) = .ok (utf8 cs) := by
  obtain ⟨t,ht,-⟩ := decodeChars_gives cs (Nat.lt_succ_self _) [] _ (fresh_ofBytes (encode (utf8 cs)))
  rw [HttpUri.urldecode,HttpUri.urlencode,plus_not_encoded (encode_encoded _),decode]
  change ((iterate decodeChar ((encode (utf8 cs)).length + 1) ([],true)).run (.ofBytes (encode (utf8 cs)))).map
    Prod.fst = _
  rw [ht]
  rfl

end RoundTrips

/-- Texts come back as they were, are encoded in few characters, and the decoder ends on whatever it is given. -/
theorem urldecode_urlencode : (∀ cs : List Char, HttpUri.urldecode (HttpUri.urlencode (utf8 cs)) = .ok (utf8 cs) ∧
    Encoded (HttpUri.urlencode (utf8 cs))) ∧ ∀ input : Bytes, decode input ≠ .error .endless := by
  refine ⟨fun cs => ⟨urldecode_encoded cs,encode_encoded _⟩,fun input hendless => ?_⟩
  have hsettles := decode_settles input
  rw [hendless] at hsettles
  exact hsettles rfl

end PercentEncoding
end Tkeycoin
