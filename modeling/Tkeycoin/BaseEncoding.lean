import Tkeycoin.JsonBinaries
import Tkeycoin.Base58

/-! `Base64` and `Base32`: both encode groups of bytes in symbols, and count the characters that they decode. -/
namespace Tkeycoin
namespace Base32

def isBase32 (c : UInt8) : Bool := (0x41 ≤ c && c ≤ 0x5a) || (0x32 ≤ c && c ≤ 0x37)

/-- `base32_chars.find`, cut to a byte. -/
def find (c : UInt8) : UInt8 :=
  if 0x41 ≤ c ∧ c ≤ 0x5a then c - 0x41
  else if 0x32 ≤ c ∧ c ≤ 0x37 then c - 0x32 + 26
  else 255

/-- A character of `base32_chars`. -/
def symbol (n : UInt8) : UInt8 := if n < 26 then 0x41 + n else 0x32 + (n - 26)

/-- `& 0x1F`. -/
def low5 (n : UInt8) : UInt8 := n &&& 0x1f

def symbols (b₀ b₁ b₂ b₃ b₄ : UInt8) : Bytes :=
  [symbol (low5 (b₀ >>> 3)),symbol (low5 (b₀ <<< 2) ||| low5 (b₁ >>> 6)),symbol (low5 (b₁ >>> 1)),
    symbol (low5 (b₁ <<< 4) ||| low5 (b₂ >>> 4)),symbol (low5 (b₂ <<< 1) ||| low5 (b₃ >>> 7)),
    symbol (low5 (b₃ >>> 2)),symbol (low5 (b₃ <<< 3) ||| low5 (b₄ >>> 5)),symbol (low5 b₄)]

def encode : Bytes → Bytes
  | b₀ :: b₁ :: b₂ :: b₃ :: b₄ :: rest => symbols b₀ b₁ b₂ b₃ b₄ ++ encode rest
  | [b₀,b₁,b₂,b₃] => (symbols b₀ b₁ b₂ b₃ 0).take 7 ++ [0x3d]
  | [b₀,b₁,b₂] => (symbols b₀ b₁ b₂ 0 0).take 5 ++ [0x3d,0x3d,0x3d]
  | [b₀,b₁] => (symbols b₀ b₁ 0 0 0).take 4 ++ [0x3d,0x3d,0x3d,0x3d]
  | [b₀] => (symbols b₀ 0 0 0 0).take 2 ++ [0x3d,0x3d,0x3d,0x3d,0x3d,0x3d]
  | [] => []

def octet (c₀ c₁ c₂ c₃ c₄ c₅ c₆ c₇ : UInt8) : Bytes :=
  [(find c₀ <<< 3) ||| (find c₁ >>> 2),
    (find c₁ <<< 6) ||| (find c₂ <<< 1) ||| (find c₃ >>> 4),
    (find c₃ <<< 4) ||| (find c₄ >>> 1),
    (find c₄ <<< 7) ||| (find c₅ <<< 2) ||| (find c₆ >>> 3),
    (find c₆ <<< 5) ||| find c₇]

/-- One symbol, three or six of them are no bytes. -/
def decodeOctets : Bytes → Bytes
  | c₀ :: c₁ :: c₂ :: c₃ :: c₄ :: c₅ :: c₆ :: c₇ :: rest => octet c₀ c₁ c₂ c₃ c₄ c₅ c₆ c₇ ++ decodeOctets rest
  | [c₀,c₁,c₂,c₃,c₄,c₅,c₆] => (octet c₀ c₁ c₂ c₃ c₄ c₅ c₆ 0).take 4
  | [c₀,c₁,c₂,c₃,c₄] => (octet c₀ c₁ c₂ c₃ c₄ 0 0 0).take 3
  | [c₀,c₁,c₂,c₃] => (octet c₀ c₁ c₂ c₃ 0 0 0 0).take 2
  | [c₀,c₁] => (octet c₀ c₁ 0 0 0 0 0 0).take 1
  | _ => []

section Bits

theorem find_symbol : ∀ n : UInt8, n < 32 → find (symbol n) = n ∧ isBase32 (symbol n) = true :=
  ScriptNum.forall_byte (by decide)

/-- The bits of a byte that one symbol has alone. -/
theorem whole_bits : ∀ b : UInt8, low5 (b >>> 3) < 32 ∧ low5 (b >>> 1) < 32 ∧ low5 (b >>> 2) < 32 ∧ low5 b < 32 :=
  ScriptNum.forall_byte (by decide)

/-- The last bits of a byte, and the first ones. -/
theorem last_bits : ∀ b : UInt8, (low5 (b <<< 2) = (b &&& 7) <<< 2 ∧ b &&& 7 < 8) ∧
    (low5 (b <<< 4) = (b &&& 1) <<< 4 ∧ b &&& 1 < 2) ∧ (low5 (b <<< 1) = (b &&& 15) <<< 1 ∧ b &&& 15 < 16) ∧
    (low5 (b <<< 3) = (b &&& 3) <<< 3 ∧ b &&& 3 < 4) :=
  ScriptNum.forall_byte (by decide)

theorem first_bits : ∀ b : UInt8, low5 (b >>> 6) < 4 ∧ low5 (b >>> 4) < 16 ∧ low5 (b >>> 7) < 2 ∧ low5 (b >>> 5) < 8 :=
  ScriptNum.forall_byte (by decide)

theorem join_bits : ∀ b : UInt8, (low5 (b >>> 3) <<< 3) ||| (b &&& 7) = b ∧
    (low5 (b >>> 6) <<< 6) ||| (low5 (b >>> 1) <<< 1) ||| (b &&& 1) = b ∧ (low5 (b >>> 4) <<< 4) ||| (b &&& 15) = b ∧
    (low5 (b >>> 7) <<< 7) ||| (low5 (b >>> 2) <<< 2) ||| (b &&& 3) = b ∧ (low5 (b >>> 5) <<< 5) ||| low5 b = b :=
  ScriptNum.forall_byte (by decide)

-- a symbol that has the last bits of one byte and the first ones of the next

theorem split_two {p q : UInt8} (hp : p < 8) (hq : q < 4) :
    (p <<< 2) ||| q < 32 ∧ ((p <<< 2) ||| q) >>> 2 = p ∧ ((p <<< 2) ||| q) <<< 6 = q <<< 6 := by
  have hall : ∀ (i : Fin 8) (j : Fin 4), (UInt8.ofNat i <<< 2) ||| UInt8.ofNat j < 32 ∧
      ((UInt8.ofNat i <<< 2) ||| UInt8.ofNat j) >>> 2 = UInt8.ofNat i ∧
      ((UInt8.ofNat i <<< 2) ||| UInt8.ofNat j) <<< 6 = UInt8.ofNat j <<< 6 := by decide
  have h := hall ⟨p.toNat,hp⟩ ⟨q.toNat,hq⟩
  simpa using h

theorem split_four {p q : UInt8} (hp : p < 2) (hq : q < 16) :
    (p <<< 4) ||| q < 32 ∧ ((p <<< 4) ||| q) >>> 4 = p ∧ ((p <<< 4) ||| q) <<< 4 = q <<< 4 := by
  have hall : ∀ (i : Fin 2) (j : Fin 16), (UInt8.ofNat i <<< 4) ||| UInt8.ofNat j < 32 ∧
      ((UInt8.ofNat i <<< 4) ||| UInt8.ofNat j) >>> 4 = UInt8.ofNat i ∧
      ((UInt8.ofNat i <<< 4) ||| UInt8.ofNat j) <<< 4 = UInt8.ofNat j <<< 4 := by decide
  have h := hall ⟨p.toNat,hp⟩ ⟨q.toNat,hq⟩
  simpa using h

theorem split_one {p q : UInt8} (hp : p < 16) (hq : q < 2) :
    (p <<< 1) ||| q < 32 ∧ ((p <<< 1) ||| q) >>> 1 = p ∧ ((p <<< 1) ||| q) <<< 7 = q <<< 7 := by
  have hall : ∀ (i : Fin 16) (j : Fin 2), (UInt8.ofNat i <<< 1) ||| UInt8.ofNat j < 32 ∧
      ((UInt8.ofNat i <<< 1) ||| UInt8.ofNat j) >>> 1 = UInt8.ofNat i ∧
      ((UInt8.ofNat i <<< 1) ||| UInt8.ofNat j) <<< 7 = UInt8.ofNat j <<< 7 := by decide
  have h := hall ⟨p.toNat,hp⟩ ⟨q.toNat,hq⟩
  simpa using h

theorem split_three {p q : UInt8} (hp : p < 4) (hq : q < 8) :
    (p <<< 3) ||| q < 32 ∧ ((p <<< 3) ||| q) >>> 3 = p ∧ ((p <<< 3) ||| q) <<< 5 = q <<< 5 := by
  have hall : ∀ (i : Fin 4) (j : Fin 8), (UInt8.ofNat i <<< 3) ||| UInt8.ofNat j < 32 ∧
      ((UInt8.ofNat i <<< 3) ||| UInt8.ofNat j) >>> 3 = UInt8.ofNat i ∧
      ((UInt8.ofNat i <<< 3) ||| UInt8.ofNat j) <<< 5 = UInt8.ofNat j <<< 5 := by decide
  have h := hall ⟨p.toNat,hp⟩ ⟨q.toNat,hq⟩
  simpa using h

end Bits

/-- Eight symbols give back the five bytes that they were made of. -/
theorem octet_symbols (b₀ b₁ b₂ b₃ b₄ : UInt8) : ∃ c₀ c₁ c₂ c₃ c₄ c₅ c₆ c₇,
    symbols b₀ b₁ b₂ b₃ b₄ = [c₀,c₁,c₂,c₃,c₄,c₅,c₆,c₇] ∧ octet c₀ c₁ c₂ c₃ c₄ c₅ c₆ c₇ = [b₀,b₁,b₂,b₃,b₄] ∧
    ∀ c ∈ [c₀,c₁,c₂,c₃,c₄,c₅,c₆,c₇], isBase32 c = true := by
  obtain ⟨⟨hlast₀,hp₀⟩,-,-,-⟩ := last_bits b₀
  obtain ⟨-,⟨hlast₁,hp₁⟩,-,-⟩ := last_bits b₁
  obtain ⟨-,-,⟨hlast₂,hp₂⟩,-⟩ := last_bits b₂
  obtain ⟨-,-,-,hlast₃,hp₃⟩ := last_bits b₃
  obtain ⟨h₁,hhigh₁,hlow₁⟩ := split_two hp₀ (first_bits b₁).1
  obtain ⟨h₃,hhigh₃,hlow₃⟩ := split_four hp₁ (first_bits b₂).2.1
  obtain ⟨h₄,hhigh₄,hlow₄⟩ := split_one hp₂ (first_bits b₃).2.2.1
  obtain ⟨h₆,hhigh₆,hlow₆⟩ := split_three hp₃ (first_bits b₄).2.2.2
  rw [← hlast₀] at h₁ hhigh₁ hlow₁
  rw [← hlast₁] at h₃ hhigh₃ hlow₃
  rw [← hlast₂] at h₄ hhigh₄ hlow₄
  rw [← hlast₃] at h₆ hhigh₆ hlow₆
  have h₀ := (whole_bits b₀).1
  have h₂ := (whole_bits b₁).2.1
  have h₅ := (whole_bits b₃).2.2.1
  have h₇ := (whole_bits b₄).2.2.2
  refine ⟨_,_,_,_,_,_,_,_,rfl,?_,?_⟩
  · rw [octet,(find_symbol _ h₀).1,(find_symbol _ h₁).1,(find_symbol _ h₂).1,(find_symbol _ h₃).1,(find_symbol _ h₄).1,
      (find_symbol _ h₅).1,(find_symbol _ h₆).1,(find_symbol _ h₇).1,hhigh₁,hlow₁,hhigh₃,hlow₃,hhigh₄,hlow₄,hhigh₆,hlow₆,
      (join_bits b₀).1,(join_bits b₁).2.1,(join_bits b₂).2.2.1,(join_bits b₃).2.2.2.1,(join_bits b₄).2.2.2.2]
  · simp only [List.forall_mem_cons]
    exact ⟨(find_symbol _ h₀).2,(find_symbol _ h₁).2,(find_symbol _ h₂).2,(find_symbol _ h₃).2,(find_symbol _ h₄).2,
      (find_symbol _ h₅).2,(find_symbol _ h₆).2,(find_symbol _ h₇).2,List.forall_mem_nil _⟩

/-- The symbols of some bytes, and the padding behind them. -/
theorem encode_spec (b : Bytes) : ∃ body pad, encode b = body ++ pad ∧ (∀ c ∈ body, isBase32 c = true) ∧
    (∀ c ∈ pad, c = 0x3d) ∧ decodeOctets body = b ∧ body.length = (8 * b.length + 4) / 5 ∧
    body.length + pad.length = 8 * ((b.length + 4) / 5) := by
  induction b using encode.induct with
  | case1 b₀ b₁ b₂ b₃ b₄ rest ih =>
    obtain ⟨body,pad,hencode,hbody,hpad,hdecode,hlength,hpadded⟩ := ih
    obtain ⟨c₀,c₁,c₂,c₃,c₄,c₅,c₆,c₇,hsymbols,hoctet,hchars⟩ := octet_symbols b₀ b₁ b₂ b₃ b₄
    refine ⟨[c₀,c₁,c₂,c₃,c₄,c₅,c₆,c₇] ++ body,pad,?_,?_,hpad,?_,?_,?_⟩
    · rw [encode,hsymbols,hencode,List.append_assoc]
    · exact List.forall_mem_append.mpr ⟨hchars,hbody⟩
    · change octet c₀ c₁ c₂ c₃ c₄ c₅ c₆ c₇ ++ decodeOctets body = _
      rw [hoctet,hdecode]
      rfl
    · simp only [List.length_append,List.length_cons,List.length_nil]
      omega
    · simp only [List.length_append,List.length_cons,List.length_nil]
      omega
  | case2 b₀ b₁ b₂ b₃ =>
    obtain ⟨c₀,c₁,c₂,c₃,c₄,c₅,c₆,c₇,hsymbols,hoctet,hchars⟩ := octet_symbols b₀ b₁ b₂ b₃ 0
    refine ⟨[c₀,c₁,c₂,c₃,c₄,c₅,c₆],[0x3d],?_,fun c hc => hchars c ?_,by simp,?_,by simp,by simp⟩
    · rw [encode,hsymbols]
      rfl
    · simp only [List.mem_cons,List.not_mem_nil] at hc ⊢
      tauto
    · have htake : decodeOctets [c₀,c₁,c₂,c₃,c₄,c₅,c₆] = (octet c₀ c₁ c₂ c₃ c₄ c₅ c₆ c₇).take 4 := rfl
      rw [htake,hoctet]
      rfl
  | case3 b₀ b₁ b₂ =>
    obtain ⟨c₀,c₁,c₂,c₃,c₄,c₅,c₆,c₇,hsymbols,hoctet,hchars⟩ := octet_symbols b₀ b₁ b₂ 0 0
    refine ⟨[c₀,c₁,c₂,c₃,c₄],[0x3d,0x3d,0x3d],?_,fun c hc => hchars c ?_,by simp,?_,by simp,by simp⟩
    · rw [encode,hsymbols]
      rfl
    · simp only [List.mem_cons,List.not_mem_nil] at hc ⊢
      tauto
    · have htake : decodeOctets [c₀,c₁,c₂,c₃,c₄] = (octet c₀ c₁ c₂ c₃ c₄ c₅ c₆ c₇).take 3 := rfl
      rw [htake,hoctet]
      rfl
  | case4 b₀ b₁ =>
    obtain ⟨c₀,c₁,c₂,c₃,c₄,c₅,c₆,c₇,hsymbols,hoctet,hchars⟩ := octet_symbols b₀ b₁ 0 0 0
    refine ⟨[c₀,c₁,c₂,c₃],[0x3d,0x3d,0x3d,0x3d],?_,fun c hc => hchars c ?_,by simp,?_,by simp,by simp⟩
    · rw [encode,hsymbols]
      rfl
    · simp only [List.mem_cons,List.not_mem_nil] at hc ⊢
      tauto
    · have htake : decodeOctets [c₀,c₁,c₂,c₃] = (octet c₀ c₁ c₂ c₃ c₄ c₅ c₆ c₇).take 2 := rfl
      rw [htake,hoctet]
      rfl
  | case5 b₀ =>
    obtain ⟨c₀,c₁,c₂,c₃,c₄,c₅,c₆,c₇,hsymbols,hoctet,hchars⟩ := octet_symbols b₀ 0 0 0 0
    refine ⟨[c₀,c₁],[0x3d,0x3d,0x3d,0x3d,0x3d,0x3d],?_,fun c hc => hchars c ?_,by simp,?_,by simp,by simp⟩
    · rw [encode,hsymbols]
      rfl
    · simp only [List.mem_cons,List.not_mem_nil] at hc ⊢
      tauto
    · have htake : decodeOctets [c₀,c₁] = (octet c₀ c₁ c₂ c₃ c₄ c₅ c₆ c₇).take 1 := rfl
      rw [htake,hoctet]
      rfl
  | case6 => exact ⟨[],[],rfl,List.forall_mem_nil _,List.forall_mem_nil _,rfl,rfl,rfl⟩

end Base32

open Base58 (increment)

/-- An encoding of groups of bytes: its symbols, how many bytes a full group has and how many symbols, and what is
written behind the symbols of the last one. -/
structure Codec where
  inCharset : UInt8 → Bool
  encode : Bytes → Bytes
  decodeSymbols : Bytes → Bytes
  group : ℕ
  symbols : ℕ
  padding_out : inCharset 0x3d = false
  encode_spec : ∀ b, ∃ body pad, encode b = body ++ pad ∧ (∀ c ∈ body, inCharset c = true) ∧ (∀ c ∈ pad, c = 0x3d) ∧
    decodeSymbols body = b ∧ body.length = (symbols * b.length + (group - 1)) / group ∧
    body.length + pad.length = symbols * ((b.length + (group - 1)) / group)

def base64 : Codec where
  inCharset := Base64.isBase64
  encode := Base64.encode
  decodeSymbols := Base64.decodeQuartets
  group := 3
  symbols := 4
  padding_out := by decide
  encode_spec := Base64.encode_spec

def base32 : Codec where
  inCharset := Base32.isBase32
  encode := Base32.encode
  decodeSymbols := Base32.decodeOctets
  group := 5
  symbols := 8
  padding_out := by decide
  encode_spec := Base32.encode_spec

/-- The symbols in front of the first `=`, with the `int` that counts the characters. -/
def symbolsOf (inCharset : UInt8 → Bool) (in_ : ℕ) : Bytes → Except Base58.Fault Bytes
  | [] => .ok []
  | c :: encoded =>
    if c = 0x3d then .ok []
    else do
      let in_ ← increment in_
      let symbols ← symbolsOf inCharset in_ encoded
      return if inCharset c then c :: symbols else symbols

namespace Codec

/-- `decode`. -/
def decode (x : Codec) (encoded : Bytes) : Except Base58.Fault Bytes := do
  let symbols ← symbolsOf x.inCharset 0 encoded
  return x.decodeSymbols symbols

/-- `Noisy p l m`: elements that satisfy `p` are put into `l`. -/
inductive Noisy {α : Type} (p : α → Prop) : List α → List α → Prop
  | nil : Noisy p [] []
  | keep {a l m} : Noisy p l m → Noisy p (a :: l) (a :: m)
  | insert {a l m} : p a → Noisy p l m → Noisy p l (a :: m)

section Decoding

variable {p : UInt8 → Bool} {body noisy padding : Bytes} {in_ : ℕ}

theorem Noisy.filter {α : Type} {q : α → Prop} {f : α → Bool} {l m : List α} (hq : ∀ a, q a → f a = false)
    (h : Noisy q l m) : m.filter f = l.filter f := by
  induction h with
  | nil => rfl
  | keep _ ih => rw [List.filter_cons,List.filter_cons,ih]
  | insert ha _ ih => rw [List.filter_cons_of_neg (by rw [hq _ ha]; exact Bool.false_ne_true),ih]

theorem Noisy.forall {α : Type} {q r : α → Prop} {l m : List α} (hq : ∀ a, q a → r a) (h : Noisy q l m)
    (hl : ∀ a ∈ l, r a) : ∀ a ∈ m, r a := by
  induction h with
  | nil => exact hl
  | keep _ ih =>
    rw [List.forall_mem_cons] at hl ⊢
    exact ⟨hl.1,ih hl.2⟩
  | insert ha _ ih =>
    rw [List.forall_mem_cons]
    exact ⟨hq _ ha,ih hl⟩

theorem Noisy.length_le {α : Type} {q : α → Prop} {l m : List α} (h : Noisy q l m) : l.length ≤ m.length := by
  induction h with
  | nil => exact le_rfl
  | keep _ ih => exact Nat.succ_le_succ ih
  | insert _ _ ih => exact Nat.le_succ_of_le ih

/-- The characters in front of the padding are counted, and those of the alphabet are kept. -/
theorem symbolsOf_eq (hbody : ∀ c ∈ body, c ≠ 0x3d) (hpadding : ∀ c ∈ padding.head?, c = 0x3d) (hin : in_ < 2^31) :
    symbolsOf p in_ (body ++ padding) =
      if in_ + body.length < 2^31 then .ok (body.filter p) else .error .overflow := by
  induction body generalizing in_ with
  | nil =>
    rw [List.length_nil,Nat.add_zero,if_pos hin,List.nil_append]
    cases padding with
    | nil => rfl
    | cons c padding => rw [symbolsOf,if_pos (hpadding c rfl),List.filter_nil]
  | cons c body ih =>
    obtain ⟨hc,hmore⟩ := List.forall_mem_cons.mp hbody
    rw [List.cons_append,symbolsOf,if_neg hc,increment,List.length_cons]
    by_cases hnext : in_ + 1 < 2^31
    · have hlength : in_ + (body.length + 1) = in_ + 1 + body.length := by omega
      rw [if_pos hnext,Base58.ok_bind,ih hmore hnext,hlength]
      by_cases hfits : in_ + 1 + body.length < 2^31
      · rw [if_pos hfits,if_pos hfits,List.filter_cons]
        split_ifs <;> rfl
      · rw [if_neg hfits,if_neg hfits]
        split_ifs <;> rfl
    · rw [if_neg hnext,if_neg (by omega)]
      rfl

/-- A text is decoded if less than `2^31` characters stand in front of the padding. -/
theorem decode_eq (x : Codec) (hbody : ∀ c ∈ body, c ≠ 0x3d) (hpadding : ∀ c ∈ padding.head?, c = 0x3d) :
    x.decode (body ++ padding) =
      if body.length < 2^31 then .ok (x.decodeSymbols (body.filter x.inCharset)) else .error .overflow := by
  rw [decode,symbolsOf_eq hbody hpadding (by decide),Nat.zero_add]
  split_ifs <;> rfl

/-- Bytes that were encoded are decoded if they make less than `2^31` symbols. -/
theorem decode_of_encode (x : Codec) (b : Bytes) :
    x.decode (x.encode b) = .ok b ↔ (x.symbols * b.length + (x.group - 1)) / x.group < 2^31 := by
  obtain ⟨body,pad,hencode,hbody,hpad,hdecode,hlength,-⟩ := x.encode_spec b
  have hne : ∀ c ∈ body, c ≠ 0x3d := by
    rintro c hc rfl
    exact absurd (hbody 0x3d hc) (by rw [x.padding_out]; exact Bool.false_ne_true)
  rw [hencode,x.decode_eq hne fun c hc => hpad c (List.mem_of_mem_head? hc),← hlength,List.filter_eq_self.mpr hbody,
    hdecode]
  split_ifs with h
  · exact iff_of_true rfl h
  · exact iff_of_false nofun h

theorem encode_length (x : Codec) (b : Bytes) :
    (x.encode b).length = x.symbols * ((b.length + (x.group - 1)) / x.group) := by
  obtain ⟨body,pad,hencode,-,-,-,-,hlength⟩ := x.encode_spec b
  rw [hencode,List.length_append,hlength]

/-- Characters outside the alphabet change nothing, as long as they can be counted. -/
theorem decode_noisy (x : Codec) (hbody : ∀ c ∈ body, c ≠ 0x3d) (hpadding : ∀ c ∈ padding.head?, c = 0x3d)
    (hnoisy : Noisy (fun c => x.inCharset c = false ∧ c ≠ 0x3d) body noisy) :
    (∃ b, x.decode (body ++ padding) = .ok b ∧ x.decode (noisy ++ padding) = .ok b) ↔ noisy.length < 2^31 := by
  have hplain := hnoisy.forall (fun _ h => h.2) hbody
  rw [x.decode_eq hbody hpadding,x.decode_eq hplain hpadding,hnoisy.filter fun _ h => h.1]
  constructor
  · rintro ⟨b,-,hb⟩
    by_contra h
    rw [if_neg h] at hb
    exact absurd hb nofun
  · intro h
    rw [if_pos h,if_pos (Nat.lt_of_le_of_lt hnoisy.length_le h)]
    exact ⟨_,rfl,rfl⟩

/-- The decoder of `JsonSerializer` is this one without the counter. -/
theorem base64_decode (hbody : ∀ c ∈ body, c ≠ 0x3d) (hpadding : ∀ c ∈ padding.head?, c = 0x3d)
    (h : body.length < 2^31) : base64.decode (body ++ padding) = .ok (Base64.decode (body ++ padding)) := by
  have hpad : padding.takeWhile (· ≠ 0x3d) = [] := by
    cases padding with
    | nil => rfl
    | cons c padding => simp [hpadding c rfl]
  rw [base64.decode_eq hbody hpadding,if_pos h,Base64.decode,
    List.takeWhile_append_of_pos (fun c hc => by simpa using hbody c hc),hpad,List.append_nil]
  rfl

end Decoding

/-- What is encoded is decoded again, has the length of full groups, and may be mixed with characters outside the
alphabet, with less than `2^31` characters in front of the padding and not with more. -/
def Exact (x : Codec) (b body noisy padding : Bytes) : Prop :=
  (x.decode (x.encode b) = .ok b ↔ (x.symbols * b.length + (x.group - 1)) / x.group < 2^31) ∧
    (x.encode b).length = x.symbols * ((b.length + (x.group - 1)) / x.group) ∧
    ((∀ c ∈ body, c ≠ 0x3d) → (∀ c ∈ padding.head?, c = 0x3d) →
      Noisy (fun c => x.inCharset c = false ∧ c ≠ 0x3d) body noisy →
      ((∃ d, x.decode (body ++ padding) = .ok d ∧ x.decode (noisy ++ padding) = .ok d) ↔ noisy.length < 2^31))

/-- `Base64` and `Base32` decode what they encode, and no other character matters, exactly where the `int` counts the
characters in front of the padding. -/
theorem base64_base32_exact (b body noisy padding : Bytes) :
    base64.Exact b body noisy padding ∧ base32.Exact b body noisy padding :=
  ⟨⟨base64.decode_of_encode b,base64.encode_length b,base64.decode_noisy⟩,
    base32.decode_of_encode b,base32.encode_length b,base32.decode_noisy⟩

/-- 1610612736 bytes are too many. -/
theorem base64_overflow :
    base64.decode (base64.encode (List.replicate 1610612736 0)) ≠ .ok (List.replicate 1610612736 0) := by
  rw [ne_eq,base64.decode_of_encode,List.length_replicate]
  exact Nat.lt_irrefl (2^31)

end Codec

end Tkeycoin
