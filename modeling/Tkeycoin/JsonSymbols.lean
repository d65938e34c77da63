import Tkeycoin.JsonEncoding
import Tkeycoin.ScriptNum

/-! Unicode symbols in the strings of `JsonSerializer`: their UTF-8 bytes and their escaped sequences. -/
namespace Tkeycoin
namespace JsonSerializer

/-- The UTF-8 bytes of a text. -/
def utf8 (cs : List Char) : Bytes := cs.flatMap String.utf8EncodeChar

section Bits

/-- The last six bits are what a following byte has of a symbol. -/
theorem shift_or (v : UInt32) : ((v >>> 6) <<< 6) ||| (v.toUInt8 &&& 0x3f).toUInt32 = v := by
  apply UInt32.toNat_inj.mp
  have hlt := v.toNat_lt
  have hlow : v.toNat % 256 &&& 63 = v.toNat % 64 := by
    rw [Nat.and_two_pow_sub_one_eq_mod _ 6]
    omega
  have hhigh : v.toNat >>> 6 <<< 6 % 2 ^ 32 = 2 ^ 6 * (v.toNat / 64) := by
    rw [Nat.shiftRight_eq_div_pow,Nat.shiftLeft_eq]
    omega
  have hor := Nat.two_pow_add_eq_or_of_lt (i := 6) (Nat.mod_lt v.toNat (by decide : 0 < 64)) (v.toNat / 64)
  simp only [UInt32.toNat_or,UInt32.toNat_shiftLeft,UInt32.toNat_shiftRight,UInt8.toNat_toUInt32,UInt8.toNat_and,
    UInt32.toNat_toUInt8]
  change (v.toNat >>> 6 <<< 6 % 2 ^ 32) ||| (v.toNat % 256 &&& 63) = v.toNat
  rw [hlow,hhigh,← hor]
  omega

theorem toUInt8_mask {v : UInt32} {k : ℕ} (hk : k ≤ 8) (hv : v.toNat < 2 ^ k) {mask : UInt8}
    (hmask : mask.toNat = 2 ^ k - 1) : (v.toUInt8 &&& mask).toUInt32 = v := by
  apply UInt32.toNat_inj.mp
  have hle : 2 ^ k ≤ 2 ^ 8 := Nat.pow_le_pow_right (by decide) hk
  rw [UInt8.toNat_toUInt32,UInt8.toNat_and,UInt32.toNat_toUInt8,hmask,Nat.and_two_pow_sub_one_eq_mod,
    Nat.mod_eq_of_lt (by omega : v.toNat < 2 ^ 8),Nat.mod_eq_of_lt hv]

end Bits

/-- A byte that follows, taken into a symbol. -/
def follow (chr : UInt32) (f : UInt8) : UInt32 := (chr <<< 6) ||| (f &&& 0x3f).toUInt32

/-- The bytes of a symbol beyond the first 128: one that says how many follow, and those. -/
structure Spelling (symbol : UInt32) (bytes : Bytes) : Prop where
  spelled : ∃ lead part rest, bytes = lead :: rest ∧ leadByte lead = some (rest.length,part) ∧
    rest.foldl follow part = symbol ∧ 0x80 ≤ lead ∧ lead ≤ 0xf7 ∧ ∀ f ∈ rest, f &&& 0xc0 = 0x80

section Spellings

theorem follow_byte : ∀ x : UInt8, (x &&& 0x3f ||| 0x80) &&& 0xc0 = 0x80 ∧ (x &&& 0x3f ||| 0x80) &&& 0x3f = x &&& 0x3f :=
  ScriptNum.forall_byte (by decide)

/-- The last bits of a symbol follow those in front of them. -/
theorem follow_last (v : UInt32) : follow (v >>> 6) (v.toUInt8 &&& 0x3f ||| 0x80) = v := by
  rw [follow,(follow_byte v.toUInt8).2]
  exact shift_or v

theorem lead_two : ∀ x : UInt8, leadByte (x &&& 0x1f ||| 0xc0) = some (1,(x &&& 0x1f).toUInt32) ∧
    0x80 ≤ x &&& 0x1f ||| 0xc0 ∧ x &&& 0x1f ||| 0xc0 ≤ 0xf7 :=
  ScriptNum.forall_byte (by decide)

theorem lead_three : ∀ x : UInt8, leadByte (x &&& 0x0f ||| 0xe0) = some (2,(x &&& 0x0f).toUInt32) ∧
    0x80 ≤ x &&& 0x0f ||| 0xe0 ∧ x &&& 0x0f ||| 0xe0 ≤ 0xf7 :=
  ScriptNum.forall_byte (by decide)

theorem lead_four : ∀ x : UInt8, leadByte (x &&& 0x07 ||| 0xf0) = some (3,(x &&& 0x07).toUInt32) ∧
    0x80 ≤ x &&& 0x07 ||| 0xf0 ∧ x &&& 0x07 ||| 0xf0 ≤ 0xf7 :=
  ScriptNum.forall_byte (by decide)

theorem shiftRight_shiftRight (v : UInt32) : (v >>> 6) >>> 6 = v >>> 12 ∧ (v >>> 12) >>> 6 = v >>> 18 := by
  constructor
  all_goals
    apply UInt32.toNat_inj.mp
    simp only [UInt32.toNat_shiftRight]
    exact (Nat.shiftRight_add _ _ _).symm

theorem spelling_char (c : Char) (hc : 0x7f < c.val) : Spelling c.val (String.utf8EncodeChar c) := by
  have hvalid : c.val.toNat < 0x110000 := by
    have h := c.valid
    rcases h with h | ⟨-,h⟩
    · omega
    · exact h
  have hshift (k : ℕ) : c.val.toNat >>> k = c.val.toNat / 2 ^ k := Nat.shiftRight_eq_div_pow _ _
  obtain ⟨h₁,h₂⟩ := shiftRight_shiftRight c.val
  rcases Char.utf8Size_eq c with h | h | h | h
  · have hle := Char.utf8Size_eq_one_iff.mp h
    exact absurd hle (UInt32.not_le.mpr hc)
  · have hle : c.val.toNat ≤ 0x7ff := UInt32.le_iff_toNat_le.mp (Char.utf8Size_eq_two_iff.mp h).2
    have hpart : ((c.val >>> 6).toUInt8 &&& 0x1f).toUInt32 = c.val >>> 6 := by
      apply toUInt8_mask (k := 5) (by decide) _ rfl
      change c.val.toNat >>> 6 < 2 ^ 5
      rw [hshift]
      omega
    obtain ⟨hlead,hlow,hhigh⟩ := lead_two (c.val >>> 6).toUInt8
    refine ⟨_,_,[_],String.utf8EncodeChar_eq_cons_cons h,hlead,?_,hlow,hhigh,?_⟩
    · rw [hpart,List.foldl_cons,List.foldl_nil,follow_last]
    · exact List.forall_mem_singleton.mpr (follow_byte _).1
  · have hle : c.val.toNat ≤ 0xffff := UInt32.le_iff_toNat_le.mp (Char.utf8Size_eq_three_iff.mp h).2
    have hpart : ((c.val >>> 12).toUInt8 &&& 0x0f).toUInt32 = c.val >>> 12 := by
      apply toUInt8_mask (k := 4) (by decide) _ rfl
      change c.val.toNat >>> 12 < 2 ^ 4
      rw [hshift]
      omega
    obtain ⟨hlead,hlow,hhigh⟩ := lead_three (c.val >>> 12).toUInt8
    refine ⟨_,_,[_,_],String.utf8EncodeChar_eq_cons_cons_cons h,hlead,?_,hlow,hhigh,?_⟩
    · rw [hpart,List.foldl_cons,List.foldl_cons,List.foldl_nil,← h₁,follow_last,follow_last]
    · rw [List.forall_mem_cons,List.forall_mem_singleton]
      exact ⟨(follow_byte _).1,(follow_byte _).1⟩
  · have hpart : ((c.val >>> 18).toUInt8 &&& 0x07).toUInt32 = c.val >>> 18 := by
      apply toUInt8_mask (k := 3) (by decide) _ rfl
      change c.val.toNat >>> 18 < 2 ^ 3
      rw [hshift]
      omega
    obtain ⟨hlead,hlow,hhigh⟩ := lead_four (c.val >>> 18).toUInt8
    refine ⟨_,_,[_,_,_],String.utf8EncodeChar_eq_cons_cons_cons_cons h,hlead,?_,hlow,hhigh,?_⟩
    · rw [hpart,List.foldl_cons,List.foldl_cons,List.foldl_cons,List.foldl_nil,← h₂,follow_last,← h₁,follow_last,
        follow_last]
    · rw [List.forall_mem_cons,List.forall_mem_cons,List.forall_mem_singleton]
      exact ⟨(follow_byte _).1,(follow_byte _).1,(follow_byte _).1⟩

theorem part_eq (v lead mask : UInt32) :
    (lead ||| (mask &&& v)).toUInt8 = v.toUInt8 &&& mask.toUInt8 ||| lead.toUInt8 := by
  rw [UInt32.toUInt8_or,UInt32.toUInt8_and,UInt8.or_comm,UInt8.and_comm]

/-- A symbol is put into a string as it is spelled. -/
theorem putUnicodeSymbolAsUtf8_val (c : Char) : putUnicodeSymbolAsUtf8 c.val = String.utf8EncodeChar c := by
  have hvalid : c.val.toNat < 0x110000 := by
    rcases c.valid with h | ⟨-,h⟩
    · omega
    · exact h
  unfold putUnicodeSymbolAsUtf8
  simp only [part_eq,UInt32.shiftRight_zero]
  rcases Char.utf8Size_eq c with h | h | h | h
  · rw [String.utf8EncodeChar_eq_singleton h,if_pos (Char.utf8Size_eq_one_iff.mp h)]
  · obtain ⟨h₁,h₂⟩ := Char.utf8Size_eq_two_iff.mp h
    rw [String.utf8EncodeChar_eq_cons_cons h,if_neg (UInt32.not_le.mpr h₁),if_pos h₂]
    rfl
  · obtain ⟨h₁,h₂⟩ := Char.utf8Size_eq_three_iff.mp h
    have h₃ : ¬ c.val ≤ 0x7f := UInt32.not_le.mpr (UInt32.lt_trans (by decide) h₁)
    rw [String.utf8EncodeChar_eq_cons_cons_cons h,if_neg h₃,if_neg (UInt32.not_le.mpr h₁),if_pos h₂]
    rfl
  · have h₁ := Char.utf8Size_eq_four_iff.mp h
    have h₂ : ¬ c.val ≤ 0x7f := UInt32.not_le.mpr (UInt32.lt_trans (by decide) h₁)
    have h₃ : ¬ c.val ≤ 0x7ff := UInt32.not_le.mpr (UInt32.lt_trans (by decide) h₁)
    have h₄ : c.val ≤ 0x1fffff := UInt32.le_iff_toNat_le.mpr (by change c.val.toNat ≤ 0x1fffff; omega)
    rw [String.utf8EncodeChar_eq_cons_cons_cons_cons h,if_neg h₂,if_neg h₃,if_neg (UInt32.not_le.mpr h₁),if_pos h₄]
    rfl

end Spellings

/-- Whether a symbol is written as `\u` and its digits. -/
def unicodeEscaped (escaped : Bool) (c : Char) : Bool := escaped && decide (0x7f < c.val)

/-- What is written for a symbol of a string. -/
def charText (escaped : Bool) (c : Char) : Bytes :=
  if c.val ≤ 0x7f then (Encoder.switchChar escaped c.val.toUInt8).getD [c.val.toUInt8]
  else if escaped then text "\\u" ++ Hex.padded 4 c.val.toNat
  else String.utf8EncodeChar c

namespace Encoder

theorem put_ok (front : Bytes) (w : Written) : put front (.ok w) = .ok (front ++ w.1,w.2) := rfl

theorem put_put (a b : Bytes) (w : Except StdException Written) : put a (put b w) = put (a ++ b) w := by
  cases w with
  | error e => rfl
  | ok w => rw [put_ok,put_ok,put_ok,List.append_assoc]

theorem put_nil (w : Except StdException Written) : put [] w = w := by cases w <;> rfl

/-- Bytes of symbols beyond the first 128 are none of the `switch`. -/
theorem switchChar_high (escaped : Bool) : ∀ b : UInt8, 0x80 ≤ b → switchChar escaped b = none := by
  cases escaped <;> exact ScriptNum.forall_byte (by decide)

theorem high_of_follow : ∀ f : UInt8, f &&& 0xc0 = 0x80 → 0x80 ≤ f := ScriptNum.forall_byte (by decide)

theorem followBytes_append {follows : Bytes} (h : ∀ f ∈ follows, f &&& 0xc0 = 0x80) (chr : UInt32) (rest : Bytes) :
    followBytes follows.length chr (follows ++ rest) = .ok (follows.foldl follow chr,rest) := by
  induction follows generalizing chr with
  | nil => rfl
  | cons f follows ih =>
    have hf : ¬ f &&& 0xc0 ≠ 0x80 := not_not.mpr (h f List.mem_cons_self)
    rw [List.length_cons,List.cons_append,followBytes,if_neg hf]
    exact ih (fun g hg => h g (List.mem_cons_of_mem _ hg)) _

theorem encodeChars_high {l : Bytes} (hl : ∀ b ∈ l, 0x80 ≤ b) (rest : Bytes) (hex : Bool) :
    encodeChars false (l ++ rest) hex = put l (encodeChars false rest hex) := by
  induction l with
  | nil => rw [List.nil_append,put_nil]
  | cons b l ih =>
    rw [List.cons_append,encodeChars,switchChar_high false b (hl b List.mem_cons_self)]
    simp only [if_true]
    rw [ih (fun c hc => hl c (List.mem_cons_of_mem _ hc)),put_put]
    rfl

/-- A symbol at the front of a string. -/
theorem encodeChars_char (escaped : Bool) (c : Char) (rest : Bytes) (hex : Bool) :
    encodeChars escaped (String.utf8EncodeChar c ++ rest) hex
      = put (charText escaped c) (encodeChars escaped rest (hex || unicodeEscaped escaped c)) := by
  by_cases hc : c.val ≤ 0x7f
  · have hbyte : String.utf8EncodeChar c = [c.val.toUInt8] :=
      String.utf8EncodeChar_eq_singleton (Char.utf8Size_eq_one_iff.mpr hc)
    have hlow : c.val.toUInt8 < 0x80 := by
      have hle := UInt32.le_iff_toNat_le.mp hc
      change c.val.toNat ≤ 127 at hle
      apply UInt8.lt_iff_toNat_lt.mpr
      change c.val.toNat % 256 < 128
      omega
    have hplain : unicodeEscaped escaped c = false := by
      rw [unicodeEscaped,decide_eq_false (UInt32.not_lt.mpr hc),Bool.and_false]
    rw [hbyte,charText,if_pos hc,hplain,Bool.or_false,List.singleton_append,encodeChars]
    cases switchChar escaped c.val.toUInt8 with
    | some chars => rfl
    | none =>
      have hhigh : ¬ c.val.toUInt8 > 0xfd := UInt8.not_lt.mpr (UInt8.le_of_lt (UInt8.lt_trans hlow (by decide)))
      simp only [if_neg hhigh,if_pos hlow,Option.getD_none,ite_self]
  · obtain ⟨lead,part,follows,hbytes,hlead,hsymbol,hlow,hhigh,hfollows⟩ :=
      (spelling_char c (UInt32.not_le.mp hc)).spelled
    rw [charText,if_neg hc,unicodeEscaped,decide_eq_true (UInt32.not_le.mp hc),Bool.and_true]
    cases escaped with
    | false =>
      have hall : ∀ b ∈ String.utf8EncodeChar c, 0x80 ≤ b := by
        rw [hbytes,List.forall_mem_cons]
        exact ⟨hlow,fun f hf => high_of_follow f (hfollows f hf)⟩
      rw [encodeChars_high hall,Bool.or_false]
      rfl
    | true =>
      have hfd : ¬ lead > 0xfd := UInt8.not_lt.mpr (UInt8.le_trans hhigh (by decide))
      have h80 : ¬ lead < 0x80 := UInt8.not_lt.mpr hlow
      rw [hbytes,List.cons_append,encodeChars,switchChar_high true lead hlow]
      simp only [Bool.true_eq_false,if_false,if_neg hfd,if_neg h80,hlead,if_true,Bool.or_true]
      rw [followBytes_append hfollows,hsymbol]

theorem encodeChars_utf8 (escaped : Bool) (cs : List Char) (hex : Bool) : encodeChars escaped (utf8 cs) hex
    = .ok (cs.flatMap (charText escaped),hex || cs.any (unicodeEscaped escaped)) := by
  induction cs generalizing hex with
  | nil =>
    rw [utf8,List.flatMap_nil,encodeChars,List.flatMap_nil,List.any_nil,Bool.or_false]
  | cons c cs ih =>
    have hcons : utf8 (c :: cs) = String.utf8EncodeChar c ++ utf8 cs := List.flatMap_cons
    rw [hcons,encodeChars_char,ih,put_ok,List.flatMap_cons,List.any_cons,Bool.or_assoc]

/-- A text is written between quotes. -/
theorem encodeString_utf8 (escaped : Bool) (cs : List Char) (hex : Bool) : encodeString escaped (utf8 cs) hex
    = .ok ([quote] ++ cs.flatMap (charText escaped) ++ [quote],hex || cs.any (unicodeEscaped escaped)) := by
  rw [encodeString,encodeChars_utf8]
  rfl

end Encoder

end JsonSerializer
end Tkeycoin
