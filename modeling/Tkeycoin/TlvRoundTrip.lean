import Tkeycoin.JsonObjects
import Tkeycoin.TlvSerializer

/-! What `TlvSerializer` reads of a value that it wrote: strings and binaries may become shorter, and a value that does
not is the one that was written. -/
namespace Tkeycoin
namespace TlvSerializer

open Scanner TextStream
open JsonSerializer (follow leadByte)

variable {data rest : Bytes} {α : Type}

/-- A symbol that is put into strings and taken out of them. -/
def Allowed (symbol : UInt32) : Prop :=
  symbol ≤ 0x7fffffff ∧ (0x20 ≤ symbol ∨ symbol = 0x09 ∨ symbol = 0x0d ∨ symbol = 0x0a)

/-- The string is made of such symbols, each in as few bytes as can be. -/
def Rereads (s : Bytes) : Prop := ∃ symbols : List UInt32, (∀ c ∈ symbols, Allowed c) ∧ s = symbols.flatMap putUtf8Symbol

section Symbols

/-- The bytes of a symbol beyond the first 128: one that says how many follow, and those. -/
structure Spelling (symbol : UInt32) (bytes : Bytes) : Prop where
  spelled : ∃ lead part follows, bytes = lead :: follows ∧ leadByte lead = some (follows.length,part) ∧
    follows.foldl follow part = symbol ∧ 0x80 ≤ lead ∧ lead ≤ 0xfd ∧ ∀ f ∈ follows, f &&& 0xc0 = 0x80

theorem lead_five : ∀ x : UInt8, leadByte (x &&& 0x03 ||| 0xf8) = some (4,(x &&& 0x03).toUInt32) ∧
    0x80 ≤ x &&& 0x03 ||| 0xf8 ∧ x &&& 0x03 ||| 0xf8 ≤ 0xfd :=
  ScriptNum.forall_byte (by decide)

theorem lead_six : ∀ x : UInt8, leadByte (x &&& 0x01 ||| 0xfc) = some (5,(x &&& 0x01).toUInt32) ∧
    0x80 ≤ x &&& 0x01 ||| 0xfc ∧ x &&& 0x01 ||| 0xfc ≤ 0xfd :=
  ScriptNum.forall_byte (by decide)

/-- The bytes that follow, from the high bits of a symbol to the low. -/
def followsOf (symbol : UInt32) : ℕ → Bytes
  | 0 => []
  | n+1 => followsOf (symbol >>> 6) n ++ [symbol.toUInt8 &&& 0x3f ||| 0x80]

/-- What is left of a symbol above so many bytes that follow. -/
def above (symbol : UInt32) : ℕ → UInt32
  | 0 => symbol
  | n+1 => above (symbol >>> 6) n

theorem foldl_followsOf (symbol : UInt32) (n : ℕ) : (followsOf symbol n).foldl follow (above symbol n) = symbol := by
  induction n generalizing symbol with
  | zero => rfl
  | succ n ih =>
    rw [followsOf,above,List.foldl_append,ih,List.foldl_cons,List.foldl_nil]
    exact JsonSerializer.follow_last symbol

theorem followsOf_follow (symbol : UInt32) (n : ℕ) : ∀ f ∈ followsOf symbol n, f &&& 0xc0 = 0x80 := by
  induction n generalizing symbol with
  | zero => exact nofun
  | succ n ih =>
    intro f hf
    rcases List.mem_append.mp hf with hf | hf
    · exact ih _ f hf
    · rw [List.mem_singleton.mp hf]
      exact (JsonSerializer.follow_byte _).1

theorem length_followsOf (symbol : UInt32) (n : ℕ) : (followsOf symbol n).length = n := by
  induction n generalizing symbol with
  | zero => rfl
  | succ n ih => rw [followsOf,List.length_append,ih,List.length_singleton]

theorem above_toNat (symbol : UInt32) (n : ℕ) : (above symbol n).toNat = symbol.toNat / 2 ^ (6 * n) := by
  induction n generalizing symbol with
  | zero => exact (Nat.div_one _).symm
  | succ n ih =>
    rw [above,ih,UInt32.toNat_shiftRight]
    change symbol.toNat >>> 6 / _ = _
    rw [Nat.shiftRight_eq_div_pow,Nat.div_div_eq_div_mul,← Nat.pow_add]
    congr 2
    omega

/-- The byte in front of the bytes that follow. -/
theorem spelling_of_lead {symbol : UInt32} {mask : UInt8} {k n : ℕ} {lead : UInt8}
    (hlead : ∀ x : UInt8, leadByte (x &&& mask ||| lead) = some (n,(x &&& mask).toUInt32) ∧
      0x80 ≤ x &&& mask ||| lead ∧ x &&& mask ||| lead ≤ 0xfd)
    (hk : k ≤ 8) (hmask : mask.toNat = 2 ^ k - 1) (hsymbol : symbol.toNat < 2 ^ (k + 6 * n)) :
    Spelling symbol (((above symbol n).toUInt8 &&& mask ||| lead) :: followsOf symbol n) := by
  obtain ⟨hbyte,hlow,hhigh⟩ := hlead (above symbol n).toUInt8
  have hpart : ((above symbol n).toUInt8 &&& mask).toUInt32 = above symbol n := by
    apply JsonSerializer.toUInt8_mask hk _ hmask
    rw [above_toNat]
    apply Nat.div_lt_of_lt_mul
    rw [← Nat.pow_add,Nat.add_comm]
    exact hsymbol
  rw [hpart] at hbyte
  refine ⟨_,above symbol n,_,rfl,?_,foldl_followsOf symbol n,hlow,hhigh,followsOf_follow symbol n⟩
  rw [length_followsOf]
  exact hbyte

theorem shift_shift (v : UInt32) : (v >>> 6) >>> 6 = v >>> 12 ∧ (v >>> 12) >>> 6 = v >>> 18 ∧
    (v >>> 18) >>> 6 = v >>> 24 ∧ (v >>> 24) >>> 6 = v >>> 30 := by
  refine ⟨?_,?_,?_,?_⟩
  all_goals
    apply UInt32.toNat_inj.mp
    simp only [UInt32.toNat_shiftRight]
    exact (Nat.shiftRight_add _ _ _).symm

/-- A symbol is put into a string as it is spelled. -/
theorem spelling_put {symbol : UInt32} (hlow : 0x7f < symbol) (hhigh : symbol ≤ 0x7fffffff) :
    Spelling symbol (putUtf8Symbol symbol) := by
  have hbound {b : UInt32} (k : ℕ) (hk : b.toNat < 2 ^ k) (h : symbol ≤ b) : symbol.toNat < 2 ^ k :=
    (UInt32.le_iff_toNat_le.mp h).trans_lt hk
  have hfour {x : UInt8} (h : x ≤ 0xf7) : x ≤ 0xfd := UInt8.le_trans h (by decide)
  obtain ⟨h₁₂,h₁₈,h₂₄,h₃₀⟩ := shift_shift symbol
  rw [putUtf8Symbol,JsonSerializer.putUnicodeSymbolAsUtf8,if_neg (UInt32.not_le.mpr hlow)]
  simp only [JsonSerializer.part_eq,UInt32.shiftRight_zero]
  split_ifs with h₂ h₃ h₄ h₅
  · exact spelling_of_lead (k := 5) (n := 1) (fun x => ⟨(JsonSerializer.lead_two x).1,(JsonSerializer.lead_two x).2.1,
      hfour (JsonSerializer.lead_two x).2.2⟩) (by decide) rfl (hbound 11 (by decide) h₂)
  · have hspelling := spelling_of_lead (k := 4) (n := 2) (fun x => ⟨(JsonSerializer.lead_three x).1,
      (JsonSerializer.lead_three x).2.1,hfour (JsonSerializer.lead_three x).2.2⟩) (by decide) rfl
      (hbound 16 (by decide) h₃)
    rw [above,above,above,h₁₂] at hspelling
    exact hspelling
  · have hspelling := spelling_of_lead (k := 3) (n := 3) (fun x => ⟨(JsonSerializer.lead_four x).1,
      (JsonSerializer.lead_four x).2.1,hfour (JsonSerializer.lead_four x).2.2⟩) (by decide) rfl
      (hbound 21 (by decide) h₄)
    simp only [above,followsOf,List.nil_append,List.cons_append,h₁₂,h₁₈] at hspelling
    exact hspelling
  · have hspelling := spelling_of_lead (k := 2) (n := 4) lead_five (by decide) rfl (hbound 26 (by decide) h₅)
    simp only [above,followsOf,List.nil_append,List.cons_append,h₁₂,h₁₈,h₂₄] at hspelling
    exact hspelling
  · have hspelling := spelling_of_lead (k := 1) (n := 5) lead_six (by decide) rfl (hbound 31 (by decide) hhigh)
    simp only [above,followsOf,List.nil_append,List.cons_append,h₁₂,h₁₈,h₂₄,h₃₀] at hspelling
    exact hspelling

theorem putUtf8Symbol_ascii {c : UInt8} (h : c < 0x80) : putUtf8Symbol c.toUInt32 = [c] := by
  have hle : c.toUInt32 ≤ 0x7f := by
    apply UInt32.le_iff_toNat_le.mpr
    have hlt : c.toNat < 128 := UInt8.lt_iff_toNat_lt.mp h
    rw [UInt8.toNat_toUInt32]
    exact Nat.le_of_lt_succ hlt
  rw [putUtf8Symbol,JsonSerializer.putUnicodeSymbolAsUtf8,if_pos hle,UInt8.toUInt8_toUInt32]

/-- How many bytes a symbol has that is not too large. -/
theorem length_put {symbol : UInt32} {n : ℕ} (hlow : 1 ≤ n) (hhigh : n ≤ 5) (h : symbol.toNat < 2 ^ (6 + 5 * n)) :
    (putUtf8Symbol symbol).length ≤ n + 1 := by
  rw [putUtf8Symbol,JsonSerializer.putUnicodeSymbolAsUtf8]
  have hle {b : UInt32} (hb : 2 ^ (6 + 5 * n) ≤ b.toNat + 1) : symbol ≤ b :=
    UInt32.le_iff_toNat_le.mpr (by omega)
  split_ifs with h₁ h₂ h₃ h₄ h₅ h₆
  all_goals simp only [List.length_cons,List.length_nil]
  · omega
  · omega
  · by_contra hn
    obtain rfl : n = 1 := by omega
    exact h₂ (hle (by decide))
  · by_contra hn
    have hn : n ≤ 2 := by omega
    interval_cases n
    · exact h₂ (hle (by decide))
    · exact h₃ (hle (by decide))
  · by_contra hn
    have hn : n ≤ 3 := by omega
    interval_cases n
    · exact h₂ (hle (by decide))
    · exact h₃ (hle (by decide))
    · exact h₄ (hle (by decide))
  · by_contra hn
    have hn : n ≤ 4 := by omega
    interval_cases n
    · exact h₂ (hle (by decide))
    · exact h₃ (hle (by decide))
    · exact h₄ (hle (by decide))
    · exact h₅ (hle (by decide))
  · omega

end Symbols

section Strings

theorem map_gives {β : Type} {P Q : TextStream → Prop} {x : Decoder α} {a : α} (f : α → β) (h : Gives P x a Q) :
    Gives P (f <$> x) (f a) Q := by
  rw [map_eq_pure_bind]
  exact h.bind Gives.pure

theorem catching_ok (context : String) (x : Decoder α) (s : TextStream) (r : α × TextStream) :
    (catching context x).run s = .ok r ↔ x.run s = .ok r := by
  change catching context x s = .ok r ↔ x s = .ok r
  rw [catching]
  split
  · next h => simp [h]
  · exact Iff.rfl

theorem catching_gives {context : String} {P Q : TextStream → Prop} {x : Decoder α} {a : α} (h : Gives P x a Q) :
    Gives P (catching context x) a Q := h.of_run fun s r => (catching_ok context x s r).mpr

theorem followBytes_gives {follows : Bytes} (h : ∀ f ∈ follows, f &&& 0xc0 = 0x80) (chr : UInt32) :
    Gives (Fresh data (follows ++ rest)) (followBytes follows.length chr) (follows.foldl follow chr)
      (Fresh data rest) := by
  induction follows generalizing chr with
  | nil => exact Gives.pure
  | cons f follows ih =>
    apply Gives.bind eof_fresh
    rw [if_neg Bool.false_ne_true]
    apply Gives.bind getChar_fresh
    simp only [if_pos (h f List.mem_cons_self)]
    exact ih (fun g hg => h g (List.mem_cons_of_mem _ hg)) _

theorem ascii_of_allowed {symbol : UInt32} (h : Allowed symbol) (hle : symbol ≤ 0x7f) :
    putUtf8Symbol symbol = [symbol.toUInt8] ∧ symbol.toUInt8 < 0x80 ∧ symbol.toUInt8 ≠ Token.END ∧
      isControl symbol.toUInt8 = false := by
  have hall : ∀ c : UInt8, c < 0x80 → (0x20 ≤ c.toUInt32 ∨ c.toUInt32 = 0x09 ∨ c.toUInt32 = 0x0d ∨ c.toUInt32 = 0x0a) →
      c ≠ Token.END ∧ isControl c = false := ScriptNum.forall_byte (by decide)
  have hnat : symbol.toNat ≤ 127 := UInt32.le_iff_toNat_le.mp hle
  have hback : symbol.toUInt8.toUInt32 = symbol := by
    apply UInt32.toNat_inj.mp
    rw [UInt8.toNat_toUInt32,UInt32.toNat_toUInt8]
    exact Nat.mod_eq_of_lt (by omega)
  have hlow : symbol.toUInt8 < 0x80 := by
    apply UInt8.lt_iff_toNat_lt.mpr
    rw [UInt32.toNat_toUInt8]
    exact (Nat.mod_le _ _).trans_lt (Nat.lt_succ_of_le hnat)
  have hput := putUtf8Symbol_ascii hlow
  rw [hback] at hput
  exact ⟨hput,hlow,hall _ hlow (by rw [hback]; exact h.2)⟩

theorem lead_plain : ∀ c : UInt8, 0x80 ≤ c → c ≠ Token.END ∧ isControl c = false := ScriptNum.forall_byte (by decide)

theorem decodeChar_symbol {symbol : UInt32} (h : Allowed symbol) (str : Bytes) :
    Gives (Fresh data (putUtf8Symbol symbol ++ rest)) (decodeChar str) (.inl (str ++ putUtf8Symbol symbol))
      (Fresh data rest) := by
  by_cases hle : symbol ≤ 0x7f
  · obtain ⟨hput,hlow,hend,hcontrol⟩ := ascii_of_allowed h hle
    have hprohibited : ¬ symbol.toUInt8 > 0xfd := UInt8.not_lt.mpr (UInt8.le_of_lt (UInt8.lt_trans hlow (by decide)))
    rw [hput,List.singleton_append]
    apply Gives.bind peekChar_fresh
    simp only [if_neg hend,hcontrol,Bool.false_eq_true,if_false,if_neg hprohibited,if_pos hlow]
    exact Gives.bind ignore_fresh Gives.pure
  · obtain ⟨lead,part,follows,hbytes,hlead,hfold,hlow,hhigh,hfollows⟩ :=
      (spelling_put (UInt32.not_le.mp hle) h.1).spelled
    obtain ⟨hend,hcontrol⟩ := lead_plain lead hlow
    have hread : Gives (Fresh data (lead :: (follows ++ rest))) (decodeChar str) (.inl (str ++ putUtf8Symbol symbol))
        (Fresh data rest) := by
      apply Gives.bind peekChar_fresh
      simp only [if_neg hend,hcontrol,Bool.false_eq_true,if_false,if_neg (UInt8.not_lt.mpr hhigh : ¬ lead > 0xfd),
        if_neg (UInt8.not_lt.mpr hlow),hlead]
      apply Gives.bind ignore_fresh
      apply Gives.bind (followBytes_gives hfollows part)
      rw [hfold]
      exact Gives.pure
    rw [hbytes,List.cons_append,← hbytes]
    exact hread

theorem decodeChar_end (str : Bytes) :
    Gives (Fresh data (Token.END :: rest)) (decodeChar str) (.inr str) (Fresh data rest) := by
  apply Gives.bind peekChar_fresh
  simp only [if_true]
  exact Gives.bind ignore_fresh Gives.pure

theorem put_ne_nil {symbol : UInt32} (h : Allowed symbol) : 0 < (putUtf8Symbol symbol).length := by
  by_cases hle : symbol ≤ 0x7f
  · rw [(ascii_of_allowed h hle).1]
    exact Nat.one_pos
  · obtain ⟨lead,part,follows,hbytes,-⟩ := (spelling_put (UInt32.not_le.mp hle) h.1).spelled
    rw [hbytes]
    exact Nat.succ_pos _

theorem decodeChars_gives {symbols : List UInt32} (h : ∀ c ∈ symbols, Allowed c) {n : ℕ}
    (hn : (symbols.flatMap putUtf8Symbol).length < n) (str : Bytes) :
    Gives (Fresh data (symbols.flatMap putUtf8Symbol ++ Token.END :: rest)) (iterate decodeChar n str)
      (str ++ symbols.flatMap putUtf8Symbol) (Fresh data rest) := by
  induction symbols generalizing n str with
  | nil =>
    cases n with
    | zero => exact absurd hn (Nat.not_lt_zero _)
    | succ n =>
      rw [List.flatMap_nil,List.append_nil]
      exact iterate_ends (decodeChar_end str)
  | cons symbol symbols ih =>
    have hpos := put_ne_nil (h symbol List.mem_cons_self)
    rw [List.flatMap_cons,List.length_append] at hn
    cases n with
    | zero => exact absurd hn (Nat.not_lt_zero _)
    | succ n =>
      rw [List.flatMap_cons,List.append_assoc,← List.append_assoc str]
      exact iterate_goes (decodeChar_symbol (h symbol List.mem_cons_self) str)
        (ih (fun c hc => h c (List.mem_cons_of_mem _ hc)) (by omega) _)

/-- A string of allowed symbols is read as it was written. -/
theorem decodeString_gives {s : Bytes} (h : Rereads s) :
    Gives (Fresh data (encodeString s ++ rest)) decodeString s (Fresh data rest) := by
  obtain ⟨symbols,hsymbols,rfl⟩ := h
  rw [encodeString,List.cons_append,List.cons_append,List.append_assoc]
  apply Gives.bind getChar_fresh
  rw [if_neg (not_not.mpr rfl)]
  apply loop_fresh
  intro n hn
  rw [List.length_append] at hn
  exact decodeChars_gives hsymbols (by omega) []

end Strings

section Numbers

theorem numberBytes_gives (l acc : Bytes) : Gives (Fresh data (l ++ rest)) (numberBytes l.length acc) (acc ++ l)
    (Fresh data rest) := by
  induction l generalizing acc with
  | nil =>
    rw [List.append_nil]
    exact Gives.pure
  | cons c l ih =>
    rw [List.append_cons]
    exact Gives.bind getChar_fresh (ih _)

/-- An integer behind its token and sign. -/
theorem decodeInteger_gives {token : UInt8} {negative : Bool} {width n : ℕ}
    (htoken : integerToken (some token) = some (negative,width)) (hn : n < 256 ^ width) :
    Gives (Fresh data (token :: leBytes width n ++ rest)) decodeInteger
      (((if negative then -1 else 1) * (n : ℤ)).bmod (2^64)) (Fresh data rest) := by
  have hbytes : Gives (Fresh data (leBytes width n ++ rest)) (numberBytes (leBytes width n).length [])
      ([] ++ leBytes width n) (Fresh data rest) := numberBytes_gives _ _
  rw [leBytes_length,List.nil_append] at hbytes
  apply Gives.bind getChar_fresh
  simp only [htoken]
  apply Gives.bind hbytes
  rw [leValue_leBytes,Nat.mod_eq_of_lt hn]
  exact Gives.pure

theorem signed_bmod {n : ℤ} (hlow : -2^63 < n) (hhigh : n < 2^63) :
    ((if decide (n < 0) = true then -1 else 1) * (n.natAbs : ℤ)).bmod (2^64) = n := by
  have hsigned : (if decide (n < 0) = true then -1 else 1) * (n.natAbs : ℤ) = n := by
    by_cases hn : n < 0
    · rw [decide_eq_true hn,if_pos rfl]
      omega
    · rw [decide_eq_false hn,if_neg Bool.false_ne_true]
      omega
  rw [hsigned]
  exact Int.bmod_eq_of_le (by omega) (by omega)

/-- A class of integers: its two tokens and how many bytes there are. -/
theorem encodeNumber_gives {n : ℤ} (hlow : -2^63 < n) (hhigh : n < 2^63) : ∃ token w,
    encodeNumber n = .ok (token :: w) ∧ (integerToken (some token)).isSome = true ∧
      ∀ data rest, Gives (Fresh data (token :: w ++ rest)) decodeInteger n (Fresh data rest) := by
  have hsome {token : UInt8} {p : Bool × ℕ} (h : integerToken (some token) = some p) :
      (integerToken (some token)).isSome = true := by
    rw [h]
    rfl
  rw [encodeNumber]
  by_cases hzero : n = 0
  · subst hzero
    refine ⟨Token.ZERO,[],if_pos rfl,rfl,fun data rest => ?_⟩
    have hgives : Gives (Fresh data (Token.ZERO :: leBytes 0 0 ++ rest)) decodeInteger
        (((if false = true then -1 else 1) * ((0 : ℕ) : ℤ)).bmod (2^64)) (Fresh data rest) :=
      decodeInteger_gives rfl (by decide)
    exact hgives
  · rw [if_neg hzero,if_neg (by omega)]
    dsimp only
    have hclass (width : ℕ) {neg pos : UInt8} (hneg : integerToken (some neg) = some (true,width))
        (hpos : integerToken (some pos) = some (false,width)) (hn : n.natAbs < 256 ^ width) :
        ∃ token w, (.ok ((if n < 0 then neg else pos) :: leBytes width n.natAbs) : Except Fault Bytes) = .ok (token :: w) ∧
          (integerToken (some token)).isSome = true ∧
          ∀ data rest, Gives (Fresh data (token :: w ++ rest)) decodeInteger n (Fresh data rest) := by
      have htoken : integerToken (some (if n < 0 then neg else pos)) = some (decide (n < 0),width) := by
        by_cases hsign : n < 0
        · rw [if_pos hsign,hneg,decide_eq_true hsign]
        · rw [if_neg hsign,hpos,decide_eq_false hsign]
      refine ⟨_,_,rfl,hsome htoken,fun data rest => ?_⟩
      have hgives : Gives (Fresh data (_ :: leBytes width n.natAbs ++ rest)) decodeInteger _ (Fresh data rest) :=
        decodeInteger_gives htoken hn
      rw [signed_bmod hlow hhigh] at hgives
      exact hgives
    by_cases h₁ : n.natAbs ≤ 0xff
    · rw [if_pos h₁]
      exact hclass 1 rfl rfl (by omega)
    · by_cases h₂ : n.natAbs ≤ 0xffff
      · rw [if_neg h₁,if_pos h₂]
        exact hclass 2 rfl rfl (by omega)
      · by_cases h₄ : n.natAbs ≤ 0xffffffff
        · rw [if_neg h₁,if_neg h₂,if_pos h₄]
          exact hclass 4 rfl rfl (by omega)
        · rw [if_neg h₁,if_neg h₂,if_neg h₄]
          exact hclass 8 rfl rfl (by omega)

end Numbers

section Items

/-- The bytes begin with a token that is not the end of a container. -/
def Opens (w : Bytes) : Prop := ∃ token more, w = token :: more ∧ token ≠ Token.END

variable {ι β : Type} {part : ι → Bytes} {body : β → Decoder (β ⊕ SVal)} {add : β → ι → β} {mk : β → SVal}

theorem nextOrEnd_end {goOn : β} {container : SVal} :
    Gives (Fresh data (Token.END :: rest)) (nextOrEnd goOn container) (.inr container) (Fresh data rest) := by
  apply Gives.bind peekChar_fresh
  rw [if_pos rfl]
  exact Gives.bind ignore_fresh Gives.pure

theorem nextOrEnd_next {goOn : β} {container : SVal} {w : Bytes} (h : Opens w) :
    Gives (Fresh data w) (nextOrEnd goOn container) (.inl goOn) (Fresh data w) := by
  obtain ⟨token,more,rfl,hend⟩ := h
  have hsome : ¬ some token = some Token.END := fun h => hend (Option.some.inj h)
  apply Gives.bind peekChar_fresh
  rw [if_neg hsome]
  exact Gives.pure

/-- The item is taken into the container. -/
def Taken (part : ι → Bytes) (body : β → Decoder (β ⊕ SVal)) (add : β → ι → β) (mk : β → SVal) (i : ι) : Prop :=
  ∀ {data more : Bytes} {b : β} {r : β ⊕ SVal} {Q : TextStream → Prop},
    Gives (Fresh data more) (nextOrEnd (add b i) (mk (add b i))) r Q → Gives (Fresh data (part i ++ more)) (body b) r Q

/-- Items one after another, up to the token of their end. -/
theorem items_give {i : ι} {items : List ι} (hopens : ∀ j ∈ i :: items, Opens (part j))
    (htaken : ∀ j ∈ i :: items, Taken part body add mk j) {n : ℕ} (hn : ((i :: items).flatMap part).length < n) (b : β) :
    Gives (Fresh data ((i :: items).flatMap part ++ Token.END :: rest)) (iterate body n b)
      (mk ((i :: items).foldl add b)) (Fresh data rest) := by
  induction items generalizing i n b with
  | nil =>
    cases n with
    | zero => exact absurd hn (Nat.not_lt_zero _)
    | succ n =>
      rw [List.flatMap_singleton]
      exact iterate_ends (htaken i List.mem_cons_self nextOrEnd_end)
  | cons j items ih =>
    obtain ⟨-,hopens'⟩ := List.forall_mem_cons.mp hopens
    obtain ⟨hi,htaken'⟩ := List.forall_mem_cons.mp htaken
    obtain ⟨token,more,hpart,-⟩ := hopens i List.mem_cons_self
    rw [List.flatMap_cons,List.length_append,hpart,List.length_cons] at hn
    cases n with
    | zero => exact absurd hn (Nat.not_lt_zero _)
    | succ n =>
      obtain ⟨next,after,hnext,hend⟩ := hopens' j List.mem_cons_self
      have hmore : Opens ((j :: items).flatMap part ++ Token.END :: rest) := by
        refine ⟨next,after ++ (items.flatMap part ++ Token.END :: rest),?_,hend⟩
        rw [List.flatMap_cons,List.append_assoc,hnext]
        rfl
      rw [List.flatMap_cons,List.append_assoc]
      exact iterate_goes (hi (nextOrEnd_next hmore)) (ih hopens' htaken' (by omega) _)

/-- A container with its token, and its items up to the end. -/
theorem container_gives {items : List ι} {openToken : UInt8} {wrong : String} {decoder : Decoder SVal} {b : β}
    (hdecoder : decoder = do
      let token ← getChar
      if token ≠ some openToken then fail wrong
      else
        let c ← peekChar
        if c = some Token.END then
          ignore
          pure (mk b)
        else loop body b)
    (hopens : ∀ j ∈ items, Opens (part j)) (htaken : ∀ j ∈ items, Taken part body add mk j) :
    Gives (Fresh data (openToken :: items.flatMap part ++ [Token.END] ++ rest)) decoder (mk (items.foldl add b))
      (Fresh data rest) := by
  rw [hdecoder,List.append_assoc,List.singleton_append,List.cons_append]
  apply Gives.bind getChar_fresh
  rw [if_neg (not_not.mpr rfl)]
  cases items with
  | nil =>
    apply Gives.bind peekChar_fresh
    rw [if_pos rfl]
    exact Gives.bind ignore_fresh Gives.pure
  | cons i items =>
    obtain ⟨token,more,hpart,hend⟩ := hopens i List.mem_cons_self
    have hsome : ¬ some token = some Token.END := fun h => hend (Option.some.inj h)
    have hloop : Gives (Fresh data ((i :: items).flatMap part ++ Token.END :: rest)) (loop body b)
        (mk ((i :: items).foldl add b)) (Fresh data rest) := by
      apply loop_fresh
      intro n hn
      rw [List.length_append] at hn
      exact items_give hopens htaken (by omega) b
    have hhead : (i :: items).flatMap part ++ Token.END :: rest =
        token :: (more ++ (items.flatMap part ++ Token.END :: rest)) := by
      rw [List.flatMap_cons,List.append_assoc,hpart]
      rfl
    rw [hhead] at hloop ⊢
    apply Gives.bind peekChar_fresh
    rw [if_neg hsome]
    exact hloop

end Items

/-- Values without floating point numbers, with integers of `int64_t`, and with the fields of objects in their
order. -/
inductive Tree : SVal → Prop
  | null : Tree .null
  | bool (value : Bool) : Tree (.bool value)
  | int {n : ℤ} (low : -2^63 ≤ n) (high : n < 2^63) : Tree (.int n)
  | str (value : Bytes) : Tree (.str value)
  | binary (value : Bytes) : Tree (.binary value)
  | arr {elements : List SVal} (trees : ∀ e ∈ elements, Tree e) : Tree (.arr elements)
  | obj {fields : List (Bytes × SVal)} (sorted : fields.Pairwise fun f g => SObj.order f < SObj.order g)
    (trees : ∀ f ∈ fields, Tree f.2) : Tree (.obj fields)

/-- Values that come back: their strings are made of allowed symbols, and their binaries are empty. -/
inductive Keeps : SVal → Prop
  | null : Keeps .null
  | bool (value : Bool) : Keeps (.bool value)
  | int {n : ℤ} (low : n ≠ -2^63) : Keeps (.int n)
  | str {value : Bytes} (text : Rereads value) : Keeps (.str value)
  | binary : Keeps (.binary [])
  | arr {elements : List SVal} (keep : ∀ e ∈ elements, Keeps e) : Keeps (.arr elements)
  | obj {fields : List (Bytes × SVal)} (keys : ∀ f ∈ fields, Rereads f.1) (keep : ∀ f ∈ fields, Keeps f.2) :
    Keeps (.obj fields)

/-- The bytes of a value, from which it is read. -/
structure Reads (v : SVal) (w : Bytes) : Prop where
  opens : Opens w
  gives : ∀ depth, w.length ≤ depth → ∀ data rest, Gives (Fresh data (w ++ rest)) (decodeValue depth) v (Fresh data rest)

section Values

variable {float : Bytes → Except Fault Bytes}

theorem Reads.of_valueAt {v : SVal} {token : UInt8} {w : Bytes} (hend : token ≠ Token.END)
    (h : ∀ depth, w.length ≤ depth → ∀ data rest, Gives (Fresh data (token :: w ++ rest))
      (valueAt (decodeValue depth) (some token)) v (Fresh data rest)) : Reads v (token :: w) := by
  refine ⟨⟨token,w,rfl,hend⟩,fun depth hdepth data rest => ?_⟩
  cases depth with
  | zero => exact absurd hdepth (Nat.not_succ_le_zero _)
  | succ depth =>
    apply Gives.bind eof_fresh
    rw [if_neg Bool.false_ne_true]
    exact Gives.bind peekChar_fresh (h depth (Nat.le_of_succ_le_succ hdepth) data rest)

theorem null_reads : Reads .null [Token.NULL] := by
  apply Reads.of_valueAt (by decide)
  intro depth _ data rest
  have hnull : Gives (Fresh data (Token.NULL :: rest)) decodeNull () (Fresh data rest) := by
    apply Gives.bind getChar_fresh
    rw [if_neg (not_not.mpr rfl)]
    exact Gives.pure
  exact map_gives _ hnull

theorem bool_reads (b : Bool) : Reads (.bool b) [if b then Token.TRUE else Token.FALSE] := by
  cases b with
  | true =>
    apply Reads.of_valueAt (by decide)
    intro depth _ data rest
    exact map_gives SVal.bool (Gives.bind getChar_fresh Gives.pure)
  | false =>
    apply Reads.of_valueAt (by decide)
    intro depth _ data rest
    exact map_gives SVal.bool (Gives.bind getChar_fresh Gives.pure)

theorem integerToken_other : ∀ token : UInt8, (integerToken (some token)).isSome = true → token ≠ Token.END ∧
    ¬ (some token = some Token.FALSE ∨ some token = some Token.TRUE) ∧ ¬ some token = some Token.NULL :=
  ScriptNum.forall_byte (by decide)

theorem int_reads {n : ℤ} (hlow : -2^63 < n) (hhigh : n < 2^63) : ∃ w, encodeNumber n = .ok w ∧ Reads (.int n) w := by
  obtain ⟨token,w,hencode,htoken,hgives⟩ := encodeNumber_gives hlow hhigh
  obtain ⟨hend,hbool,hnull⟩ := integerToken_other token htoken
  refine ⟨_,hencode,Reads.of_valueAt hend fun depth _ data rest => ?_⟩
  rw [valueAt,if_neg hbool,if_neg hnull,if_pos htoken]
  exact map_gives SVal.int (hgives data rest)

theorem str_reads {s : Bytes} (h : Rereads s) : Reads (.str s) (encodeString s) := by
  apply Reads.of_valueAt (by decide)
  intro depth _ data rest
  exact map_gives SVal.str (decodeString_gives h)

theorem binary_reads : Reads (.binary []) [Token.BINARY_255,0] := by
  apply Reads.of_valueAt (by decide)
  intro depth _ data rest
  apply map_gives SVal.binary
  apply Gives.bind getChar_fresh
  exact Gives.bind (Gives.bind getChar_fresh Gives.pure) (Gives.bind Gives.pure Gives.pure)

theorem element_taken {i : SVal × Bytes} (h : Reads i.1 i.2) {depth : ℕ} (hdepth : i.2.length ≤ depth) :
    Taken Prod.snd (decodeElement (decodeValue depth)) (fun arr i => arr ++ [i.1]) .arr i := by
  intro data more arr r Q hnext
  obtain ⟨token,w,hw,-⟩ := h.opens
  have hvalue := h.gives depth hdepth data more
  rw [hw,List.cons_append] at hvalue ⊢
  apply Gives.bind eof_fresh
  rw [if_neg Bool.false_ne_true]
  exact Gives.bind (catching_gives hvalue) hnext

theorem field_taken {i : (Bytes × SVal) × Bytes} (hkey : Rereads i.1.1) (h : Reads i.1.2 i.2) {depth : ℕ}
    (hdepth : i.2.length ≤ depth) : Taken (fun i => encodeString i.1.1 ++ i.2) (decodeField (decodeValue depth))
      (fun obj i => SObj.emplace i.1.1 i.1.2 obj) .obj i := by
  intro data more obj r Q hnext
  have hstring : Gives (Fresh data (encodeString i.1.1 ++ (i.2 ++ more))) decodeString i.1.1 (Fresh data (i.2 ++ more)) :=
    decodeString_gives hkey
  rw [List.append_assoc]
  rw [encodeString,List.cons_append,List.cons_append] at hstring ⊢
  apply Gives.bind eof_fresh
  rw [if_neg Bool.false_ne_true]
  apply Gives.bind (catching_gives hstring)
  exact Gives.bind (catching_gives (h.gives depth hdepth data more)) hnext

theorem foldl_push (items : List (SVal × Bytes)) (arr : List SVal) :
    items.foldl (fun arr i => arr ++ [i.1]) arr = arr ++ items.map Prod.fst := by
  induction items generalizing arr with
  | nil => exact (List.append_nil arr).symm
  | cons i items ih => rw [List.foldl_cons,ih,List.append_assoc,List.singleton_append,List.map_cons]

theorem length_item {ι : Type} (part : ι → Bytes) {items : List ι} {i : ι} (h : i ∈ items) :
    (part i).length ≤ (items.flatMap part).length := by
  obtain ⟨front,back,rfl⟩ := List.append_of_mem h
  rw [List.flatMap_append,List.flatMap_cons,List.length_append,List.length_append]
  omega

theorem arr_reads {items : List (SVal × Bytes)} (h : ∀ i ∈ items, Reads i.1 i.2) :
    Reads (.arr (items.map Prod.fst)) (Token.ARRAY :: items.flatMap Prod.snd ++ [Token.END]) := by
  rw [List.cons_append]
  apply Reads.of_valueAt (by decide)
  intro depth hdepth data rest
  rw [List.length_append] at hdepth
  have hgives : Gives (Fresh data (Token.ARRAY :: items.flatMap Prod.snd ++ [Token.END] ++ rest))
      (decodeArray (decodeValue depth)) (.arr (items.foldl (fun arr i => arr ++ [i.1]) [])) (Fresh data rest) :=
    container_gives rfl (fun i hi => (h i hi).opens)
      fun i hi => element_taken (h i hi) ((length_item Prod.snd hi).trans (by omega))
  rw [foldl_push,List.nil_append] at hgives
  exact hgives

theorem obj_reads {items : List ((Bytes × SVal) × Bytes)} (hkeys : ∀ i ∈ items, Rereads i.1.1)
    (h : ∀ i ∈ items, Reads i.1.2 i.2)
    (hsorted : (items.map Prod.fst).Pairwise fun f g => SObj.order f < SObj.order g) :
    Reads (.obj (items.map Prod.fst))
      (Token.OBJECT :: (items.flatMap fun i => encodeString i.1.1 ++ i.2) ++ [Token.END]) := by
  rw [List.cons_append]
  apply Reads.of_valueAt (by decide)
  intro depth hdepth data rest
  rw [List.length_append] at hdepth
  have hpart : ∀ i ∈ items, i.2.length ≤ depth := by
    intro i hi
    have hlength := length_item (fun i : (Bytes × SVal) × Bytes => encodeString i.1.1 ++ i.2) hi
    rw [List.length_append] at hlength
    omega
  have hgives : Gives (Fresh data (Token.OBJECT :: (items.flatMap fun i => encodeString i.1.1 ++ i.2) ++ [Token.END] ++
      rest)) (decodeObject (decodeValue depth)) (.obj (items.foldl (fun obj i => SObj.emplace i.1.1 i.1.2 obj) []))
      (Fresh data rest) :=
    container_gives rfl (fun i _ => ⟨Token.STRING,_,rfl,by decide⟩)
      fun i hi => field_taken (hkeys i hi) (h i hi) (hpart i hi)
  have hfold : items.foldl (fun obj i => SObj.emplace i.1.1 i.1.2 obj) [] = items.map Prod.fst := by
    have hall : (items.map Prod.fst).foldl (fun obj f => SObj.emplace f.1 f.2 obj) [] = [] ++ items.map Prod.fst :=
      SObj.foldl_emplace hsorted
    rw [List.foldl_map,List.nil_append] at hall
    exact hall
  rw [hfold] at hgives
  exact hgives

theorem elements_written {elements : List SVal} (h : ∀ e ∈ elements, ∃ w, encodeValue float e = .ok w ∧ Reads e w) :
    ∃ items : List (SVal × Bytes), items.map Prod.fst = elements ∧ (∀ i ∈ items, Reads i.1 i.2) ∧
      encodeElements float elements = .ok (items.flatMap Prod.snd) := by
  induction elements with
  | nil => exact ⟨[],rfl,nofun,rfl⟩
  | cons e elements ih =>
    obtain ⟨⟨w,hw,hreads⟩,helements⟩ := List.forall_mem_cons.mp h
    obtain ⟨items,rfl,hitems,hencode⟩ := ih helements
    refine ⟨(e,w) :: items,rfl,List.forall_mem_cons.mpr ⟨hreads,hitems⟩,?_⟩
    rw [encodeElements,hw,hencode]
    rfl

theorem fields_written {fields : List (Bytes × SVal)}
    (h : ∀ f ∈ fields, ∃ w, encodeValue float f.2 = .ok w ∧ Reads f.2 w) :
    ∃ items : List ((Bytes × SVal) × Bytes), items.map Prod.fst = fields ∧ (∀ i ∈ items, Reads i.1.2 i.2) ∧
      encodeFields float fields = .ok (items.flatMap fun i => encodeString i.1.1 ++ i.2) := by
  induction fields with
  | nil => exact ⟨[],rfl,nofun,rfl⟩
  | cons f fields ih =>
    obtain ⟨⟨w,hw,hreads⟩,hfields⟩ := List.forall_mem_cons.mp h
    obtain ⟨items,rfl,hitems,hencode⟩ := ih hfields
    refine ⟨(f,w) :: items,rfl,List.forall_mem_cons.mpr ⟨hreads,hitems⟩,?_⟩
    rw [encodeFields,hw,hencode]
    rfl

/-- A value that keeps is written, and read as it was. -/
theorem Keeps.reads {v : SVal} (hv : Keeps v) (htree : Tree v) : ∃ w, encodeValue float v = .ok w ∧ Reads v w := by
  induction hv with
  | null => exact ⟨_,rfl,null_reads⟩
  | bool value => exact ⟨_,rfl,bool_reads value⟩
  | int low =>
    cases htree with
    | int low' high => exact int_reads (by omega) high
  | str text => exact ⟨_,rfl,str_reads text⟩
  | binary => exact ⟨_,rfl,binary_reads⟩
  | arr keep ih =>
    cases htree with
    | arr trees =>
      obtain ⟨items,rfl,hitems,hencode⟩ := elements_written fun e he => ih e he (trees e he)
      refine ⟨_,?_,arr_reads hitems⟩
      rw [encodeValue,hencode]
      rfl
  | obj keys keep ih =>
    cases htree with
    | obj sorted trees =>
      obtain ⟨items,rfl,hitems,hencode⟩ := fields_written fun f hf => ih f hf (trees f hf)
      refine ⟨_,?_,obj_reads (fun i hi => keys _ (List.mem_map_of_mem hi)) hitems sorted⟩
      rw [encodeValue,hencode]
      rfl

end Values

section Worth

open Classical in
/-- What a string is worth: one more than its length where it would not come back. -/
noncomputable def stringWorth (s : Bytes) : ℤ := s.length + if Rereads s then 0 else 1

/-- How many bytes an integer has behind its token. -/
def width (n : ℤ) : ℕ :=
  if n = 0 then 0
  else if n.natAbs ≤ 0xff then 1
  else if n.natAbs ≤ 0xffff then 2
  else if n.natAbs ≤ 0xffffffff then 4
  else 8

mutual

/-- The bytes of a value, and more where it would not come back. -/
noncomputable def worth : SVal → ℤ
  | .str s => 2 + stringWorth s
  | .int n => 1 + width n
  | .binary b => if b = [] then 2 else b.length + 6
  | .arr elements => 2 + elementsWorth elements
  | .obj fields => 2 + fieldsWorth fields
  | _ => 1

noncomputable def elementsWorth : List SVal → ℤ
  | [] => 0
  | element :: elements => worth element + elementsWorth elements

noncomputable def fieldsWorth : List (Bytes × SVal) → ℤ
  | [] => 0
  | (key,value) :: fields => 2 + stringWorth key + worth value + fieldsWorth fields

end

theorem worth_null : worth .null = 1 := by rw [worth] <;> exact nofun

theorem worth_bool (value : Bool) : worth (.bool value) = 1 := by rw [worth] <;> exact nofun

theorem worth_float (literal : Bytes) : worth (.float literal) = 1 := by rw [worth] <;> exact nofun

theorem elementsWorth_append (front back : List SVal) :
    elementsWorth (front ++ back) = elementsWorth front + elementsWorth back := by
  induction front with
  | nil => exact (Int.zero_add _).symm
  | cons e front ih => rw [List.cons_append,elementsWorth,elementsWorth,ih,Int.add_assoc]

theorem stringWorth_nonneg (s : Bytes) : 0 ≤ stringWorth s := by
  rw [stringWorth]
  split_ifs <;> omega

mutual

theorem worth_pos : ∀ v : SVal, 1 ≤ worth v
  | .str s => by
    have h := stringWorth_nonneg s
    rw [worth]
    omega
  | .int n => by
    rw [worth]
    omega
  | .binary b => by
    rw [worth]
    split_ifs <;> omega
  | .arr elements => by
    have h := elementsWorth_nonneg elements
    rw [worth]
    omega
  | .obj fields => by
    have h := fieldsWorth_nonneg fields
    rw [worth]
    omega
  | .undefined => by rw [worth] <;> exact nofun
  | .null => Int.le_of_eq worth_null.symm
  | .bool b => Int.le_of_eq (worth_bool b).symm
  | .float l => Int.le_of_eq (worth_float l).symm

theorem elementsWorth_nonneg : ∀ elements : List SVal, 0 ≤ elementsWorth elements
  | [] => Int.le_refl 0
  | element :: elements => by
    have h := worth_pos element
    have hmore := elementsWorth_nonneg elements
    rw [elementsWorth]
    omega

theorem fieldsWorth_nonneg : ∀ fields : List (Bytes × SVal), 0 ≤ fieldsWorth fields
  | [] => Int.le_refl 0
  | (key,value) :: fields => by
    have hkey := stringWorth_nonneg key
    have h := worth_pos value
    have hmore := fieldsWorth_nonneg fields
    rw [fieldsWorth]
    omega

end

/-- A field that goes into an object adds no more than it is worth. -/
theorem fieldsWorth_emplace (key : Bytes) (value : SVal) (obj : List (Bytes × SVal)) :
    fieldsWorth (SObj.emplace key value obj) ≤ fieldsWorth obj + (2 + stringWorth key + worth value) := by
  have hkey := stringWorth_nonneg key
  have hvalue := worth_pos value
  induction obj with
  | nil =>
    simp only [SObj.emplace,fieldsWorth]
    omega
  | cons field obj ih =>
    rw [SObj.emplace]
    split_ifs
    · omega
    · rw [fieldsWorth]
      omega
    · rw [fieldsWorth,fieldsWorth]
      omega

theorem stringWorth_eq {s : Bytes} (h : Rereads s) : stringWorth s = s.length := by
  rw [stringWorth,if_pos h,Int.add_zero]

/-- A symbol in as few bytes as can be. -/
theorem stringWorth_symbol (str : Bytes) {symbol : UInt32} (h : Allowed symbol) :
    stringWorth (str ++ putUtf8Symbol symbol) ≤ stringWorth str + (putUtf8Symbol symbol).length := by
  have hkept : Rereads str → Rereads (str ++ putUtf8Symbol symbol) := by
    rintro ⟨symbols,hsymbols,rfl⟩
    refine ⟨symbols ++ [symbol],List.forall_mem_append.mpr ⟨hsymbols,List.forall_mem_singleton.mpr h⟩,?_⟩
    rw [List.flatMap_append,List.flatMap_singleton]
  rw [stringWorth,stringWorth,List.length_append]
  by_cases hstr : Rereads str
  · rw [if_pos hstr,if_pos (hkept hstr)]
    omega
  · rw [if_neg hstr]
    split_ifs <;> omega

theorem stringWorth_append (str more : Bytes) : stringWorth (str ++ more) ≤ stringWorth str + more.length + 1 := by
  rw [stringWorth,stringWorth,List.length_append]
  split_ifs <;> omega

end Worth

section Consumption

variable {bound : ℤ} {cost : α → ℤ}

theorem fail_ends (msg : String) : Ends bound cost (fail msg : Decoder α) := Ends.raise _

theorem catching_ends (context : String) {x : Decoder α} (h : Ends bound cost x) : Ends bound cost (catching context x) := by
  refine Ends.rethrow h fun s => ?_
  change catching context x s = x s ∨ ∃ e, catching context x s = .error (.thrown e)
  unfold catching
  split
  · exact .inr ⟨_,rfl⟩
  · exact .inl rfl

theorem map_ends {β : Type} {costb : β → ℤ} {x : Decoder α} (f : α → β) (h : Ends bound cost x)
    (hf : ∀ a, costb (f a) ≤ cost a) : Ends bound costb (f <$> x) := by
  rw [map_eq_pure_bind]
  exact Ends.bind h fun a => Ends.pure (by linarith [hf a])

theorem followBytes_ends (bytes : ℕ) (chr : UInt32) : Ends bound (fun _ => (bytes : ℤ)) (followBytes bytes chr) := by
  induction bytes generalizing bound chr with
  | zero => exact Ends.pure (Int.le_refl 0)
  | succ bytes ih =>
    refine Ends.skip Ends.eof fun _ => Ends.ite (fun _ => fail_ends _) fun _ => Ends.take (fail_ends _) fun c => ?_
    refine Ends.ite (fun _ => ?_) fun _ => fail_ends _
    exact (ih _).mono (Int.le_refl _) fun _ => by push_cast; omega

theorem follow_lt {v : UInt32} {f : UInt8} {k : ℕ} (hk : k + 6 ≤ 32) (hv : v.toNat < 2 ^ k) :
    (follow v f).toNat < 2 ^ (k + 6) := by
  have hpow : 2 ^ (k + 6) ≤ 2 ^ 32 := Nat.pow_le_pow_right (by decide) hk
  have hshift : v.toNat <<< 6 % 2 ^ 32 < 2 ^ (k + 6) := by
    rw [Nat.shiftLeft_eq]
    have hlt : v.toNat * 2 ^ 6 < 2 ^ (k + 6) := by
      rw [Nat.pow_add]
      exact Nat.mul_lt_mul_of_pos_right hv (by decide)
    exact (Nat.mod_le _ _).trans_lt hlt
  have hlow : f.toNat &&& 63 < 2 ^ (k + 6) := by
    have hle : f.toNat &&& 63 ≤ 63 := Nat.and_le_right
    have hsmall : 2 ^ 6 ≤ 2 ^ (k + 6) := Nat.pow_le_pow_right (by decide) (Nat.le_add_left _ _)
    omega
  rw [follow,UInt32.toNat_or,UInt32.toNat_shiftLeft,UInt8.toNat_toUInt32,UInt8.toNat_and]
  exact Nat.or_lt_two_pow hshift hlow

theorem followBytes_lt {bytes k : ℕ} (hk : k + 6 * bytes ≤ 32) {chr : UInt32} (hchr : chr.toNat < 2 ^ k) :
    MayGive (fun _ => True) (followBytes bytes chr) fun symbol _ => symbol.toNat < 2 ^ (k + 6 * bytes) := by
  induction bytes generalizing k chr with
  | zero => exact MayGive.pure fun _ _ => hchr
  | succ bytes ih =>
    refine MayGive.skip fun atEnd => ?_
    split_ifs
    · exact MayGive.raise _
    · refine MayGive.skip fun c => ?_
      cases c with
      | none => exact MayGive.raise _
      | some c =>
        dsimp only
        split_ifs
        · refine (ih (k := k + 6) (by omega) (follow_lt (by omega) hchr)).mono fun symbol t h => ?_
          rw [show k + 6 * (bytes + 1) = k + 6 + 6 * bytes by omega]
          exact h
        · exact MayGive.raise _

theorem leadByte_lt : ∀ c : UInt8, c ≤ 0xfd → ∀ r ∈ leadByte c, 1 ≤ r.1 ∧ r.1 ≤ 5 ∧ r.2.toNat < 2 ^ (6 - r.1) :=
  ScriptNum.forall_byte (by decide)

/-- The bytes of a symbol are worth at least what it adds to a string. -/
theorem symbol_ends {c : UInt8} (hc : c ≤ 0xfd) {bytes : ℕ} {chr : UInt32} (hlead : leadByte c = some (bytes,chr))
    (str : Bytes) : Ends bound (fun symbol => max 1 (stringWorth (str ++ putUtf8Symbol symbol) - stringWorth str) - 1)
      (followBytes bytes chr) := by
  obtain ⟨hlow,hhigh,hchr⟩ := leadByte_lt c hc (bytes,chr) hlead
  refine (followBytes_ends bytes chr).of_result fun s symbol t ht => ?_
  have hsymbol := followBytes_lt (k := 6 - bytes) (by omega) hchr s trivial symbol t ht
  rw [show 6 - bytes + 6 * bytes = 6 + 5 * bytes by omega] at hsymbol
  have hlength := length_put hlow hhigh hsymbol
  have hadds : stringWorth (str ++ putUtf8Symbol symbol) - stringWorth str ≤ bytes + 1 := by
    by_cases hfull : (putUtf8Symbol symbol).length = bytes + 1
    · have hallowed : Allowed symbol := by
        have hlarge : ¬ symbol ≤ 0x7f := by
          intro hle
          rw [putUtf8Symbol,JsonSerializer.putUnicodeSymbolAsUtf8,if_pos hle,List.length_singleton] at hfull
          omega
        have hpow : 2 ^ (6 + 5 * bytes) ≤ 2 ^ 31 := Nat.pow_le_pow_right (by decide) (by omega)
        refine ⟨UInt32.le_iff_toNat_le.mpr ?_,
          .inl (UInt32.le_trans (by decide) (UInt32.le_of_lt (UInt32.not_le.mp hlarge)))⟩
        change symbol.toNat ≤ 2 ^ 31 - 1
        omega
      have hworth := stringWorth_symbol str hallowed
      omega
    · have hworth := stringWorth_append str (putUtf8Symbol symbol)
      omega
  have hmax : max 1 (stringWorth (str ++ putUtf8Symbol symbol) - stringWorth str) ≤ (bytes : ℤ) + 1 :=
    max_le (by omega) hadds
  omega

theorem allowed_ascii : ∀ c : UInt8, c < 0x80 → c ≠ Token.END → isControl c = false → Allowed c.toUInt32 :=
  ScriptNum.forall_byte (by unfold Allowed; decide)

theorem decodeChar_ends (str : Bytes) : Ends bound (Sum.elim (fun str' => max 1 (stringWorth str' - stringWorth str))
    fun r => 1 + stringWorth r - stringWorth str) (decodeChar str) := by
  refine Ends.peek (fail_ends _) fun c => ?_
  refine EndsAt.ite (fun _ => EndsAt.ignore (Ends.pure (by simp only [Sum.elim_inr]; omega))) fun hend => ?_
  refine EndsAt.ite (fun _ => EndsAt.of_ends (fail_ends _)) fun hcontrol => ?_
  refine EndsAt.ite (fun _ => EndsAt.of_ends (fail_ends _)) fun hhigh => ?_
  refine EndsAt.ite (fun hlow => EndsAt.ignore (Ends.pure ?_)) fun _ => EndsAt.ignore ?_
  · have hallowed := allowed_ascii c hlow hend (Bool.eq_false_iff.mpr hcontrol)
    have hworth := stringWorth_symbol str hallowed
    rw [putUtf8Symbol_ascii hlow,List.length_singleton] at hworth
    have hmax : max 1 (stringWorth (str ++ [c]) - stringWorth str) ≤ 1 := max_le (Int.le_refl 1) (by omega)
    simp only [Sum.elim_inl]
    omega
  · cases hlead : leadByte c with
    | none => exact fail_ends _
    | some r =>
      obtain ⟨bytes,chr⟩ := r
      refine Ends.bind (symbol_ends (UInt8.not_lt.mp hhigh) hlead str) fun symbol => Ends.pure ?_
      simp only [Sum.elim_inl]
      omega

theorem stringWorth_nil : stringWorth [] = 0 := stringWorth_eq ⟨[],nofun,rfl⟩

theorem decodeString_ends : Ends bound (fun s => 2 + stringWorth s) decodeString := by
  refine Ends.take (Ends.ite (fun _ => fail_ends _) fun h => absurd nofun h) fun c => ?_
  refine Ends.ite (fun _ => fail_ends _) fun _ => (Ends.loop_worth decodeChar_ends []).mono (Int.le_refl _) fun s => ?_
  have hnil := stringWorth_nil
  omega

theorem getChar_ends : Ends bound (fun _ => 0) (getChar : Decoder (Option UInt8)) :=
  Ends.getChar.mono (Int.le_refl _) fun c => by cases c <;> simp

theorem readBytes_ends (size : ℕ) (bytes : Bytes) : Ends bound (fun _ => (size : ℤ)) (readBytes size bytes) := by
  induction size generalizing bound bytes with
  | zero => exact Ends.pure (Int.le_refl 0)
  | succ size ih =>
    refine Ends.take (Ends.raise _) fun c => ?_
    exact (ih _).mono (Int.le_refl _) fun _ => by push_cast; omega

theorem numberBytes_ends (bytes : ℕ) (acc : Bytes) : Ends bound (fun _ => (bytes : ℤ)) (numberBytes bytes acc) := by
  induction bytes generalizing bound acc with
  | zero => exact Ends.pure (Int.le_refl 0)
  | succ bytes ih =>
    refine Ends.take (fail_ends _) fun c => ?_
    exact (ih _).mono (Int.le_refl _) fun _ => by push_cast; omega

theorem binaryBytes_ends (size : ℕ) (bin : Bytes) : Ends bound (fun _ => 0) (binaryBytes size bin) := by
  induction size generalizing bin with
  | zero => exact Ends.pure (Int.le_refl 0)
  | succ size ih =>
    refine Ends.skip Ends.eof fun atEnd => ?_
    have hbyte : ∀ next : Option UInt8, Ends bound (fun _ => 0) (if next = none then
        fail "Unexpect out of data during parse binary data" else do
          let c ← getChar
          binaryBytes size (bin ++ [c.getD 0xff]) : Decoder Bytes) :=
      fun next => Ends.ite (fun _ => fail_ends _) fun _ => Ends.skip getChar_ends fun c => ih _
    exact Ends.ite (fun _ => Ends.skip (Ends.pure (Int.le_refl 0)) hbyte) fun _ => Ends.skip Ends.peekChar hbyte

theorem width_small {n : ℤ} {k : ℕ} (hk : k = 0 ∨ k = 1 ∨ k = 2 ∨ k = 4) (hn : n.natAbs < 256 ^ k) : width n ≤ k := by
  rw [width]
  rcases hk with rfl | rfl | rfl | rfl
  · rw [if_pos (by omega)]
  · split_ifs <;> omega
  · split_ifs <;> omega
  · split_ifs <;> omega

/-- The bytes behind a token are not fewer than an integer that is read from them needs. -/
theorem width_le {n k : ℕ} (hk : k = 0 ∨ k = 1 ∨ k = 2 ∨ k = 4 ∨ k = 8) (hn : n < 256 ^ k) (negative : Bool) :
    width (((if negative = true then -1 else 1) * (n : ℤ)).bmod (2^64)) ≤ k := by
  have hsmall (hk : k = 0 ∨ k = 1 ∨ k = 2 ∨ k = 4) :
      width (((if negative = true then -1 else 1) * (n : ℤ)).bmod (2^64)) ≤ k := by
    have hlt : n < 2^32 := by
      rcases hk with rfl | rfl | rfl | rfl <;> omega
    have habs : (((if negative = true then -1 else 1) * (n : ℤ)).bmod (2^64)).natAbs = n := by
      rw [Int.bmod_eq_of_le (by split_ifs <;> omega) (by split_ifs <;> omega)]
      split_ifs <;> omega
    exact width_small hk (by rw [habs]; exact hn)
  rcases hk with h | h | h | h | rfl
  · exact hsmall (.inl h)
  · exact hsmall (.inr (.inl h))
  · exact hsmall (.inr (.inr (.inl h)))
  · exact hsmall (.inr (.inr (.inr h)))
  · rw [width]
    split_ifs <;> omega

theorem integerToken_le : ∀ c : UInt8, ∀ r ∈ integerToken (some c), r.2 = 0 ∨ r.2 = 1 ∨ r.2 = 2 ∨ r.2 = 4 ∨ r.2 = 8 :=
  ScriptNum.forall_byte (by decide)

theorem numberBytes_length (bytes : ℕ) (acc : Bytes) :
    MayGive (fun _ => True) (numberBytes bytes acc) fun data _ => data.length = acc.length + bytes := by
  induction bytes generalizing acc with
  | zero => exact MayGive.pure fun _ _ => rfl
  | succ bytes ih =>
    refine MayGive.skip fun c => ?_
    cases c with
    | none => exact MayGive.raise _
    | some c =>
      refine (ih (acc ++ [c])).mono fun data _ h => ?_
      rw [h,List.length_append,List.length_singleton]
      omega

theorem decodeInteger_ends : Ends bound (fun n => 1 + (width n : ℤ)) decodeInteger := by
  refine Ends.take (fail_ends _) fun c => ?_
  cases htoken : integerToken (some c) with
  | none =>
    dsimp only
    exact fail_ends _
  | some r =>
    obtain ⟨negative,bytes⟩ := r
    dsimp only
    have hall : Ends (bound - 1) (fun _ => (bytes : ℤ)) (do
        let data ← numberBytes bytes []
        pure (((if negative = true then -1 else 1) * (leValue data : ℤ)).bmod (2^64)) : Decoder ℤ) :=
      Ends.bind (numberBytes_ends bytes []) fun data => Ends.pure (by omega)
    refine hall.of_result fun s n t hn => ?_
    have hwidth : MayGive (fun _ => True) (do
        let data ← numberBytes bytes []
        pure (((if negative = true then -1 else 1) * (leValue data : ℤ)).bmod (2^64)) : Decoder ℤ)
        fun n _ => width n ≤ bytes := by
      refine MayGive.bind (numberBytes_length bytes []) fun data => MayGive.pure fun t hlength => ?_
      rw [List.length_nil,Nat.zero_add] at hlength
      have hlt := leValue_lt data
      rw [hlength] at hlt
      exact width_le (integerToken_le c (negative,bytes) htoken) hlt negative
    have hle := hwidth s trivial n t hn
    omega

theorem decodeFloat_ends : Ends bound (fun _ => 1) decodeFloat := by
  refine Ends.take ?_ fun c => ?_
  · exact Ends.ite (fun h => absurd h nofun) fun _ => Ends.ite (fun h => absurd h nofun) fun _ => fail_ends _
  · refine Ends.ite (fun _ => ?_) fun _ => Ends.ite (fun _ => ?_) fun _ => fail_ends _
    · exact (numberBytes_ends 4 []).mono (Int.le_refl _) fun _ => by omega
    · exact (numberBytes_ends 8 []).mono (Int.le_refl _) fun _ => by omega

theorem decodeBool_ends : Ends bound (fun _ => 1) decodeBool := by
  refine Ends.take ?_ fun c => ?_
  · exact Ends.ite (fun h => absurd h nofun) fun _ => Ends.ite (fun h => absurd h nofun) fun _ => fail_ends _
  · exact Ends.ite (fun _ => Ends.pure (Int.le_refl 0)) fun _ => Ends.ite (fun _ => Ends.pure (Int.le_refl 0))
      fun _ => fail_ends _

theorem decodeNull_ends : Ends bound (fun _ => 1) decodeNull := by
  refine Ends.take (Ends.ite (fun _ => fail_ends _) fun h => absurd nofun h) fun c => ?_
  exact Ends.ite (fun _ => fail_ends _) fun _ => Ends.pure (Int.le_refl 0)

theorem binarySize_pays (token : Option UInt8) : Pays (fun _ t => Failed t) (fun _ => 1) (binarySize token) := by
  have hread (size : ℕ) (hsize : 1 ≤ size) : Pays (fun _ t => Failed t) (fun _ => 1) (do
      let size_le ← readBytes size []
      pure (leValue size_le) : Decoder ℕ) :=
    Pays.of_ends fun bound => Ends.bind (readBytes_ends size []) fun _ => Ends.pure (by omega)
  refine Pays.ite (fun _ => ?_) fun _ => Pays.ite (fun _ => hread 2 (by decide)) fun _ =>
    Pays.ite (fun _ => hread 4 (by decide)) fun _ => Pays.raise _
  exact Pays.bind Pays.getChar (fun _ => MayGive.pure fun _ h => h.2) fun _ => Pays.pure (Int.le_refl 0)

theorem binaryBytes_failed (size : ℕ) (bin : Bytes) : MayGive Failed (binaryBytes size bin) fun _ t => Failed t := by
  induction size generalizing bin with
  | zero => exact MayGive.pure fun _ h => h
  | succ size ih =>
    refine MayGive.bind eof_failed fun atEnd => ?_
    have hbyte : ∀ next : Option UInt8, MayGive Failed (if next = none then
        fail "Unexpect out of data during parse binary data" else do
          let c ← getChar
          binaryBytes size (bin ++ [c.getD 0xff]) : Decoder Bytes) fun _ t => Failed t := by
      intro next
      split_ifs
      · exact MayGive.raise _
      · exact MayGive.after getChar_failed (ih _)
    split_ifs
    · exact MayGive.after Gives.pure (hbyte _)
    · exact MayGive.after peekChar_failed (hbyte _)

/-- A binary takes its token and the size, but where there is no size nothing comes any more. -/
theorem decodeBinary_pays : Pays (fun b t => b = [] ∧ Failed t) (fun b => worth (.binary b)) decodeBinary := by
  refine Pays.bind Pays.getChar (fun token => ?_) fun token => ?_
  · intro s hs b t ht
    obtain ⟨rfl,-⟩ := hs
    exact nomatch ht
  · refine Pays.bind (binarySize_pays token) (fun size => ?_) fun size => ?_
    · exact MayGive.bind (binaryBytes_failed size []) fun bin => MayGive.pure fun _ h => ⟨rfl,h⟩
    · refine Pays.skip (fun _ => binaryBytes_ends size []) fun bin => Pays.pure ?_
      rw [SBinary.ofString,worth,if_pos rfl]
      omega

/-- The binary whose size was not there, and behind it nothing. -/
def Truncated (v : SVal) (t : TextStream) : Prop := v = .binary [] ∧ Failed t

theorem decodeString_failed : MayGive Failed decodeString fun _ _ => False :=
  MayGive.after getChar_failed (MayGive.raise _)

theorem nextOrEnd_ends {β : Type} {cost : β ⊕ SVal → ℤ} {goOn : β} {container : SVal} (hgoes : cost (.inl goOn) ≤ 0)
    (hends : cost (.inr container) ≤ 1) : Ends bound cost (nextOrEnd goOn container) := by
  refine Ends.peek (Ends.pure hgoes) fun c => ?_
  exact EndsAt.ite (fun _ => EndsAt.ignore (Ends.pure (by omega))) fun _ => EndsAt.of_ends (Ends.pure hgoes)

/-- On a stream that has failed a container goes on. -/
theorem nextOrEnd_failed {β : Type} {goOn : β} {container : SVal} :
    MayGive Failed (nextOrEnd goOn container) (Sum.elim (fun _ t => Failed t) fun _ _ => False) :=
  MayGive.after peekChar_failed (MayGive.pure fun _ h => h)

theorem valueAt_failed (value : Decoder SVal) {P : TextStream → Prop} :
    MayGive P (valueAt value none) fun _ _ => False :=
  MayGive.raise _

theorem decodeValue_failed (depth : ℕ) : MayGive Failed (decodeValue depth) fun _ _ => False := by
  cases depth with
  | zero => exact fun _ _ _ _ => nofun
  | succ depth =>
    refine MayGive.bind eof_failed fun atEnd => ?_
    split_ifs
    · exact MayGive.raise _
    · exact MayGive.after peekChar_failed (valueAt_failed _)

/-- Behind the token of a container comes its end, or its items. -/
theorem container_pays {openToken : UInt8} {wrong : String} {empty : SVal} {items : Decoder SVal}
    (hempty : worth empty = 2) (hitems : Pays (fun _ _ => False) (fun v => worth v - 1) items) :
    Pays (fun _ _ => False) worth (do
      let token ← getChar
      if token ≠ some openToken then fail wrong
      else
        let c ← peekChar
        if c = some Token.END then
          ignore
          pure empty
        else items : Decoder SVal) := by
  refine Pays.bind Pays.getChar (fun token => ?_) fun token => ?_
  · intro s hs v t ht
    obtain ⟨rfl,-⟩ := hs
    exact nomatch ht
  · refine Pays.ite (fun _ => Pays.raise _) fun _ => ?_
    have hsame : (do
        let c ← peekChar
        if c = some Token.END then
          ignore
          pure empty
        else items : Decoder SVal) = nextOrEnd () empty >>= Sum.elim (fun _ => items) pure := by
      rw [nextOrEnd,bind_assoc]
      congr 1
      funext c
      split_ifs
      · rw [bind_assoc]
        rfl
      · rfl
    rw [hsame]
    refine Pays.bind (Pays.of_ends fun _ => nextOrEnd_ends (Int.le_refl 0) ?_ : Pays (fun _ _ => False)
      (Sum.elim (fun _ => 0) fun v => worth v - 1) _) (fun _ _ h => h.elim) fun r => ?_
    · simp only [Sum.elim_inr]
      omega
    · cases r with
      | inl u => exact hitems.mono (fun _ _ h => h) fun v => by simp only [Sum.elim_inl]; omega
      | inr v => exact Pays.pure (by simp only [Sum.elim_inr]; omega)

section Containers

variable {value : Decoder SVal} (hvalue : Pays Truncated worth value) (hfailed : MayGive Failed value fun _ _ => False)

include hfailed in
theorem decodeElement_failed (arr : List SVal) : MayGive Failed (decodeElement value arr) fun _ _ => False := by
  refine MayGive.bind eof_failed fun atEnd => ?_
  split_ifs
  · exact MayGive.raise _
  · exact MayGive.bind (hfailed.of_run fun s r => (catching_ok _ _ s r).mp) fun _ _ h => h.elim

theorem decodeField_failed (obj : List (Bytes × SVal)) : MayGive Failed (decodeField value obj) fun _ _ => False := by
  refine MayGive.bind eof_failed fun atEnd => ?_
  split_ifs
  · exact MayGive.raise _
  · exact MayGive.bind (decodeString_failed.of_run fun s r => (catching_ok _ _ s r).mp) fun _ _ h => h.elim

include hvalue

/-- An element takes what it is worth, and with the last comes the token of the end. -/
theorem decodeElement_pays (arr : List SVal) : Pays (Sum.elim (fun _ t => Failed t) fun _ _ => False)
    (Sum.elim (fun arr' => elementsWorth arr' - elementsWorth arr) fun v => worth v - 1 - elementsWorth arr)
    (decodeElement value arr) := by
  refine Pays.skip (fun _ => Ends.eof) fun atEnd => Pays.ite (fun _ => Pays.raise _) fun _ => ?_
  refine Pays.bind (hvalue.of_run fun s r => (catching_ok _ _ s r).mp) (fun e => ?_) fun e => ?_
  · exact nextOrEnd_failed.weaken fun _ h => h.2
  · have happend : elementsWorth (arr ++ [e]) = elementsWorth arr + worth e := by
      rw [elementsWorth_append,elementsWorth,elementsWorth,Int.add_zero]
    refine Pays.of_ends fun _ => nextOrEnd_ends ?_ ?_
    · simp only [Sum.elim_inl,happend]
      omega
    · simp only [Sum.elim_inr,worth,happend]
      omega

theorem decodeField_pays (obj : List (Bytes × SVal)) : Pays (Sum.elim (fun _ t => Failed t) fun _ _ => False)
    (Sum.elim (fun obj' => fieldsWorth obj' - fieldsWorth obj) fun v => worth v - 1 - fieldsWorth obj)
    (decodeField value obj) := by
  refine Pays.skip (fun _ => Ends.eof) fun atEnd => Pays.ite (fun _ => Pays.raise _) fun _ => ?_
  refine Pays.bind (Pays.of_ends fun _ => catching_ends _ decodeString_ends : Pays (fun _ _ => False) _ _)
    (fun _ _ h => h.elim) fun key => ?_
  refine Pays.bind (hvalue.of_run fun s r => (catching_ok _ _ s r).mp) (fun field => ?_) fun field => ?_
  · exact nextOrEnd_failed.weaken fun _ h => h.2
  · have hemplace := fieldsWorth_emplace key field obj
    refine Pays.of_ends fun _ => nextOrEnd_ends ?_ ?_
    · simp only [Sum.elim_inl]
      omega
    · simp only [Sum.elim_inr,worth]
      omega

theorem decodeObject_pays : Pays (fun _ _ => False) worth (decodeObject value) := by
  refine container_pays (by rw [worth,fieldsWorth]; rfl) ?_
  refine (Pays.loop (decodeField_pays hvalue) decodeField_failed []).mono (fun _ _ h => h) fun v => ?_
  rw [fieldsWorth]
  omega

include hfailed

theorem decodeArray_pays : Pays (fun _ _ => False) worth (decodeArray value) := by
  refine container_pays (by rw [worth,elementsWorth]; rfl) ?_
  refine (Pays.loop (decodeElement_pays hvalue) (decodeElement_failed hfailed) []).mono (fun _ _ h => h) fun v => ?_
  rw [elementsWorth]
  omega

theorem valueAt_pays (token : Option UInt8) : Pays Truncated worth (valueAt value token) := by
  have hends {β : Type} {f : β → SVal} {cost : β → ℤ} {x : Decoder β} (hx : ∀ bound, Ends bound cost x)
      (hf : ∀ b, worth (f b) ≤ cost b) : Pays Truncated worth (f <$> x) :=
    Pays.of_ends fun bound => map_ends f (hx bound) hf
  have hwhole {x : Decoder SVal} (hx : Pays (fun _ _ => False) worth x) : Pays Truncated worth x :=
    hx.mono (fun _ _ h => h.elim) fun _ => Int.le_refl _
  refine Pays.ite (fun _ => hends (fun _ => decodeBool_ends) fun b => ?_) fun _ => ?_
  · rw [worth_bool]
  refine Pays.ite (fun _ => hends (fun _ => decodeNull_ends) fun _ => ?_) fun _ => ?_
  · rw [worth_null]
  refine Pays.ite (fun _ => hends (fun _ => decodeInteger_ends) fun n => ?_) fun _ => ?_
  · rw [worth]
  refine Pays.ite (fun _ => hends (fun _ => decodeFloat_ends) fun l => ?_) fun _ => ?_
  · rw [worth_float]
  refine Pays.ite (fun _ => hends (fun _ => decodeString_ends) fun s => ?_) fun _ => ?_
  · rw [worth]
  refine Pays.ite (fun _ => hwhole (decodeArray_pays hvalue hfailed)) fun _ => ?_
  refine Pays.ite (fun _ => hwhole (decodeObject_pays hvalue)) fun _ => ?_
  refine Pays.ite (fun _ => ?_) fun _ => Pays.raise _
  rw [map_eq_pure_bind]
  refine Pays.bind decodeBinary_pays (fun b => MayGive.pure ?_) fun b => Pays.pure (by omega)
  rintro s ⟨rfl,hs⟩
  exact ⟨rfl,hs⟩

end Containers

/-- A value takes as many bytes as it is worth. -/
theorem decodeValue_pays (depth : ℕ) : Pays Truncated worth (decodeValue depth) := by
  induction depth with
  | zero => exact fun _ _ _ _ => nofun
  | succ depth ih =>
    refine Pays.skip (fun _ => Ends.eof) fun atEnd => Pays.ite (fun _ => Pays.raise _) fun _ => ?_
    exact Pays.skip (fun _ => Ends.peekChar) (valueAt_pays ih (decodeValue_failed depth))

end Consumption

section Lengths

variable {float : Bytes → Except Fault Bytes}

/-- A value is written in no more bytes than it is worth, and in as many only if it keeps. -/
def Weighs (v : SVal) (w : Bytes) : Prop := (w.length : ℤ) ≤ worth v ∧ (worth v ≤ w.length → Keeps v)

theorem encodeNumber_length {n : ℤ} {w : Bytes} (h : encodeNumber n = .ok w) :
    n ≠ -2^63 ∧ w.length = 1 + width n := by
  rw [encodeNumber] at h
  by_cases hzero : n = 0
  · rw [if_pos hzero] at h
    cases h
    exact ⟨by omega,by rw [width,if_pos hzero]; rfl⟩
  by_cases hleast : n = -2^63
  · rw [if_neg hzero,if_pos hleast] at h
    exact nomatch h
  refine ⟨hleast,?_⟩
  rw [if_neg hzero,if_neg hleast] at h
  dsimp only at h
  rw [width,if_neg hzero]
  split_ifs at h ⊢
  all_goals
    cases h
    rw [List.length_cons,leBytes_length,Nat.add_comm]

theorem str_weighs (s : Bytes) : Weighs (.str s) (encodeString s) := by
  rw [Weighs,worth,stringWorth,encodeString,List.length_append,List.length_cons,List.length_singleton]
  split_ifs with h
  · exact ⟨by push_cast; omega,fun _ => Keeps.str h⟩
  · exact ⟨by push_cast; omega,fun hle => by push_cast at hle; omega⟩

theorem encodeBinary_length {b w : Bytes} (h : encodeBinary b = .ok w) :
    w.length ≤ b.length + 5 ∧ (b = [] → w.length = 2) := by
  rw [encodeBinary] at h
  split_ifs at h with h₁ h₂ h₄
  all_goals
    cases h
    refine ⟨?_,?_⟩
    · simp only [List.length_cons,List.length_append,leBytes_length]
      omega
    · rintro rfl
      simp_all

theorem binary_weighs {b w : Bytes} (h : encodeBinary b = .ok w) : Weighs (.binary b) w := by
  obtain ⟨hle,hempty⟩ := encodeBinary_length h
  rw [Weighs,worth]
  split_ifs with hb
  · have hlength := hempty hb
    exact ⟨by omega,fun _ => hb ▸ Keeps.binary⟩
  · exact ⟨by omega,fun _ => by omega⟩

theorem elements_weigh {elements : List SVal} (h : ∀ e ∈ elements, ∀ w, encodeValue float e = .ok w → Weighs e w)
    {ws : Bytes} (hws : encodeElements float elements = .ok ws) : (ws.length : ℤ) ≤ elementsWorth elements ∧
      (elementsWorth elements ≤ ws.length → ∀ e ∈ elements, Keeps e) := by
  induction elements generalizing ws with
  | nil =>
    cases hws
    exact ⟨Int.le_refl 0,fun _ => nofun⟩
  | cons e elements ih =>
    obtain ⟨he,helements⟩ := List.forall_mem_cons.mp h
    rw [encodeElements] at hws
    obtain ⟨first,hfirst,hws⟩ := except_bind_ok hws
    obtain ⟨more,hmore,hws⟩ := except_bind_ok hws
    cases hws
    obtain ⟨hle,hkeeps⟩ := he first hfirst
    obtain ⟨hles,hkeep⟩ := ih helements hmore
    rw [elementsWorth,List.length_append]
    refine ⟨by omega,fun hworth => List.forall_mem_cons.mpr ⟨hkeeps (by omega),hkeep (by omega)⟩⟩

theorem fields_weigh {fields : List (Bytes × SVal)} (h : ∀ f ∈ fields, ∀ w, encodeValue float f.2 = .ok w → Weighs f.2 w)
    {ws : Bytes} (hws : encodeFields float fields = .ok ws) : (ws.length : ℤ) ≤ fieldsWorth fields ∧
      (fieldsWorth fields ≤ ws.length → ∀ f ∈ fields, Rereads f.1 ∧ Keeps f.2) := by
  induction fields generalizing ws with
  | nil =>
    cases hws
    exact ⟨Int.le_refl 0,fun _ => nofun⟩
  | cons f fields ih =>
    obtain ⟨key,value⟩ := f
    obtain ⟨hf,hfields⟩ := List.forall_mem_cons.mp h
    rw [encodeFields] at hws
    obtain ⟨first,hfirst,hws⟩ := except_bind_ok hws
    obtain ⟨more,hmore,hws⟩ := except_bind_ok hws
    cases hws
    obtain ⟨hle,hkeeps⟩ : Weighs value first := hf first hfirst
    obtain ⟨hles,hkeep⟩ := ih hfields hmore
    obtain ⟨hkey,hkeyKeeps⟩ := str_weighs key
    rw [worth] at hkey hkeyKeeps
    rw [fieldsWorth,List.length_append,List.length_append]
    refine ⟨by omega,fun hworth => List.forall_mem_cons.mpr ⟨⟨?_,hkeeps (by omega)⟩,hkeep (by omega)⟩⟩
    cases hkeyKeeps (by omega) with
    | str text => exact text

/-- What is written of a value. -/
theorem Tree.weighs {v : SVal} (h : Tree v) {w : Bytes} (hw : encodeValue float v = .ok w) : Weighs v w := by
  induction h generalizing w with
  | null =>
    cases hw
    exact ⟨Int.le_of_eq worth_null.symm,fun _ => Keeps.null⟩
  | bool b =>
    cases hw
    exact ⟨Int.le_of_eq (worth_bool b).symm,fun _ => Keeps.bool b⟩
  | int low high =>
    obtain ⟨hleast,hlength⟩ := encodeNumber_length hw
    rw [Weighs,worth]
    exact ⟨by omega,fun _ => Keeps.int hleast⟩
  | str s =>
    cases hw
    exact str_weighs s
  | binary b => exact binary_weighs hw
  | arr trees ih =>
    obtain ⟨ws,hws,rfl⟩ := except_map_ok hw
    obtain ⟨hle,hkeeps⟩ := elements_weigh (fun e he w => ih e he) hws
    rw [Weighs,worth,List.length_append,List.length_cons,List.length_singleton]
    exact ⟨by push_cast; omega,fun hworth => Keeps.arr (hkeeps (by push_cast at hworth; omega))⟩
  | obj sorted trees ih =>
    obtain ⟨ws,hws,rfl⟩ := except_map_ok hw
    obtain ⟨hle,hkeeps⟩ := fields_weigh (fun f hf w => ih f hf) hws
    rw [Weighs,worth,List.length_append,List.length_cons,List.length_singleton]
    refine ⟨by push_cast; omega,fun hworth => ?_⟩
    have hall := hkeeps (by push_cast at hworth; omega)
    exact Keeps.obj (fun f hf => (hall f hf).1) fun f hf => (hall f hf).2

end Lengths

section Streams

variable {float : Bytes → Except Fault Bytes} {v : SVal}

theorem decodeStream_reads (strict : Bool) {w : Bytes} (h : Reads v w) {depth : ℕ} (hdepth : w.length ≤ depth) :
    (strict = false → Gives (Fresh w w) (decodeStream strict depth) v (Fresh w [])) ∧
      (strict = true → MayGive (Fresh w w) (decodeStream strict depth) fun _ _ => False) := by
  obtain ⟨token,more,hw,-⟩ := h.opens
  have hvalue := h.gives depth hdepth w []
  rw [List.append_nil] at hvalue
  have hpeek : Gives (Fresh w w) (peekChar : Decoder (Option UInt8)) (some token) (Fresh w w) := by
    rw [hw]
    exact peekChar_fresh
  constructor
  · rintro rfl
    apply Gives.bind eof_fresh
    apply Gives.bind hpeek
    apply catching_gives
    exact Gives.bind hvalue (Gives.bind eof_fresh Gives.pure)
  · rintro rfl
    refine MayGive.after eof_fresh (MayGive.after hpeek ?_)
    have hafter : MayGive (Fresh w w) (do
        let value ← decodeValue depth
        let atEnd ← eof
        if (!atEnd && true) = true then fail "Redundant bytes after parsed data" else pure value : Decoder SVal)
        fun _ _ => False :=
      MayGive.after hvalue (MayGive.after eof_fresh (MayGive.raise _))
    exact hafter.of_run fun s r => (catching_ok _ _ s r).mp

/-- A value that is read has taken what it is worth. -/
theorem decodeStream_pays (strict : Bool) (depth : ℕ) : Pays (fun v _ => v = .binary []) worth (decodeStream strict depth) := by
  have hvalue : Pays (fun v _ => v = .binary []) worth (do
      let value ← decodeValue depth
      let atEnd ← eof
      if (!atEnd && strict) = true then fail "Redundant bytes after parsed data" else pure value : Decoder SVal) := by
    refine Pays.bind (decodeValue_pays depth) (fun value => ?_) fun value => ?_
    · refine MayGive.bind (R := fun _ _ => value = .binary []) (fun s hs _ _ _ => hs.1) fun atEnd => ?_
      split_ifs
      · exact MayGive.raise _
      · exact MayGive.pure fun _ h => h
    · exact Pays.skip (fun _ => Ends.eof) fun atEnd => Pays.ite (fun _ => Pays.raise _) fun _ => Pays.pure (by omega)
  have hnext (next : Option UInt8) : Pays (fun v _ => v = .binary []) worth (if next = none then
      fail "No data for parsing" else catching "Can't decode TLV ← " do
        let value ← decodeValue depth
        let atEnd ← eof
        if (!atEnd && strict) = true then fail "Redundant bytes after parsed data" else pure value : Decoder SVal) :=
    Pays.ite (fun _ => Pays.raise _) fun _ => hvalue.of_run fun s r => (catching_ok _ _ s r).mp
  refine Pays.skip (fun _ => Ends.eof) fun atEnd => Pays.ite (fun _ => ?_) fun _ => ?_
  · exact Pays.skip (fun _ => Ends.pure (Int.le_refl 0)) hnext
  · exact Pays.skip (fun _ => Ends.peekChar) hnext

theorem Keeps.of_decode {strict : Bool} {w : Bytes} (hv : Weighs v w) (h : decode strict w = .ok v) : Keeps v := by
  obtain ⟨r,hr,hvalue⟩ := except_map_ok h
  obtain ⟨-,hlost | hpaid⟩ := decodeStream_pays strict (w.length + 1) (.ofBytes w) (Nat.zero_le _) r.1 r.2 hr
  · rw [← hvalue,hlost]
    exact Keeps.binary
  · apply hv.2
    rw [hvalue] at hpaid
    have hleft : (TextStream.ofBytes w).left = w.length := rfl
    omega

theorem decode_reads (strict : Bool) {w : Bytes} (h : Reads v w) : decode strict w = .ok v ↔ strict = false := by
  obtain ⟨hplain,hstrict⟩ := decodeStream_reads strict h (Nat.le_succ _)
  constructor
  · intro hdecode
    obtain ⟨r,hr,-⟩ := except_map_ok hdecode
    cases strict with
    | false => rfl
    | true => exact (hstrict rfl _ (fresh_ofBytes w) r.1 r.2 hr).elim
  · intro hs
    obtain ⟨t,ht,-⟩ := hplain hs _ (fresh_ofBytes w)
    rw [decode,ht]
    rfl

theorem encode_ok {data : Bytes} : encode float v = .ok data ↔ encodeValue float v = .ok data := by
  rw [encode]
  cases encodeValue float v with
  | error e => exact ⟨nofun,nofun⟩
  | ok w => rfl

end Streams

section Claims

variable {float : Bytes → Except Fault Bytes} {v : SVal}

/-- A value that is written comes back exactly when its strings can be read again, its binaries are empty, and the
serializer is not strict: the end of the data is never noticed. -/
theorem rereads_tree_iff (strict : Bool) (htree : Tree v) :
    (∃ data, encode float v = .ok data ∧ decode strict data = .ok v) ↔ strict = false ∧ Keeps v := by
  constructor
  · rintro ⟨data,hencode,hdecode⟩
    have hkeeps := Keeps.of_decode (htree.weighs (encode_ok.mp hencode)) hdecode
    obtain ⟨w,hw,hreads⟩ : ∃ w, encodeValue float v = .ok w ∧ Reads v w := hkeeps.reads htree
    obtain rfl := Except.ok.inj (hw.symm.trans (encode_ok.mp hencode))
    exact ⟨(decode_reads strict hreads).mp hdecode,hkeeps⟩
  · rintro ⟨hstrict,hkeeps⟩
    obtain ⟨w,hw,hreads⟩ : ∃ w, encodeValue float v = .ok w ∧ Reads v w := hkeeps.reads htree
    exact ⟨w,encode_ok.mpr hw,(decode_reads strict hreads).mpr hstrict⟩

/-- A string, a negative integer and an empty binary come back to one that is not strict. -/
theorem array_rereads : ∃ data,
    encode (fun _ => .error .undefined) (.arr [.str [0x61],.int (-300),.binary []]) = .ok data ∧
      decode false data = .ok (.arr [.str [0x61],.int (-300),.binary []]) := by
  have htext : Rereads [0x61] := ⟨[0x61],List.forall_mem_singleton.mpr (by unfold Allowed; decide),rfl⟩
  refine (rereads_tree_iff false (Tree.arr ?_)).mpr ⟨rfl,Keeps.arr ?_⟩
  · simp only [List.forall_mem_cons]
    exact ⟨Tree.str _,Tree.int (by decide) (by decide),Tree.binary _,nofun⟩
  · simp only [List.forall_mem_cons]
    exact ⟨Keeps.str htext,Keeps.int (by decide),Keeps.binary,nofun⟩

/-- A binary with one byte does not come back, and to one that is strict not even null. -/
theorem binary_lost : (¬ ∃ data, encode (fun _ => .error .undefined) (.binary [0x61]) = .ok data ∧
      decode false data = .ok (.binary [0x61])) ∧
    ¬ ∃ data, encode (fun _ => .error .undefined) .null = .ok data ∧ decode true data = .ok .null := by
  constructor
  · rintro ⟨data,hencode,hdecode⟩
    exact nomatch Keeps.of_decode ((Tree.binary _).weighs (encode_ok.mp hencode)) hdecode
  · rintro ⟨data,hencode,hdecode⟩
    cases encode_ok.mp hencode
    exact absurd ((decode_reads true null_reads).mp hdecode) (by decide)

end Claims

end TlvSerializer
end Tkeycoin
