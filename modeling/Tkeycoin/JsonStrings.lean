import Tkeycoin.JsonSymbols
import Tkeycoin.Scanning

/-! What `JsonSerializer` reads of a string that it wrote. -/
namespace Tkeycoin
namespace JsonSerializer

open Scanner TextStream

variable {α : Type} {data rest : Bytes} {P : TextStream → Prop}

section Errors

variable {Q : α → TextStream → Prop}

theorem failHere_mayGive (msg : String) : MayGive P (failHere msg) Q := MayGive.skip fun _ => MayGive.raise _

theorem failNear_mayGive (msg : String) (pos : Option ℕ) : MayGive P (failNear msg pos) Q :=
  MayGive.skip fun _ => MayGive.raise _

theorem failNearHere_mayGive (msg : String) : MayGive P (failNearHere msg) Q :=
  MayGive.skip fun _ => (failNear_mayGive msg _).weaken fun _ _ => trivial

/-- Steps back before an error do not matter. -/
theorem backFailHere_mayGive (n : ℕ) (msg : String) : MayGive P (do seekBack n; failHere msg) Q :=
  MayGive.skip fun _ => failHere_mayGive msg

theorem backFailNearHere_mayGive (n : ℕ) (msg : String) : MayGive P (do seekBack n; failNearHere msg) Q :=
  MayGive.skip fun _ => failNearHere_mayGive msg

end Errors

section Escapes

/-- The digits of a number, the first ones first. -/
def hexFold (val : UInt32) (digits : List ℕ) : UInt32 := digits.foldl (fun v d => (v <<< 4) ||| UInt32.ofNat d) val

theorem hexDigit_symbol {d : ℕ} (hd : d < 16) : hexDigit (Hex.symbol d) = some (UInt32.ofNat d) := by
  have hall : ∀ i : Fin 16, hexDigit (Hex.symbol i) = some (UInt32.ofNat i) := by decide
  exact hall ⟨d,hd⟩

theorem hexDigits_gives {digits : List ℕ} (hdigits : ∀ d ∈ digits, d < 16) (val : UInt32) (c : UInt8) :
    Gives (Before data (digits.map Hex.symbol ++ c :: rest)) (hexDigits digits.length val) (hexFold val digits)
      (Before data (c :: rest)) := by
  induction digits generalizing val with
  | nil => exact Gives.pure
  | cons d digits ih =>
    have hdigit : (some (Hex.symbol d)).bind hexDigit = some (UInt32.ofNat d) :=
      hexDigit_symbol (hdigits d List.mem_cons_self)
    apply Gives.bind eof_gives
    apply Gives.bind getChar_gives
    rw [hdigit]
    exact ih (fun e he => hdigits e (List.mem_cons_of_mem _ he)) _

/-- A sequence of a backslash and a character. -/
theorem decodeEscaped_short {e : UInt8} {symbol : UInt32} (he : List.lookup e escapes = some symbol) :
    Gives (Before data (backslash :: e :: rest)) decodeEscaped symbol (Before data rest) := by
  have hchar : (some e).bind (List.lookup · escapes) = some symbol := he
  apply Gives.bind getChar_gives
  rw [if_neg (not_not.mpr rfl)]
  apply Gives.bind eof_gives
  apply Gives.bind getChar_gives
  rw [hchar]
  exact Gives.pure

/-- A sequence of `\u` and four digits. -/
theorem decodeEscaped_unicode {digits : List ℕ} (hfour : digits.length = 4) (hdigits : ∀ d ∈ digits, d < 16)
    (c : UInt8) : Gives (Before data (backslash :: 0x75 :: (digits.map Hex.symbol ++ c :: rest))) decodeEscaped
      (hexFold 0 digits) (Before data (c :: rest)) := by
  have hchar : (some (0x75 : UInt8)).bind (List.lookup · escapes) = none := by decide
  apply Gives.bind getChar_gives
  rw [if_neg (not_not.mpr rfl)]
  apply Gives.bind eof_gives
  apply Gives.bind getChar_gives
  rw [hchar]
  simp only [if_true]
  rw [← hfour]
  exact hexDigits_gives hdigits 0 c

theorem hexFold_append (val : UInt32) (digits : List ℕ) (d : ℕ) :
    hexFold val (digits ++ [d]) = (hexFold val digits <<< 4) ||| UInt32.ofNat d := by
  rw [hexFold,List.foldl_append]
  rfl

/-- The digits of a number give the number. -/
theorem hexFold_lowDigits {k : ℕ} (hk : k ≤ 8) (n : ℕ) :
    (hexFold 0 (Radix.lowDigits 16 k n).reverse).toNat = n % 16 ^ k := by
  induction k generalizing n with
  | zero => exact (Nat.mod_one n).symm
  | succ k ih =>
    have hrest := ih (by omega) (n / 16)
    have hpow : 16 ^ k * 16 ≤ 2 ^ 32 := by
      rw [← pow_succ,show (2 : ℕ) ^ 32 = 16 ^ 8 by decide]
      exact Nat.pow_le_pow_right (by decide) hk
    have hlt : n / 16 % 16 ^ k < 16 ^ k := Nat.mod_lt _ (Nat.pow_pos (by decide))
    have hlow : n % 16 < 2 ^ 4 := Nat.mod_lt n (by decide)
    have hmod : n % 16 ^ (k + 1) = n % 16 + 16 * (n / 16 % 16 ^ k) := by rw [pow_succ',Nat.mod_mul]
    rw [Radix.lowDigits,List.reverse_cons,hexFold_append,UInt32.toNat_or,UInt32.toNat_shiftLeft,hrest,
      UInt32.toNat_ofNat',Nat.mod_eq_of_lt (by omega : n % 16 < 2 ^ 32)]
    change (n / 16 % 16 ^ k) <<< 4 % 2 ^ 32 ||| n % 16 = n % 16 ^ (k + 1)
    rw [Nat.shiftLeft_eq,Nat.mod_eq_of_lt (by omega),Nat.mul_comm,← Nat.two_pow_add_eq_or_of_lt hlow,hmod]
    omega

/-- The sequence of a number of four digits. -/
theorem decodeEscaped_padded {n : ℕ} (hn : n < 16 ^ 4) (c : UInt8) :
    Gives (Before data (backslash :: 0x75 :: (Hex.padded 4 n ++ c :: rest))) decodeEscaped (UInt32.ofNat n)
      (Before data (c :: rest)) := by
  have hfour : (Radix.lowDigits 16 4 n).reverse.length = 4 := by simp
  have hdigits : ∀ d ∈ (Radix.lowDigits 16 4 n).reverse, d < 16 :=
    fun d hd => Radix.lowDigits_lt (by decide) 4 n d (List.mem_reverse.mp hd)
  have hvalue : hexFold 0 (Radix.lowDigits 16 4 n).reverse = UInt32.ofNat n := by
    apply UInt32.toNat_inj.mp
    rw [hexFold_lowDigits (by decide),Nat.mod_eq_of_lt hn,UInt32.toNat_ofNat',Nat.mod_eq_of_lt (by omega)]
  rw [Hex.padded_eq (by decide) hn,← hvalue]
  exact decodeEscaped_unicode hfour hdigits c

theorem decodeEscaped_other {c : UInt8} (hc : c ≠ backslash) {Q : UInt32 → TextStream → Prop} :
    MayGive (Before data (c :: rest)) decodeEscaped Q := by
  have hsome : some c ≠ some backslash := fun h => hc (Option.some.inj h)
  refine MayGive.after getChar_gives ?_
  rw [if_pos hsome]
  exact backFailNearHere_mayGive 1 _

abbrev surrogate (symbol : UInt32) : Prop := 0xd800 ≤ symbol ∧ symbol ≤ 0xdfff

theorem decodeSymbol_gives {input : Bytes} {symbol : UInt32} {Q : TextStream → Prop}
    (hescaped : Gives (Before data input) decodeEscaped symbol Q) (hsymbol : ¬ surrogate symbol) (pos : Option ℕ) :
    Gives (Before data input) (decodeSymbol pos) symbol Q := by
  apply Gives.bind hescaped
  rw [if_neg hsymbol]
  exact Gives.pure

/-- No second of a pair stands behind a surrogate. -/
theorem decodeSymbol_surrogate {input : Bytes} {symbol : UInt32} {c : UInt8}
    (hescaped : Gives (Before data input) decodeEscaped symbol (Before data (c :: rest))) (hsymbol : surrogate symbol)
    (hc : c ≠ backslash) (pos : Option ℕ) {Q : UInt32 → TextStream → Prop} :
    MayGive (Before data input) (decodeSymbol pos) Q := by
  refine MayGive.after hescaped ?_
  rw [if_pos hsymbol]
  split_ifs
  · exact MayGive.raise _
  · exact MayGive.bind (R := fun _ _ => False) (decodeEscaped_other hc) fun _ _ h => h.elim

end Escapes

section Characters

variable {str : Bytes} {c : UInt8}

/-- A character that is written as it is. -/
theorem decodeChar_raw (hlow : c < 0x80) (hquote : c ≠ quote) (hbackslash : c ≠ backslash)
    (hcontrol : ¬ (c < 0x20 ∧ isSpace c = false)) :
    Gives (Before data (c :: rest)) (decodeChar str) (.inl (str ++ [c])) (Before data rest) := by
  have hhigh : ¬ c > 0xfd := UInt8.not_lt.mpr (UInt8.le_of_lt (UInt8.lt_trans hlow (by decide)))
  apply Gives.bind eof_gives
  apply Gives.bind getChar_gives
  dsimp only
  rw [if_neg hquote,if_neg hbackslash,if_neg hcontrol,if_neg hhigh,if_pos hlow]
  exact Gives.pure

/-- A control character is refused. -/
theorem decodeChar_control (hquote : c ≠ quote) (hbackslash : c ≠ backslash)
    (hcontrol : c < 0x20 ∧ isSpace c = false) {Q : Bytes ⊕ Bytes → TextStream → Prop} :
    MayGive (Before data (c :: rest)) (decodeChar str) Q := by
  refine MayGive.after eof_gives ?_
  refine MayGive.after getChar_gives ?_
  dsimp only
  rw [if_neg hquote,if_neg hbackslash,if_pos hcontrol]
  exact backFailHere_mayGive 1 _

theorem decodeChar_quote : Gives (Before data (quote :: rest)) (decodeChar str) (.inr str) (Before data rest) := by
  apply Gives.bind eof_gives
  apply Gives.bind getChar_gives
  dsimp only
  rw [if_pos rfl]
  exact Gives.pure

/-- Behind a backslash the sequence is read from the backslash on. -/
theorem decodeChar_escaped {symbol : UInt32} {Q : TextStream → Prop}
    (hsymbol : ∀ pos, Gives (Before data (backslash :: c :: rest)) (decodeSymbol pos) symbol Q) :
    Gives (Before data (backslash :: c :: rest)) (decodeChar str) (.inl (str ++ putUnicodeSymbolAsUtf8 symbol)) Q := by
  apply Gives.of_suffix
  intro hsuffix
  apply Gives.bind eof_gives
  apply Gives.bind getChar_gives
  dsimp only
  rw [if_neg (by decide),if_pos rfl]
  apply Gives.bind (seekBack_gives (show [backslash] ++ c :: rest <:+ data from hsuffix) rfl)
  apply Gives.bind tellg_gives
  exact Gives.bind (hsymbol _) Gives.pure

theorem decodeChar_mayEscape {R : UInt32 → TextStream → Prop} {Q : Bytes ⊕ Bytes → TextStream → Prop}
    (hsymbol : ∀ pos, MayGive (Before data (backslash :: c :: rest)) (decodeSymbol pos) R)
    (hQ : ∀ symbol t, R symbol t → Q (.inl (str ++ putUnicodeSymbolAsUtf8 symbol)) t) :
    MayGive (Before data (backslash :: c :: rest)) (decodeChar str) Q := by
  refine MayGive.of_suffix fun hsuffix => ?_
  refine MayGive.after eof_gives ?_
  refine MayGive.after getChar_gives ?_
  dsimp only
  rw [if_neg (by decide),if_pos rfl]
  refine MayGive.after (seekBack_gives (show [backslash] ++ c :: rest <:+ data from hsuffix) rfl) ?_
  refine MayGive.after tellg_gives ?_
  exact MayGive.bind (hsymbol _) fun symbol => MayGive.pure fun t ht => hQ symbol t ht

/-- The bytes that follow the first of a symbol. -/
theorem followBytes_gives {follows : Bytes} (h : ∀ f ∈ follows, f &&& 0xc0 = 0x80) (chr : UInt32) :
    Gives (Before data (follows ++ c :: rest)) (followBytes follows.length chr) (follows.foldl follow chr)
      (Before data (c :: rest)) := by
  induction follows generalizing chr with
  | nil => exact Gives.pure
  | cons f follows ih =>
    apply Gives.bind eof_gives
    apply Gives.bind getChar_gives
    dsimp only
    rw [if_pos (h f List.mem_cons_self)]
    exact ih (fun g hg => h g (List.mem_cons_of_mem _ hg)) _

/-- A symbol beyond the first 128 that is written as it is spelled. -/
theorem decodeChar_spelled {symbol : UInt32} {bytes : Bytes} (h : Spelling symbol bytes) :
    Gives (Before data (bytes ++ c :: rest)) (decodeChar str) (.inl (str ++ putUnicodeSymbolAsUtf8 symbol))
      (Before data (c :: rest)) := by
  obtain ⟨lead,part,follows,rfl,hlead,rfl,hlow,hhigh,hfollows⟩ := h.spelled
  have hne : ∀ b : UInt8, 0x80 ≤ b → b ≠ quote ∧ b ≠ backslash ∧ ¬ (b < 0x20 ∧ isSpace b = false) :=
    ScriptNum.forall_byte (by decide)
  obtain ⟨hquote,hbackslash,hcontrol⟩ := hne lead hlow
  have hfd : ¬ lead > 0xfd := UInt8.not_lt.mpr (UInt8.le_trans hhigh (by decide))
  apply Gives.bind eof_gives
  apply Gives.bind getChar_gives
  dsimp only
  rw [if_neg hquote,if_neg hbackslash,if_neg hcontrol,if_neg hfd,if_neg (UInt8.not_lt.mpr hlow),hlead]
  exact Gives.bind (followBytes_gives hfollows part) Gives.pure

end Characters

section Symbols

variable {escaped : Bool} {str : Bytes}

/-- A control character that has no escaped sequence. -/
def control (b : UInt8) : Bool := b < 0x20 && !isSpace b && b ≠ 0x08

/-- The symbols that are read as they were written. -/
def Rereads (escaped : Bool) (c : Char) : Prop :=
  (c.val ≤ 0x7f → control c.val.toUInt8 = false) ∧ (escaped = true → c.val ≤ 0xffff)

theorem not_rereads {c : Char} (h : ¬ Rereads escaped c) :
    c.val ≤ 0x7f ∧ control c.val.toUInt8 = true ∨ escaped = true ∧ 0xffff < c.val := by
  rw [Rereads,not_and_or,Classical.not_imp,Classical.not_imp,Bool.not_eq_false,UInt32.not_le] at h
  exact h

theorem switchChar_low (escaped : Bool) : ∀ b : UInt8, b < 0x80 →
    (Encoder.switchChar escaped b).getD [b] = [b] ∧ b ≠ quote ∧ b ≠ backslash ∧ b ≠ 0x08 ∨
    ∃ e ∈ escapes, (Encoder.switchChar escaped b).getD [b] = [backslash,e.1] ∧
      List.lookup e.1 escapes = some b.toUInt32 ∧ control b = false := by
  cases escaped <;> exact ScriptNum.forall_byte (by decide)

theorem low_of_val {c : Char} (hc : c.val ≤ 0x7f) :
    c.val.toUInt8 < 0x80 ∧ c.val.toUInt8.toUInt32 = c.val ∧ String.utf8EncodeChar c = [c.val.toUInt8] := by
  have hle : c.val.toNat ≤ 127 := UInt32.le_iff_toNat_le.mp hc
  refine ⟨?_,?_,String.utf8EncodeChar_eq_singleton (Char.utf8Size_eq_one_iff.mpr hc)⟩
  · apply UInt8.lt_iff_toNat_lt.mpr
    change c.val.toNat % 256 < 128
    omega
  · apply UInt32.toNat_inj.mp
    change c.val.toNat % 256 = c.val.toNat
    omega

theorem not_surrogate (c : Char) : ¬ surrogate c.val := by
  rintro ⟨hlow,hhigh⟩
  have h₁ : 0xd800 ≤ c.val.toNat := UInt32.le_iff_toNat_le.mp hlow
  have h₂ : c.val.toNat ≤ 0xdfff := UInt32.le_iff_toNat_le.mp hhigh
  rcases c.valid with h | ⟨h,-⟩
  · omega
  · omega

theorem decodeChar_char {c : Char} (h : Rereads escaped c) (x : UInt8) :
    Gives (Before data (charText escaped c ++ x :: rest)) (decodeChar str) (.inl (str ++ String.utf8EncodeChar c))
      (Before data (x :: rest)) := by
  rw [charText]
  by_cases hc : c.val ≤ 0x7f
  · obtain ⟨hlow,hval,hutf8⟩ := low_of_val hc
    rw [if_pos hc]
    rcases switchChar_low escaped _ hlow with ⟨htext,hquote,hbackslash,hnot⟩ | ⟨e,-,htext,hlookup,-⟩
    · have hcontrol : ¬ (c.val.toUInt8 < 0x20 ∧ isSpace c.val.toUInt8 = false) := by
        rintro ⟨h₁,h₂⟩
        have hfalse := h.1 hc
        rw [control,decide_eq_true h₁,h₂,decide_eq_true hnot] at hfalse
        contradiction
      rw [htext,hutf8]
      exact decodeChar_raw hlow hquote hbackslash hcontrol
    · rw [htext,← putUnicodeSymbolAsUtf8_val,← hval]
      apply decodeChar_escaped
      intro pos
      apply decodeSymbol_gives (decodeEscaped_short hlookup)
      rw [hval]
      exact not_surrogate c
  · rw [if_neg hc]
    cases escaped with
    | false =>
      rw [if_neg Bool.false_ne_true]
      have hspelled : Gives (Before data (String.utf8EncodeChar c ++ x :: rest)) (decodeChar str)
          (.inl (str ++ putUnicodeSymbolAsUtf8 c.val)) (Before data (x :: rest)) :=
        decodeChar_spelled (spelling_char c (UInt32.not_le.mp hc))
      rwa [putUnicodeSymbolAsUtf8_val] at hspelled
    | true =>
      have hle : c.val.toNat ≤ 0xffff := UInt32.le_iff_toNat_le.mp (h.2 rfl)
      have hval : UInt32.ofNat c.val.toNat = c.val := UInt32.ofNat_toNat
      have hsequence : Gives (Before data (backslash :: 0x75 :: (Hex.padded 4 c.val.toNat ++ x :: rest))) decodeEscaped
          (UInt32.ofNat c.val.toNat) (Before data (x :: rest)) := decodeEscaped_padded (Nat.lt_succ_of_le hle) x
      rw [hval] at hsequence
      rw [if_pos rfl,List.append_assoc,← putUnicodeSymbolAsUtf8_val]
      exact decodeChar_escaped fun pos => decodeSymbol_gives hsequence (not_surrogate c) pos

/-- A control character without a sequence is refused. -/
theorem decodeChar_controlChar {c : Char} (hc : c.val ≤ 0x7f) (hcontrol : control c.val.toUInt8 = true) (x : UInt8)
    {Q : Bytes ⊕ Bytes → TextStream → Prop} :
    MayGive (Before data (charText escaped c ++ x :: rest)) (decodeChar str) Q := by
  obtain ⟨hlow,-,-⟩ := low_of_val hc
  rw [charText,if_pos hc]
  rcases switchChar_low escaped _ hlow with ⟨htext,hquote,hbackslash,-⟩ | ⟨e,-,-,-,hfalse⟩
  · rw [control,Bool.and_eq_true,Bool.and_eq_true,decide_eq_true_eq,Bool.not_eq_true'] at hcontrol
    rw [htext]
    exact decodeChar_control hquote hbackslash hcontrol.1
  · rw [hfalse] at hcontrol
    contradiction

/-- The digits of a symbol beyond the basic plane: four, that are not read as it, and more. -/
theorem padded_beyond {n : ℕ} (hlow : 0xffff < n) (hhigh : n < 0x110000) :
    ∃ m d digits, Hex.padded 4 n = Hex.padded 4 m ++ (d :: digits).map Hex.symbol ∧ m < 16 ^ 4 ∧
      ∀ e ∈ d :: digits, e < 16 := by
  have hd (d : ℕ) : d % 16 < 16 := Nat.mod_lt d (by decide)
  have hfive : Hex.padded 4 n = Hex.padded 5 n := Hex.padded_of_le (Nat.succ_le_of_lt hlow)
  by_cases h : n < 16 ^ 5
  · refine ⟨n / 16,n % 16,[],?_,by omega,List.forall_mem_singleton.mpr (hd n)⟩
    rw [hfive,Hex.padded_succ (by decide) h]
    rfl
  · have hsix : Hex.padded 5 n = Hex.padded 6 n := Hex.padded_of_le (Nat.not_lt.mp h)
    refine ⟨n / 16 / 16,n / 16 % 16,[n % 16],?_,by omega,?_⟩
    · rw [hfive,hsix,Hex.padded_succ (by decide) (by omega),Hex.padded_succ (by decide) (by omega),List.append_assoc]
      rfl
    · exact List.forall_mem_cons.mpr ⟨hd _,List.forall_mem_singleton.mpr (hd n)⟩

/-- A digit is read as it is. -/
theorem decodeChar_digit {d : ℕ} (hd : d < 16) :
    Gives (Before data (Hex.symbol d :: rest)) (decodeChar str) (.inl (str ++ [Hex.symbol d])) (Before data rest) := by
  have hall : ∀ i : Fin 16, Hex.symbol i < 0x80 ∧ Hex.symbol i ≠ quote ∧ Hex.symbol i ≠ backslash ∧
      ¬ (Hex.symbol i < 0x20 ∧ isSpace (Hex.symbol i) = false) := by decide
  obtain ⟨h₁,h₂,h₃,h₄⟩ := hall ⟨d,hd⟩
  exact decodeChar_raw h₁ h₂ h₃ h₄

/-- A symbol of four digits takes three bytes at most. -/
theorem putUnicodeSymbolAsUtf8_head {symbol : UInt32} (h : symbol ≤ 0xffff) :
    ∃ y l, putUnicodeSymbolAsUtf8 symbol = y :: l ∧ y < 0xf0 := by
  have htwo : ∀ x : UInt8, x &&& 0x1f ||| 0xc0 < 0xf0 := ScriptNum.forall_byte (by decide)
  have hthree : ∀ x : UInt8, x &&& 0x0f ||| 0xe0 < 0xf0 := ScriptNum.forall_byte (by decide)
  unfold putUnicodeSymbolAsUtf8
  simp only [part_eq]
  split_ifs with h₁ h₂
  · refine ⟨_,_,rfl,?_⟩
    have hle : symbol.toNat ≤ 127 := UInt32.le_iff_toNat_le.mp h₁
    apply UInt8.lt_iff_toNat_lt.mpr
    change symbol.toNat % 256 < 240
    omega
  · exact ⟨_,_,rfl,htwo _⟩
  · exact ⟨_,_,rfl,hthree _⟩

/-- A symbol beyond the basic plane starts with one of the highest bytes. -/
theorem utf8EncodeChar_beyond {c : Char} (hc : 0xffff < c.val) : ∃ z m, String.utf8EncodeChar c = z :: m ∧ 0xf0 ≤ z := by
  have hfour : ∀ x : UInt8, 0xf0 ≤ x &&& 0x07 ||| 0xf0 := ScriptNum.forall_byte (by decide)
  exact ⟨_,_,String.utf8EncodeChar_eq_cons_cons_cons_cons (Char.utf8Size_eq_four_iff.mpr hc),hfour _⟩

/-- Of the digits of such a symbol four are read, as another symbol. -/
theorem decodeChar_beyond {c : Char} (hc : 0xffff < c.val) (x : UInt8) :
    ∃ digits : List ℕ, (∀ d ∈ digits, d < 16) ∧ digits.length < (charText true c).length ∧
      MayGive (Before data (charText true c ++ x :: rest)) (decodeChar str) fun r t =>
        (∃ y l, r = .inl (str ++ y :: l) ∧ y < 0xf0) ∧ Before data (digits.map Hex.symbol ++ x :: rest) t := by
  have hvalid : c.val.toNat < 0x110000 := by
    rcases c.valid with h | ⟨-,h⟩
    · omega
    · exact h
  obtain ⟨m,d,digits,hpadded,hm,hdigits⟩ := padded_beyond (UInt32.lt_iff_toNat_lt.mp hc) hvalid
  have hlow : ¬ c.val ≤ 0x7f := UInt32.not_le.mpr (UInt32.lt_trans (by decide) hc)
  have htext : charText true c = backslash :: 0x75 :: (Hex.padded 4 m ++ (d :: digits).map Hex.symbol) := by
    rw [charText,if_neg hlow,if_pos rfl,hpadded]
    rfl
  refine ⟨d :: digits,hdigits,?_,?_⟩
  · rw [htext,List.length_cons,List.length_cons,List.length_cons,List.length_append,List.length_map,List.length_cons]
    omega
  · have hescaped : Gives (Before data (backslash :: 0x75 :: (Hex.padded 4 m ++ Hex.symbol d ::
        (digits.map Hex.symbol ++ x :: rest)))) decodeEscaped (UInt32.ofNat m)
        (Before data (Hex.symbol d :: (digits.map Hex.symbol ++ x :: rest))) := decodeEscaped_padded hm _
    have hle : UInt32.ofNat m ≤ 0xffff := by
      apply UInt32.le_iff_toNat_le.mpr
      rw [UInt32.toNat_ofNat',Nat.mod_eq_of_lt (by omega)]
      change m ≤ 65535
      omega
    obtain ⟨y,l,hput,hy⟩ := putUnicodeSymbolAsUtf8_head hle
    rw [htext,List.cons_append,List.cons_append,List.append_assoc]
    refine decodeChar_mayEscape (R := fun symbol t => symbol = UInt32.ofNat m ∧
      Before data ((d :: digits).map Hex.symbol ++ x :: rest) t) (fun pos => ?_) ?_
    · by_cases hsurrogate : surrogate (UInt32.ofNat m)
      · have hall : ∀ i : Fin 16, Hex.symbol i ≠ backslash := by decide
        exact decodeSymbol_surrogate hescaped hsurrogate (hall ⟨d,hdigits d List.mem_cons_self⟩) pos
      · exact (decodeSymbol_gives hescaped hsurrogate pos).mayGive fun t ht => ⟨rfl,ht⟩
    · rintro symbol t ⟨rfl,ht⟩
      exact ⟨⟨y,l,by rw [hput],hy⟩,ht⟩

theorem charText_length_pos (escaped : Bool) (c : Char) : 0 < (charText escaped c).length := by
  rw [charText]
  by_cases hc : c.val ≤ 0x7f
  · rw [if_pos hc]
    rcases switchChar_low escaped _ (low_of_val hc).1 with ⟨htext,-⟩ | ⟨e,-,htext,-⟩
    · rw [htext]
      exact Nat.one_pos
    · rw [htext]
      exact Nat.two_pos
  · rw [if_neg hc]
    cases escaped with
    | false => exact List.length_pos_iff.mpr String.utf8EncodeChar_ne_nil
    | true => exact Nat.succ_pos _

end Symbols

section Strings

variable {escaped : Bool} {cs : List Char} {str : Bytes}

/-- What is written for the symbols of a text. -/
def textOf (escaped : Bool) (cs : List Char) : Bytes := cs.flatMap (charText escaped)

theorem textOf_cons (escaped : Bool) (c : Char) (cs : List Char) :
    textOf escaped (c :: cs) = charText escaped c ++ textOf escaped cs := List.flatMap_cons

theorem utf8_cons (c : Char) (cs : List Char) : utf8 (c :: cs) = String.utf8EncodeChar c ++ utf8 cs := List.flatMap_cons

theorem textOf_quote (escaped : Bool) (cs : List Char) (rest : Bytes) :
    ∃ x more, textOf escaped cs ++ quote :: rest = x :: more := by
  cases textOf escaped cs with
  | nil => exact ⟨_,_,rfl⟩
  | cons x l => exact ⟨_,_,rfl⟩

theorem decodeChars_gives (h : ∀ c ∈ cs, Rereads escaped c) {n : ℕ} (hn : (textOf escaped cs).length < n) :
    Gives (Before data (textOf escaped cs ++ quote :: rest)) (iterate decodeChar n str) (str ++ utf8 cs)
      (Before data rest) := by
  induction cs generalizing n str with
  | nil =>
    obtain ⟨n,rfl⟩ := Nat.exists_eq_add_of_lt hn
    rw [utf8,List.flatMap_nil,List.append_nil]
    exact iterate_ends decodeChar_quote
  | cons c cs ih =>
    have hpos := charText_length_pos escaped c
    rw [textOf_cons,List.length_append] at hn
    obtain ⟨n,rfl⟩ : ∃ m, n = m + 1 := ⟨n - 1,by omega⟩
    obtain ⟨x,more,hmore⟩ := textOf_quote escaped cs rest
    rw [textOf_cons,List.append_assoc,hmore,utf8_cons,← List.append_assoc]
    apply iterate_goes (decodeChar_char (h c List.mem_cons_self) x)
    rw [← hmore]
    exact ih (fun d hd => h d (List.mem_cons_of_mem _ hd)) (by omega)

/-- Digits are read one by one. -/
theorem iterate_digits {digits : List ℕ} (hdigits : ∀ d ∈ digits, d < 16) {n : ℕ} {Q : Bytes → TextStream → Prop}
    (h : MayGive (Before data rest) (iterate decodeChar n (str ++ digits.map Hex.symbol)) Q) :
    MayGive (Before data (digits.map Hex.symbol ++ rest)) (iterate decodeChar (n + digits.length) str) Q := by
  induction digits generalizing str with
  | nil =>
    rw [List.map_nil,List.append_nil] at h
    exact h
  | cons d digits ih =>
    refine iterate_mayGo (decodeChar_digit (hdigits d List.mem_cons_self)) ?_
    apply ih (fun e he => hdigits e (List.mem_cons_of_mem _ he))
    rw [List.append_assoc]
    exact h

/-- What is read of a text is the text, if all its symbols are read as they were written, and else it is a
lower one, if anything is read at all. -/
theorem decodeChars_mayGive {n : ℕ} (hn : (textOf escaped cs).length < n) :
    MayGive (Before data (textOf escaped cs ++ quote :: rest)) (iterate decodeChar n str) fun b t =>
      Before data rest t ∧ ∃ read, b = str ++ read ∧ ((read = utf8 cs ∧ ∀ c ∈ cs, Rereads escaped c) ∨
        read.map UInt8.toNat < (utf8 cs).map UInt8.toNat) := by
  induction cs generalizing n str with
  | nil =>
    obtain ⟨n,rfl⟩ := Nat.exists_eq_add_of_lt hn
    refine (iterate_ends decodeChar_quote).mayGive fun t ht => ⟨ht,[],(List.append_nil str).symm,.inl ⟨rfl,?_⟩⟩
    exact List.forall_mem_nil _
  | cons c cs ih =>
    have hpos := charText_length_pos escaped c
    rw [textOf_cons,List.length_append] at hn
    obtain ⟨n,rfl⟩ : ∃ m, n = m + 1 := ⟨n - 1,by omega⟩
    obtain ⟨x,more,hmore⟩ := textOf_quote escaped cs rest
    rw [textOf_cons,List.append_assoc,hmore,utf8_cons]
    by_cases hc : Rereads escaped c
    · refine iterate_mayGo (decodeChar_char hc x) ?_
      rw [← hmore]
      refine (ih (by omega)).mono ?_
      rintro b t ⟨ht,read,rfl,hread⟩
      refine ⟨ht,String.utf8EncodeChar c ++ read,List.append_assoc _ _ _,?_⟩
      rcases hread with ⟨rfl,hall⟩ | hlt
      · exact .inl ⟨rfl,List.forall_mem_cons.mpr ⟨hc,hall⟩⟩
      · right
        rw [List.map_append,List.map_append]
        exact List.append_left_lt hlt
    · rcases not_rereads hc with ⟨hlow,hcontrol⟩ | ⟨rfl,hbeyond⟩
      · -- nothing is read behind a control character
        refine iterate_mayGive (R := fun _ _ => False) (decodeChar_controlChar hlow hcontrol x) ?_ ?_
        · exact fun _ _ h => h.elim
        · exact fun _ _ h => h.elim
      · -- another symbol is read, and the digits that are left as they are
        obtain ⟨digits,hdigits,hlen,hread⟩ := @decodeChar_beyond data more str c hbeyond x
        obtain ⟨z,m,hutf8,hz⟩ := utf8EncodeChar_beyond hbeyond
        refine iterate_mayGive hread (fun b' => ?_) ?_
        · intro s hs b t ht
          obtain ⟨⟨y,l,hb',hy⟩,hs⟩ := hs
          obtain rfl := Sum.inl.inj hb'
          obtain ⟨k,rfl⟩ : ∃ k, n = k + digits.length := ⟨n - digits.length,by omega⟩
          rw [← hmore] at hs
          obtain ⟨hbehind,read,rfl,-⟩ := iterate_digits hdigits (ih (by omega)) s hs b t ht
          refine ⟨hbehind,y :: l ++ digits.map Hex.symbol ++ read,by simp only [List.append_assoc],.inr ?_⟩
          rw [hutf8]
          exact List.cons_lt_cons_iff.mpr (.inl (Nat.lt_of_lt_of_le hy hz))
        · rintro a t ⟨⟨y,l,hb',-⟩,-⟩
          contradiction

theorem quoted_append (body rest : Bytes) : [quote] ++ body ++ [quote] ++ rest = quote :: (body ++ quote :: rest) := by
  simp

theorem decodeString_gives (h : ∀ c ∈ cs, Rereads escaped c) :
    Gives (Before data ([quote] ++ textOf escaped cs ++ [quote] ++ rest)) decodeString (utf8 cs) (Before data rest) := by
  rw [quoted_append]
  apply Gives.bind getChar_gives
  rw [if_neg (not_not.mpr rfl)]
  apply loop_gives
  intro n hn
  rw [List.length_append] at hn
  exact decodeChars_gives h (by omega)

/-- A string that was written is read as it was, or as a lower one, or not at all. -/
theorem decodeString_mayGive : MayGive (Before data ([quote] ++ textOf escaped cs ++ [quote] ++ rest)) decodeString
    fun b t => Before data rest t ∧ ((b = utf8 cs ∧ ∀ c ∈ cs, Rereads escaped c) ∨
      b.map UInt8.toNat < (utf8 cs).map UInt8.toNat) := by
  rw [quoted_append]
  refine MayGive.after getChar_gives ?_
  rw [if_neg (not_not.mpr rfl)]
  refine loop_mayGive fun n hn => ?_
  rw [List.length_append] at hn
  refine (decodeChars_mayGive (by omega)).mono ?_
  rintro b t ⟨ht,read,rfl,hread⟩
  exact ⟨ht,hread⟩

end Strings

end JsonSerializer
end Tkeycoin
