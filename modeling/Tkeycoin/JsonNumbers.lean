import Tkeycoin.JsonStrings

/-! What `JsonSerializer` reads of an integer that it wrote, in either format of the stream. -/
namespace Tkeycoin
namespace JsonSerializer

open Scanner TextStream

section Decimal

theorem text_append (s t : String) : text (s ++ t) = text s ++ text t := by
  simp [text,String.toUTF8_eq_toByteArray]

/-- A digit as a character of a string. -/
theorem text_digit {d : ℕ} (hd : d < 10) : text (String.singleton (Nat.digitChar d)) = [UInt8.ofNat (48 + d)] := by
  have hall : ∀ i : Fin 10, text (String.singleton (Nat.digitChar i)) = [UInt8.ofNat (48 + i)] := by decide
  exact hall ⟨d,hd⟩

theorem text_repr_lt {n : ℕ} (h : n < 10) : text n.repr = [UInt8.ofNat (48 + n)] := by
  rw [Nat.repr_of_lt h,text_digit h]

theorem text_repr_ge {n : ℕ} (h : 10 ≤ n) : text n.repr = text (n / 10).repr ++ [UInt8.ofNat (48 + n % 10)] := by
  rw [Nat.repr_of_ge h,text_append,text_digit (Nat.mod_lt n (by decide))]

theorem digit_spec {d : ℕ} (hd : d < 10) : isDigit (UInt8.ofNat (48 + d)) = true ∧ (UInt8.ofNat (48 + d)).toNat = 48 + d := by
  have hall : ∀ i : Fin 10, isDigit (UInt8.ofNat (48 + i)) = true ∧ (UInt8.ofNat (48 + i)).toNat = 48 + i := by
    decide
  exact hall ⟨d,hd⟩

theorem digitsValue_append (digits : Bytes) (c : UInt8) :
    digitsValue (digits ++ [c]) = 10 * digitsValue digits + (c.toNat - 0x30) := by
  rw [digitsValue,List.foldl_append]
  rfl

/-- A number in decimal digits. -/
theorem text_repr (n : ℕ) : (∀ c ∈ text n.repr, isDigit c = true) ∧ digitsValue (text n.repr) = n ∧
    text n.repr ≠ [] := by
  induction n using Nat.strong_induction_on with
  | _ n ih =>
    by_cases h : n < 10
    · obtain ⟨hdigit,hvalue⟩ := digit_spec h
      rw [text_repr_lt h]
      refine ⟨List.forall_mem_singleton.mpr hdigit,?_,List.cons_ne_nil _ _⟩
      have hone := digitsValue_append [] (UInt8.ofNat (48 + n))
      rw [List.nil_append,hvalue] at hone
      rw [hone]
      simp [digitsValue]
    · have hge := Nat.not_lt.mp h
      obtain ⟨hdigits,hvalue,-⟩ := ih (n / 10) (by omega)
      obtain ⟨hlast,hlastValue⟩ := digit_spec (Nat.mod_lt n (by decide : 0 < 10))
      rw [text_repr_ge hge]
      refine ⟨List.forall_mem_append.mpr ⟨hdigits,List.forall_mem_singleton.mpr hlast⟩,?_,by simp⟩
      rw [digitsValue_append,hvalue,hlastValue]
      omega

/-- A number of either sign. -/
theorem text_int (n : ℤ) : text (toString n) = (if n < 0 then [minus] else []) ++ text n.natAbs.repr := by
  cases n with
  | ofNat m => rfl
  | negSucc m =>
    have hneg : (Int.negSucc m) < 0 := Int.negSucc_lt_zero m
    rw [if_pos hneg]
    exact text_append "-" (m + 1).repr

theorem digit_ne_minus : ∀ c : UInt8, isDigit c = true → c ≠ minus := ScriptNum.forall_byte (by decide)

theorem literalValue_int (n : ℤ) : literalValue (text (toString n)) = n := by
  obtain ⟨hdigits,hvalue,hne⟩ := text_repr n.natAbs
  rw [text_int]
  by_cases hn : n < 0
  · rw [if_pos hn,List.singleton_append,literalValue,if_pos rfl,hvalue]
    omega
  · rw [if_neg hn,List.nil_append]
    obtain ⟨c,digits,hcons⟩ := List.exists_cons_of_ne_nil hne
    have hc : c ≠ minus := digit_ne_minus c (hdigits c (hcons ▸ List.mem_cons_self))
    rw [hcons,literalValue,if_neg hc,← hcons,hvalue]
    omega

end Decimal

variable {data rest : Bytes}

/-- What may stand behind a value: nothing, or what separates it from another or closes what it is in. -/
def Closes (rest : Bytes) : Prop := ∀ c ∈ rest.head?, c = comma ∨ c = closeArray ∨ c = closeObject

section Scan

theorem Closes.none_of {p : UInt8 → Bool} (h : Closes rest) (hp : p comma = false) (hp' : p closeArray = false)
    (hp'' : p closeObject = false) : ∀ c ∈ rest.head?, p c = false := by
  intro c hc
  rcases h c hc with rfl | rfl | rfl
  · exact hp
  · exact hp'
  · exact hp''

theorem any_eq_false {p : UInt8 → Bool} (h : ∀ c ∈ rest.head?, p c = false) : rest.head?.any p = false := by
  cases rest with
  | nil => rfl
  | cons c rest => exact h c rfl

theorem skipSign_none {sign : UInt8 → Bool} (h : ∀ c ∈ rest.head?, sign c = false) :
    Gives (Before data rest) (skipSign sign) () (Seen data rest) := by
  apply Gives.bind peekChar_before
  rw [any_eq_false h]
  exact Gives.pure

theorem skipSign_minus {c : UInt8} : Gives (Before data (minus :: c :: rest)) (skipSign (· == minus)) ()
    (Before data (c :: rest)) := by
  apply Gives.bind peekChar_gives
  exact ignore_gives

theorem scanFraction_none (h : rest.head? ≠ some point) : Gives (Seen data rest) scanFraction () (Seen data rest) := by
  apply Gives.bind peekChar_seen
  rw [if_neg h]
  exact Gives.pure

theorem scanExponent_none (h : ¬ (rest.head? = some 0x65 ∨ rest.head? = some 0x45)) :
    Gives (Seen data rest) scanExponent () (Seen data rest) := by
  apply Gives.bind peekChar_seen
  rw [if_neg h]
  exact Gives.pure

/-- The digits of a number, up to what is none. -/
theorem expectDigits_gives {l : Bytes} (hne : l ≠ []) (hl : ∀ c ∈ l, isDigit c = true)
    (hrest : ∀ c ∈ rest.head?, isDigit c = false) :
    Gives (Before data (l ++ rest)) expectDigits () (Seen data rest) := by
  obtain ⟨c,m,rfl⟩ := List.exists_cons_of_ne_nil hne
  have hc : (some c).any isDigit = true := hl c List.mem_cons_self
  apply Gives.bind peekChar_gives
  rw [if_pos hc]
  exact skipWhile_seen hl hrest

theorem expectDigits_none {Q : Unit → TextStream → Prop} (h : ∀ c ∈ rest.head?, isDigit c = false) :
    MayGive (Seen data rest) expectDigits Q := by
  refine MayGive.after peekChar_seen ?_
  rw [any_eq_false h]
  exact failNearHere_mayGive _

theorem endsNumber_seen : Gives (Seen data rest) (endsNumber rest.head?) (rest.head? == some comma ||
    rest.head? == some closeArray || rest.head? == some closeObject || rest.head?.any isSpace || rest.isEmpty)
    (Seen data rest) :=
  Gives.bind eof_seen Gives.pure

theorem endsNumber_closes (h : Closes rest) : Gives (Seen data rest) (endsNumber rest.head?) true (Seen data rest) := by
  have hends : (rest.head? == some comma || rest.head? == some closeArray || rest.head? == some closeObject ||
      rest.head?.any isSpace || rest.isEmpty) = true := by
    cases rest with
    | nil => rfl
    | cons c rest =>
      rcases h c rfl with rfl | rfl | rfl
      · rfl
      · rfl
      · rfl
  rw [← hends]
  exact endsNumber_seen

/-- What `scanNumber` does behind the first digits. -/
def scanBehind : Decoder Bool := do
  let c ← peekChar
  scanFraction
  scanExponent
  let next ← peekChar
  if ← endsNumber next then pure (c == some point || c == some 0x65 || c == some 0x45)
  else failNearHere "Wrong token for numeric value"

theorem scanBehind_closes (hrest : Closes rest) : Gives (Seen data rest) scanBehind false (Seen data rest) := by
  have hpoint : rest.head? ≠ some point := by
    intro h
    have hclose := hrest point (by rw [h]; rfl)
    revert hclose
    decide
  have hexponent : ¬ (rest.head? = some 0x65 ∨ rest.head? = some 0x45) := by
    rintro (h | h)
    · have hclose := hrest 0x65 (by rw [h]; rfl)
      revert hclose
      decide
    · have hclose := hrest 0x45 (by rw [h]; rfl)
      revert hclose
      decide
  have hnone : (rest.head? == some point || rest.head? == some 0x65 || rest.head? == some 0x45) = false := by
    rw [not_or] at hexponent
    rw [beq_false_of_ne hpoint,beq_false_of_ne hexponent.1,beq_false_of_ne hexponent.2]
    rfl
  apply Gives.bind peekChar_seen
  apply Gives.bind (scanFraction_none hpoint)
  apply Gives.bind (scanExponent_none hexponent)
  apply Gives.bind peekChar_seen
  apply Gives.bind (endsNumber_closes hrest)
  rw [if_pos rfl,hnone]
  exact Gives.pure

/-- Behind the digits of an integer nothing else belongs to the number. -/
theorem scanNumber_int {n : ℤ} (hrest : Closes rest) :
    Gives (Before data (text (toString n) ++ rest)) scanNumber false (fun t => t.data = data) := by
  obtain ⟨hdigits,-,hne⟩ := text_repr n.natAbs
  have hend : ∀ c ∈ rest.head?, isDigit c = false := hrest.none_of rfl rfl rfl
  obtain ⟨c,digits,hcons⟩ := List.exists_cons_of_ne_nil hne
  have hsign : Gives (Before data (text (toString n) ++ rest)) (skipSign (· == minus)) ()
      (Before data (text n.natAbs.repr ++ rest)) := by
    have hc : c ≠ minus := digit_ne_minus c (hdigits c (hcons ▸ List.mem_cons_self))
    rw [text_int,hcons]
    by_cases hn : n < 0
    · rw [if_pos hn]
      exact skipSign_minus
    · rw [if_neg hn,List.nil_append,List.cons_append]
      apply (skipSign_none _).mono
      · intro t ht
        exact seen_cons ▸ ht
      · intro d hd
        obtain rfl := Option.some.inj hd
        exact beq_false_of_ne hc
  apply Gives.bind hsign
  apply Gives.bind (expectDigits_gives hne hdigits hend)
  exact (scanBehind_closes hrest).mono fun t ht => ht.served

end Scan

section Read

/-- A literal is read up to the first character that is not accepted. -/
theorem readLiteral_gives {accepts : UInt8 → Bool} {l : Bytes} (hne : l ≠ []) (hl : ∀ c ∈ l, accepts c = true)
    (hrest : ∀ c ∈ rest.head?, accepts c = false) :
    Gives (Before data (l ++ rest)) (readLiteral accepts) l (Before data rest) := by
  intro s hs
  obtain ⟨c,m,rfl⟩ := List.exists_cons_of_ne_nil hne
  have hgood : s.good = true := Before.good hs
  have hliteral : (s.data.drop s.pos).takeWhile accepts = c :: m := by
    have hend : rest.takeWhile accepts = [] := by
      cases rest with
      | nil => rfl
      | cons d rest => rw [List.takeWhile_cons,hrest d rfl,if_neg Bool.false_ne_true]
    rw [hs.drop,List.takeWhile_append_of_pos hl,hend,List.append_nil]
  have hplace := hs.place
  rw [List.length_append] at hplace
  refine ⟨{ s with pos := s.pos + (c :: m).length, eofbit := s.pos + (c :: m).length == s.data.length },?_,?_⟩
  · simp only [readLiteral,StateT.run_bind,StateT.run_get,pure_bind,hgood,if_true,hliteral]
    rfl
  · refine ⟨hs.served,(List.suffix_append _ _).trans hs.suffix,?_,hs.fail,fun h => ?_⟩
    · dsimp only
      omega
    · have hpos := List.length_pos_iff.mpr h
      dsimp only
      rw [hs.served]
      exact beq_false_of_ne (by omega)

theorem readInt_gives {n : ℤ} (hlow : -2^63 ≤ n) (hhigh : n < 2^63) (hrest : Closes rest) :
    Gives (Before data (text (toString n) ++ rest)) readInt n (Before data rest) := by
  obtain ⟨hdigits,-,hne⟩ := text_repr n.natAbs
  have haccepts : ∀ c ∈ text (toString n), (c == minus || isDigit c) = true := by
    rw [text_int]
    intro c hc
    rcases List.mem_append.mp hc with h | h
    · by_cases hn : n < 0
      · rw [if_pos hn,List.mem_singleton] at h
        rw [h]
        rfl
      · rw [if_neg hn] at h
        exact absurd h List.not_mem_nil
    · rw [hdigits c h,Bool.or_true]
  have hne' : text (toString n) ≠ [] := by
    rw [text_int]
    exact List.append_ne_nil_of_right_ne_nil _ hne
  apply Gives.bind (readLiteral_gives hne' haccepts (hrest.none_of rfl rfl rfl))
  dsimp only
  rw [literalValue_int,if_neg (Int.not_lt.mpr hlow),if_neg (Int.not_le.mpr hhigh)]
  exact Gives.pure

/-- An integer is read as it was written. -/
theorem decodeNumber_gives (fits : FloatRange) {n : ℤ} (hlow : -2^63 ≤ n) (hhigh : n < 2^63) (hrest : Closes rest) :
    Gives (Before data (text (toString n) ++ rest)) (decodeNumber fits) (.int n) (Before data rest) := by
  obtain ⟨c,m,hcons⟩ : ∃ c m, text (toString n) ++ rest = c :: m := by
    apply List.exists_cons_of_ne_nil
    rw [text_int,List.append_assoc]
    exact List.append_ne_nil_of_right_ne_nil _ (List.append_ne_nil_of_left_ne_nil (text_repr _).2.2 _)
  have hscan : Gives (Before data (c :: m)) scanNumber false (fun t => t.data = data) := hcons ▸ scanNumber_int hrest
  have hread : Gives (Before data (c :: m)) readInt n (Before data rest) := hcons ▸ readInt_gives hlow hhigh hrest
  rw [hcons]
  apply Gives.bind (lookAhead_gives hscan)
  rw [if_neg Bool.false_ne_true]
  exact Gives.bind hread Gives.pure

end Read


section Hexadecimal

/-- The characters of a number that is written with `std::hex`. -/
def hexChar (c : UInt8) : Bool := isDigit c || (0x61 ≤ c && c ≤ 0x66)

theorem hexChar_written (m : ℕ) : ∀ c ∈ Hex.written m, hexChar c = true := by
  have hall : ∀ i : Fin 16, hexChar (Hex.symbol i) = true := by decide
  intro c hc
  obtain ⟨d,hd,rfl⟩ := Hex.written_symbols m c hc
  exact hall ⟨d,hd⟩

theorem written_ne_nil (m : ℕ) : Hex.written m ≠ [] := by
  rw [Hex.written]
  split_ifs with h
  · exact List.cons_ne_nil _ _
  · rw [Ne,List.map_eq_nil_iff,List.reverse_eq_nil_iff]
    exact Nat.digits_ne_nil_iff_ne_zero.mpr h

theorem digitsValue_symbols {digits : List ℕ} (h : ∀ d ∈ digits, d < 10) :
    digitsValue (digits.map Hex.symbol) = (Radix.value 10 digits : ℕ) := by
  have hfold : ∀ v : ℕ, (digits.map Hex.symbol).foldl (fun n c => 10 * n + ((c.toNat : ℤ) - 0x30)) (v : ℤ)
      = (Radix.extend 10 v digits : ℕ) := by
    induction digits with
    | nil => exact fun v => rfl
    | cons d digits ih =>
      intro v
      have hd : d < 10 := h d List.mem_cons_self
      have hsymbol : ((Hex.symbol d).toNat : ℤ) - 0x30 = d := by
        rw [Hex.symbol,if_pos hd,(digit_spec hd).2]
        omega
      rw [List.map_cons,List.foldl_cons,hsymbol]
      exact ih (fun e he => h e (List.mem_cons_of_mem _ he)) (10*v+d)
  exact hfold 0

/-- Digits that could be decimal stand for less than the number they were written for, unless it has only one. -/
theorem written_decimal {m : ℕ} (h : ∀ c ∈ Hex.written m, isDigit c = true) :
    ∃ k : ℕ, digitsValue (Hex.written m) = k ∧ k ≤ m ∧ (k = m → m ≤ 9) := by
  have hten : ∀ i : Fin 16, isDigit (Hex.symbol i) = true → (i : ℕ) < 10 := by decide
  by_cases hm : m = 0
  · subst hm
    exact ⟨0,rfl,Nat.le_refl 0,fun _ => Nat.zero_le 9⟩
  · rw [Hex.written,if_neg hm] at h ⊢
    have hdigits : ∀ d ∈ (Nat.digits 16 m).reverse, d < 10 := by
      intro d hd
      have hlt : d < 16 := Nat.digits_lt_base (by decide) (List.mem_reverse.mp hd)
      exact hten ⟨d,hlt⟩ (h _ (List.mem_map_of_mem hd))
    have hvalue : Radix.value 16 (Nat.digits 16 m).reverse = m := Radix.value_digits m
    have hhead : (Nat.digits 16 m).reverse.head? ≠ some 0 := Radix.digits_reverse_head m
    have hne : (Nat.digits 16 m).reverse ≠ [] := by
      rw [Ne,List.reverse_eq_nil_iff]
      exact Nat.digits_ne_nil_iff_ne_zero.mpr hm
    refine ⟨_,digitsValue_symbols hdigits,?_⟩
    generalize (Nat.digits 16 m).reverse = digits at *
    rcases digits with _ | ⟨d,_ | ⟨e,digits⟩⟩
    · exact absurd rfl hne
    · have hd : d < 10 := hdigits d List.mem_cons_self
      have hone (B : ℕ) : Radix.value B [d] = d := by
        rw [Radix.value_eq]
        simp
      rw [hone] at hvalue
      rw [hone]
      omega
    · have hd : d ≠ 0 := fun h0 => hhead (by rw [h0]; rfl)
      have hlt := Radix.value_lt_value (by decide : 0 < 10) (by decide : 10 < 16) hd e digits
      omega

/-- The digits in front of the first character that is none. -/
theorem split_digits (l : Bytes) : ∃ digits more, l = digits ++ more ∧ (∀ c ∈ digits, isDigit c = true) ∧
    ∀ c ∈ more.head?, isDigit c = false := by
  refine ⟨l.takeWhile isDigit,l.dropWhile isDigit,List.takeWhile_append_dropWhile.symm,
    fun c hc => List.mem_takeWhile_imp hc,fun c hc => ?_⟩
  have hnot := List.head?_dropWhile_not isDigit l
  rw [Option.mem_def] at hc
  rw [hc] at hnot
  exact hnot

theorem head_append {more rest : Bytes} {p : UInt8 → Bool} (hmore : ∀ c ∈ more.head?, p c = false)
    (hrest : ∀ c ∈ rest.head?, p c = false) : ∀ c ∈ (more ++ rest).head?, p c = false := by
  cases more with
  | nil => exact hrest
  | cons c more => exact hmore

/-- What can be read of a number in hexadecimal digits: decimal digits, and others behind an exponent. -/
def Decimal (l : Bytes) (b : Bool) : Prop :=
  (∀ c ∈ l, isDigit c = true ∨ c = 0x65) ∧ (b = false → ∀ c ∈ l, isDigit c = true)

theorem endsNumber_hex {c : UInt8} (hc : hexChar c = true) :
    Gives (Seen data (c :: rest)) (endsNumber (some c)) false (Seen data (c :: rest)) := by
  have hnone : ∀ c : UInt8, hexChar c = true → (some c == some comma || some c == some closeArray ||
      some c == some closeObject || (some c).any isSpace || false) = false := ScriptNum.forall_byte (by decide)
  rw [← hnone c hc]
  exact endsNumber_seen

/-- Behind the digits of an exponent. -/
theorem exponentEnds {l : Bytes} (hl : ∀ c ∈ l, hexChar c = true) (hdigit : ∀ c ∈ l.head?, isDigit c = false)
    (hrest : Closes rest) {Q : Bool → TextStream → Prop} (hQ : l = [] → ∀ t, t.data = data → Q true t) :
    MayGive (Seen data (l ++ rest)) (do
      let next ← peekChar
      if ← endsNumber next then pure true
      else failNearHere "Wrong token for numeric value" : Decoder Bool) Q := by
  refine MayGive.after peekChar_seen ?_
  cases l with
  | nil =>
    refine MayGive.after (endsNumber_closes hrest) ?_
    rw [if_pos rfl]
    exact MayGive.pure fun t ht => hQ rfl t ht.served
  | cons c l =>
    refine MayGive.after (endsNumber_hex (hl c List.mem_cons_self)) ?_
    rw [if_neg Bool.false_ne_true]
    exact failNearHere_mayGive _

/-- Behind the first digits only an exponent is no error. -/
theorem scanBehind_hex {l : Bytes} (hl : ∀ c ∈ l, hexChar c = true) (hdigit : ∀ c ∈ l.head?, isDigit c = false)
    (hrest : Closes rest) : MayGive (Seen data (l ++ rest)) scanBehind fun b t => t.data = data ∧ Decimal l b := by
  cases l with
  | nil => exact (scanBehind_closes hrest).mayGive fun t ht =>
      ⟨ht.served,fun c hc => absurd hc List.not_mem_nil,fun _ c hc => absurd hc List.not_mem_nil⟩
  | cons x l =>
    have hx : hexChar x = true := hl x List.mem_cons_self
    have hmore : ∀ c ∈ l, hexChar c = true := fun c hc => hl c (List.mem_cons_of_mem _ hc)
    have hpoint : ∀ c : UInt8, hexChar c = true → some c ≠ some point ∧ some c ≠ some 0x45 :=
      ScriptNum.forall_byte (by decide)
    refine MayGive.after peekChar_seen ?_
    refine MayGive.after (scanFraction_none (hpoint x hx).1) ?_
    by_cases hexponent : x = 0x65
    · subst hexponent
      have hsign : ∀ c ∈ (l ++ rest).head?, (c == minus || c == 0x2b) = false := by
        have hall : ∀ c : UInt8, hexChar c = true → (c == minus || c == 0x2b) = false :=
          ScriptNum.forall_byte (by decide)
        exact head_append (fun c hc => hall c (hmore c (List.mem_of_mem_head? hc))) (hrest.none_of rfl rfl rfl)
      obtain ⟨digits,more,rfl,hdigits,hend⟩ := split_digits l
      have hend' : ∀ c ∈ (more ++ rest).head?, isDigit c = false := head_append hend (hrest.none_of rfl rfl rfl)
      rw [List.append_assoc] at hsign
      have hexp : MayGive (Before data (0x65 :: (digits ++ (more ++ rest)))) scanExponent
          fun _ t => Seen data (more ++ rest) t := by
        refine MayGive.after peekChar_gives ?_
        rw [if_pos (Or.inl rfl)]
        refine MayGive.after ignore_gives ?_
        refine MayGive.after (skipSign_none hsign) ?_
        cases digits with
        | nil => exact expectDigits_none hend'
        | cons d digits =>
          rw [List.cons_append,seen_cons,← List.cons_append]
          exact (expectDigits_gives (List.cons_ne_nil _ _) hdigits hend').mayGive fun t ht => ht
      rw [List.cons_append,List.append_assoc,seen_cons]
      refine MayGive.bind hexp fun _ => ?_
      rw [List.head?_cons]
      refine exponentEnds (fun c hc => hmore c (List.mem_append_right _ hc)) hend hrest fun hnil t ht => ⟨ht,?_,nofun⟩
      subst hnil
      rw [List.append_nil]
      exact List.forall_mem_cons.mpr ⟨.inr rfl,fun c hc => .inl (hdigits c hc)⟩
    · have hnone : ¬ (some x = some 0x65 ∨ some x = some 0x45) := by
        rintro (h | h)
        · exact hexponent (Option.some.inj h)
        · exact (hpoint x hx).2 h
      refine MayGive.after (scanExponent_none hnone) ?_
      refine MayGive.after peekChar_seen ?_
      refine MayGive.after (endsNumber_hex hx) ?_
      rw [if_neg Bool.false_ne_true]
      exact failNearHere_mayGive _

theorem scanNumber_hex {l : Bytes} (hl : ∀ c ∈ l, hexChar c = true) (hrest : Closes rest) :
    MayGive (Before data (l ++ rest)) scanNumber fun b t => t.data = data ∧ Decimal l b := by
  have hsign : ∀ c ∈ (l ++ rest).head?, (c == minus) = false := by
    have hall : ∀ c : UInt8, hexChar c = true → (c == minus) = false := ScriptNum.forall_byte (by decide)
    exact head_append (fun c hc => hall c (hl c (List.mem_of_mem_head? hc))) (hrest.none_of rfl rfl rfl)
  refine MayGive.after (skipSign_none hsign) ?_
  obtain ⟨digits,more,rfl,hdigits,hend⟩ := split_digits l
  have hend' : ∀ c ∈ (more ++ rest).head?, isDigit c = false := head_append hend (hrest.none_of rfl rfl rfl)
  rw [List.append_assoc]
  cases digits with
  | nil =>
    exact MayGive.bind (R := fun _ _ => False) (expectDigits_none hend') fun _ _ h => h.elim
  | cons d digits =>
    rw [List.cons_append,seen_cons,← List.cons_append]
    refine MayGive.after (expectDigits_gives (List.cons_ne_nil _ _) hdigits hend') ?_
    refine (scanBehind_hex (fun c hc => hl c (List.mem_append_right _ hc)) hend hrest).mono ?_
    rintro b t ⟨hdata,hall,hfalse⟩
    refine ⟨hdata,List.forall_mem_append.mpr ⟨fun c hc => .inl (hdigits c hc),hall⟩,fun hb => ?_⟩
    exact List.forall_mem_append.mpr ⟨hdigits,hfalse hb⟩

/-- A number that was written with `std::hex` is read as another, unless it has one digit, and if it is out of
range nothing is read behind it. -/
theorem decodeNumber_hex (fits : FloatRange) {n : ℤ} (hn : n < 2^63) (hrest : Closes rest) :
    MayGive (Before data (Hex.written (n % 2^64).toNat ++ rest)) (decodeNumber fits) fun w t =>
      (Before data rest t ∨ Failed t) ∧ (w = .int n → 0 ≤ n ∧ n ≤ 9) := by
  have hl := hexChar_written (n % 2^64).toNat
  have hne := written_ne_nil (n % 2^64).toNat
  have hdecimal := @written_decimal (n % 2^64).toNat
  generalize Hex.written (n % 2^64).toNat = l at hl hne hdecimal
  obtain ⟨c,m,hcons⟩ : ∃ c m, l ++ rest = c :: m := List.exists_cons_of_ne_nil (List.append_ne_nil_of_left_ne_nil hne _)
  have hscan : MayGive (Before data (c :: m)) scanNumber fun b t => t.data = data ∧ Decimal l b :=
    hcons ▸ scanNumber_hex hl hrest
  rw [hcons]
  refine MayGive.bind (lookAhead_mayGive hscan) fun b => ?_
  rintro s ⟨⟨hall,hfalse⟩,hs⟩
  rw [← hcons] at hs
  cases b with
  | true =>
    have haccepts : ∀ c ∈ l, (c == minus || c == 0x2b || c == point || c == 0x65 || c == 0x45 || isDigit c) = true := by
      intro c hc
      rcases hall c hc with h | rfl
      · rw [h,Bool.or_true]
      · rfl
    have hfloat : MayGive (Before data (l ++ rest)) (readFloat fits) fun _ t => Before data rest t ∨ Failed t := by
      refine MayGive.after (readLiteral_gives hne haccepts (hrest.none_of rfl rfl rfl)) ?_
      split_ifs with hfits
      · exact MayGive.pure fun t ht => .inl ht
      · refine MayGive.bind (R := fun _ t => Failed t) ?_ fun _ => MayGive.pure fun t ht => .inr ht
        rintro t - u v hv
        obtain ⟨-,rfl⟩ := Prod.mk.inj (Except.ok.inj hv)
        rfl
    exact MayGive.bind hfloat (fun literal => MayGive.pure fun t ht => ⟨ht,nofun⟩) s hs
  | false =>
    have hdigits := hfalse rfl
    obtain ⟨k,hk,hle,hone⟩ := hdecimal hdigits
    have haccepts : ∀ c ∈ l, (c == minus || isDigit c) = true := by
      intro c hc
      rw [hdigits c hc,Bool.or_true]
    have hvalue : literalValue l = k := by
      obtain ⟨d,digits,rfl⟩ := List.exists_cons_of_ne_nil hne
      rw [literalValue,if_neg (digit_ne_minus d (hdigits d List.mem_cons_self)),hk]
    have hint : MayGive (Before data (l ++ rest)) readInt fun w t =>
        (Before data rest t ∨ Failed t) ∧ (w = n → 0 ≤ n ∧ n ≤ 9) := by
      refine MayGive.after (readLiteral_gives hne haccepts (hrest.none_of rfl rfl rfl)) ?_
      dsimp only
      rw [hvalue,if_neg (by omega)]
      split_ifs with hover
      · have hbelow : ¬ 2^63 ≤ n := Int.not_le.mpr hn
        refine MayGive.bind (R := fun _ t => Failed t) ?_ fun _ => MayGive.pure fun t ht => ⟨.inr ht,by omega⟩
        rintro t - u v hv
        obtain ⟨-,rfl⟩ := Prod.mk.inj (Except.ok.inj hv)
        rfl
      · exact MayGive.pure fun t ht => ⟨.inl ht,by omega⟩
    exact MayGive.bind hint (fun w => MayGive.pure fun t ht => ⟨ht.1,fun h => ht.2 (SVal.int.inj h)⟩) s hs

end Hexadecimal

end JsonSerializer
end Tkeycoin
