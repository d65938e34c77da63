import Tkeycoin.JsonDecoding
import Tkeycoin.JsonValues

/-! Integers of any length in the texts that `JsonSerializer` reads, at top level and in containers. -/
namespace Tkeycoin
namespace JsonSerializer

open Scanner TextStream

section Reading

/-- A number, where an integer is what `reads` makes of its numeral. -/
def numberReading (fits : FloatRange) (reads : Bytes → Option ℤ) : Decoder SVal := do
  if ← lookAhead scanNumber then
    let literal ← readFloat fits
    pure (.float literal)
  else
    let numeral ← readLiteral fun c => c == minus || isDigit c
    match reads numeral with
    | some n => pure (.int n)
    | none => fail (text "Wrong integer")

/-- What `decodeValue` does at a character, with a decoder for numbers. -/
def valueAtWith (number : Decoder SVal) (value : Decoder SVal) (c : Option UInt8) : Decoder SVal :=
  if c = some minus ∨ c.any isDigit = true then number
  else if c = some quote then do
    if ← lookAhead (getAll openBinary) then
      let binary ← decodeBinary
      pure (.binary binary)
    else
      let str ← decodeString
      pure (.str str)
  else if c = some 0x74 ∨ c = some 0x66 then decodeBool
  else if c = some openObject then decodeObject value
  else if c = some openArray then decodeArray value
  else if c = some 0x6e then decodeNull
  else failNearHere "Unknown token at parse value"

def decodeValueWith (number : Decoder SVal) : ℕ → Decoder SVal
  | 0 => throw .endless
  | depth+1 => do
    skipSpaces
    if ← eof then failHere "Unexpected out of data during parse value"
    else
      let c ← peekChar
      valueAtWith number (decodeValueWith number depth) c

/-- What follows a value at top level. -/
def endStream (strict : Bool) (value : SVal) : Decoder SVal := do
  skipSpaces
  let atEnd ← eof
  if !atEnd && strict then failNearHere "Redundant bytes after parsed data"
  else pure value

def decodeStreamWith (number : Decoder SVal) (strict : Bool) (depth : ℕ) : Decoder SVal := do
  if ← eof then fail (text "No data for parsing")
  else
    let value ← catchException "Can't decode JSON ← " (decodeValueWith number depth)
    endStream strict value

/-- `decode` with a decoder for numbers. -/
def decodeWith (number : Decoder SVal) (strict : Bool) (data : Bytes) : Except (Failure StdException) SVal :=
  ((decodeStreamWith number strict (data.length + 1)).run (.ofBytes data)).map Prod.fst

theorem decodeValueWith_number (fits : FloatRange) (depth : ℕ) :
    decodeValueWith (decodeNumber fits) depth = decodeValue fits depth := by
  induction depth with
  | zero => rfl
  | succ depth ih =>
    rw [decodeValueWith,ih]
    rfl

/-- The decoder is the one with its own numbers. -/
theorem decodeWith_number (fits : FloatRange) (strict : Bool) (data : Bytes) :
    decodeWith (decodeNumber fits) strict data = decode fits strict data := by
  rw [decodeWith,decodeStreamWith,decodeValueWith_number]
  rfl

/-- A numeral that is an integer with this property is read exactly. -/
def numeralOf (p : ℤ → Bool) (numeral : Bytes) : Option ℤ :=
  if p (literalValue numeral) then some (literalValue numeral) else none

/-- What a numeral is read as where there is nothing else. -/
def alone (fits : FloatRange) (strict : Bool) (numeral : Bytes) : Option ℤ :=
  match decode fits strict numeral with
  | .ok (.int n) => some n
  | _ => none

/-- An integer of `int64_t`. -/
def inRange (n : ℤ) : Bool := -2^63 ≤ n && n < 2^63

/-- The text is one that is read with exact integers, and they all have a property. -/
def IntegersOf (p : ℤ → Bool) (fits : FloatRange) (strict : Bool) (data : Bytes) : Prop :=
  ∃ v, decodeWith (numberReading fits (numeralOf p)) strict data = .ok v

/-- The first character that is no space opens an array or an object. -/
def opensContainer (data : Bytes) : Prop :=
  (data.dropWhile isSpace).head? = some openArray ∨ (data.dropWhile isSpace).head? = some openObject

/-- No integer is read as another, and one in a container is read where it would be read alone. -/
structure ReadsIntegers (fits : FloatRange) (strict : Bool) (data : Bytes) : Prop where
  exact : ∀ v, decode fits strict data = .ok v →
    decodeWith (numberReading fits (numeralOf fun _ => true)) strict data = .ok v
  alike : opensContainer data → ((∃ v, decode fits strict data = .ok v) ↔
    ∃ v, decodeWith (numberReading fits (alone fits strict)) strict data = .ok v)

end Reading

section Likeness

variable {number number' value value' : Decoder SVal} {like : SVal → SVal → Prop}

/-- Values that differ in their integers only are made of such. -/
structure Likeness (like : SVal → SVal → Prop) : Prop where
  same : ∀ v, like v v
  arr : ∀ {as bs}, List.Forall₂ like as bs → like (.arr as) (.arr bs)
  obj : ∀ {fs gs}, List.Forall₂ (fun f g : Bytes × SVal => f.1 = g.1 ∧ like f.2 g.2) fs gs → like (.obj fs) (.obj gs)

theorem likeness_eq : Likeness Eq where
  same _ := rfl
  arr h := congrArg SVal.arr (List.forall₂_eq_eq_eq ▸ h)
  obj h := by
    apply congrArg SVal.obj
    induction h with
    | nil => rfl
    | cons hfg _ ih => rw [ih,Prod.ext hfg.1 hfg.2]

theorem likeness_any : Likeness fun _ _ => True where
  same _ := trivial
  arr _ := trivial
  obj _ := trivial

/-- The same keys, with such values. -/
def LikeFields (like : SVal → SVal → Prop) : List (Bytes × SVal) → List (Bytes × SVal) → Prop :=
  List.Forall₂ fun f g => f.1 = g.1 ∧ like f.2 g.2

theorem emplace_like {key : Bytes} {v w : SVal} (hvw : like v w) {fs gs : List (Bytes × SVal)}
    (h : LikeFields like fs gs) : LikeFields like (SObj.emplace key v fs) (SObj.emplace key w gs) := by
  induction h with
  | nil => exact .cons ⟨rfl,hvw⟩ .nil
  | @cons f g fs gs hfg htail ih =>
    rw [SObj.emplace,SObj.emplace,hfg.1]
    split_ifs with heq hlt
    · exact .cons hfg htail
    · exact .cons ⟨rfl,hvw⟩ (.cons hfg htail)
    · exact .cons hfg ih

theorem separator_like {β β' : Type} {goes : β → β' → Prop} {b : β} {b' : β'} {v w : SVal} (close : UInt8)
    (wrong : String) (hb : goes b b') (hvw : like v w) :
    Simulates (fun _ => False) (separator close wrong b v) (separator close wrong b' w) (Sum.LiftRel goes like) := by
  refine Simulates.skip fun _ => Simulates.skip fun c => Simulates.ite (fun _ => ?_) fun _ =>
    Simulates.ite (fun _ => ?_) fun _ => ?_
  · exact Simulates.skip fun _ => Simulates.pure (.inl hb)
  · exact Simulates.pure (.inr hvw)
  · exact Simulates.never (backFailNearHere_mayGive 1 wrong)

theorem catch_like (context : String) {lost : TextStream → Prop} (h : Simulates lost value value' like) :
    Simulates lost (catchRuntimeError context value) (catchRuntimeError context value') like :=
  h.of_run (fun s r => (catchRuntimeError_ok context s r).mp) fun s r => (catchRuntimeError_ok context s r).mpr

theorem decodeElement_like (h : Simulates Failed value value' like) (hlike : Likeness like) {as bs : List SVal}
    (has : List.Forall₂ like as bs) : Simulates (fun _ => False) (decodeElement value as) (decodeElement value' bs)
      (Sum.LiftRel (List.Forall₂ like) like) := by
  refine Simulates.skip fun atEnd => Simulates.ite (fun _ => Simulates.never (failHere_mayGive _)) fun _ => ?_
  refine Simulates.bind (catch_like _ h) (fun a => separator_failed) fun v w hvw => ?_
  have hpush : List.Forall₂ like (as ++ [v]) (bs ++ [w]) := List.rel_append has (.cons hvw .nil)
  exact separator_like _ _ hpush (hlike.arr hpush)

theorem decodeField_like (h : Simulates Failed value value' like) (hlike : Likeness like) {fs gs : List (Bytes × SVal)}
    (hfs : LikeFields like fs gs) : Simulates (fun _ => False) (decodeField value fs) (decodeField value' gs)
      (Sum.LiftRel (LikeFields like) like) := by
  refine Simulates.skip fun atEnd => Simulates.ite (fun _ => Simulates.never (failHere_mayGive _)) fun _ => ?_
  refine Simulates.skip fun key => Simulates.skip fun _ => Simulates.skip fun c => ?_
  refine Simulates.ite (fun _ => Simulates.never (backFailNearHere_mayGive 1 _)) fun _ => Simulates.skip fun _ => ?_
  refine Simulates.bind (catch_like _ h) (fun a => separator_failed) fun v w hvw => ?_
  exact separator_like _ _ (emplace_like hvw hfs) (hlike.obj (emplace_like hvw hfs))

/-- A stream that failed in an array is an error. -/
theorem decodeArray_like (h : Simulates Failed value value' like) (hlike : Likeness like) :
    Simulates (fun _ => False) (decodeArray value) (decodeArray value') like := by
  refine Simulates.skip fun c => Simulates.ite (fun _ => Simulates.never (backFailNearHere_mayGive 1 _)) fun _ => ?_
  refine Simulates.skip fun _ => Simulates.skip fun c => Simulates.ite (fun _ => Simulates.same hlike.same) fun _ => ?_
  exact Simulates.loop (fun as bs => decodeElement_like h hlike) .nil

theorem decodeObject_like (h : Simulates Failed value value' like) (hlike : Likeness like) :
    Simulates (fun _ => False) (decodeObject value) (decodeObject value') like := by
  refine Simulates.skip fun c => Simulates.ite (fun _ => Simulates.never (backFailNearHere_mayGive 1 _)) fun _ => ?_
  refine Simulates.skip fun _ => Simulates.skip fun c => Simulates.ite (fun _ => Simulates.same hlike.same) fun _ => ?_
  exact Simulates.loop (fun fs gs => decodeField_like h hlike) .nil

theorem decodeValue_like (h : Simulates Failed number number' like) (hlike : Likeness like) (depth : ℕ) :
    Simulates Failed (decodeValueWith number depth) (decodeValueWith number' depth) like := by
  induction depth with
  | zero => exact fun _ _ _ => nofun
  | succ depth ih =>
    refine Simulates.skip fun _ => Simulates.skip fun atEnd =>
      Simulates.ite (fun _ => Simulates.never (failHere_mayGive _)) fun _ => Simulates.skip fun c => ?_
    refine Simulates.ite (fun _ => h) fun _ => Simulates.ite (fun _ => Simulates.same hlike.same) fun _ =>
      Simulates.ite (fun _ => Simulates.same hlike.same) fun _ => Simulates.ite (fun _ => ?_) fun _ =>
      Simulates.ite (fun _ => ?_) fun _ => Simulates.same hlike.same
    · exact (decodeObject_like ih hlike).mono fun t => False.elim
    · exact (decodeArray_like ih hlike).mono fun t => False.elim

end Likeness

section Numerals

variable {data rest more l : Bytes} {c : UInt8} {s t : TextStream} {α : Type}

/-- Decimal digits, behind a minus or not. -/
def Numeral (l : Bytes) : Prop :=
  ∃ digits, digits ≠ [] ∧ (∀ c ∈ digits, isDigit c = true) ∧ (l = digits ∨ l = minus :: digits)

/-- What may stand behind a numeral. -/
def Terminated (more : Bytes) : Prop :=
  ∀ c ∈ more.head?, c = comma ∨ c = closeArray ∨ c = closeObject ∨ isSpace c = true

theorem Numeral.accepts (h : Numeral l) : ∀ c ∈ l, (c == minus || isDigit c) = true := by
  obtain ⟨digits,-,hdigits,rfl | rfl⟩ := h
  · intro c hc
    rw [hdigits c hc,Bool.or_true]
  · refine List.forall_mem_cons.mpr ⟨rfl,fun c hc => ?_⟩
    rw [hdigits c hc,Bool.or_true]

theorem Numeral.ne_nil (h : Numeral l) : l ≠ [] := by
  obtain ⟨digits,hne,-,rfl | rfl⟩ := h
  · exact hne
  · exact List.cons_ne_nil _ _

theorem Terminated.stops (h : Terminated more) : ∀ c ∈ more.head?, (c == minus || isDigit c) = false := by
  have hall : ∀ c : UInt8, c = comma ∨ c = closeArray ∨ c = closeObject ∨ isSpace c = true →
      (c == minus || isDigit c) = false := ScriptNum.forall_byte (by decide)
  exact fun c hc => hall c (h c hc)

/-- Behind the first digits a number goes on with a fraction or an exponent, or is an integer. -/
theorem scanBehind_mayGive : MayGive (Seen data more) scanBehind fun b _ => b = false → Terminated more := by
  refine MayGive.after peekChar_seen ?_
  by_cases hpart : more.head? = some point ∨ more.head? = some 0x65 ∨ more.head? = some 0x45
  · have htrue : (more.head? == some point || more.head? == some 0x65 || more.head? == some 0x45) = true := by
      rcases hpart with h | h | h <;> rw [h] <;> rfl
    refine MayGive.skip fun _ => MayGive.skip fun _ => MayGive.skip fun next => MayGive.skip fun ends => ?_
    rw [htrue]
    split_ifs
    · exact MayGive.pure fun t _ => nofun
    · exact failNearHere_mayGive _
  · obtain ⟨hpoint,hexponent⟩ := not_or.mp hpart
    refine MayGive.after (scanFraction_none hpoint) ?_
    refine MayGive.after (scanExponent_none hexponent) ?_
    refine MayGive.after peekChar_seen ?_
    refine MayGive.after endsNumber_seen ?_
    split_ifs with hends
    · refine MayGive.pure fun t ht _ c hc => ?_
      rw [Option.mem_def] at hc
      have hne : more.isEmpty = false := by
        cases more with
        | nil => exact nomatch hc
        | cons d more => rfl
      simpa [hc,hne,or_assoc] using hends
    · exact failNearHere_mayGive _

theorem expectDigits_before : MayGive (Before data rest) expectDigits fun _ t =>
    ∃ digits more, rest = digits ++ more ∧ digits ≠ [] ∧ (∀ c ∈ digits, isDigit c = true) ∧ Seen data more t := by
  obtain ⟨digits,more,rfl,hdigits,hmore⟩ := split_digits rest
  cases digits with
  | nil =>
    refine MayGive.after peekChar_before ?_
    rw [List.nil_append,any_eq_false hmore]
    exact failNearHere_mayGive _
  | cons d digits =>
    exact (expectDigits_gives (List.cons_ne_nil _ _) hdigits hmore).mayGive fun t ht =>
      ⟨_,more,rfl,List.cons_ne_nil _ _,hdigits,ht⟩

theorem expectDigits_seen : MayGive (Seen data rest) expectDigits fun _ t =>
    ∃ digits more, rest = digits ++ more ∧ digits ≠ [] ∧ (∀ c ∈ digits, isDigit c = true) ∧ Seen data more t := by
  cases rest with
  | nil => exact expectDigits_none nofun
  | cons c rest =>
    rw [seen_cons]
    exact expectDigits_before

/-- A number without fraction and exponent is a numeral. -/
theorem scanNumber_mayGive : MayGive (Before data rest) scanNumber fun b _ =>
    b = false → ∃ l more, rest = l ++ more ∧ Numeral l ∧ Terminated more := by
  by_cases hsign : ∃ body, rest = minus :: body
  · obtain ⟨body,rfl⟩ := hsign
    refine MayGive.after (Gives.bind peekChar_gives ignore_gives) ?_
    refine MayGive.bind expectDigits_before fun _ => ?_
    rintro s ⟨digits,more,rfl,hne,hdigits,hs⟩
    exact scanBehind_mayGive.mono
      (fun b t h hb => ⟨minus :: digits,more,rfl,⟨digits,hne,hdigits,.inr rfl⟩,h hb⟩) s hs
  · have hnone : ∀ c ∈ rest.head?, (c == minus) = false := by
      intro c hc
      apply beq_false_of_ne
      rintro rfl
      obtain ⟨body,hbody⟩ := List.head?_eq_some_iff.mp hc
      exact hsign ⟨body,hbody⟩
    refine MayGive.after (skipSign_none hnone) ?_
    refine MayGive.bind expectDigits_seen fun _ => ?_
    rintro s ⟨digits,more,rfl,hne,hdigits,hs⟩
    exact scanBehind_mayGive.mono (fun b t h hb => ⟨digits,more,rfl,⟨digits,hne,hdigits,.inl rfl⟩,h hb⟩) s hs

theorem scanNumber_data : MayGive (Before data rest) scanNumber fun _ t => t.data = data := by
  intro s hs b t ht
  have hends := (scanNumber_halts : Halts (s.left : ℤ) scanNumber) s (by rw [hs.served,← hs.place]; exact Nat.le_add_right _ _) le_rfl
  rw [ht] at hends
  exact hends.1.trans hs.served

/-- In front of nothing, or failed. -/
def Blank (s : TextStream) : Prop := s.good = false ∨ s.data[s.pos]? = none

theorem before_of_head (hgood : s.good = true) (hc : s.data[s.pos]? = some c) : ∃ rest, s.Before s.data (c :: rest) := by
  obtain ⟨hlt,hget⟩ := List.getElem?_eq_some_iff.mp hc
  have hdrop : s.data.drop s.pos = c :: s.data.drop (s.pos + 1) := by rw [List.drop_eq_getElem_cons hlt,hget]
  rw [TextStream.good,Bool.and_eq_true,Bool.not_eq_true',Bool.not_eq_true'] at hgood
  refine ⟨s.data.drop (s.pos + 1),rfl,hdrop ▸ List.drop_suffix _ _,?_,hgood.2,fun _ => hgood.1⟩
  rw [← hdrop,List.length_drop]
  omega

theorem peekChar_blank : Gives Blank (peekChar : Decoder (Option UInt8)) none Blank := by
  intro s hs
  cases hgood : s.good with
  | false =>
    refine ⟨{ s with failbit := true },by simp [peekChar,hgood]; rfl,.inl ?_⟩
    rw [TextStream.good,Bool.not_true,Bool.and_false]
  | true =>
    have hnone : s.data[s.pos]? = none := hs.resolve_left (by rw [hgood]; decide)
    exact ⟨{ s with eofbit := true },by simp [peekChar,hgood,hnone]; rfl,.inl rfl⟩

theorem lookAhead_blank : MayGive Blank (lookAhead scanNumber) fun _ _ => False := by
  have htell : MayGive Blank (tellg : Decoder (Option ℕ)) fun _ t => Blank t := by
    intro s hs p t ht
    cases hgood : s.good with
    | false =>
      have hrun : (tellg : Decoder (Option ℕ)).run s = .ok (none,{ s with failbit := true }) := by
        simp [tellg,hgood]
        rfl
      obtain ⟨-,rfl⟩ := Prod.mk.inj (Except.ok.inj (hrun.symm.trans ht))
      refine .inl ?_
      rw [TextStream.good,Bool.not_true,Bool.and_false]
    | true =>
      have hrun : (tellg : Decoder (Option ℕ)).run s = .ok (some s.pos,s) := by
        simp [tellg,hgood]
        rfl
      obtain ⟨-,rfl⟩ := Prod.mk.inj (Except.ok.inj (hrun.symm.trans ht))
      exact hs
  have hscan : MayGive Blank scanNumber fun _ _ => False := by
    have hsign : Gives Blank (skipSign (· == minus)) () Blank := by
      apply Gives.bind peekChar_blank
      exact Gives.pure
    have hdigits : MayGive Blank expectDigits fun _ _ => False := by
      refine MayGive.after peekChar_blank ?_
      exact failNearHere_mayGive _
    refine MayGive.after hsign ?_
    exact MayGive.bind hdigits fun _ _ h => h.elim
  refine MayGive.bind htell fun p => ?_
  exact MayGive.bind hscan fun _ _ h => h.elim

/-- An integer is looked over wherever there is a numeral, and nothing is read. -/
theorem scanned (h : (lookAhead scanNumber).run s = .ok (false,t)) (hs : s.Before data (c :: rest)) :
    ∃ l more, c :: rest = l ++ more ∧ Numeral l ∧ Terminated more ∧ t.Before data (l ++ more) := by
  have hscan : MayGive (Before data (c :: rest)) scanNumber fun b t => t.data = data ∧
      (b = false → ∃ l more, c :: rest = l ++ more ∧ Numeral l ∧ Terminated more) :=
    fun s hs b t ht => ⟨scanNumber_data s hs b t ht,scanNumber_mayGive s hs b t ht⟩
  obtain ⟨hnumeral,ht⟩ := lookAhead_mayGive hscan s hs false t h
  obtain ⟨l,more,hrest,hl,hmore⟩ := hnumeral rfl
  exact ⟨l,more,hrest,hl,hmore,hrest ▸ ht⟩

theorem readLiteral_eofbit {accepts : UInt8 → Bool} : MayGive (fun s => s.good = true) (readLiteral accepts) fun _ t =>
    t.eofbit = (t.pos == t.data.length) := by
  intro s hs l t ht
  have hgood : s.good = true := hs
  simp only [readLiteral,StateT.run_bind,StateT.run_get,pure_bind,hgood,if_true] at ht
  obtain ⟨-,rfl⟩ := Prod.mk.inj (Except.ok.inj ht)
  rfl

/-- Behind a numeral the stream has not failed, and knows whether there is more. -/
theorem readLiteral_numeral (hl : Numeral l) (hmore : Terminated more) (hs : s.Before data (l ++ more)) :
    ∃ u, (readLiteral fun c => c == minus || isDigit c : Decoder Bytes).run s = .ok (l,u) ∧ u.Before data more ∧
      (u.eofbit = true ↔ more = []) := by
  obtain ⟨u,hu,hbefore⟩ := readLiteral_gives hl.ne_nil hl.accepts hmore.stops s hs
  have hgood : s.good = true := by
    obtain ⟨c,m,rfl⟩ := List.exists_cons_of_ne_nil hl.ne_nil
    exact Before.good hs
  have heof := readLiteral_eofbit s hgood l u hu
  refine ⟨u,hu,hbefore,?_⟩
  have hplace := hbefore.place
  rw [heof,beq_iff_eq,hbefore.served,← List.length_eq_zero_iff]
  omega

end Numerals

section Numbers

variable {data rest more l : Bytes} {c : UInt8} {s t u : TextStream} {fits : FloatRange} {v : SVal}

/-- The integer of a numeral that was read, as `is >> value` gives it. -/
def nearest (numeral : Bytes) : ℤ :=
  if literalValue numeral < -2^63 then -2^63
  else if 2^63 ≤ literalValue numeral then 2^63-1
  else literalValue numeral

theorem nearest_eq (numeral : Bytes) : nearest numeral = literalValue numeral ↔
    inRange (literalValue numeral) = true := by
  rw [nearest,inRange,Bool.and_eq_true,decide_eq_true_eq,decide_eq_true_eq]
  split_ifs <;> omega

/-- A numeral that was read is an integer or an error. -/
def takeNumeral (reads : Bytes → Option ℤ) (numeral : Bytes) : Decoder SVal :=
  match reads numeral with
  | some n => pure (.int n)
  | none => fail (text "Wrong integer")

theorem takeNumeral_ok {reads : Bytes → Option ℤ} :
    (takeNumeral reads l).run u = .ok (v,t) ↔ (∃ n, reads l = some n ∧ v = .int n) ∧ t = u := by
  rw [takeNumeral]
  cases reads l with
  | none => exact ⟨nofun,fun ⟨⟨n,hn,_⟩,_⟩ => nomatch hn⟩
  | some n =>
    constructor
    · intro h
      obtain ⟨rfl,rfl⟩ := Prod.mk.inj (Except.ok.inj h)
      exact ⟨⟨n,rfl,rfl⟩,rfl⟩
    · rintro ⟨⟨m,hm,rfl⟩,rfl⟩
      obtain rfl := Option.some.inj hm
      rfl

/-- The stream behind a numeral, which fails if that was out of range. -/
def behindNumeral (numeral : Bytes) (u : TextStream) : TextStream :=
  if inRange (literalValue numeral) then u else { u with failbit := true }

theorem numberReading_int (hscan : (lookAhead scanNumber).run s = .ok (false,t))
    (hread : (readLiteral fun c => c == minus || isDigit c : Decoder Bytes).run t = .ok (l,u))
    (reads : Bytes → Option ℤ) : (numberReading fits reads).run s = (takeNumeral reads l).run u := by
  rw [numberReading,StateT.run_bind,hscan]
  change ((readLiteral fun c => c == minus || isDigit c) >>= takeNumeral reads : Decoder SVal).run t = _
  rw [StateT.run_bind,hread]
  rfl

theorem decodeNumber_int (hscan : (lookAhead scanNumber).run s = .ok (false,t))
    (hread : (readLiteral fun c => c == minus || isDigit c : Decoder Bytes).run t = .ok (l,u)) :
    (decodeNumber fits).run s = .ok (.int (nearest l),behindNumeral l u) := by
  have hint : readInt.run t = .ok (nearest l,behindNumeral l u) := by
    rw [readInt,StateT.run_bind,hread,nearest,behindNumeral,inRange]
    change StateT.run (if literalValue l < -2^63 then _ else _) u = _
    by_cases hlow : literalValue l < -2^63
    · have hout : (decide (-2^63 ≤ literalValue l) && decide (literalValue l < 2^63)) = false := by
        rw [decide_eq_false (Int.not_le.mpr hlow),Bool.false_and]
      rw [if_pos hlow,if_pos hlow,hout]
      rfl
    · by_cases hhigh : 2^63 ≤ literalValue l
      · have hout : (decide (-2^63 ≤ literalValue l) && decide (literalValue l < 2^63)) = false := by
          rw [decide_eq_false (Int.not_lt.mpr hhigh),Bool.and_false]
        rw [if_neg hlow,if_pos hhigh,if_neg hlow,if_pos hhigh,hout]
        rfl
      · have hin : (decide (-2^63 ≤ literalValue l) && decide (literalValue l < 2^63)) = true := by
          rw [decide_eq_true (Int.not_lt.mp hlow),decide_eq_true (Int.not_le.mp hhigh),Bool.and_self]
        rw [if_neg hlow,if_neg hhigh,if_neg hlow,if_neg hhigh,hin]
        rfl
  rw [decodeNumber,StateT.run_bind,hscan]
  change (readInt >>= fun n => pure (.int n) : Decoder SVal).run t = _
  rw [StateT.run_bind,hint]
  rfl

/-- All decoders of a number do the same, unless there is a numeral. -/
def Alike (fits : FloatRange) (s : TextStream) : Prop :=
  ∀ reads, (numberReading fits reads).run s = (decodeNumber fits).run s

/-- There is a numeral, with more behind it, and where a decoder stands then. -/
structure AtNumeral (fits : FloatRange) (s : TextStream) (l more : Bytes) (u : TextStream) : Prop where
  numeral : Numeral l
  terminated : Terminated more
  before : u.Before u.data more
  eofbit : u.eofbit = true ↔ more = []
  reads : ∀ reads, (numberReading fits reads).run s = (takeNumeral reads l).run u
  decodes : (decodeNumber fits).run s = .ok (.int (nearest l),behindNumeral l u)

theorem alike_of_scan (h : ∀ t, (lookAhead scanNumber).run s ≠ .ok (false,t)) : Alike fits s := by
  intro reads
  rw [numberReading,decodeNumber,StateT.run_bind,StateT.run_bind]
  cases hr : (lookAhead scanNumber).run s with
  | error e => rfl
  | ok r =>
    obtain ⟨b,t⟩ := r
    cases b with
    | true => rfl
    | false => exact absurd hr (h t)

theorem atNumeral (hscan : (lookAhead scanNumber).run s = .ok (false,t)) (hl : Numeral l) (hmore : Terminated more)
    (ht : t.Before data (l ++ more)) : ∃ u, AtNumeral fits s l more u := by
  obtain ⟨u,hread,hu,heof⟩ := readLiteral_numeral hl hmore ht
  exact ⟨u,hl,hmore,hu.served ▸ hu,heof,numberReading_int hscan hread,decodeNumber_int hscan hread⟩

theorem number_cases (fits : FloatRange) (hs : s.Before data (c :: rest)) :
    Alike fits s ∨ ∃ l more u, c :: rest = l ++ more ∧ AtNumeral fits s l more u := by
  by_cases hscan : ∃ t, (lookAhead scanNumber).run s = .ok (false,t)
  · obtain ⟨t,ht⟩ := hscan
    obtain ⟨l,more,hrest,hl,hmore,hbefore⟩ := scanned ht hs
    obtain ⟨u,hu⟩ : ∃ u, AtNumeral fits s l more u := atNumeral ht hl hmore hbefore
    exact .inr ⟨l,more,u,hrest,hu⟩
  · exact .inl (alike_of_scan (not_exists.mp hscan))

/-- Wherever a stream stands. -/
theorem stream_cases (fits : FloatRange) (s : TextStream) : Alike fits s ∨ ∃ l more u, AtNumeral fits s l more u := by
  by_cases hblank : Blank s
  · exact .inl (alike_of_scan fun t ht => lookAhead_blank s hblank false t ht)
  · obtain ⟨hgood,hhead⟩ := not_or.mp hblank
    obtain ⟨c,hc⟩ := Option.ne_none_iff_exists'.mp hhead
    obtain ⟨rest,hs⟩ := before_of_head (Bool.not_eq_false _ ▸ hgood) hc
    exact (number_cases fits hs).imp_right fun ⟨l,more,u,_,hu⟩ => ⟨l,more,u,hu⟩

end Numbers

section Comparison

variable {fits : FloatRange} {reads reads' : Bytes → Option ℤ} {like : SVal → SVal → Prop}

/-- A decoder that reads the same numerals. -/
theorem reading_like (hlike : Likeness like)
    (h : ∀ l n, Numeral l → reads l = some n → ∃ m, reads' l = some m ∧ like (.int n) (.int m)) :
    Simulates Failed (numberReading fits reads) (numberReading fits reads') like := by
  intro s v t ht
  rcases stream_cases fits s with hsame | ⟨l,more,u,hu⟩
  · rw [hsame] at ht
    exact .inr ⟨v,(hsame reads').trans ht,hlike.same v⟩
  · rw [hu.reads,takeNumeral_ok] at ht
    obtain ⟨⟨n,hn,rfl⟩,rfl⟩ := ht
    obtain ⟨m,hm,hnm⟩ := h l n hu.numeral hn
    exact .inr ⟨.int m,(hu.reads reads').trans (takeNumeral_ok.mpr ⟨⟨m,hm,rfl⟩,rfl⟩),hnm⟩

/-- What the decoder of the code reads, and does not fail on, is in range. -/
theorem decodeNumber_like : Simulates Failed (decodeNumber fits) (numberReading fits (numeralOf inRange)) Eq := by
  intro s v t ht
  rcases stream_cases fits s with hsame | ⟨l,more,u,hu⟩
  · exact .inr ⟨v,(hsame _).trans ht,rfl⟩
  · rw [hu.decodes] at ht
    obtain ⟨rfl,rfl⟩ := Prod.mk.inj (Except.ok.inj ht)
    cases hin : inRange (literalValue l) with
    | true =>
      refine .inr ⟨_,(hu.reads _).trans (takeNumeral_ok.mpr ⟨⟨nearest l,?_,rfl⟩,?_⟩),rfl⟩
      · rw [numeralOf,hin,if_pos rfl,(nearest_eq l).mpr hin]
      · rw [behindNumeral,hin,if_pos rfl]
    | false =>
      left
      rw [behindNumeral,hin]
      rfl

theorem inRange_like : Simulates Failed (numberReading fits (numeralOf inRange)) (decodeNumber fits) Eq := by
  intro s v t ht
  rcases stream_cases fits s with hsame | ⟨l,more,u,hu⟩
  · exact .inr ⟨v,(hsame _).symm.trans ht,rfl⟩
  · rw [hu.reads,takeNumeral_ok,numeralOf] at ht
    obtain ⟨⟨n,hn,rfl⟩,rfl⟩ := ht
    cases hin : inRange (literalValue l) with
    | true =>
      rw [hin,if_pos rfl] at hn
      have hdecodes := hu.decodes
      rw [behindNumeral,hin,if_pos rfl,(nearest_eq l).mpr hin,Option.some.inj hn] at hdecodes
      exact .inr ⟨_,hdecodes,rfl⟩
    | false =>
      rw [hin] at hn
      exact nomatch hn

end Comparison

section TopLevel

variable {data rest more l : Bytes} {c : UInt8} {s t u : TextStream} {fits : FloatRange} {strict : Bool}
variable {number number' : Decoder SVal} {v w : SVal} {like : SVal → SVal → Prop}

/-- Behind such a stream a decoder is satisfied. -/
def Accepted (strict : Bool) (u : TextStream) : Prop := ∃ r, (endStream strict .null).run u = .ok r

theorem endStream_ok : (∃ r, (endStream strict v).run u = .ok r ∧ r.1 = w) ↔ Accepted strict u ∧ w = v := by
  rw [Accepted,endStream,endStream,StateT.run_bind,StateT.run_bind]
  cases hskip : skipSpaces.run u with
  | error e =>
    constructor
    · rintro ⟨r,hr,-⟩
      exact nomatch hr
    · rintro ⟨⟨r,hr⟩,-⟩
      exact nomatch hr
  | ok r =>
    obtain ⟨-,t⟩ := r
    change (∃ r, (if !t.eofbit && strict then failNearHere "Redundant bytes after parsed data" else pure v :
      Decoder SVal).run t = .ok r ∧ r.1 = w) ↔ (∃ r, (if !t.eofbit && strict then
        failNearHere "Redundant bytes after parsed data" else pure .null : Decoder SVal).run t = .ok r) ∧ w = v
    by_cases hend : (!t.eofbit && strict) = true
    · rw [if_pos hend,if_pos hend]
      constructor
      · rintro ⟨r,hr,-⟩
        exact (failNearHere_mayGive (P := fun _ => True) (Q := fun _ _ => False) _ t trivial r.1 r.2 hr).elim
      · rintro ⟨⟨r,hr⟩,-⟩
        exact (failNearHere_mayGive (P := fun _ => True) (Q := fun _ _ => False) _ t trivial r.1 r.2 hr).elim
    · rw [if_neg hend,if_neg hend]
      constructor
      · rintro ⟨r,hr,rfl⟩
        obtain rfl := Except.ok.inj hr
        exact ⟨⟨_,rfl⟩,rfl⟩
      · rintro ⟨-,rfl⟩
        exact ⟨_,rfl,rfl⟩

theorem map_fst_ok {x : Except (Failure StdException) (SVal × TextStream)} :
    x.map Prod.fst = .ok v ↔ ∃ r, x = .ok r ∧ r.1 = v := by
  cases x with
  | error e => exact ⟨nofun,fun ⟨r,hr,_⟩ => nomatch hr⟩
  | ok r => exact ⟨fun h => ⟨r,rfl,Except.ok.inj h⟩,fun ⟨q,hq,h⟩ => by rw [Except.ok.inj hq,← h]; rfl⟩

/-- A text is decoded where its value is, and the decoder is satisfied with what is left. -/
theorem decodeWith_ok : decodeWith number strict data = .ok v ↔
    ∃ u, (decodeValueWith number (data.length + 1)).run (.ofBytes data) = .ok (v,u) ∧ Accepted strict u := by
  rw [decodeWith,map_fst_ok,decodeStreamWith]
  change (∃ r, (catchException "Can't decode JSON ← " (decodeValueWith number (data.length + 1)) >>=
    endStream strict : Decoder SVal).run (.ofBytes data) = .ok r ∧ r.1 = v) ↔ _
  rw [StateT.run_bind]
  constructor
  · rintro ⟨r,hr,hv⟩
    cases hvalue : (catchException "Can't decode JSON ← " (decodeValueWith number (data.length + 1))).run
        (.ofBytes data) with
    | error e =>
      rw [hvalue] at hr
      exact nomatch hr
    | ok q =>
      rw [hvalue] at hr
      obtain ⟨haccepted,rfl⟩ := endStream_ok.mp ⟨r,hr,hv⟩
      exact ⟨q.2,(catchException_ok _ _ _).mp hvalue,haccepted⟩
  · rintro ⟨u,hvalue,haccepted⟩
    obtain ⟨r,hr,hv⟩ := endStream_ok.mpr ⟨haccepted,rfl⟩
    refine ⟨r,?_,hv⟩
    rw [(catchException_ok _ _ _).mpr hvalue]
    exact hr

/-- The spaces in front of a value are skipped. -/
theorem decodeValueWith_run (hdata : data.dropWhile isSpace = c :: rest) : ∃ t, t.Before data (c :: rest) ∧
    ∀ number depth, (decodeValueWith number (depth + 1)).run (.ofBytes data) =
      (valueAtWith number (decodeValueWith number depth) (some c)).run t := by
  have hspace : isSpace c = false := by
    have hnot := List.head?_dropWhile_not isSpace data
    rw [hdata] at hnot
    exact hnot
  have hsplit : data = data.takeWhile isSpace ++ c :: rest := by rw [← hdata,List.takeWhile_append_dropWhile]
  have hbefore : Before data (data.takeWhile isSpace ++ c :: rest) (.ofBytes data) := hsplit ▸ before_ofBytes data
  obtain ⟨t,ht,htbefore⟩ := skipWhile_gives (ε := StdException) (fun x hx => List.mem_takeWhile_imp hx) hspace
    (.ofBytes data) hbefore
  refine ⟨t,htbefore,fun number depth => ?_⟩
  have hskip : skipSpaces.run (.ofBytes data) = .ok ((),t) := ht
  have heof : (eof : Decoder Bool).run t = .ok (false,t) := by
    simp [eof,htbefore.eof (List.cons_ne_nil _ _)]
    rfl
  have hpeek : (peekChar : Decoder (Option UInt8)).run t = .ok (some c,t) := by
    simp [peekChar,htbefore.good,htbefore.head]
    rfl
  rw [decodeValueWith,StateT.run_bind,hskip]
  change (eof >>= fun atEnd => if atEnd = true then failHere "Unexpected out of data during parse value" else
    peekChar >>= fun c => valueAtWith number (decodeValueWith number depth) c : Decoder SVal).run t = _
  rw [StateT.run_bind,heof]
  change (peekChar >>= fun c => valueAtWith number (decodeValueWith number depth) c : Decoder SVal).run t = _
  rw [StateT.run_bind,hpeek]
  rfl

/-- Only spaces are no value. -/
theorem decodeValueWith_blank (hdata : data.dropWhile isSpace = []) (depth : ℕ) :
    MayGive (fun s => s = .ofBytes data) (decodeValueWith number depth) fun _ _ => False := by
  cases depth with
  | zero => exact fun _ _ _ _ => nofun
  | succ depth =>
    have hall : ∀ x ∈ data, isSpace x = true := List.dropWhile_eq_nil_iff.mp hdata
    have hskip : Gives (fun s => s = .ofBytes data) skipSpaces () (Ended data) := by
      rintro s rfl
      exact skipWhile_end hall _ (before_ofBytes data)
    refine MayGive.after hskip ?_
    refine MayGive.after eof_ended ?_
    exact failHere_mayGive _

/-- Behind what was not a failure the rest of the text is spaces, or the serializer is not strict. -/
theorem accepted_before (hu : u.Before data more) :
    Accepted strict u ↔ strict = false ∨ ∀ x ∈ more, isSpace x = true := by
  by_cases hall : ∀ x ∈ more, isSpace x = true
  · refine ⟨fun _ => .inr hall,fun _ => ?_⟩
    obtain ⟨t,ht,hended⟩ := skipWhile_end (ε := StdException) hall u hu
    have hskip : skipSpaces.run u = .ok ((),t) := ht
    rw [Accepted,endStream,StateT.run_bind,hskip]
    change ∃ r, (if !t.eofbit && strict then failNearHere "Redundant bytes after parsed data" else pure .null :
      Decoder SVal).run t = .ok r
    rw [hended.2,Bool.not_true,Bool.false_and,if_neg Bool.false_ne_true]
    exact ⟨_,rfl⟩
  · have hne : more.dropWhile isSpace ≠ [] := fun h => hall (List.dropWhile_eq_nil_iff.mp h)
    obtain ⟨c,rest,hrest⟩ := List.exists_cons_of_ne_nil hne
    have hspace : isSpace c = false := by
      have hnot := List.head?_dropWhile_not isSpace more
      rw [hrest] at hnot
      exact hnot
    have hsplit : more = more.takeWhile isSpace ++ c :: rest := by rw [← hrest,List.takeWhile_append_dropWhile]
    obtain ⟨t,ht,htbefore⟩ := skipWhile_gives (ε := StdException) (fun x hx => List.mem_takeWhile_imp hx) hspace u
      (hsplit ▸ hu : u.Before data (more.takeWhile isSpace ++ c :: rest))
    have hskip : skipSpaces.run u = .ok ((),t) := ht
    rw [or_iff_left hall,Accepted,endStream,StateT.run_bind,hskip]
    change (∃ r, (if !t.eofbit && strict then failNearHere "Redundant bytes after parsed data" else pure .null :
      Decoder SVal).run t = .ok r) ↔ _
    rw [htbefore.eof (List.cons_ne_nil _ _),Bool.not_false,Bool.true_and]
    cases strict with
    | true =>
      refine ⟨fun ⟨r,hr⟩ => ?_,nofun⟩
      exact (failNearHere_mayGive (P := fun _ => True) (Q := fun _ _ => False) _ t trivial r.1 r.2 hr).elim
    | false => exact ⟨fun _ => rfl,fun _ => ⟨_,rfl⟩⟩

/-- A stream that failed skips nothing more. -/
theorem accepted_failed (hu : u.failbit = true) : Accepted strict u ↔ strict = false ∨ u.eofbit = true := by
  have hgood : u.good = false := by rw [TextStream.good,hu,Bool.not_true,Bool.and_false]
  have hpeek : (peekChar : Decoder (Option UInt8)).run u = .ok (none,u) := by
    have hsame : { u with failbit := true } = u := by rw [← hu]
    simp [peekChar,hgood,hsame]
    rfl
  have hskip : skipSpaces.run u = .ok ((),u) := by
    change (iterate (fun _ => skipStep isSpace : Unit → Decoder (Unit ⊕ Unit)) (u.data.length + 1) ()).run u = _
    rw [iterate,StateT.run_bind,skipStep,StateT.run_bind,hpeek]
    rfl
  rw [Accepted,endStream,StateT.run_bind,hskip]
  change (∃ r, (if !u.eofbit && strict then failNearHere "Redundant bytes after parsed data" else pure .null :
    Decoder SVal).run u = .ok r) ↔ _
  cases heof : u.eofbit with
  | true => exact ⟨fun _ => .inr rfl,fun _ => ⟨_,rfl⟩⟩
  | false =>
    cases strict with
    | true =>
      refine ⟨fun hr => ?_,?_⟩
      · obtain ⟨r,hr⟩ := hr
        exact (failNearHere_mayGive (P := fun _ => True) (Q := fun _ _ => False) _ u trivial r.1 r.2 hr).elim
      · rintro (h | h)
        · exact Bool.noConfusion h
        · exact Bool.noConfusion h
    | false => exact ⟨fun _ => .inl rfl,fun _ => ⟨_,rfl⟩⟩

/-- Containers are decoded alike. -/
theorem container_like (hopens : opensContainer data) (h : Simulates Failed number number' like)
    (hlike : Likeness like) (hv : decodeWith number strict data = .ok v) :
    ∃ w, decodeWith number' strict data = .ok w ∧ like v w := by
  obtain ⟨c,hc,hcontainer⟩ : ∃ c, (data.dropWhile isSpace).head? = some c ∧ (c = openArray ∨ c = openObject) := by
    rcases hopens with hc | hc
    · exact ⟨_,hc,.inl rfl⟩
    · exact ⟨_,hc,.inr rfl⟩
  obtain ⟨rest,hdata⟩ := List.head?_eq_some_iff.mp hc
  obtain ⟨t,-,hrun⟩ := decodeValueWith_run hdata
  obtain ⟨u,hvalue,haccepted⟩ := decodeWith_ok.mp hv
  rw [hrun] at hvalue
  have hinner := decodeValue_like h hlike data.length
  have hlost : Simulates (fun _ => False) (valueAtWith number (decodeValueWith number data.length) (some c))
      (valueAtWith number' (decodeValueWith number' data.length) (some c)) like := by
    rcases hcontainer with rfl | rfl
    · exact decodeArray_like hinner hlike
    · exact decodeObject_like hinner hlike
  rcases hlost t v u hvalue with hfalse | ⟨w,hw,hvw⟩
  · exact hfalse.elim
  · exact ⟨w,decodeWith_ok.mpr ⟨u,(hrun _ _).trans hw,haccepted⟩,hvw⟩

/-- A number is decoded where a text begins with one. -/
def numeric (c : UInt8) : Prop := c = minus ∨ isDigit c = true

theorem valueAtWith_number {value : Decoder SVal} (hc : numeric c) : valueAtWith number value (some c) = number :=
  if_pos (hc.imp_left (congrArg some))

theorem decodeWith_number_ok (hc : numeric c) (hrun : ∀ number depth,
    (decodeValueWith number (depth + 1)).run (.ofBytes data) =
      (valueAtWith number (decodeValueWith number depth) (some c)).run t) :
    decodeWith number strict data = .ok v ↔ ∃ u, number.run t = .ok (v,u) ∧ Accepted strict u := by
  rw [decodeWith_ok,hrun,valueAtWith_number hc]

theorem accepted_behind (hu : AtNumeral fits s l more u) : Accepted strict (behindNumeral l u) ↔
    strict = false ∨ if inRange (literalValue l) then ∀ x ∈ more, isSpace x = true else more = [] := by
  rw [behindNumeral]
  split_ifs with hin
  · exact accepted_before hu.before
  · rw [accepted_failed rfl]
    exact or_congr_right hu.eofbit

theorem numeral_head (hl : Numeral l) : ∃ c rest, l = c :: rest ∧ numeric c := by
  obtain ⟨digits,hne,hdigits,rfl | rfl⟩ := hl
  · obtain ⟨c,rest,rfl⟩ := List.exists_cons_of_ne_nil hne
    exact ⟨c,rest,rfl,.inr (hdigits c List.mem_cons_self)⟩
  · exact ⟨minus,digits,rfl,.inl rfl⟩

theorem numeric_not_space : ∀ c : UInt8, numeric c → isSpace c = false :=
  ScriptNum.forall_byte (by unfold numeric; decide)

theorem scanNumber_numeral (hl : Numeral l) : Gives (Before data l) scanNumber false (fun t => t.data = data) := by
  have hcloses : Closes [] := nofun
  obtain ⟨digits,hne,hdigits,hl⟩ := hl
  have hbehind : Gives (Before data digits) (expectDigits >>= fun _ => scanBehind) false (fun t => t.data = data) := by
    have hgives : Gives (Before data (digits ++ [])) expectDigits () (Seen data []) :=
      expectDigits_gives hne hdigits nofun
    rw [List.append_nil] at hgives
    exact Gives.bind hgives ((scanBehind_closes hcloses).mono fun t ht => ht.served)
  obtain ⟨c,rest,rfl⟩ := List.exists_cons_of_ne_nil hne
  rcases hl with rfl | rfl
  · have hc : c ≠ minus := digit_ne_minus c (hdigits c List.mem_cons_self)
    have hsign : Gives (Before data (c :: rest)) (skipSign (· == minus)) () (Before data (c :: rest)) := by
      apply (skipSign_none _).mono
      · intro t ht
        exact seen_cons ▸ ht
      · intro d hd
        obtain rfl := Option.some.inj hd
        exact beq_false_of_ne hc
    exact Gives.bind hsign hbehind
  · exact Gives.bind skipSign_minus hbehind

/-- Alone every numeral is read, however large it is. -/
theorem decode_numeral (fits : FloatRange) (strict : Bool) (hl : Numeral l) : decode fits strict l = .ok (.int (nearest l)) ∧
    decodeWith (numberReading fits (numeralOf fun _ => true)) strict l = .ok (.int (literalValue l)) := by
  obtain ⟨c,rest,rfl,hc⟩ := numeral_head hl
  have hdata : (c :: rest).dropWhile isSpace = c :: rest :=
    List.dropWhile_cons_of_neg (by rw [numeric_not_space c hc]; exact Bool.false_ne_true)
  obtain ⟨t,hbefore,hrun⟩ := decodeValueWith_run hdata
  obtain ⟨t',hscan,ht'⟩ := lookAhead_gives (scanNumber_numeral hl) t hbefore
  obtain ⟨u,hu⟩ : ∃ u, AtNumeral fits t (c :: rest) [] u :=
    atNumeral hscan hl nofun (by rw [List.append_nil]; exact ht')
  rw [← decodeWith_number,decodeWith_number_ok hc hrun,decodeWith_number_ok hc hrun]
  constructor
  · refine ⟨_,hu.decodes,(accepted_behind hu).mpr (.inr ?_)⟩
    split_ifs
    · exact nofun
    · rfl
  · exact ⟨u,(hu.reads _).trans (takeNumeral_ok.mpr ⟨⟨_,rfl,rfl⟩,rfl⟩),(accepted_before hu.before).mpr (.inr nofun)⟩

theorem alone_numeral (hl : Numeral l) : alone fits strict l = some (nearest l) := by
  rw [alone,(decode_numeral fits strict hl).1]

end TopLevel

section Claims

variable {data rest more l : Bytes} {c : UInt8} {fits : FloatRange} {strict : Bool}

/-- Where all decoders do the same, no integer is at stake. -/
theorem readsIntegers_of_same (h : ∀ reads v, decodeWith (numberReading fits reads) strict data = .ok v ↔
    decode fits strict data = .ok v) :
    ReadsIntegers fits strict data ∧ (IntegersOf (fun _ => true) fits strict data → IntegersOf inRange fits strict data) := by
  refine ⟨⟨fun v hv => (h _ v).mpr hv,fun _ => ?_⟩,fun ⟨v,hv⟩ => ⟨v,(h _ v).mpr ((h _ v).mp hv)⟩⟩
  exact exists_congr fun v => (h _ v).symm

/-- In a container an integer out of range is refused. -/
theorem readsIntegers_container (hopens : opensContainer data) : ReadsIntegers fits strict data ↔
    (IntegersOf (fun _ => true) fits strict data → IntegersOf inRange fits strict data) := by
  have hdecode : ∀ v, decode fits strict data = .ok v ↔
      decodeWith (numberReading fits (numeralOf inRange)) strict data = .ok v := by
    intro v
    rw [← decodeWith_number]
    constructor
    · intro hv
      obtain ⟨w,hw,rfl⟩ := container_like hopens decodeNumber_like likeness_eq hv
      exact hw
    · intro hv
      obtain ⟨w,hw,rfl⟩ := container_like hopens inRange_like likeness_eq hv
      exact hw
  have hexact : ∀ v, decodeWith (numberReading fits (numeralOf inRange)) strict data = .ok v →
      decodeWith (numberReading fits (numeralOf fun _ => true)) strict data = .ok v := by
    intro v hv
    have hreads : Simulates Failed (numberReading fits (numeralOf inRange))
        (numberReading fits (numeralOf fun _ => true)) Eq := by
      refine reading_like likeness_eq fun l n _ hn => ?_
      rw [numeralOf] at hn
      split_ifs at hn
      exact ⟨n,hn,rfl⟩
    obtain ⟨w,hw,rfl⟩ := container_like hopens hreads likeness_eq hv
    exact hw
  have halone : (∃ v, decodeWith (numberReading fits (alone fits strict)) strict data = .ok v) ↔
      IntegersOf (fun _ => true) fits strict data := by
    constructor
    · rintro ⟨v,hv⟩
      obtain ⟨w,hw,-⟩ := container_like hopens
        (reading_like likeness_any fun l n _ _ => ⟨literalValue l,rfl,trivial⟩) likeness_any hv
      exact ⟨w,hw⟩
    · rintro ⟨v,hv⟩
      obtain ⟨w,hw,-⟩ := container_like hopens
        (reading_like likeness_any fun l n hl _ => ⟨nearest l,alone_numeral hl,trivial⟩) likeness_any hv
      exact ⟨w,hw⟩
  constructor
  · intro h hintegers
    obtain ⟨v,hv⟩ := (h.alike hopens).mpr (halone.mpr hintegers)
    exact ⟨v,(hdecode v).mp hv⟩
  · intro h
    refine ⟨fun v hv => hexact v ((hdecode v).mp hv),fun _ => ?_⟩
    rw [halone]
    constructor
    · rintro ⟨v,hv⟩
      exact ⟨v,hexact v ((hdecode v).mp hv)⟩
    · intro hintegers
      obtain ⟨v,hv⟩ := h hintegers
      exact ⟨v,(hdecode v).mpr hv⟩

/-- The last character is a space. -/
def endsInSpace (data : Bytes) : Prop := ∃ c ∈ data.getLast?, isSpace c = true

theorem numeral_last (hl : Numeral l) : ∃ front d, l = front ++ [d] ∧ isDigit d = true := by
  obtain ⟨digits,hne,hdigits,hl⟩ := hl
  refine ⟨l.dropLast,digits.getLast hne,?_,hdigits _ (List.getLast_mem hne)⟩
  rcases hl with rfl | rfl
  · exact (List.dropLast_append_getLast hne).symm
  · rw [List.dropLast_cons_of_ne_nil hne,List.cons_append,List.dropLast_append_getLast]

/-- Behind a numeral there are spaces in the end, or it is the end or has no space there. -/
theorem endsInSpace_behind {front : Bytes} (hl : Numeral l) (hmore : ∀ x ∈ more, isSpace x = true) :
    endsInSpace (front ++ (l ++ more)) ↔ more ≠ [] := by
  cases hcases : more using List.reverseRecOn with
  | nil =>
    obtain ⟨m,d,rfl,hd⟩ := numeral_last hl
    have hspace : ∀ c : UInt8, isDigit c = true → isSpace c = false := ScriptNum.forall_byte (by decide)
    rw [endsInSpace,List.append_nil,← List.append_assoc,List.getLast?_concat]
    refine ⟨fun ⟨c,hc,hcspace⟩ => ?_,fun h => absurd rfl h⟩
    obtain rfl := Option.some.inj hc
    rw [hspace _ hd] at hcspace
    exact nomatch hcspace
  | append_singleton m d =>
    rw [endsInSpace,← List.append_assoc,← List.append_assoc,List.getLast?_concat]
    refine ⟨fun _ => List.append_ne_nil_of_right_ne_nil _ (List.cons_ne_nil _ _),fun _ => ⟨d,rfl,?_⟩⟩
    exact hmore d (hcases ▸ List.mem_append_right _ List.mem_cons_self)

/-- At top level an integer out of range is read as another, unless a strict serializer finds more behind it. -/
theorem readsIntegers_numeral {front : Bytes} {t u : TextStream} (hc : numeric c)
    (hrun : ∀ number depth, (decodeValueWith number (depth + 1)).run (.ofBytes data) =
      (valueAtWith number (decodeValueWith number depth) (some c)).run t)
    (hu : AtNumeral fits t l more u) (hout : inRange (literalValue l) = false) (hdata : data = front ++ (l ++ more))
    (hopens : ¬ opensContainer data) : ReadsIntegers fits strict data ↔
      (IntegersOf (fun _ => true) fits strict data → IntegersOf inRange fits strict data) ∨
        (strict = true ∧ ¬ opensContainer data ∧ endsInSpace data) := by
  have hdecode : ∀ v, decode fits strict data = .ok v ↔ v = .int (nearest l) ∧ (strict = false ∨ more = []) := by
    intro v
    have haccepted : Accepted strict (behindNumeral l u) ↔ _ := accepted_behind hu
    rw [hout,if_neg Bool.false_ne_true] at haccepted
    rw [← decodeWith_number,decodeWith_number_ok hc hrun,hu.decodes,← haccepted]
    constructor
    · rintro ⟨u',hu',h⟩
      obtain ⟨rfl,rfl⟩ := Prod.mk.inj (Except.ok.inj hu')
      exact ⟨rfl,h⟩
    · rintro ⟨rfl,h⟩
      exact ⟨_,rfl,h⟩
  have hreads : ∀ reads v, decodeWith (numberReading fits reads) strict data = .ok v ↔
      (∃ n, reads l = some n ∧ v = .int n) ∧ (strict = false ∨ ∀ x ∈ more, isSpace x = true) := by
    intro reads v
    rw [decodeWith_number_ok hc hrun,← accepted_before hu.before]
    constructor
    · rintro ⟨u',hu',h⟩
      rw [hu.reads,takeNumeral_ok] at hu'
      obtain ⟨hn,rfl⟩ := hu'
      exact ⟨hn,h⟩
    · rintro ⟨hn,h⟩
      exact ⟨u,(hu.reads reads).trans (takeNumeral_ok.mpr ⟨hn,rfl⟩),h⟩
  have hnone : ¬ IntegersOf inRange fits strict data := by
    rintro ⟨v,hv⟩
    obtain ⟨⟨n,hn,-⟩,-⟩ := (hreads _ v).mp hv
    rw [numeralOf,hout] at hn
    exact nomatch hn
  by_cases hcut : strict = false ∨ more = []
  · have hspaces : strict = false ∨ ∀ x ∈ more, isSpace x = true := by
      rcases hcut with h | rfl
      · exact .inl h
      · exact .inr nofun
    have hexact : IntegersOf (fun _ => true) fits strict data := ⟨_,(hreads _ _).mpr ⟨⟨_,rfl,rfl⟩,hspaces⟩⟩
    constructor
    · intro h
      obtain ⟨⟨n,hn,hv⟩,-⟩ := (hreads _ _).mp (h.exact _ ((hdecode _).mpr ⟨rfl,hcut⟩))
      have hnearest : nearest l = literalValue l := (SVal.int.inj hv).trans (Option.some.inj hn).symm
      rw [nearest_eq,hout] at hnearest
      exact nomatch hnearest
    · rintro (h | ⟨hstrict,-,hspace⟩)
      · exact absurd (h hexact) hnone
      · rcases hcut with h | rfl
        · exact nomatch hstrict.symm.trans h
        · rw [hdata,endsInSpace_behind hu.numeral (List.forall_mem_nil _)] at hspace
          exact absurd rfl hspace
  · have hnever : ∀ v, decode fits strict data ≠ .ok v := fun v hv => hcut ((hdecode v).mp hv).2
    obtain ⟨hstrict,hmore⟩ := not_or.mp hcut
    refine ⟨fun _ => ?_,fun _ => ⟨fun v hv => absurd hv (hnever v),fun h => absurd h hopens⟩⟩
    by_cases hspaces : ∀ x ∈ more, isSpace x = true
    · exact .inr ⟨Bool.not_eq_false _ ▸ hstrict,hopens,by rw [hdata,endsInSpace_behind hu.numeral hspaces]; exact hmore⟩
    · left
      rintro ⟨v,hv⟩
      exact absurd ((hreads _ v).mp hv).2 (not_or.mpr ⟨hstrict,hspaces⟩)

/-- The integers of a text are read as they are, and alike at every place, exactly if they are all in range, or the
text is a number that a strict serializer does not read to its end. -/
theorem readsIntegers_iff (fits : FloatRange) (strict : Bool) (data : Bytes) : ReadsIntegers fits strict data ↔
    (IntegersOf (fun _ => true) fits strict data → IntegersOf inRange fits strict data) ∨
      (strict = true ∧ ¬ opensContainer data ∧ endsInSpace data) := by
  have hsame (h : ∀ reads v, decodeWith (numberReading fits reads) strict data = .ok v ↔
      decode fits strict data = .ok v) : ReadsIntegers fits strict data ↔
        (IntegersOf (fun _ => true) fits strict data → IntegersOf inRange fits strict data) ∨
          (strict = true ∧ ¬ opensContainer data ∧ endsInSpace data) :=
    iff_of_true (readsIntegers_of_same h).1 (.inl (readsIntegers_of_same h).2)
  cases hdata : data.dropWhile isSpace with
  | nil =>
    apply hsame
    intro reads v
    rw [← decodeWith_number,decodeWith_ok,decodeWith_ok]
    refine iff_of_false ?_ ?_
    · rintro ⟨u,hu,-⟩
      exact decodeValueWith_blank hdata _ _ rfl v u hu
    · rintro ⟨u,hu,-⟩
      exact decodeValueWith_blank hdata _ _ rfl v u hu
  | cons c rest =>
    obtain ⟨t,hbefore,hrun⟩ := decodeValueWith_run hdata
    by_cases hcontainer : c = openArray ∨ c = openObject
    · have hopens : opensContainer data := by
        rw [opensContainer,hdata]
        exact hcontainer.imp (congrArg some) (congrArg some)
      rw [readsIntegers_container hopens]
      exact (or_iff_left fun h => h.2.1 hopens).symm
    · have hopens : ¬ opensContainer data := by
        rw [opensContainer,hdata]
        exact fun h => hcontainer (h.imp Option.some.inj Option.some.inj)
      by_cases hc : numeric c
      · rcases number_cases fits hbefore with halike | ⟨l,more,u,hrest,hu⟩
        · apply hsame
          intro reads v
          rw [← decodeWith_number,decodeWith_number_ok hc hrun,decodeWith_number_ok hc hrun,halike]
        · cases hin : inRange (literalValue l) with
          | true =>
            have hdecodes := hu.decodes
            rw [behindNumeral,hin,if_pos rfl,(nearest_eq l).mpr hin] at hdecodes
            have hreads : ∀ reads, reads l = some (literalValue l) → ∀ v,
                decodeWith (numberReading fits reads) strict data = .ok v ↔ decode fits strict data = .ok v := by
              intro reads hl v
              rw [← decodeWith_number,decodeWith_number_ok hc hrun,decodeWith_number_ok hc hrun,hu.reads,hdecodes,
                takeNumeral,hl]
              rfl
            have hexact := hreads (numeralOf fun _ => true) rfl
            have hrange := hreads (numeralOf inRange) (by rw [numeralOf,hin,if_pos rfl])
            refine iff_of_true ⟨fun v hv => (hexact v).mpr hv,fun h => absurd h hopens⟩ (.inl ?_)
            rintro ⟨v,hv⟩
            exact ⟨v,(hrange v).mpr ((hexact v).mp hv)⟩
          | false =>
            have hsplit : data = data.takeWhile isSpace ++ (l ++ more) := by
              rw [← hrest,← hdata,List.takeWhile_append_dropWhile]
            exact readsIntegers_numeral hc hrun hu hin hsplit hopens
      · apply hsame
        intro reads v
        rw [← decodeWith_number,decodeWith_ok,decodeWith_ok,hrun,hrun]
        obtain ⟨hminus,hdigit⟩ := not_or.mp hc
        obtain ⟨harray,hobject⟩ := not_or.mp hcontainer
        have hfirst : ¬ (some c = some minus ∨ (some c).any isDigit = true) := by
          rintro (h | h)
          · exact hminus (Option.some.inj h)
          · exact hdigit h
        have hopenArray : some c ≠ some openArray := fun h => harray (Option.some.inj h)
        have hopenObject : some c ≠ some openObject := fun h => hobject (Option.some.inj h)
        simp only [valueAtWith,if_neg hfirst,if_neg hopenArray,if_neg hopenObject]

/-- Twenty nines become the greatest `int64_t`. -/
theorem nines_lost : ¬ ReadsIntegers (fun _ => true) true (List.replicate 20 0x39) := by
  have hnumeral : Numeral (List.replicate 20 0x39) := ⟨_,List.cons_ne_nil _ _,List.all_eq_true.mp rfl,.inl rfl⟩
  obtain ⟨hdecode,hexact⟩ := decode_numeral (fun _ => true) true hnumeral
  intro h
  have hvalue := SVal.int.inj (Except.ok.inj (hexact.symm.trans (h.exact _ hdecode)))
  exact absurd hvalue (by decide)

end Claims

end JsonSerializer
end Tkeycoin
