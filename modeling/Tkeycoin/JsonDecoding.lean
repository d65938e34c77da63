import Tkeycoin.JsonSerializer

/-! The JSON decoder ends on every text: each round of a loop takes a character, and
each level of nesting does. -/
namespace Tkeycoin
namespace JsonSerializer

open Scanner

variable {α β : Type} {bound : ℤ} {cost : α → ℤ}

/-- The decoder ends, whatever it takes. -/
abbrev Halts (bound : ℤ) (x : Decoder α) : Prop := Ends bound (fun _ => 0) x

theorem Halts.take {f : Option UInt8 → Decoder β} (h : ∀ c, Halts bound (f c)) :
    Halts bound (getChar >>= f) :=
  Ends.take (h none) fun c => (h (some c)).mono (by omega) fun _ => by omega

theorem getChar_halts : Halts bound getChar := Ends.getChar.mono le_rfl fun c => by cases c <;> simp

section Errors

theorem failHere_ends (msg : String) : Ends bound cost (failHere msg) := Ends.skip Ends.tellg fun _ => Ends.raise _

theorem failNear_ends (msg : String) (pos : Option ℕ) : Ends bound cost (failNear msg pos) :=
  fun _ _ _ => nofun

theorem failNearHere_ends (msg : String) : Ends bound cost (failNearHere msg) :=
  Ends.skip Ends.tellg fun _ => failNear_ends msg _

/-- Steps back before an error do not matter. -/
theorem backFail_ends (n : ℕ) {x : Decoder α} (h : ∀ {b : ℤ} {c : α → ℤ}, Ends b c x) :
    Ends bound cost (do seekBack n; x) :=
  Ends.bind (Ends.seekBack n) fun _ => h

theorem catchRuntimeError_ends (context : String) {x : Decoder α} (h : Ends bound cost x) :
    Ends bound cost (catchRuntimeError context x) := by
  refine Ends.rethrow h fun s => ?_
  change catchRuntimeError context x s = x s ∨ ∃ e, catchRuntimeError context x s = .error (.thrown e)
  unfold catchRuntimeError
  split
  · exact .inr ⟨_,rfl⟩
  · exact .inl rfl

theorem catchException_ends (context : String) {x : Decoder α} (h : Ends bound cost x) :
    Ends bound cost (catchException context x) := by
  refine Ends.rethrow h fun s => ?_
  change catchException context x s = x s ∨ ∃ e, catchException context x s = .error (.thrown e)
  unfold catchException
  split
  · exact .inr ⟨_,rfl⟩
  · exact .inl rfl

end Errors

section Characters

theorem skipSpaces_halts : Halts bound skipSpaces := Ends.skipWhile _

theorem getAll_halts (chars : Bytes) : Halts bound (getAll chars) := by
  induction chars with
  | nil => exact Ends.pure le_rfl
  | cons c rest ih => exact Halts.take fun _ => Ends.ite (fun _ => ih) fun _ => Ends.pure le_rfl

theorem hexDigits_halts (n : ℕ) (val : UInt32) : Halts bound (hexDigits n val) := by
  induction n generalizing val with
  | zero => exact Ends.pure le_rfl
  | succ n ih =>
    refine Ends.skip Ends.eof fun _ => Ends.ite (fun _ => failHere_ends _) fun _ => Halts.take fun c => ?_
    cases c.bind hexDigit with
    | none => exact backFail_ends 1 (failNearHere_ends _)
    | some digit => exact ih _

/-- A backslash and a character behind it at least. -/
theorem decodeEscaped_ends : Ends bound (fun _ => 2) decodeEscaped := by
  refine Ends.take (Ends.ite (fun _ => backFail_ends 1 (failNearHere_ends _)) fun h => absurd (by simp) h) fun c => ?_
  refine Ends.ite (fun _ => backFail_ends 1 (failNearHere_ends _)) fun _ => ?_
  refine Ends.skip Ends.eof fun _ => Ends.ite (fun _ => failHere_ends _) fun _ => ?_
  refine Ends.take (backFail_ends 1 (failNearHere_ends _)) fun c => ?_
  cases (some c).bind (List.lookup · escapes) with
  | some symbol =>
    exact Ends.pure (by omega)
  | none =>
    exact Ends.ite (fun _ => (hexDigits_halts 4 0).mono le_rfl fun _ => by omega)
      fun _ => backFail_ends 1 (failNearHere_ends _)

theorem decodeSymbol_ends (pos : Option ℕ) : Ends bound (fun _ => 2) (decodeSymbol pos) := by
  refine Ends.bind decodeEscaped_ends fun symbol => ?_
  refine Ends.ite (fun _ => Ends.ite (fun _ => Ends.raise _) fun _ => ?_) fun _ => Ends.pure (by omega)
  exact Ends.bind decodeEscaped_ends fun symbol2 => Ends.ite (fun _ => Ends.raise _) fun _ => Ends.pure (by omega)

theorem followBytes_halts (bytes : ℕ) (chr : UInt32) : Halts bound (followBytes bytes chr) := by
  induction bytes generalizing chr with
  | zero => exact Ends.pure le_rfl
  | succ bytes ih =>
    refine Ends.skip Ends.eof fun _ => Ends.ite (fun _ => failHere_ends _) fun _ => Halts.take fun c => ?_
    cases c with
    | none => exact backFail_ends 1 (failHere_ends _)
    | some c => exact Ends.ite (fun _ => ih _) fun _ => backFail_ends 1 (failHere_ends _)

/-- What a round of a loop takes: a character if the loop goes on. -/
def round : β ⊕ α → ℤ := Sum.elim (fun _ => 1) fun _ => 0

/-- Once a round has taken a character the rest of it has only to end. -/
theorem Halts.round {x : Decoder (β ⊕ α)} (h : Halts bound x) : Ends bound (fun r => round r - 1) x :=
  h.mono le_rfl fun r => by cases r <;> simp [JsonSerializer.round]

theorem decodeChar_ends (str : Bytes) : Ends bound round (decodeChar str) := by
  refine Ends.skip Ends.eof fun _ => Ends.ite (fun _ => failHere_ends _) fun _ => ?_
  refine Ends.take (backFail_ends 1 (failHere_ends _)) fun c => ?_
  refine Ends.ite (fun _ => Halts.round (Ends.pure le_rfl)) fun _ => Ends.ite (fun _ => ?_) fun _ => ?_
  · -- the backslash is given back, the escaped sequence takes it again with what follows
    refine Ends.bind (Ends.seekBack 1) fun _ => Ends.skip Ends.tellg fun pos => ?_
    exact Ends.bind (decodeSymbol_ends pos) fun _ => Ends.pure (by simp [round])
  refine Ends.ite (fun _ => backFail_ends 1 (failHere_ends _)) fun _ =>
    Ends.ite (fun _ => backFail_ends 1 (failHere_ends _)) fun _ =>
    Ends.ite (fun _ => Halts.round (Ends.pure le_rfl)) fun _ => ?_
  cases leadByte c with
  | none => exact backFail_ends 1 (failHere_ends _)
  | some lead => exact Halts.round (Ends.skip (followBytes_halts lead.1 lead.2) fun _ => Ends.pure le_rfl)

theorem decodeString_halts : Halts bound decodeString :=
  Halts.take fun _ => Ends.ite (fun _ => backFail_ends 1 (failNearHere_ends _)) fun _ =>
    Ends.loop decodeChar_ends []

theorem decodeBinaryChar_ends (b64 : Bytes) : Ends bound round (decodeBinaryChar b64) := by
  refine Ends.skip Ends.eof fun _ => Ends.ite (fun _ => failHere_ends _) fun _ => ?_
  refine Ends.take (failHere_ends _) fun c => ?_
  refine Ends.ite (fun _ => backFail_ends 1 (failNearHere_ends _)) fun _ =>
    Ends.ite (fun _ => Halts.round ?_) fun _ => Halts.round (Ends.pure le_rfl)
  exact Halts.take fun _ => Ends.ite (fun _ => backFail_ends 2 (failNearHere_ends _)) fun _ =>
    Halts.take fun _ => Ends.ite (fun _ => backFail_ends 3 (failNearHere_ends _)) fun _ => Ends.pure le_rfl

theorem decodeBinary_halts : Halts bound decodeBinary :=
  Ends.skip Ends.tellg fun _ => Ends.skip (getAll_halts _) fun _ =>
    Ends.ite (fun _ => Ends.loop decodeBinaryChar_ends []) fun _ => failNear_ends _ _

end Characters

section Numbers

theorem expectDigits_halts : Halts bound expectDigits :=
  Ends.skip Ends.peekChar fun _ => Ends.ite (fun _ => Ends.skipWhile _) fun _ => failNearHere_ends _

theorem endsNumber_halts (c : Option UInt8) : Halts bound (endsNumber c) :=
  Ends.skip Ends.eof fun _ => Ends.pure le_rfl

theorem skipSign_halts (sign : UInt8 → Bool) : Halts bound (skipSign sign) :=
  Ends.skip Ends.peekChar fun _ => Ends.ite (fun _ => Ends.ignore) fun _ => Ends.pure le_rfl

theorem scanFraction_halts : Halts bound scanFraction :=
  Ends.skip Ends.peekChar fun _ => Ends.ite (fun _ => Ends.skip Ends.ignore fun _ => expectDigits_halts)
    fun _ => Ends.pure le_rfl

theorem scanExponent_halts : Halts bound scanExponent :=
  Ends.skip Ends.peekChar fun _ => Ends.ite (fun _ => Ends.skip Ends.ignore fun _ =>
    Ends.skip (skipSign_halts _) fun _ => expectDigits_halts) fun _ => Ends.pure le_rfl

theorem scanNumber_halts : Halts bound scanNumber :=
  Ends.skip (skipSign_halts _) fun _ => Ends.skip expectDigits_halts fun _ => Ends.skip Ends.peekChar fun _ =>
    Ends.skip scanFraction_halts fun _ => Ends.skip scanExponent_halts fun _ => Ends.skip Ends.peekChar fun c =>
    Ends.skip (endsNumber_halts c) fun _ => Ends.ite (fun _ => Ends.pure le_rfl) fun _ => failNearHere_ends _

theorem readLiteral_halts (accepts : UInt8 → Bool) : Halts bound (readLiteral accepts) := by
  intro s hs hl
  cases hg : s.good with
  | false =>
    have hrun : (readLiteral accepts).run s = .ok ([],s) := by
      simp [readLiteral,hg]
      rfl
    rw [hrun]
    exact ⟨rfl,hs,by simp⟩
  | true =>
    have hlen : ((s.data.drop s.pos).takeWhile accepts).length ≤ s.data.length - s.pos := by
      simpa using (List.takeWhile_sublist accepts (l := s.data.drop s.pos)).length_le
    have hrun : ∃ l e, (readLiteral accepts).run s =
        .ok (l,⟨s.data,s.pos + ((s.data.drop s.pos).takeWhile accepts).length,e,s.failbit⟩) :=
      ⟨_,_,by simp [readLiteral,hg]; rfl⟩
    obtain ⟨l,e,hr⟩ := hrun
    rw [hr]
    refine ⟨rfl,by change s.pos + _ ≤ s.data.length; omega,?_⟩
    simp only [TextStream.left]
    omega

theorem setFail_halts : Halts bound (modify fun s => { s with failbit := true } : Decoder Unit) :=
  Ends.of_bits fun s => ⟨(),s.eofbit,true,rfl⟩

theorem readInt_halts : Halts bound readInt :=
  Ends.skip (readLiteral_halts _) fun _ => Ends.ite (fun _ => Ends.skip setFail_halts fun _ => Ends.pure le_rfl)
    fun _ => Ends.ite (fun _ => Ends.skip setFail_halts fun _ => Ends.pure le_rfl) fun _ => Ends.pure le_rfl

theorem readFloat_halts (fits : FloatRange) : Halts bound (readFloat fits) :=
  Ends.skip (readLiteral_halts _) fun _ => Ends.ite (fun _ => Ends.pure le_rfl)
    fun _ => Ends.skip setFail_halts fun _ => Ends.pure le_rfl

theorem decodeNumber_halts (fits : FloatRange) : Halts bound (decodeNumber fits) :=
  Ends.skip (Ends.lookAhead scanNumber_halts) fun _ =>
    Ends.ite (fun _ => Ends.skip (readFloat_halts fits) fun _ => Ends.pure le_rfl)
      fun _ => Ends.skip readInt_halts fun _ => Ends.pure le_rfl

end Numbers

section Values

theorem restOfBool_halts (c : Option UInt8) : Halts bound (restOfBool c) :=
  Ends.ite (fun _ => getAll_halts _) fun _ => Ends.ite (fun _ => getAll_halts _) fun _ => Ends.pure le_rfl

theorem decodeBool_halts : Halts bound decodeBool :=
  Halts.take fun c => Ends.skip (restOfBool_halts c) fun _ => Ends.ite (fun _ => Ends.pure le_rfl) fun _ =>
    Ends.skip Ends.eof fun _ => Ends.ite (fun _ => failHere_ends _) fun _ => backFail_ends 1 (failNearHere_ends _)

theorem decodeNull_halts : Halts bound decodeNull :=
  Ends.skip (getAll_halts _) fun _ => Ends.ite (fun _ => Ends.pure le_rfl) fun _ => Ends.skip Ends.eof fun _ =>
    Ends.ite (fun _ => failHere_ends _) fun _ => backFail_ends 1 (failNearHere_ends _)

/-- A loop goes on behind a comma. -/
theorem separator_ends (close : UInt8) (wrong : String) (goOn : β) (value : α) :
    Ends bound round (separator close wrong goOn value) := by
  refine Ends.skip skipSpaces_halts fun _ => Ends.take ?_ fun c => ?_
  · exact Ends.ite (fun h => absurd h (by simp)) fun _ => Ends.ite (fun h => absurd h (by simp))
      fun _ => backFail_ends 1 (failNearHere_ends _)
  · exact Ends.ite (fun _ => Halts.round (Ends.skip skipSpaces_halts fun _ => Ends.pure le_rfl)) fun _ =>
      Ends.ite (fun _ => Halts.round (Ends.pure le_rfl)) fun _ => backFail_ends 1 (failNearHere_ends _)

variable {value : Decoder SVal}

theorem decodeField_ends (h : Halts bound value) (obj : List (Bytes × SVal)) :
    Ends bound round (decodeField value obj) := by
  refine Ends.skip Ends.eof fun _ => Ends.ite (fun _ => failHere_ends _) fun _ => ?_
  refine Ends.skip (catchRuntimeError_ends _ decodeString_halts) fun key => Ends.skip skipSpaces_halts fun _ => ?_
  refine Ends.skip getChar_halts fun c => ?_
  exact Ends.ite (fun _ => backFail_ends 1 (failNearHere_ends _)) fun _ => Ends.skip skipSpaces_halts fun _ =>
    Ends.skip (catchRuntimeError_ends _ h) fun field => separator_ends _ _ _ _

theorem decodeElement_ends (h : Halts bound value) (arr : List SVal) :
    Ends bound round (decodeElement value arr) :=
  Ends.skip Ends.eof fun _ => Ends.ite (fun _ => failHere_ends _) fun _ =>
    Ends.skip (catchRuntimeError_ends _ h) fun _ => separator_ends _ _ _ _

/-- The values of an object nest one character deeper. -/
theorem decodeObject_halts (h : Halts (bound-1) value) : Halts bound (decodeObject value) := by
  refine Ends.take (Ends.ite (fun _ => backFail_ends 1 (failNearHere_ends _)) fun hc => absurd (by simp) hc) fun c => ?_
  refine Ends.ite (fun _ => backFail_ends 1 (failNearHere_ends _)) fun _ => ?_
  have hrest : Halts (bound-1) (do
      skipSpaces
      let c ← peekChar
      if c = some closeObject then
        ignore
        pure (.obj [])
      else loop (decodeField value) []) :=
    Ends.skip skipSpaces_halts fun _ => Ends.skip Ends.peekChar fun _ =>
      Ends.ite (fun _ => Ends.skip Ends.ignore fun _ => Ends.pure le_rfl)
        fun _ => Ends.loop (decodeField_ends h) []
  exact hrest.mono le_rfl fun _ => by omega

theorem decodeArray_halts (h : Halts (bound-1) value) : Halts bound (decodeArray value) := by
  refine Ends.take (Ends.ite (fun _ => backFail_ends 1 (failNearHere_ends _)) fun hc => absurd (by simp) hc) fun c => ?_
  refine Ends.ite (fun _ => backFail_ends 1 (failNearHere_ends _)) fun _ => ?_
  have hrest : Halts (bound-1) (do
      skipSpaces
      let c ← peekChar
      if c = some closeArray then
        ignore
        pure (.arr [])
      else loop (decodeElement value) []) :=
    Ends.skip skipSpaces_halts fun _ => Ends.skip Ends.peekChar fun _ =>
      Ends.ite (fun _ => Ends.skip Ends.ignore fun _ => Ends.pure le_rfl)
        fun _ => Ends.loop (decodeElement_ends h) []
  exact hrest.mono le_rfl fun _ => by omega

theorem decodeValue_halts (fits : FloatRange) (depth : ℕ) (h : bound < depth) :
    Halts bound (decodeValue fits depth) := by
  induction depth generalizing bound with
  | zero =>
    intro s hs hl
    simp only [Nat.cast_zero] at h
    omega
  | succ depth ih =>
    have hdeeper : Halts (bound-1) (decodeValue fits depth) := ih (by push_cast at h; omega)
    refine Ends.skip skipSpaces_halts fun _ => Ends.skip Ends.eof fun _ => Ends.ite (fun _ => failHere_ends _) fun _ =>
      Ends.skip Ends.peekChar fun c => Ends.ite (fun _ => decodeNumber_halts fits) fun _ =>
      Ends.ite (fun _ => Ends.skip (Ends.lookAhead (getAll_halts _)) fun _ => ?_) fun _ =>
      Ends.ite (fun _ => decodeBool_halts) fun _ => Ends.ite (fun _ => decodeObject_halts hdeeper) fun _ =>
      Ends.ite (fun _ => decodeArray_halts hdeeper) fun _ => Ends.ite (fun _ => decodeNull_halts)
        fun _ => failNearHere_ends _
    exact Ends.ite (fun _ => Ends.skip decodeBinary_halts fun _ => Ends.pure le_rfl)
      fun _ => Ends.skip decodeString_halts fun _ => Ends.pure le_rfl

theorem decodeStream_halts (fits : FloatRange) (strict : Bool) (depth : ℕ) (h : bound < depth) :
    Halts bound (decodeStream fits strict depth) :=
  Ends.skip Ends.eof fun _ => Ends.ite (fun _ => Ends.raise _) fun _ =>
    Ends.skip (catchException_ends _ (decodeValue_halts fits depth h)) fun _ => Ends.skip skipSpaces_halts fun _ =>
    Ends.skip Ends.eof fun _ => Ends.ite (fun _ => failNearHere_ends _) fun _ => Ends.pure le_rfl

/-- On every text the decoder returns a value or throws an exception. -/
theorem decode_total (fits : FloatRange) (strict : Bool) (data : Bytes) :
    (∃ value, decode fits strict data = .ok value) ∨ ∃ e, decode fits strict data = .error (.thrown e) := by
  have hends : Halts (data.length : ℤ) (decodeStream fits strict (data.length + 1)) :=
    decodeStream_halts fits strict _ (by push_cast; omega)
  have h := hends (.ofBytes data) (Nat.zero_le _) (by simp [TextStream.left,TextStream.ofBytes])
  unfold decode
  cases hr : (decodeStream fits strict (data.length + 1)).run (.ofBytes data) with
  | ok r => exact .inl ⟨r.1,rfl⟩
  | error e =>
    simp only [hr] at h
    cases e with
    | thrown e => exact .inr ⟨e,rfl⟩
    | endless => exact absurd rfl h

end Values

end JsonSerializer
end Tkeycoin
