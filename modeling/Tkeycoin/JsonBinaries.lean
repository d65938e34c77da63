import Tkeycoin.JsonStrings

/-! What `JsonSerializer` reads of a binary string that it wrote, and of a string that looks like one. -/
namespace Tkeycoin
namespace Base64

section Bits

theorem find_symbol : ∀ n : UInt8, n < 64 → find (symbol n) = n ∧ isBase64 (symbol n) = true :=
  ScriptNum.forall_byte (by decide)

/-- The bits of a byte, divided between symbols. -/
theorem join_bits : ∀ b : UInt8,
    (((b &&& 0xfc) >>> 2) <<< 2) + (b &&& 0x03) = b ∧ (((b &&& 0xf0) >>> 4) <<< 4) + (b &&& 0x0f) = b ∧
    (((b &&& 0xc0) >>> 6) <<< 6) + (b &&& 0x3f) = b :=
  ScriptNum.forall_byte (by decide)

theorem part_bits : ∀ b : UInt8, (b &&& 0xfc) >>> 2 < 64 ∧ b &&& 0x03 < 4 ∧ (b &&& 0xf0) >>> 4 < 16 ∧
    b &&& 0x0f < 16 ∧ (b &&& 0xc0) >>> 6 < 4 ∧ b &&& 0x3f < 64 :=
  ScriptNum.forall_byte (by decide)

/-- A symbol that has the last bits of one byte and the first ones of the next. -/
theorem split_two {p y : UInt8} (hp : p < 4) (hy : y < 16) :
    (p <<< 4) + y < 64 ∧ (((p <<< 4) + y) &&& 0x30) >>> 4 = p ∧ ((p <<< 4) + y) &&& 0x0f = y := by
  have hall : ∀ (i : Fin 4) (j : Fin 16), (UInt8.ofNat i <<< 4) + UInt8.ofNat j < 64 ∧
      (((UInt8.ofNat i <<< 4) + UInt8.ofNat j) &&& 0x30) >>> 4 = UInt8.ofNat i ∧
      ((UInt8.ofNat i <<< 4) + UInt8.ofNat j) &&& 0x0f = UInt8.ofNat j := by decide
  have h := hall ⟨p.toNat,hp⟩ ⟨y.toNat,hy⟩
  simpa using h

theorem split_four {q r : UInt8} (hq : q < 16) (hr : r < 4) :
    (q <<< 2) + r < 64 ∧ (((q <<< 2) + r) &&& 0x3c) >>> 2 = q ∧ ((q <<< 2) + r) &&& 0x03 = r := by
  have hall : ∀ (i : Fin 16) (j : Fin 4), (UInt8.ofNat i <<< 2) + UInt8.ofNat j < 64 ∧
      (((UInt8.ofNat i <<< 2) + UInt8.ofNat j) &&& 0x3c) >>> 2 = UInt8.ofNat i ∧
      ((UInt8.ofNat i <<< 2) + UInt8.ofNat j) &&& 0x03 = UInt8.ofNat j := by decide
  have h := hall ⟨q.toNat,hq⟩ ⟨r.toNat,hr⟩
  simpa using h

end Bits

/-- Four symbols give back the three bytes that they were made of. -/
theorem quartet_symbols (b₀ b₁ b₂ : UInt8) : ∃ c₀ c₁ c₂ c₃, symbols b₀ b₁ b₂ = [c₀,c₁,c₂,c₃] ∧
    quartet c₀ c₁ c₂ c₃ = [b₀,b₁,b₂] ∧ ∀ c ∈ [c₀,c₁,c₂,c₃], isBase64 c = true := by
  obtain ⟨h₀,hp,-,-,-,-⟩ := part_bits b₀
  obtain ⟨-,-,hy,hq,-,-⟩ := part_bits b₁
  obtain ⟨-,-,-,-,hr,h₃⟩ := part_bits b₂
  obtain ⟨h₁,htwo₁,htwo₂⟩ := split_two hp hy
  obtain ⟨h₂,hfour₁,hfour₂⟩ := split_four hq hr
  refine ⟨_,_,_,_,rfl,?_,?_⟩
  · rw [quartet,(find_symbol _ h₀).1,(find_symbol _ h₁).1,(find_symbol _ h₂).1,(find_symbol _ h₃).1,htwo₁,htwo₂,
      hfour₁,hfour₂,(join_bits b₀).1,(join_bits b₁).2.1,(join_bits b₂).2.2]
  · simp only [List.forall_mem_cons]
    exact ⟨(find_symbol _ h₀).2,(find_symbol _ h₁).2,(find_symbol _ h₂).2,(find_symbol _ h₃).2,List.forall_mem_nil _⟩

/-- The symbols of some bytes, and the padding behind them. -/
theorem encode_spec (b : Bytes) : ∃ body pad, encode b = body ++ pad ∧ (∀ c ∈ body, isBase64 c = true) ∧
    (∀ c ∈ pad, c = 0x3d) ∧ decodeQuartets body = b ∧ body.length = (4 * b.length + 2) / 3 ∧
    body.length + pad.length = 4 * ((b.length + 2) / 3) := by
  induction b using encode.induct with
  | case1 b₀ b₁ b₂ rest ih =>
    obtain ⟨body,pad,hencode,hbody,hpad,hdecode,hlength,hpadded⟩ := ih
    obtain ⟨c₀,c₁,c₂,c₃,hsymbols,hquartet,hchars⟩ := quartet_symbols b₀ b₁ b₂
    refine ⟨[c₀,c₁,c₂,c₃] ++ body,pad,?_,?_,hpad,?_,?_,?_⟩
    · rw [encode,hsymbols,hencode,List.append_assoc]
    · exact List.forall_mem_append.mpr ⟨hchars,hbody⟩
    · change quartet c₀ c₁ c₂ c₃ ++ decodeQuartets body = _
      rw [hquartet,hdecode]
      rfl
    · simp only [List.length_append,List.length_cons,List.length_nil]
      omega
    · simp only [List.length_append,List.length_cons,List.length_nil]
      omega
  | case2 b₀ b₁ =>
    obtain ⟨c₀,c₁,c₂,c₃,hsymbols,hquartet,hchars⟩ := quartet_symbols b₀ b₁ 0
    refine ⟨[c₀,c₁,c₂],[0x3d],?_,fun c hc => hchars c ?_,by simp,?_,by simp,by simp⟩
    · rw [encode,hsymbols]
      rfl
    · simp only [List.mem_cons,List.not_mem_nil] at hc ⊢
      tauto
    · have htake : decodeQuartets [c₀,c₁,c₂] = (quartet c₀ c₁ c₂ c₃).take 2 := rfl
      rw [htake,hquartet]
      rfl
  | case3 b₀ =>
    obtain ⟨c₀,c₁,c₂,c₃,hsymbols,hquartet,hchars⟩ := quartet_symbols b₀ 0 0
    refine ⟨[c₀,c₁],[0x3d,0x3d],?_,fun c hc => hchars c ?_,by simp,?_,by simp,by simp⟩
    · rw [encode,hsymbols]
      rfl
    · simp only [List.mem_cons,List.not_mem_nil] at hc ⊢
      tauto
    · have htake : decodeQuartets [c₀,c₁] = (quartet c₀ c₁ c₂ c₃).take 1 := rfl
      rw [htake,hquartet]
      rfl
  | case4 => exact ⟨[],[],rfl,List.forall_mem_nil _,List.forall_mem_nil _,rfl,rfl,rfl⟩

theorem decode_of_encode (b : Bytes) : decode (encode b) = b := by
  obtain ⟨body,pad,hencode,hbody,hpad,hdecode,-,-⟩ := encode_spec b
  have hne : ∀ c : UInt8, isBase64 c = true → c ≠ 0x3d := ScriptNum.forall_byte (by decide)
  have hpad' : pad.takeWhile (· ≠ 0x3d) = [] := by
    cases pad with
    | nil => rfl
    | cons c pad => simp [hpad c List.mem_cons_self]
  have htake : (body ++ pad).takeWhile (· ≠ 0x3d) = body := by
    rw [List.takeWhile_append_of_pos (fun c hc => by simpa using hne c (hbody c hc)),hpad',List.append_nil]
  rw [decode,hencode,htake,List.filter_eq_self.mpr hbody,hdecode]

end Base64

namespace JsonSerializer

open Scanner TextStream

variable {data rest : Bytes}

section Marks

theorem getAll_true (chars : Bytes) : Gives (Before data (chars ++ rest)) (getAll chars) true (Before data rest) := by
  induction chars with
  | nil => exact Gives.pure
  | cons c chars ih =>
    apply Gives.bind getChar_gives
    rw [if_pos rfl]
    exact ih

/-- They are the first that are left. -/
theorem getAll_mayGive (chars : Bytes) :
    MayGive (Before data rest) (getAll chars) fun b _ => b = true → chars <+: rest := by
  induction chars generalizing rest with
  | nil => exact MayGive.pure fun _ _ _ => List.nil_prefix
  | cons c chars ih =>
    cases rest with
    | nil =>
      refine MayGive.after getChar_end ?_
      exact MayGive.pure fun _ _ => nofun
    | cons x rest =>
      refine MayGive.after getChar_gives ?_
      by_cases h : x = c
      · subst h
        rw [if_pos rfl]
        exact ih.mono fun b t ht hb => (List.prefix_cons_inj x).mpr (ht hb)
      · have hsome : ¬ some x = some c := fun hx => h (Option.some.inj hx)
        rw [if_neg hsome]
        exact MayGive.pure fun _ _ => nofun

/-- The first character that is another. -/
theorem getAll_false {front back : Bytes} {x y : UInt8} (hne : x ≠ y) :
    Gives (Before data (front ++ x :: rest)) (getAll (front ++ y :: back)) false (Before data rest) := by
  induction front with
  | nil =>
    have hsome : ¬ some x = some y := fun h => hne (Option.some.inj h)
    apply Gives.bind getChar_gives
    rw [if_neg hsome]
    exact Gives.pure
  | cons c front ih =>
    apply Gives.bind getChar_gives
    rw [if_pos rfl]
    exact ih

/-- Two texts of which one is not the first part of the other differ in a first character. -/
theorem first_difference {l m : Bytes} (hl : ¬ l <+: m) (hm : ¬ m <+: l) :
    ∃ front x y back rest, m = front ++ x :: rest ∧ l = front ++ y :: back ∧ x ≠ y := by
  induction l generalizing m with
  | nil => exact absurd List.nil_prefix hl
  | cons b l ih =>
    cases m with
    | nil => exact absurd List.nil_prefix hm
    | cons a m =>
      by_cases hab : a = b
      · subst hab
        rw [List.prefix_cons_inj] at hl hm
        obtain ⟨front,x,y,back,rest,rfl,rfl,hne⟩ := ih hl hm
        exact ⟨a :: front,x,y,back,rest,rfl,rfl,hne⟩
      · exact ⟨[],a,b,l,m,rfl,rfl,hab⟩

/-- What stands behind the quote of a binary string. -/
def openMark : Bytes := [equal,question,0x42,question]

/-- Its characters are written as they are. -/
theorem openMark_chars (escaped : Bool) :
    ∀ x ∈ openMark, x < 0x80 ∧ x ≠ backslash ∧ Encoder.switchChar escaped x = none := by
  have hall : ∀ x : UInt8, x = equal ∨ x = question ∨ x = 0x42 → x < 0x80 ∧ x ≠ backslash ∧
      Encoder.switchChar escaped x = none := by
    cases escaped <;> exact ScriptNum.forall_byte (by decide)
  intro x hx
  simp only [openMark,List.mem_cons,List.not_mem_nil,or_false] at hx
  exact hall x (by tauto)

/-- The stream is looked at for a binary string, and stands where it stood. -/
theorem lookAhead_mark (body : Bytes) :
    Gives (Before data (quote :: (openMark ++ body))) (lookAhead (getAll openBinary)) true
      (Before data (quote :: (openMark ++ body))) :=
  lookAhead_gives ((getAll_true openBinary).mono fun _ ht => ht.served)

/-- A string that does not start with the mark is none. -/
theorem lookAhead_string {body : Bytes} (hmark : ¬ openMark <+: body) :
    Gives (Before data (quote :: (body ++ quote :: rest))) (lookAhead (getAll openBinary)) false
      (Before data (quote :: (body ++ quote :: rest))) := by
  have hquote : quote ∉ openMark := by decide
  have hl : ¬ openMark <+: body ++ [quote] := by
    intro h
    rcases List.prefix_concat_iff.mp h with heq | hbody
    · exact hquote (heq ▸ List.mem_append_right body (List.mem_singleton_self quote))
    · exact hmark hbody
  have hm : ¬ body ++ [quote] <+: openMark :=
    fun h => hquote (h.subset (List.mem_append_right body (List.mem_singleton_self quote)))
  obtain ⟨front,x,y,back,behind,hbody,hopen,hne⟩ := first_difference hl hm
  have hinput : quote :: (body ++ quote :: rest) = (quote :: front) ++ x :: (behind ++ rest) := by
    rw [← List.singleton_append (l := rest),← List.append_assoc,hbody]
    simp
  have hopen' : openBinary = (quote :: front) ++ y :: back := by
    change quote :: openMark = _
    rw [hopen]
    rfl
  have hfalse : Gives (Before data ((quote :: front) ++ x :: (behind ++ rest))) (getAll ((quote :: front) ++ y :: back))
      false (fun t => t.data = data) := (getAll_false hne).mono fun _ ht => ht.served
  rw [hinput,hopen']
  exact lookAhead_gives hfalse

end Marks

section Binaries

variable {b64 : Bytes} {c : UInt8}

theorem decodeBinaryChar_plain (hquote : c ≠ quote) (hquestion : c ≠ question) :
    Gives (Before data (c :: rest)) (decodeBinaryChar b64) (.inl (b64 ++ [c])) (Before data rest) := by
  apply Gives.bind eof_gives
  apply Gives.bind getChar_gives
  dsimp only
  rw [if_neg hquote,if_neg hquestion]
  exact Gives.pure

theorem decodeBinaryChar_close :
    Gives (Before data (question :: equal :: quote :: rest)) (decodeBinaryChar b64) (.inr (Base64.decode b64))
      (Before data rest) := by
  apply Gives.bind eof_gives
  apply Gives.bind getChar_gives
  dsimp only
  rw [if_neg (by decide),if_pos rfl]
  apply Gives.bind getChar_gives
  rw [if_neg (not_not.mpr rfl)]
  apply Gives.bind getChar_gives
  rw [if_neg (not_not.mpr rfl)]
  exact Gives.pure

theorem decodeBinaryChar_quote {Q : Bytes ⊕ Bytes → TextStream → Prop} :
    MayGive (Before data (quote :: rest)) (decodeBinaryChar b64) Q := by
  refine MayGive.after eof_gives ?_
  refine MayGive.after getChar_gives ?_
  dsimp only
  rw [if_pos rfl]
  exact backFailNearHere_mayGive 1 _

/-- What is refused behind a question mark. -/
theorem decodeBinaryChar_question (hc : c ≠ equal) {Q : Bytes ⊕ Bytes → TextStream → Prop} :
    MayGive (Before data (question :: c :: rest)) (decodeBinaryChar b64) Q := by
  have hsome : some c ≠ some equal := fun h => hc (Option.some.inj h)
  refine MayGive.after eof_gives ?_
  refine MayGive.after getChar_gives ?_
  dsimp only
  rw [if_neg (by decide),if_pos rfl]
  refine MayGive.after getChar_gives ?_
  rw [if_pos hsome]
  exact backFailNearHere_mayGive 2 _

theorem decodeBinaryChar_equal (hc : c ≠ quote) {Q : Bytes ⊕ Bytes → TextStream → Prop} :
    MayGive (Before data (question :: equal :: c :: rest)) (decodeBinaryChar b64) Q := by
  have hsome : some c ≠ some quote := fun h => hc (Option.some.inj h)
  refine MayGive.after eof_gives ?_
  refine MayGive.after getChar_gives ?_
  dsimp only
  rw [if_neg (by decide),if_pos rfl]
  refine MayGive.after getChar_gives ?_
  rw [if_neg (not_not.mpr rfl)]
  refine MayGive.after getChar_gives ?_
  rw [if_pos hsome]
  exact backFailNearHere_mayGive 3 _

theorem binaryChars_gives {l : Bytes} (hl : ∀ c ∈ l, c ≠ quote ∧ c ≠ question) {n : ℕ} (hn : l.length < n) :
    Gives (Before data (l ++ question :: equal :: quote :: rest)) (iterate decodeBinaryChar n b64)
      (Base64.decode (b64 ++ l)) (Before data rest) := by
  induction l generalizing n b64 with
  | nil =>
    obtain ⟨n,rfl⟩ := Nat.exists_eq_add_of_lt hn
    rw [List.append_nil]
    exact iterate_ends decodeBinaryChar_close
  | cons c l ih =>
    obtain ⟨hquote,hquestion⟩ := hl c List.mem_cons_self
    rw [List.length_cons] at hn
    obtain ⟨n,rfl⟩ : ∃ m, n = m + 1 := ⟨n - 1,by omega⟩
    rw [List.append_cons b64 c l]
    apply iterate_goes (decodeBinaryChar_plain hquote hquestion)
    exact ih (fun d hd => hl d (List.mem_cons_of_mem _ hd)) (by omega)

/-- A binary string is read as it was written. -/
theorem decodeBinary_gives (b : Bytes) :
    Gives (Before data (quote :: (openMark ++ Base64.encode b ++ question :: equal :: quote :: rest))) decodeBinary b
      (Before data rest) := by
  have hplain : ∀ c : UInt8, Base64.isBase64 c = true → c ≠ quote ∧ c ≠ question :=
    ScriptNum.forall_byte (by decide)
  have hchars : ∀ c ∈ Base64.encode b, c ≠ quote ∧ c ≠ question := by
    obtain ⟨body,pad,hencode,hbody,hpad,-⟩ := Base64.encode_spec b
    rw [hencode]
    refine List.forall_mem_append.mpr ⟨fun c hc => hplain c (hbody c hc),fun c hc => ?_⟩
    rw [hpad c hc]
    decide
  have hopen : Gives (Before data (quote :: (openMark ++ (Base64.encode b ++ question :: equal :: quote :: rest))))
      (getAll openBinary) true (Before data (Base64.encode b ++ question :: equal :: quote :: rest)) :=
    getAll_true openBinary
  rw [List.append_assoc]
  apply Gives.bind tellg_gives
  apply Gives.bind hopen
  rw [if_pos rfl]
  apply loop_gives
  intro n hn
  rw [List.length_append] at hn
  have hgives : Gives (Before data (Base64.encode b ++ question :: equal :: quote :: rest)) (iterate decodeBinaryChar n [])
      (Base64.decode ([] ++ Base64.encode b)) (Before data rest) := binaryChars_gives hchars (by omega)
  rwa [List.nil_append,Base64.decode_of_encode] at hgives

/-- The text of a string: a quote in it stands behind a backslash. -/
inductive Body : Bytes → Prop
  | nil : Body []
  | plain {c : UInt8} {l : Bytes} (hc : c ≠ quote) (hl : Body l) : Body (c :: l)
  | escaped {l : Bytes} (hl : Body l) : Body (backslash :: quote :: l)

theorem binaryChars_refused {input : Bytes} (n : ℕ) {Q : Bytes → TextStream → Prop}
    (hround : ∀ R : Bytes ⊕ Bytes → TextStream → Prop, MayGive (Before data input) (decodeBinaryChar b64) R) :
    MayGive (Before data input) (iterate decodeBinaryChar n b64) Q := by
  cases n with
  | zero => exact iterate_zero
  | succ n => exact iterate_mayGive (hround fun _ _ => False) (fun _ _ h => h.elim) fun _ _ h => h.elim

theorem binaryChars_goes {input : Bytes} (hquote : c ≠ quote) (hquestion : c ≠ question)
    {Q : Bytes → TextStream → Prop}
    (h : ∀ m, MayGive (Before data input) (iterate decodeBinaryChar m (b64 ++ [c])) Q) (n : ℕ) :
    MayGive (Before data (c :: input)) (iterate decodeBinaryChar n b64) Q := by
  cases n with
  | zero => exact iterate_zero
  | succ n => exact iterate_mayGo (decodeBinaryChar_plain hquote hquestion) (h n)

/-- A string that is taken for a binary one ends where the string does, if it is read at all. -/
theorem binaryChars_mayGive {l : Bytes} (hl : Body l) (n : ℕ) :
    MayGive (Before data (l ++ quote :: rest)) (iterate decodeBinaryChar n b64) fun _ t => Before data rest t := by
  induction hl generalizing n b64 with
  | nil => exact binaryChars_refused n fun R => decodeBinaryChar_quote
  | escaped hl ih =>
    exact binaryChars_goes (by decide) (by decide) (fun m => binaryChars_refused m fun R => decodeBinaryChar_quote) n
  | @plain c l hc hl ih =>
    by_cases hquestion : c = question
    · subst hquestion
      -- only the quote at the end can close it
      cases hl with
      | nil => exact binaryChars_refused n fun R => decodeBinaryChar_question (by decide)
      | escaped hl => exact binaryChars_refused n fun R => decodeBinaryChar_question (by decide)
      | @plain d l hd hl =>
        by_cases hequal : d = equal
        · subst hequal
          cases hl with
          | nil =>
            cases n with
            | zero => exact iterate_zero
            | succ n => exact (iterate_ends decodeBinaryChar_close).mayGive fun t ht => ht
          | escaped hl => exact binaryChars_refused n fun R => decodeBinaryChar_equal (by decide)
          | plain he hl => exact binaryChars_refused n fun R => decodeBinaryChar_equal he
        · exact binaryChars_refused n fun R => decodeBinaryChar_question hequal
    · exact binaryChars_goes hc hquestion (fun m => ih m) n

theorem Body.of_plain {l m : Bytes} (hl : ∀ c ∈ l, c ≠ quote) (hm : Body m) : Body (l ++ m) := by
  induction l with
  | nil => exact hm
  | cons c l ih => exact .plain (hl c List.mem_cons_self) (ih fun d hd => hl d (List.mem_cons_of_mem _ hd))

/-- What is left of it behind characters that are no backslashes. -/
theorem Body.drop {l m : Bytes} (hl : ∀ c ∈ l, c ≠ backslash) (h : Body (l ++ m)) : Body m := by
  induction l with
  | nil => exact h
  | cons c l ih =>
    have hc := hl c List.mem_cons_self
    rw [List.cons_append] at h
    generalize l ++ m = tail at h ih
    cases h with
    | plain _ h => exact ih (fun d hd => hl d (List.mem_cons_of_mem _ hd)) h
    | escaped h => exact absurd rfl hc

theorem body_charText (escaped : Bool) (c : Char) {l : Bytes} (hl : Body l) : Body (charText escaped c ++ l) := by
  have hhigh : ∀ b : UInt8, 0x80 ≤ b → b ≠ quote := ScriptNum.forall_byte (by decide)
  rw [charText]
  by_cases hc : c.val ≤ 0x7f
  · rw [if_pos hc]
    rcases switchChar_low escaped _ (low_of_val hc).1 with ⟨htext,hquote,-⟩ | ⟨e,-,htext,-⟩
    · rw [htext]
      exact .plain hquote hl
    · rw [htext]
      by_cases he : e.1 = quote
      · rw [he]
        exact .escaped hl
      · exact .plain (by decide) (.plain he hl)
  · rw [if_neg hc]
    cases escaped with
    | false =>
      obtain ⟨lead,part,follows,hbytes,-,-,hlow,-,hfollows⟩ := (spelling_char c (UInt32.not_le.mp hc)).spelled
      rw [if_neg Bool.false_ne_true,hbytes]
      apply Body.of_plain _ hl
      exact List.forall_mem_cons.mpr ⟨hhigh lead hlow,fun f hf => hhigh f (Encoder.high_of_follow f (hfollows f hf))⟩
    | true =>
      have hdigits : Body (Hex.padded 4 c.val.toNat ++ l) := by
        apply Body.of_plain _ hl
        intro b hb
        obtain ⟨d,hd,rfl⟩ := Hex.padded_symbols 4 _ b hb
        have hall : ∀ i : Fin 16, Hex.symbol i ≠ quote := by decide
        exact hall ⟨d,hd⟩
      rw [if_pos rfl,List.append_assoc]
      exact .plain (by decide) (.plain (by decide) hdigits)

theorem body_textOf (escaped : Bool) (cs : List Char) : Body (textOf escaped cs) := by
  induction cs with
  | nil => exact .nil
  | cons c cs ih =>
    rw [textOf_cons]
    exact body_charText escaped c ih

theorem decodeBinary_mayGive {escaped : Bool} {cs : List Char} (hmark : openMark <+: textOf escaped cs) :
    MayGive (Before data (quote :: (textOf escaped cs ++ quote :: rest))) decodeBinary fun _ t => Before data rest t := by
  obtain ⟨l,hl⟩ := hmark
  have hbody : Body (openMark ++ l) := by
    rw [hl]
    exact body_textOf escaped cs
  have hopen : Gives (Before data (quote :: (openMark ++ (l ++ quote :: rest)))) (getAll openBinary) true
      (Before data (l ++ quote :: rest)) := getAll_true openBinary
  rw [← hl,List.append_assoc]
  refine MayGive.after tellg_gives ?_
  refine MayGive.after hopen ?_
  rw [if_pos rfl]
  exact loop_mayGive fun n _ => binaryChars_mayGive (hbody.drop fun c hc => (openMark_chars false c hc).2.1) n

end Binaries

section Texts

variable {escaped : Bool}

/-- A character that is written as it is stands in front of the text of a symbol only if it is the symbol. -/
theorem charText_cases (escaped : Bool) (c : Char) {x : UInt8} (hlow : x < 0x80) (hbackslash : x ≠ backslash)
    (hswitch : Encoder.switchChar escaped x = none) :
    charText escaped c = [x] ∧ String.utf8EncodeChar c = [x] ∨
    (∃ y l, charText escaped c = y :: l ∧ x ≠ y) ∧ ∃ z m, String.utf8EncodeChar c = z :: m ∧ x ≠ z := by
  by_cases hc : c.val ≤ 0x7f
  · obtain ⟨hbyte,-,hutf8⟩ := low_of_val hc
    by_cases hx : x = c.val.toUInt8
    · left
      rw [charText,if_pos hc,hutf8,← hx,hswitch]
      exact ⟨rfl,rfl⟩
    · right
      refine ⟨?_,_,_,hutf8,hx⟩
      rw [charText,if_pos hc]
      rcases switchChar_low escaped _ hbyte with ⟨htext,-⟩ | ⟨e,-,htext,-⟩
      · exact ⟨_,_,htext,hx⟩
      · exact ⟨_,_,htext,hbackslash⟩
  · right
    obtain ⟨lead,part,follows,hbytes,-,-,hhigh,-,-⟩ := (spelling_char c (UInt32.not_le.mp hc)).spelled
    have hne : x ≠ lead := fun h => absurd (h ▸ hlow) (UInt8.not_lt.mpr hhigh)
    refine ⟨?_,_,_,hbytes,hne⟩
    rw [charText,if_neg hc]
    cases escaped with
    | false => exact ⟨_,_,hbytes,hne⟩
    | true => exact ⟨_,_,rfl,hbackslash⟩

/-- The text of a string starts with characters that are written as they are if the string does. -/
theorem prefix_textOf {l : Bytes} (hl : ∀ x ∈ l, x < 0x80 ∧ x ≠ backslash ∧ Encoder.switchChar escaped x = none)
    (cs : List Char) : l <+: textOf escaped cs ↔ l <+: utf8 cs := by
  induction l generalizing cs with
  | nil => exact iff_of_true List.nil_prefix List.nil_prefix
  | cons x l ih =>
    obtain ⟨hlow,hbackslash,hswitch⟩ := hl x List.mem_cons_self
    cases cs with
    | nil => exact Iff.rfl
    | cons c cs =>
      rw [textOf_cons,utf8_cons]
      rcases charText_cases escaped c hlow hbackslash hswitch with ⟨htext,hutf8⟩ | ⟨⟨y,m,htext,hy⟩,z,k,hutf8,hz⟩
      · rw [htext,hutf8,List.singleton_append,List.singleton_append,List.prefix_cons_inj,List.prefix_cons_inj]
        exact ih (fun d hd => hl d (List.mem_cons_of_mem _ hd)) cs
      · rw [htext,hutf8]
        exact iff_of_false (fun h => hy (List.cons_prefix_cons.mp h).1) fun h => hz (List.cons_prefix_cons.mp h).1

theorem openMark_textOf (escaped : Bool) (cs : List Char) : openMark <+: textOf escaped cs ↔ openMark <+: utf8 cs := by
  apply prefix_textOf
  exact openMark_chars escaped

end Texts

end JsonSerializer
end Tkeycoin
