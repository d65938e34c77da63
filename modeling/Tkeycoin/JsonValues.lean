import Tkeycoin.JsonBinaries
import Tkeycoin.JsonContainers

/-! What `JsonSerializer` reads of a value that it wrote: which values it reads as they were. -/
namespace Tkeycoin
namespace JsonSerializer

open Scanner TextStream

variable {data rest : Bytes} {fits : FloatRange} {c : UInt8}

section Dispatch

/-- What `decodeValue` does at a character. -/
def valueAt (fits : FloatRange) (depth : ℕ) (c : Option UInt8) : Decoder SVal :=
  if c = some minus ∨ c.any isDigit = true then decodeNumber fits
  else if c = some quote then do
    if ← lookAhead (getAll openBinary) then
      let binary ← decodeBinary
      pure (.binary binary)
    else
      let str ← decodeString
      pure (.str str)
  else if c = some 0x74 ∨ c = some 0x66 then decodeBool
  else if c = some openObject then decodeObject (decodeValue fits depth)
  else if c = some openArray then decodeArray (decodeValue fits depth)
  else if c = some 0x6e then decodeNull
  else failNearHere "Unknown token at parse value"

theorem decodeValue_gives {depth : ℕ} {v : SVal} {Q : TextStream → Prop} (hc : isSpace c = false)
    (h : Gives (Before data (c :: rest)) (valueAt fits depth (some c)) v Q) :
    Gives (Before data (c :: rest)) (decodeValue fits (depth + 1)) v Q := by
  apply Gives.bind (skipSpaces_gives hc)
  apply Gives.bind eof_gives
  exact Gives.bind peekChar_gives h

theorem decodeValue_mayGive {Q : SVal → TextStream → Prop} (hc : isSpace c = false)
    (h : ∀ depth, MayGive (Before data (c :: rest)) (valueAt fits depth (some c)) Q) (depth : ℕ) :
    MayGive (Before data (c :: rest)) (decodeValue fits depth) Q := by
  cases depth with
  | zero => exact fun _ _ _ _ => nofun
  | succ depth =>
    refine MayGive.after (skipSpaces_gives hc) ?_
    refine MayGive.after eof_gives ?_
    exact MayGive.after peekChar_gives (h depth)

theorem valueAt_digit {depth : ℕ} (hc : isDigit c = true) : valueAt fits depth (some c) = decodeNumber fits :=
  if_pos (.inr hc)

end Dispatch

/-- A value, what is written for it, and whether it is read back. -/
structure Piece where
  value : SVal
  text : Bytes
  kept : Prop

/-- The text of a piece is read as its value exactly if it is kept, and else as another value, unless it is refused.
Nothing of what stands behind it is read. -/
structure Spells (fits : FloatRange) (p : Piece) : Prop where
  opens : ∃ c l, p.text = c :: l ∧ isSpace c = false ∧ c ≠ closeArray
  gives : p.kept → ∀ {data rest : Bytes} {depth : ℕ}, Closes rest → p.text.length < depth →
    Gives (Before data (p.text ++ rest)) (decodeValue fits depth) p.value (Before data rest)
  mayGive : ∀ {data rest : Bytes} (depth : ℕ), Closes rest →
    MayGive (Before data (p.text ++ rest)) (decodeValue fits depth) fun v t =>
      (Before data rest t ∨ Failed t) ∧ (v = p.value → p.kept)

section Pieces

variable {p : Piece}

theorem Spells.eof_gives (h : Spells fits p) (more : Bytes) :
    Gives (Before data (p.text ++ more)) (eof : Decoder Bool) false (Before data (p.text ++ more)) := by
  obtain ⟨c,l,htext,-⟩ := h.opens
  rw [htext]
  exact Scanner.eof_gives

theorem Spells.skipSpaces_gives (h : Spells fits p) (more : Bytes) :
    Gives (Before data (p.text ++ more)) skipSpaces () (Before data (p.text ++ more)) := by
  obtain ⟨c,l,htext,hspace,-⟩ := h.opens
  rw [htext]
  exact JsonSerializer.skipSpaces_gives hspace

end Pieces

section Plain

/-- A piece whose reading starts at its first character. -/
theorem Spells.of_valueAt {l : Bytes} {v : SVal} {kept : Prop} (hspace : isSpace c = false) (hclose : c ≠ closeArray)
    (hgives : kept → ∀ {data rest : Bytes} {depth : ℕ}, Closes rest → l.length < depth →
      Gives (Before data (c :: (l ++ rest))) (valueAt fits depth (some c)) v (Before data rest))
    (hmay : ∀ {data rest : Bytes} (depth : ℕ), Closes rest →
      MayGive (Before data (c :: (l ++ rest))) (valueAt fits depth (some c)) fun w t =>
        (Before data rest t ∨ Failed t) ∧ (w = v → kept)) : Spells fits ⟨v,c :: l,kept⟩ where
  opens := ⟨c,l,rfl,hspace,hclose⟩
  gives hkept data rest depth hrest hdepth := by
    cases depth with
    | zero => exact absurd hdepth (Nat.not_lt_zero _)
    | succ depth => exact decodeValue_gives hspace (hgives hkept hrest (Nat.lt_of_succ_lt_succ hdepth))
  mayGive depth hrest := decodeValue_mayGive hspace (fun depth => hmay depth hrest) depth

/-- A piece that is always read back. -/
theorem Spells.of_gives {l : Bytes} {v : SVal} (hspace : isSpace c = false) (hclose : c ≠ closeArray)
    (hgives : ∀ {data rest : Bytes} (depth : ℕ), Closes rest →
      Gives (Before data (c :: (l ++ rest))) (valueAt fits depth (some c)) v (Before data rest)) :
    Spells fits ⟨v,c :: l,True⟩ :=
  Spells.of_valueAt hspace hclose (fun _ _ _ depth hrest _ => hgives depth hrest) fun depth hrest =>
    (hgives depth hrest).mayGive fun _ ht => ⟨.inl ht,fun _ => trivial⟩

theorem null_spells : Spells fits ⟨.null,text "null",True⟩ := by
  apply Spells.of_gives (c := 0x6e) (l := [0x75,0x6c,0x6c]) rfl (by decide)
  intro data rest depth hrest
  have hall : Gives (Before data (0x6e :: ([0x75,0x6c,0x6c] ++ rest))) (getAll [0x6e,0x75,0x6c,0x6c]) true
      (Before data rest) := getAll_true [0x6e,0x75,0x6c,0x6c]
  exact Gives.bind hall Gives.pure

theorem bool_spells (b : Bool) : Spells fits ⟨.bool b,if b then text "true" else text "false",True⟩ := by
  cases b with
  | true =>
    apply Spells.of_gives (c := 0x74) (l := [0x72,0x75,0x65]) rfl (by decide)
    intro data rest depth hrest
    have hall : Gives (Before data ([0x72,0x75,0x65] ++ rest)) (restOfBool (some 0x74)) true (Before data rest) :=
      getAll_true [0x72,0x75,0x65]
    exact Gives.bind getChar_gives (Gives.bind hall Gives.pure)
  | false =>
    apply Spells.of_gives (c := 0x66) (l := [0x61,0x6c,0x73,0x65]) rfl (by decide)
    intro data rest depth hrest
    have hall : Gives (Before data ([0x61,0x6c,0x73,0x65] ++ rest)) (restOfBool (some 0x66)) true (Before data rest) :=
      getAll_true [0x61,0x6c,0x73,0x65]
    exact Gives.bind getChar_gives (Gives.bind hall Gives.pure)

end Plain

section Integers

theorem text_int_head (n : ℤ) : ∃ c l, text (toString n) = c :: l ∧ (c = minus ∨ isDigit c = true) := by
  obtain ⟨hdigits,-,hne⟩ := text_repr n.natAbs
  obtain ⟨c,l,hcons⟩ := List.exists_cons_of_ne_nil hne
  rw [text_int]
  by_cases hn : n < 0
  · rw [if_pos hn]
    exact ⟨minus,_,rfl,.inl rfl⟩
  · rw [if_neg hn,List.nil_append]
    exact ⟨c,l,hcons,.inr (hdigits c (hcons ▸ List.mem_cons_self))⟩

/-- An integer that is written in decimal digits. -/
theorem decimal_spells {n : ℤ} (hlow : -2^63 ≤ n) (hhigh : n < 2^63) : Spells fits ⟨.int n,text (toString n),True⟩ := by
  have hall : ∀ c : UInt8, c = minus ∨ isDigit c = true → isSpace c = false ∧ c ≠ closeArray :=
    ScriptNum.forall_byte (by decide)
  obtain ⟨c,l,hcons,hc⟩ := text_int_head n
  have hnumber (depth : ℕ) : valueAt fits depth (some c) = decodeNumber fits := by
    rcases hc with rfl | hdigit
    · rfl
    · exact valueAt_digit hdigit
  rw [hcons]
  apply Spells.of_gives (hall c hc).1 (hall c hc).2
  intro data rest depth hrest
  rw [hnumber,← List.cons_append,← hcons]
  exact decodeNumber_gives fits hlow hhigh hrest

/-- Letters of a number are no start of a value, except that `f` could be one of `false`. -/
theorem valueAt_letter {depth : ℕ} (hc : hexChar c = true) (hdigit : isDigit c = false) {l : Bytes}
    (hl : ∀ c ∈ l, hexChar c = true) (hrest : Closes rest) {Q : SVal → TextStream → Prop} :
    MayGive (Before data (c :: (l ++ rest))) (valueAt fits depth (some c)) Q := by
  by_cases hf : c = 0x66
  · subst hf
    have hfalse : ¬ [0x61,0x6c,0x73,0x65] <+: l ++ rest := by
      have hclose : ∀ c ∈ rest.head?, c ≠ 0x61 ∧ c ≠ 0x6c := by
        intro c hc
        rcases hrest c hc with rfl | rfl | rfl <;> decide
      have hsecond : hexChar 0x6c = false := rfl
      intro h
      match l,hl with
      | [],_ =>
        obtain ⟨more,hmore⟩ := h
        have hhead : rest = 0x61 :: ([0x6c,0x73,0x65] ++ more) := hmore.symm
        exact (hclose 0x61 (by rw [hhead]; rfl)).1 rfl
      | [x],_ =>
        obtain ⟨more,hmore⟩ := (List.cons_prefix_cons.mp h).2
        have hhead : rest = 0x6c :: ([0x73,0x65] ++ more) := hmore.symm
        exact (hclose 0x6c (by rw [hhead]; rfl)).2 rfl
      | x :: y :: l,hl =>
        have hy := (List.cons_prefix_cons.mp (List.cons_prefix_cons.mp h).2).1
        rw [hy,hl y (List.mem_cons_of_mem _ List.mem_cons_self)] at hsecond
        contradiction
    have hrun : MayGive (Before data (0x66 :: (l ++ rest))) decodeBool Q := by
      refine MayGive.after getChar_gives ?_
      refine MayGive.bind (R := fun b _ => b = false) ?_ fun b => ?_
      · refine (getAll_mayGive [0x61,0x6c,0x73,0x65]).mono fun b t hb => ?_
        cases b with
        | false => rfl
        | true => exact absurd (hb rfl) hfalse
      · cases b with
        | true => exact fun _ h => absurd h nofun
        | false =>
          rw [if_neg Bool.false_ne_true]
          refine MayGive.skip fun atEnd => ?_
          cases atEnd with
          | true => exact failHere_mayGive _
          | false => exact backFailNearHere_mayGive 1 _
    exact hrun
  · have hnone : ∀ c : UInt8, hexChar c = true → isDigit c = false → c ≠ 0x66 →
        ¬ (some c = some minus ∨ (some c).any isDigit = true) ∧ ¬ some c = some quote ∧
        ¬ (some c = some 0x74 ∨ some c = some 0x66) ∧ ¬ some c = some openObject ∧ ¬ some c = some openArray ∧
        ¬ some c = some 0x6e := ScriptNum.forall_byte (by decide)
    obtain ⟨h₁,h₂,h₃,h₄,h₅,h₆⟩ := hnone c hc hdigit hf
    rw [valueAt,if_neg h₁,if_neg h₂,if_neg h₃,if_neg h₄,if_neg h₅,if_neg h₆]
    exact failNearHere_mayGive _

/-- A digit is written as itself in either format. -/
theorem written_digit {n : ℤ} (hlow : 0 ≤ n) (hhigh : n ≤ 9) : Hex.written (n % 2^64).toNat = text (toString n) := by
  have hall : ∀ i : Fin 10, Hex.written i = text (toString ((i : ℕ) : ℤ)) := by decide
  obtain ⟨m,rfl⟩ := Int.eq_ofNat_of_zero_le hlow
  have hm : m < 10 := by omega
  have hmod : ((m : ℤ) % 2^64).toNat = m := by omega
  rw [hmod]
  exact hall ⟨m,hm⟩

/-- With `std::hex` only digits are read back. -/
theorem int_spells {n : ℤ} (hlow : -2^63 ≤ n) (hhigh : n < 2^63) (hex : Bool) :
    Spells fits ⟨.int n,Encoder.encodeNumber n hex,hex = true → 0 ≤ n ∧ n ≤ 9⟩ := by
  cases hex with
  | false =>
    have hdecimal : Spells fits ⟨.int n,text (toString n),True⟩ := decimal_spells hlow hhigh
    obtain ⟨hopens,hgives,hmay⟩ := hdecimal
    exact ⟨hopens,fun _ => hgives trivial,fun depth hrest => (hmay depth hrest).mono fun v t ht => ⟨ht.1,fun _ => nofun⟩⟩
  | true =>
    have hall : ∀ c : UInt8, hexChar c = true → isSpace c = false ∧ c ≠ closeArray :=
      ScriptNum.forall_byte (by decide)
    obtain ⟨c,l,hcons⟩ := List.exists_cons_of_ne_nil (written_ne_nil (n % 2^64).toNat)
    have hchars := hexChar_written (n % 2^64).toNat
    rw [hcons,List.forall_mem_cons] at hchars
    obtain ⟨hc,hl⟩ := hchars
    have htext : Encoder.encodeNumber n true = c :: l := hcons
    rw [htext]
    apply Spells.of_valueAt (hall c hc).1 (hall c hc).2
    · intro hkept data rest depth hrest hdepth
      obtain ⟨hlow',hhigh'⟩ := hkept rfl
      obtain ⟨d,m,hdecimal,hd⟩ := text_int_head n
      have hdigit : isDigit c = true := by
        rw [written_digit hlow' hhigh',hdecimal] at hcons
        obtain ⟨rfl,-⟩ := List.cons.inj hcons
        exact hd.resolve_left fun h => absurd (h ▸ hc) (by decide)
      rw [valueAt_digit hdigit,← List.cons_append,← hcons,written_digit hlow' hhigh']
      exact decodeNumber_gives fits hlow hhigh hrest
    · intro data rest depth hrest
      by_cases hdigit : isDigit c = true
      · rw [valueAt_digit hdigit,← List.cons_append,← hcons]
        exact (decodeNumber_hex fits hhigh hrest).mono fun v t ht => ⟨ht.1,fun h _ => ht.2 h⟩
      · exact valueAt_letter hc (Bool.eq_false_of_not_eq_true hdigit) hl hrest

end Integers

section Strings

theorem valueAt_binary {depth : ℕ} {body : Bytes} {b : Bytes}
    (h : Gives (Before data (quote :: (openMark ++ body))) decodeBinary b (Before data rest)) :
    Gives (Before data (quote :: (openMark ++ body))) (valueAt fits depth (some quote)) (.binary b) (Before data rest) := by
  have hrun : Gives (Before data (quote :: (openMark ++ body))) (do
      if ← lookAhead (getAll openBinary) then
        let binary ← decodeBinary
        pure (.binary binary)
      else
        let str ← decodeString
        pure (.str str) : Decoder SVal) (.binary b) (Before data rest) := by
    apply Gives.bind (lookAhead_mark body)
    rw [if_pos rfl]
    exact Gives.bind h Gives.pure
  exact hrun

/-- A binary string is read back. -/
theorem binary_spells (b : Bytes) :
    Spells fits ⟨.binary b,text "\"=?B?" ++ Base64.encode b ++ text "?=\"",True⟩ := by
  have htext : text "\"=?B?" ++ Base64.encode b ++ text "?=\"" =
      quote :: (openMark ++ Base64.encode b ++ [question,equal,quote]) := rfl
  rw [htext]
  apply Spells.of_gives rfl (by decide)
  intro data rest depth hrest
  have hinput : openMark ++ Base64.encode b ++ [question,equal,quote] ++ rest =
      openMark ++ (Base64.encode b ++ question :: equal :: quote :: rest) := by
    simp
  rw [hinput]
  apply valueAt_binary
  rw [← List.append_assoc]
  exact decodeBinary_gives b

/-- A string is read back if its symbols are and it does not look like a binary string. -/
theorem string_spells (escaped : Bool) (cs : List Char) :
    Spells fits ⟨.str (utf8 cs),[quote] ++ textOf escaped cs ++ [quote],
      (∀ c ∈ cs, Rereads escaped c) ∧ ¬ openMark <+: utf8 cs⟩ := by
  have hinput (rest : Bytes) : quote :: (textOf escaped cs ++ [quote] ++ rest) =
      [quote] ++ textOf escaped cs ++ [quote] ++ rest := by
    simp
  apply Spells.of_valueAt (c := quote) (l := textOf escaped cs ++ [quote]) rfl (by decide)
  · rintro ⟨hrereads,hmark⟩ data rest depth hrest hdepth
    have hlook : Gives (Before data ([quote] ++ textOf escaped cs ++ [quote] ++ rest)) (lookAhead (getAll openBinary)) false
        (Before data ([quote] ++ textOf escaped cs ++ [quote] ++ rest)) := by
      rw [quoted_append]
      exact lookAhead_string ((openMark_textOf escaped cs).not.mpr hmark)
    rw [hinput]
    exact Gives.bind hlook (Gives.bind (decodeString_gives hrereads) Gives.pure)
  · intro data rest depth hrest
    rw [hinput]
    by_cases hmark : openMark <+: textOf escaped cs
    · obtain ⟨l,hl⟩ := hmark
      have hlook : Gives (Before data ([quote] ++ textOf escaped cs ++ [quote] ++ rest)) (lookAhead (getAll openBinary))
          true (Before data ([quote] ++ textOf escaped cs ++ [quote] ++ rest)) := by
        rw [quoted_append,← hl,List.append_assoc]
        exact lookAhead_mark _
      have hbinary : MayGive (Before data ([quote] ++ textOf escaped cs ++ [quote] ++ rest)) decodeBinary
          fun _ t => Before data rest t := by
        rw [quoted_append]
        exact decodeBinary_mayGive ⟨l,hl⟩
      refine MayGive.after hlook ?_
      rw [if_pos rfl]
      exact MayGive.bind hbinary fun b => MayGive.pure fun t ht => ⟨.inl ht,nofun⟩
    · have hlook : Gives (Before data ([quote] ++ textOf escaped cs ++ [quote] ++ rest)) (lookAhead (getAll openBinary))
          false (Before data ([quote] ++ textOf escaped cs ++ [quote] ++ rest)) := by
        rw [quoted_append]
        exact lookAhead_string hmark
      have hplain : ¬ openMark <+: utf8 cs := (openMark_textOf escaped cs).not.mp hmark
      refine MayGive.after hlook ?_
      rw [if_neg Bool.false_ne_true]
      refine MayGive.bind decodeString_mayGive fun b => MayGive.pure ?_
      rintro t ⟨ht,hread⟩
      refine ⟨.inl ht,fun h => ?_⟩
      obtain rfl := SVal.str.inj h
      rcases hread with ⟨-,hall⟩ | hlt
      · exact ⟨hall,hplain⟩
      · exact absurd hlt (lt_irrefl _)

end Strings

section Arrays

theorem element_taken {p : Piece} (hp : Spells fits p) (hkept : p.kept) {depth : ℕ} (hdepth : p.text.length < depth) :
    Taken Piece.text Piece.value (decodeElement (decodeValue fits depth)) (fun arr v => arr ++ [v]) .arr closeArray
      "Wrong token after element of array" p := by
  intro data more arr r Q hmore hseparator
  apply Gives.bind (hp.eof_gives more)
  rw [if_neg Bool.false_ne_true]
  exact Gives.bind (catchRuntimeError_gives _ (hp.gives hkept hmore hdepth)) hseparator

theorem element_mayBeTaken {p : Piece} (hp : Spells fits p) (depth : ℕ) :
    MayBeTaken Piece.text (fun p v => v = p.value → p.kept) (decodeElement (decodeValue fits depth))
      (fun arr v => arr ++ [v]) .arr closeArray "Wrong token after element of array" p := by
  intro data more arr Q hmore hseparator
  refine MayGive.after (hp.eof_gives more) ?_
  rw [if_neg Bool.false_ne_true]
  refine MayGive.bind (catchRuntimeError_mayGive _ (hp.mayGive depth hmore)) fun v => ?_
  rintro s ⟨hs | hs,hkept⟩
  · exact hseparator v hkept s hs
  · exact separator_failed s hs

theorem foldl_push (arr values : List SVal) : values.foldl (fun arr v => arr ++ [v]) arr = arr ++ values := by
  induction values generalizing arr with
  | nil => exact (List.append_nil arr).symm
  | cons v values ih => rw [List.foldl_cons,ih,List.append_assoc,List.singleton_append]

theorem length_part {part : Bytes} {parts : List Bytes} (h : part ∈ parts) :
    part.length ≤ ([comma].intercalate parts).length := by
  induction parts with
  | nil => exact absurd h List.not_mem_nil
  | cons first parts ih =>
    cases parts with
    | nil => rw [List.intercalate_singleton,List.mem_singleton.mp h]
    | cons second parts =>
      rw [List.intercalate_cons_cons,List.length_append,List.length_append]
      rcases List.mem_cons.mp h with rfl | h
      · omega
      · have hle := ih h
        omega

/-- An array is read back if its elements are. -/
theorem array_spells {pieces : List Piece} (h : ∀ p ∈ pieces, Spells fits p) :
    Spells fits ⟨.arr (pieces.map Piece.value),[openArray] ++ [comma].intercalate (pieces.map Piece.text) ++ [closeArray],
      ∀ p ∈ pieces, p.kept⟩ := by
  have hopens : ∀ p ∈ pieces, ∃ c l, p.text = c :: l ∧ isSpace c = false ∧ c ≠ closeArray := fun p hp => (h p hp).opens
  apply Spells.of_valueAt (c := openArray) (l := [comma].intercalate (pieces.map Piece.text) ++ [closeArray]) rfl (by decide)
  · intro hkept data rest depth hrest hdepth
    have htaken : ∀ p ∈ pieces, Taken Piece.text Piece.value (decodeElement (decodeValue fits depth))
        (fun arr v => arr ++ [v]) .arr closeArray "Wrong token after element of array" p := by
      intro p hp
      apply element_taken (h p hp) (hkept p hp)
      have hle := length_part (List.mem_map_of_mem (f := Piece.text) hp)
      rw [List.length_append] at hdepth
      omega
    have hread : Gives (Before data ([openArray] ++ [comma].intercalate (pieces.map Piece.text) ++ [closeArray] ++ rest))
        (decodeArray (decodeValue fits depth)) (.arr ((pieces.map Piece.value).foldl (fun arr v => arr ++ [v]) []))
        (Before data rest) := by
      rw [decodeArray_eq]
      exact container_gives (.inl rfl) htaken hopens
    rw [foldl_push,List.nil_append] at hread
    exact hread
  · intro data rest depth hrest
    have htaken : ∀ p ∈ pieces, MayBeTaken Piece.text (fun p v => v = p.value → p.kept)
        (decodeElement (decodeValue fits depth)) (fun arr v => arr ++ [v]) .arr closeArray
        "Wrong token after element of array" p := fun p hp => element_mayBeTaken (h p hp) depth
    have hread : MayGive (Before data ([openArray] ++ [comma].intercalate (pieces.map Piece.text) ++ [closeArray] ++ rest))
        (decodeArray (decodeValue fits depth)) fun w t => Before data rest t ∧ ∃ values,
          w = .arr (values.foldl (fun arr v => arr ++ [v]) []) ∧
          List.Forall₂ (fun p v => v = Piece.value p → p.kept) pieces values := by
      rw [decodeArray_eq]
      exact container_mayGive (.inl rfl) htaken hopens
    refine hread.mono ?_
    rintro w t ⟨ht,values,rfl,hvalues⟩
    refine ⟨.inl ht,fun heq => ?_⟩
    rw [foldl_push,List.nil_append] at heq
    obtain rfl := SVal.arr.inj heq
    rw [List.forall₂_map_right_iff,List.forall₂_same] at hvalues
    exact fun p hp => hvalues p hp rfl

end Arrays

end JsonSerializer
end Tkeycoin
