import Tkeycoin.JsonObjects

/-! Which values `JsonSerializer` reads back as they were when it decodes what it encoded. -/
namespace Tkeycoin
namespace JsonSerializer

open Scanner TextStream

/-- Values without floating point: integers of 64 bits, texts of whole symbols, and objects with their fields in
the order of the keys. -/
inductive Tree : SVal → Prop
  | null : Tree .null
  | bool (value : Bool) : Tree (.bool value)
  | int {value : ℤ} (low : -2^63 ≤ value) (high : value < 2^63) : Tree (.int value)
  | str (cs : List Char) : Tree (.str (utf8 cs))
  | binary (value : Bytes) : Tree (.binary value)
  | arr {elements : List SVal} (trees : ∀ e ∈ elements, Tree e) : Tree (.arr elements)
  | obj {fields : List (Bytes × SVal)} (keys : ∀ f ∈ fields, ∃ cs, f.1 = utf8 cs)
    (sorted : fields.Pairwise fun f g => SObj.order f < SObj.order g) (trees : ∀ f ∈ fields, Tree f.2) :
    Tree (.obj fields)

/-- What a value is written of, but for brackets, constants and binary strings. -/
inductive Leaf
  | key (name : Bytes)
  | str (value : Bytes)
  | int (value : ℤ)
  deriving DecidableEq

section Leaves

mutual

/-- The leaves of a value in the order in which they are written. -/
def leaves : SVal → List Leaf
  | .str value => [.str value]
  | .int value => [.int value]
  | .arr elements => leavesOfElements elements
  | .obj fields => leavesOfFields fields
  | _ => []

def leavesOfElements : List SVal → List Leaf
  | [] => []
  | element :: elements => leaves element ++ leavesOfElements elements

def leavesOfFields : List (Bytes × SVal) → List Leaf
  | [] => []
  | (key,value) :: fields => .key key :: (leaves value ++ leavesOfFields fields)

end

variable (escaped : Bool)

/-- Symbols beyond the first 128 are spelled with such bytes. -/
def beyondAscii (string : Bytes) : Bool := string.any (0x80 ≤ ·)

/-- No control character without a sequence of its own, and with the flag no symbol beyond the basic plane, the
first byte of which would be one of the highest. -/
def plain (string : Bytes) : Bool := string.all fun b => !control b && (!escaped || b < 0xf0)

namespace Leaf

def beyondAscii : Leaf → Bool
  | .key name => JsonSerializer.beyondAscii name
  | .str value => JsonSerializer.beyondAscii value
  | .int _ => false

/-- A leaf that can be read back where integers are written with `std::hex` or not. -/
def rereads (hex : Bool) : Leaf → Bool
  | .key name => plain escaped name
  | .str value => plain escaped value && !openMark.isPrefixOf value
  | .int value => !hex || (0 ≤ value && value ≤ 9)

end Leaf

/-- Whether the stream is left with `std::hex`: with the flag the first symbol beyond the first 128 leaves it so. -/
def hexBehind (hex : Bool) (leaf : Leaf) : Bool := hex || escaped && leaf.beyondAscii

/-- All leaves can be read back. -/
def rereads : Bool → List Leaf → Bool
  | _, [] => true
  | hex, leaf :: leaves => leaf.rereads escaped hex && rereads (hexBehind escaped hex leaf) leaves

theorem rereads_append (hex : Bool) (front back : List Leaf) : rereads escaped hex (front ++ back) =
    (rereads escaped hex front && rereads escaped (front.foldl (hexBehind escaped) hex) back) := by
  induction front generalizing hex with
  | nil => exact (Bool.true_and _).symm
  | cons leaf front ih => rw [List.cons_append,rereads,rereads,ih,List.foldl_cons,Bool.and_assoc]

end Leaves

section Texts

variable {escaped : Bool}

/-- A symbol beyond the first 128 has high bytes only, and beyond the basic plane one of the highest. -/
theorem high_bytes {c : Char} (hc : 0x7f < c.val) : (∀ b ∈ String.utf8EncodeChar c, 0x80 ≤ b) ∧
    (c.val ≤ 0xffff → ∀ b ∈ String.utf8EncodeChar c, b < 0xf0) ∧
    (0xffff < c.val → ∃ b ∈ String.utf8EncodeChar c, 0xf0 ≤ b) := by
  have hfollow : ∀ f : UInt8, f &&& 0xc0 = 0x80 → f < 0xf0 := ScriptNum.forall_byte (by decide)
  obtain ⟨lead,part,follows,hbytes,-,-,hlow,-,hfollows⟩ := (spelling_char c hc).spelled
  refine ⟨?_,fun hplane => ?_,fun hbeyond => ?_⟩
  · rw [hbytes,List.forall_mem_cons]
    exact ⟨hlow,fun f hf => Encoder.high_of_follow f (hfollows f hf)⟩
  · obtain ⟨y,l,hput,hy⟩ := putUnicodeSymbolAsUtf8_head hplane
    rw [putUnicodeSymbolAsUtf8_val,hbytes] at hput
    obtain ⟨rfl,-⟩ := List.cons.inj hput
    rw [hbytes,List.forall_mem_cons]
    exact ⟨hy,fun f hf => hfollow f (hfollows f hf)⟩
  · obtain ⟨z,m,hz,hhigh⟩ := utf8EncodeChar_beyond hbeyond
    exact ⟨z,hz ▸ List.mem_cons_self,hhigh⟩

theorem plain_char (escaped : Bool) (c : Char) : plain escaped (String.utf8EncodeChar c) = true ↔ Rereads escaped c := by
  have hcontrol : ∀ b : UInt8, 0x80 ≤ b → control b = false := ScriptNum.forall_byte (by decide)
  have hascii : ∀ b : UInt8, b < 0x80 → b < 0xf0 := ScriptNum.forall_byte (by decide)
  rw [plain,List.all_eq_true]
  by_cases hc : c.val ≤ 0x7f
  · obtain ⟨hlow,-,hutf8⟩ := low_of_val hc
    have hplane : c.val ≤ 0xffff := UInt32.le_trans hc (by decide)
    rw [hutf8,List.forall_mem_singleton,decide_eq_true (hascii _ hlow),Bool.or_true,Bool.and_true,Bool.not_eq_true']
    exact ⟨fun h => ⟨fun _ => h,fun _ => hplane⟩,fun h => h.1 hc⟩
  · obtain ⟨hhigh,hplane,hbeyond⟩ := high_bytes (UInt32.not_le.mp hc)
    cases escaped with
    | false =>
      refine iff_of_true (fun b hb => ?_) ⟨fun h => absurd h hc,nofun⟩
      rw [hcontrol b (hhigh b hb)]
      rfl
    | true =>
      by_cases h : c.val ≤ 0xffff
      · refine iff_of_true (fun b hb => ?_) ⟨fun h => absurd h hc,fun _ => h⟩
        rw [hcontrol b (hhigh b hb),decide_eq_true (hplane h b hb)]
        rfl
      · refine iff_of_false (fun hall => ?_) fun hrereads => h (hrereads.2 rfl)
        obtain ⟨b,hb,hle⟩ := hbeyond (UInt32.not_le.mp h)
        have hfalse := hall b hb
        rw [decide_eq_false (UInt8.not_lt.mpr hle),Bool.not_true,Bool.or_false,Bool.and_false] at hfalse
        exact Bool.false_ne_true hfalse

theorem beyondAscii_char (c : Char) : beyondAscii (String.utf8EncodeChar c) = decide (0x7f < c.val) := by
  by_cases hc : c.val ≤ 0x7f
  · obtain ⟨hlow,-,hutf8⟩ := low_of_val hc
    rw [beyondAscii,hutf8,decide_eq_false (UInt32.not_lt.mpr hc),List.any_cons,List.any_nil,Bool.or_false]
    exact decide_eq_false (UInt8.not_le.mpr hlow)
  · have hhigh := (high_bytes (UInt32.not_le.mp hc)).1
    obtain ⟨b,l,hbytes⟩ := List.exists_cons_of_ne_nil (String.utf8EncodeChar_ne_nil (c := c))
    rw [beyondAscii,decide_eq_true (UInt32.not_le.mp hc),hbytes,List.any_cons,
      decide_eq_true (hhigh b (hbytes ▸ List.mem_cons_self)),Bool.true_or]

theorem plain_utf8 (cs : List Char) : plain escaped (utf8 cs) = true ↔ ∀ c ∈ cs, Rereads escaped c := by
  induction cs with
  | nil => exact iff_of_true rfl (List.forall_mem_nil _)
  | cons c cs ih =>
    have hbytes := plain_char escaped c
    rw [plain] at hbytes ih
    rw [plain,utf8_cons,List.all_append,Bool.and_eq_true,hbytes,ih,List.forall_mem_cons]

theorem hexBehind_utf8 (hex : Bool) (cs : List Char) :
    (hex || escaped && beyondAscii (utf8 cs)) = (hex || cs.any (unicodeEscaped escaped)) := by
  have hany : (escaped && beyondAscii (utf8 cs)) = cs.any (unicodeEscaped escaped) := by
    induction cs with
    | nil => exact Bool.and_false escaped
    | cons c cs ih =>
      have hbytes := beyondAscii_char c
      rw [beyondAscii] at hbytes ih
      rw [beyondAscii,utf8_cons,List.any_append,Bool.and_or_distrib_left,hbytes,ih,List.any_cons,unicodeEscaped]
  rw [hany]

end Texts

section Trees

variable (fits : FloatRange) (escaped : Bool) (floatText : Bytes → Bytes)

/-- A value that is written in a format of the stream, and leaves the stream in the format behind its leaves. -/
def Writes (hex : Bool) (v : SVal) : Prop :=
  ∃ w, Encoder.encodeValue escaped floatText v hex = .ok (w,(leaves v).foldl (hexBehind escaped) hex) ∧
    Spells fits ⟨v,w,rereads escaped hex (leaves v) = true⟩

variable {fits escaped floatText}

theorem Spells.congr {v : SVal} {w : Bytes} {kept kept' : Prop} (h : Spells fits ⟨v,w,kept⟩) (hiff : kept ↔ kept') :
    Spells fits ⟨v,w,kept'⟩ := propext hiff ▸ h

theorem elements_write {elements : List SVal} (h : ∀ e ∈ elements, ∀ hex, Writes fits escaped floatText hex e)
    (hex : Bool) : ∃ pieces : List Piece, pieces.map Piece.value = elements ∧
      Encoder.encodeElements escaped floatText elements hex =
        .ok (pieces.map Piece.text,(leavesOfElements elements).foldl (hexBehind escaped) hex) ∧
      (∀ p ∈ pieces, Spells fits p) ∧
      ((∀ p ∈ pieces, p.kept) ↔ rereads escaped hex (leavesOfElements elements) = true) := by
  induction elements generalizing hex with
  | nil => exact ⟨[],rfl,rfl,List.forall_mem_nil _,iff_of_true (List.forall_mem_nil _) rfl⟩
  | cons e elements ih =>
    obtain ⟨w,hencode,hspells⟩ := h e List.mem_cons_self hex
    obtain ⟨pieces,hvalues,hencodes,hpieces,hkept⟩ := ih (fun d hd => h d (List.mem_cons_of_mem _ hd))
      ((leaves e).foldl (hexBehind escaped) hex)
    refine ⟨⟨e,w,rereads escaped hex (leaves e) = true⟩ :: pieces,?_,?_,?_,?_⟩
    · rw [List.map_cons,hvalues]
    · rw [Encoder.encodeElements,hencode]
      change (Encoder.encodeElements escaped floatText elements ((leaves e).foldl (hexBehind escaped) hex) >>=
        fun parts => pure (w :: parts.1,parts.2)) = _
      rw [hencodes,leavesOfElements,List.foldl_append]
      rfl
    · exact List.forall_mem_cons.mpr ⟨hspells,hpieces⟩
    · rw [List.forall_mem_cons,hkept,leavesOfElements,rereads_append,Bool.and_eq_true]

theorem fields_write {fields : List (Bytes × SVal)} (hkeys : ∀ f ∈ fields, ∃ cs, f.1 = utf8 cs)
    (h : ∀ f ∈ fields, ∀ hex, Writes fits escaped floatText hex f.2) (hex : Bool) :
    ∃ pieces : List FieldPiece, pieces.map FieldPiece.field = fields ∧
      Encoder.encodeFields escaped floatText fields hex =
        .ok (pieces.map (FieldPiece.text escaped),(leavesOfFields fields).foldl (hexBehind escaped) hex) ∧
      (∀ f ∈ pieces, Spells fits f.piece) ∧
      ((∀ f ∈ pieces, f.kept escaped) ↔ rereads escaped hex (leavesOfFields fields) = true) := by
  induction fields generalizing hex with
  | nil => exact ⟨[],rfl,rfl,List.forall_mem_nil _,iff_of_true (List.forall_mem_nil _) rfl⟩
  | cons f fields ih =>
    obtain ⟨key,value⟩ := f
    obtain ⟨cs,hkey⟩ := hkeys (key,value) List.mem_cons_self
    obtain rfl : key = utf8 cs := hkey
    have hname := Encoder.encodeString_utf8 escaped cs hex
    rw [← hexBehind_utf8] at hname
    obtain ⟨w,hencode,hspells⟩ := h (utf8 cs,value) List.mem_cons_self (hexBehind escaped hex (.key (utf8 cs)))
    obtain ⟨pieces,hfields,hencodes,hpieces,hkept⟩ := ih (fun g hg => hkeys g (List.mem_cons_of_mem _ hg))
      (fun g hg => h g (List.mem_cons_of_mem _ hg))
      ((leaves value).foldl (hexBehind escaped) (hexBehind escaped hex (.key (utf8 cs))))
    refine ⟨⟨cs,value,w,rereads escaped (hexBehind escaped hex (.key (utf8 cs))) (leaves value) = true⟩ :: pieces,
      ?_,?_,?_,?_⟩
    · rw [List.map_cons,hfields]
      rfl
    · rw [Encoder.encodeFields,hname]
      change (Encoder.encodeValue escaped floatText value (hexBehind escaped hex (.key (utf8 cs))) >>= fun part =>
        Encoder.encodeFields escaped floatText fields part.2 >>= fun parts =>
          pure (([quote] ++ cs.flatMap (charText escaped) ++ [quote] ++ [colon] ++ part.1) :: parts.1,parts.2)) = _
      rw [hencode]
      change (Encoder.encodeFields escaped floatText fields ((leaves value).foldl (hexBehind escaped)
        (hexBehind escaped hex (.key (utf8 cs)))) >>= fun parts =>
          pure (([quote] ++ cs.flatMap (charText escaped) ++ [quote] ++ [colon] ++ w) :: parts.1,parts.2)) = _
      rw [hencodes,leavesOfFields,List.foldl_cons,List.foldl_append]
      rfl
    · exact List.forall_mem_cons.mpr ⟨hspells,hpieces⟩
    · rw [List.forall_mem_cons,hkept,leavesOfFields,rereads,rereads_append,Bool.and_eq_true,Bool.and_eq_true,
        Leaf.rereads,plain_utf8,FieldPiece.kept,and_assoc]

/-- Every tree is written as a text that is read as the tree exactly if all its leaves are. -/
theorem tree_writes {v : SVal} (hv : Tree v) (hex : Bool) : Writes fits escaped floatText hex v := by
  induction hv generalizing hex with
  | null => exact ⟨_,rfl,null_spells.congr (iff_of_true trivial rfl)⟩
  | bool value => exact ⟨_,rfl,(bool_spells value).congr (iff_of_true trivial rfl)⟩
  | binary value => exact ⟨_,rfl,(binary_spells value).congr (iff_of_true trivial rfl)⟩
  | @int value low high =>
    refine ⟨_,?_,(int_spells low high hex).congr ?_⟩
    · rw [Encoder.encodeValue,leaves,List.foldl_cons,List.foldl_nil,hexBehind,Leaf.beyondAscii,Bool.and_false,
        Bool.or_false]
    · cases hex with
      | false => exact iff_of_true nofun rfl
      | true => simp [leaves,rereads,Leaf.rereads]
  | str cs =>
    refine ⟨_,?_,(string_spells escaped cs).congr ?_⟩
    · rw [Encoder.encodeValue,Encoder.encodeString_utf8,← hexBehind_utf8]
      rfl
    · rw [leaves,rereads,rereads,Leaf.rereads,Bool.and_true,Bool.and_eq_true,plain_utf8,Bool.not_eq_true',
        ← Bool.not_eq_true,List.isPrefixOf_iff_prefix]
  | @arr elements trees ih =>
    obtain ⟨pieces,hvalues,hencode,hpieces,hkept⟩ := elements_write ih hex
    have hspells := (array_spells hpieces).congr hkept
    rw [hvalues] at hspells
    refine ⟨_,?_,hspells⟩
    rw [Encoder.encodeValue,hencode]
    rfl
  | @obj fields keys sorted trees ih =>
    obtain ⟨pieces,hfields,hencode,hpieces,hkept⟩ := fields_write keys ih hex
    have hspells := (object_spells escaped hpieces (by rwa [hfields])).congr hkept
    rw [hfields] at hspells
    refine ⟨_,?_,hspells⟩
    rw [Encoder.encodeValue,hencode]
    rfl

end Trees

section Streams

variable {fits : FloatRange} {p : Piece}

theorem closes_nil : Closes [] := nofun

/-- A strict serializer reads a text of its own exactly if it is kept. -/
theorem decode_text_iff (h : Spells fits p) : decode fits true p.text = .ok p.value ↔ p.kept := by
  have hnothing : p.text ++ [] = p.text := List.append_nil _
  have heof : Gives (Before p.text (p.text ++ [])) (eof : Decoder Bool) false (Before p.text (p.text ++ [])) :=
    h.eof_gives []
  rw [hnothing] at heof
  constructor
  · intro hdecode
    have hmay : MayGive (Before p.text p.text) (decodeStream fits true (p.text.length + 1))
        fun v _ => v = p.value → p.kept := by
      have hvalue : MayGive (Before p.text (p.text ++ [])) (decodeValue fits (p.text.length + 1)) fun v t =>
          (Before p.text [] t ∨ Failed t) ∧ (v = p.value → p.kept) := h.mayGive _ closes_nil
      rw [hnothing] at hvalue
      refine MayGive.after heof ?_
      rw [if_neg Bool.false_ne_true]
      refine MayGive.bind (hvalue.of_run fun s r => (catchException_ok _ s r).mp) fun v => ?_
      rintro s ⟨-,hkept⟩
      have hrest : MayGive (fun _ => True) (do
          skipSpaces
          let atEnd ← eof
          if !atEnd && true then failNearHere "Redundant bytes after parsed data"
          else pure v : Decoder SVal) fun v _ => v = p.value → p.kept := by
        refine MayGive.skip fun _ => MayGive.skip fun atEnd => ?_
        cases atEnd with
        | false => exact failNearHere_mayGive _
        | true => exact MayGive.pure fun _ _ => hkept
      exact hrest s trivial
    rw [decode] at hdecode
    cases hrun : (decodeStream fits true (p.text.length + 1)).run (.ofBytes p.text) with
    | error e =>
      rw [hrun] at hdecode
      contradiction
    | ok r =>
      rw [hrun] at hdecode
      exact hmay _ (before_ofBytes p.text) r.1 r.2 hrun (Except.ok.inj hdecode)
  · intro hkept
    have hvalue : Gives (Before p.text (p.text ++ [])) (decodeValue fits (p.text.length + 1)) p.value
        (Before p.text []) := h.gives hkept closes_nil (Nat.lt_succ_self _)
    rw [hnothing] at hvalue
    have hgives : Gives (Before p.text p.text) (decodeStream fits true (p.text.length + 1)) p.value
        (Ended p.text) := by
      apply Gives.bind heof
      rw [if_neg Bool.false_ne_true]
      apply Gives.bind (hvalue.of_run fun s r => (catchException_ok _ s r).mpr)
      apply Gives.bind (skipWhile_end (List.forall_mem_nil _))
      exact Gives.bind eof_ended Gives.pure
    obtain ⟨t,ht,-⟩ := hgives _ (before_ofBytes p.text)
    rw [decode,ht]
    rfl

end Streams

section RoundTrips

variable (fits : FloatRange) (floatText : Bytes → Bytes) (escaped : Bool) {v : SVal}

/-- A strict serializer decodes what it encoded. -/
def RoundTrips (v : SVal) : Prop :=
  ∃ data, Encoder.encode escaped floatText v = .ok data ∧ decode fits true data = .ok v

theorem roundTrips_of_writes (h : Writes fits escaped floatText false v) :
    RoundTrips fits floatText escaped v ↔ rereads escaped false (leaves v) = true := by
  obtain ⟨w,hencode,hspells⟩ := h
  have hdata : Encoder.encode escaped floatText v = .ok w := by
    rw [Encoder.encode,hencode]
    rfl
  have hiff := decode_text_iff hspells
  constructor
  · rintro ⟨data,hencoded,hdecoded⟩
    obtain rfl := Except.ok.inj (hdata.symm.trans hencoded)
    exact hiff.mp hdecoded
  · exact fun hkept => ⟨w,hdata,hiff.mpr hkept⟩

/-- A tree is read back as it was exactly if all its leaves can be: no control characters, no string that looks
like a binary one, and with the flag no symbol beyond the basic plane and no number but a digit behind a symbol that
left the stream with `std::hex`. -/
theorem roundTrips_tree_iff (hv : Tree v) :
    RoundTrips fits floatText escaped v ↔ rereads escaped false (leaves v) = true :=
  roundTrips_of_writes fits floatText escaped (tree_writes hv false)

/-- A number in front of a symbol that is written with `std::hex`, and behind it. -/
theorem roundTrips_tree_number :
    (∀ fits floatText, RoundTrips fits floatText true (.arr [.int 10,.str (utf8 ['é'])])) ∧
      ∀ fits floatText, ¬ RoundTrips fits floatText true (.arr [.str (utf8 ['é']),.int 10]) := by
  have hint : Tree (.int 10) := .int (by decide) (by decide)
  have hfront : Tree (.arr [.int 10,.str (utf8 ['é'])]) := .arr (by simp [hint,Tree.str])
  have hbehind : Tree (.arr [.str (utf8 ['é']),.int 10]) := .arr (by simp [hint,Tree.str])
  constructor
  · exact fun fits floatText => (roundTrips_tree_iff fits floatText true hfront).mpr (by decide)
  · exact fun fits floatText h => absurd ((roundTrips_tree_iff fits floatText true hbehind).mp h) (by decide)

/-- Without the flag a control character is not read back, nor a string that looks like a binary one. With it a
symbol beyond the basic plane is not, nor a number behind a symbol. -/
theorem roundTrips_fails :
    (∀ fits floatText, ¬ RoundTrips fits floatText false (.str (utf8 [Char.ofNat 1])) ∧
      ¬ RoundTrips fits floatText false (.str (utf8 ['=','?','B','?'])) ∧
      ¬ RoundTrips fits floatText true (.str (utf8 [Char.ofNat 0x1f600])) ∧
      ¬ RoundTrips fits floatText true (.arr [.str (utf8 ['é']),.int 10])) ∧
      ¬ ∀ fits floatText escaped v, Tree v → RoundTrips fits floatText escaped v := by
  have hint : Tree (.int 10) := .int (by decide) (by decide)
  have hnumber : Tree (.arr [.str (utf8 ['é']),.int 10]) := .arr (by simp [hint,Tree.str])
  have hfails (fits : FloatRange) (floatText : Bytes → Bytes) {escaped : Bool} {v : SVal} (hv : Tree v)
      (h : rereads escaped false (leaves v) = false) : ¬ RoundTrips fits floatText escaped v := by
    rw [roundTrips_of_writes fits floatText escaped (tree_writes hv false),h]
    exact Bool.false_ne_true
  constructor
  · intro fits floatText
    exact ⟨hfails fits floatText (.str _) (by decide),hfails fits floatText (.str _) (by decide),
      hfails fits floatText (.str _) (by decide),hfails fits floatText hnumber (by decide)⟩
  · intro h
    have hstring : Tree (.str (utf8 [Char.ofNat 1])) := .str _
    exact hfails (fun _ => true) id hstring (by decide) (h (fun _ => true) id false _ hstring)

end RoundTrips

end JsonSerializer
end Tkeycoin
