import Tkeycoin.Amf3Serializer
import Tkeycoin.JsonRoundTrip

/-! What `Amf3Serializer` reads of a value that it wrote: both sides build the same table of strings. -/
namespace Tkeycoin
namespace Amf3

open Scanner TextStream
open JsonSerializer (utf8)

variable {data rest : Bytes} {strict : Bool} {α : Type}

section Rules

theorem catching_gives {context : Bytes → Bytes} {P Q : TextStream → Prop} {x : Decoder α} {a : α}
    (h : Gives P x a Q) : Gives P (catching context x) a Q := by
  apply h.of_run
  intro s r hr
  change catching context x s = .ok r
  rw [catching]
  split
  · next e he => exact absurd (he.symm.trans hr) nofun
  · exact hr

theorem map_gives {β : Type} {P Q : TextStream → Prop} {x : Decoder α} {a : α} (f : α → β) (h : Gives P x a Q) :
    Gives P (f <$> x) (f a) Q := by
  rw [map_eq_pure_bind]
  exact h.bind Gives.pure

theorem decodeToken_gives {token : UInt8} {msg : String} :
    Gives (Before data (token :: rest)) (decodeToken token msg) () (Before data rest) := by
  apply Gives.bind getChar_gives
  simp only [Option.getD_some,ne_eq,not_true_eq_false,if_false]
  exact Gives.pure

theorem low_bit (w : UInt32) : w &&& 1 = 1 ↔ w.toNat % 2 = 1 := by
  rw [← UInt32.toNat_inj,UInt32.toNat_and]
  change w.toNat &&& 1 = 1 ↔ _
  rw [Nat.and_one_is_mod]

theorem without_low_bit (w : UInt32) : (w >>> 1).toNat = w.toNat / 2 := by
  rw [UInt32.toNat_shiftRight]
  exact Nat.shiftRight_eq_div_pow _ 1

end Rules

section Symbols

variable {c : Char}

theorem leadByte_eq : ∀ b : UInt8, 0x80 ≤ b → b ≤ 0xf7 → leadByte b = JsonSerializer.leadByte b :=
  ScriptNum.forall_byte (by decide)

theorem followBytes_gives {follows : Bytes} (h : ∀ f ∈ follows, f &&& 0xc0 = 0x80) (part : UInt32) :
    Gives (Before data (follows ++ rest)) (followBytes follows.length part)
      (follows.foldl JsonSerializer.follow part) (Before data rest) := by
  induction follows generalizing part with
  | nil => exact Gives.pure
  | cons f follows ih =>
    apply Gives.bind eof_gives
    apply Gives.bind peekChar_gives
    simp only [if_pos (h f List.mem_cons_self)]
    apply Gives.bind ignore_gives
    exact ih (fun g hg => h g (List.mem_cons_of_mem _ hg)) _

theorem decodeUtf8Symbol_gives : Gives (Before data (String.utf8EncodeChar c ++ rest)) (decodeUtf8Symbol strict) c.val
    (Before data rest) := by
  by_cases hc : c.val ≤ 0x7f
  · obtain ⟨hlow,hval,hutf8⟩ := JsonSerializer.low_of_val hc
    rw [hutf8]
    apply Gives.bind eof_gives
    apply Gives.bind getChar_gives
    simp only [if_pos hlow,hval]
    exact Gives.pure
  · obtain ⟨lead,part,follows,hbytes,hlead,hfold,hlow,hhigh,hfollows⟩ :=
      (JsonSerializer.spelling_char c (UInt32.not_le.mp hc)).spelled
    have hbound : ¬ lead > 0xfd := UInt8.not_lt.mpr (UInt8.le_trans hhigh (by decide))
    rw [hbytes]
    apply Gives.bind eof_gives
    apply Gives.bind getChar_gives
    simp only [if_neg (UInt8.not_lt.mpr hlow),if_neg hbound,if_pos hhigh,leadByte_eq lead hlow hhigh,hlead]
    rw [← hfold]
    exact followBytes_gives hfollows part

theorem putUtf8Symbol_gives {P : TextStream → Prop} : Gives P (putUtf8Symbol c.val) (String.utf8EncodeChar c) P := by
  have hvalid : c.val ≤ 0x1fffff := by
    apply UInt32.le_iff_toNat_le.mpr
    have h := c.valid
    rcases h with h | ⟨-,h⟩
    · exact (Nat.le_of_lt h).trans (by decide)
    · exact (Nat.le_of_lt h).trans (by decide)
  rw [putUtf8Symbol,if_pos hvalid,JsonSerializer.putUnicodeSymbolAsUtf8_val]
  exact Gives.pure

/-- As many bytes are read as the symbols have. -/
theorem decodeSymbols_gives (cs : List Char) (hshort : (utf8 cs).length < 2^64) (str : Bytes) :
    Gives (Before data (utf8 cs ++ rest)) (loop (decodeStringSymbol strict) (str,(utf8 cs).length)) (str ++ utf8 cs)
      (Before data rest) := by
  apply loop_gives
  intro n hn
  induction cs generalizing str n with
  | nil =>
    cases n with
    | zero => omega
    | succ n =>
      rw [utf8,List.flatMap_nil,List.append_nil]
      exact iterate_ends Gives.pure
  | cons c cs ih =>
    have hcons : utf8 (c :: cs) = String.utf8EncodeChar c ++ utf8 cs := List.flatMap_cons
    have hpos : 0 < (String.utf8EncodeChar c).length := List.length_pos_of_ne_nil String.utf8EncodeChar_ne_nil
    rw [hcons,List.length_append] at hshort
    rw [hcons,List.length_append,List.length_append] at hn
    cases n with
    | zero => omega
    | succ n =>
      rw [hcons,List.append_assoc,← List.append_assoc str]
      have hsome : (String.utf8EncodeChar c ++ utf8 cs).length ≠ 0 := by
        rw [List.length_append]
        omega
      have hleft : ((String.utf8EncodeChar c ++ utf8 cs).length + 2^64 - (String.utf8EncodeChar c).length) % 2^64 =
          (utf8 cs).length := by
        rw [List.length_append]
        omega
      have hround : Gives (Before data (String.utf8EncodeChar c ++ (utf8 cs ++ rest)))
          (decodeStringSymbol strict (str,(String.utf8EncodeChar c ++ utf8 cs).length))
          (.inl (str ++ String.utf8EncodeChar c,(utf8 cs).length)) (Before data (utf8 cs ++ rest)) := by
        simp only [decodeStringSymbol,if_neg hsome]
        apply Gives.bind decodeUtf8Symbol_gives
        apply Gives.bind putUtf8Symbol_gives
        rw [hleft]
        exact Gives.pure
      exact iterate_goes hround (ih (by omega) _ n (by rw [List.length_append]; omega))

end Symbols

/-- The strings in a table behind one that was written or read. -/
def noted (table : List Bytes) (str : Bytes) : List Bytes :=
  if str ≠ [] ∧ str ∉ table then table ++ [str] else table

/-- A table with some of these strings, each once. -/
def Within (all : Finset Bytes) (ctx : Context) : Prop :=
  ctx.table.strings.Nodup ∧ ∀ s ∈ ctx.table.strings, s ∈ all

/-- Whatever is written in a context is read as `a` in one with the same strings, and both go on with the same
strings: those of the table, and these behind them. -/
def Follows (all : Finset Bytes) (these : List Bytes) (write : Context → Written)
    (read : ℕ → Context → Decoder (α × Context)) (a : α) : Prop :=
  ∀ ctx, Within all ctx → ∃ w ctx', write ctx = .ok (w,ctx') ∧ Within all ctx' ∧ these.length ≤ w.length ∧
    ctx'.table.strings = these.foldl noted ctx.table.strings ∧
    ∀ dctx : Context, dctx.table.strings = ctx.table.strings → ∀ (data rest : Bytes) (depth : ℕ), w.length ≤ depth →
      ∃ dctx' : Context, dctx'.table.strings = ctx'.table.strings ∧
        Gives (Before data (w ++ rest)) (read depth dctx) (a,dctx') (Before data rest)

section Strings

variable {all : Finset Bytes} {ctx : Context} {str : Bytes}

theorem Within.few (h : Within all ctx) : ctx.table.strings.length ≤ all.card := by
  rw [← List.toFinset_card_of_nodup h.1]
  apply Finset.card_le_card
  intro s hs
  exact h.2 s (List.mem_toFinset.mp hs)

theorem Within.noted {ctx' : Context} (h : Within all ctx) (hstr : str ≠ [] → str ∈ all)
    (hnoted : ctx'.table.strings = noted ctx.table.strings str) : Within all ctx' := by
  rw [Within,hnoted,Amf3.noted]
  split_ifs with hnew
  · refine ⟨List.nodup_append.mpr ⟨h.1,List.nodup_singleton str,?_⟩,?_⟩
    · intro s hs t ht hst
      rw [List.mem_singleton.mp ht] at hst
      exact hnew.2 (hst ▸ hs)
    · intro s hs
      rcases List.mem_append.mp hs with hs | hs
      · exact h.2 s hs
      · rw [List.mem_singleton.mp hs]
        exact hstr hnew.1
  · exact h

theorem strings_remember (hfew : ctx.table.strings.length ≤ 2^31) :
    (remember ctx str).table.strings = noted ctx.table.strings str := by
  have hiff : ctx.table.getIndex str = -1 ↔ str ∉ ctx.table.strings := by
    rcases ctx.table.getIndex_eq hfew with ⟨hnew,hindex⟩ | ⟨i,hi,hlt,hindex⟩
    · exact iff_of_true hindex hnew
    · exact iff_of_false (by omega) (not_not.mpr (List.mem_of_getElem? hi))
  rw [remember,noted]
  simp only [hiff]
  split_ifs
  · rfl
  · rfl

theorem encodeLength_reads {n : ℕ} (h : n < 2^28) :
    ∃ header, encodeLength n = .ok header ∧ Reads header (2 * n + 1) := by
  have hor : n <<< 1 ||| 1 = 2 * n + 1 := by
    rw [Nat.shiftLeft_eq,Nat.mul_comm]
    exact (Nat.two_pow_add_eq_or_of_lt (i := 1) (by decide : 1 < 2^1) n).symm
  have hcut : cut (((2 * n + 1) % 2^32 : ℕ) : ℤ) = 2 * n + 1 := by
    rw [cut]
    omega
  rw [encodeLength,hor]
  obtain ⟨header,hheader,hreads⟩ := encodeHeadlessInteger_reads (v := ((2 * n + 1) % 2^32 : ℕ)) (by omega)
  rw [hcut,Nat.mod_eq_of_lt (by omega)] at hreads
  exact ⟨header,hheader,hreads⟩

/-- A string in place is read and noted. -/
theorem decodeHeadlessString_value {header : Bytes} {cs : List Char} (hshort : (utf8 cs).length < 2^28)
    (hheader : Reads header (2 * (utf8 cs).length + 1)) : Gives (Before data (header ++ (utf8 cs ++ rest)))
      (decodeHeadlessString strict ctx) (utf8 cs,remember ctx (utf8 cs)) (Before data rest) := by
  obtain ⟨w,hw,hgives⟩ := hheader
  have hlow : w &&& 1 = 1 := (low_bit w).mpr (by omega)
  have hlength : (w >>> 1).toNat = (utf8 cs).length := by
    rw [without_low_bit]
    omega
  apply Gives.bind (catching_gives (hgives data _))
  simp only [if_pos hlow,hlength]
  exact Gives.bind (decodeSymbols_gives cs (hshort.trans (by decide)) []) Gives.pure

/-- A reference is read as the string of the table. -/
theorem decodeHeadlessString_reference {header : Bytes} {i : ℕ} (hi : ctx.table.strings[i]? = some str)
    (hheader : Reads header (2 * i)) : Gives (Before data (header ++ rest)) (decodeHeadlessString strict ctx)
      (str,remember ctx str) (Before data rest) := by
  obtain ⟨w,hw,hgives⟩ := hheader
  have hlow : w &&& 1 ≠ 1 := fun h => by
    have hodd := (low_bit w).mp h
    omega
  have hindex : (w >>> 1).toNat = i := by
    rw [without_low_bit]
    omega
  apply Gives.bind (catching_gives (hgives data _))
  simp only [if_neg hlow,hindex,hi]
  exact Gives.pure

theorem Reads.length_pos {header : Bytes} {n : ℕ} (h : Reads header n) : 0 < header.length := by
  obtain ⟨w,-,hgives⟩ := h
  by_contra hzero
  obtain rfl := List.length_eq_zero_iff.mp (Nat.eq_zero_of_not_pos hzero)
  obtain ⟨t,ht,-⟩ := hgives [] [] _ (before_ofBytes [])
  exact nomatch ht

theorem string_follows (hall : all.card ≤ 2^28) {cs : List Char} (hshort : (utf8 cs).length < 2^28)
    (hmem : utf8 cs ≠ [] → utf8 cs ∈ all) : Follows all [utf8 cs] (fun ctx => encodeHeadlessString ctx (utf8 cs))
      (fun _ => decodeHeadlessString strict) (utf8 cs) := by
  intro ctx hctx
  have hfew := hctx.few
  have hremember : ∀ dctx : Context, dctx.table.strings = ctx.table.strings →
      (remember dctx (utf8 cs)).table.strings = noted ctx.table.strings (utf8 cs) := by
    intro dctx hsame
    rw [strings_remember (by rw [hsame]; omega),hsame]
  rcases ctx.table.getIndex_eq (s := utf8 cs) (by omega) with ⟨hnew,hindex⟩ | ⟨i,hi,hlt,hindex⟩
  · obtain ⟨header,hheader,hreads⟩ := encodeLength_reads hshort
    by_cases hempty : utf8 cs = []
    · have hnoted : ctx.table.strings = noted ctx.table.strings (utf8 cs) :=
        (if_neg fun h => h.1 hempty).symm
      refine ⟨header,ctx,?_,hctx,hreads.length_pos,hnoted,fun dctx hsame data rest depth _ =>
        ⟨_,(hremember dctx hsame).trans hnoted.symm,?_⟩⟩
      · simp only [encodeHeadlessString,hindex,if_true,hheader]
        exact if_neg (not_not.mpr hempty)
      · have hgives : Gives (Before data (header ++ (utf8 cs ++ rest))) (decodeHeadlessString strict dctx)
            (utf8 cs,remember dctx (utf8 cs)) (Before data rest) := decodeHeadlessString_value hshort hreads
        rwa [hempty,List.nil_append,← hempty] at hgives
    · have hnoted : (ctx.table.put (utf8 cs)).strings = noted ctx.table.strings (utf8 cs) :=
        (if_pos ⟨hempty,hnew⟩).symm
      refine ⟨header ++ utf8 cs,{ ctx with table := ctx.table.put (utf8 cs) },?_,hctx.noted hmem hnoted,?_,hnoted,
        fun dctx hsame data rest depth _ => ⟨_,(hremember dctx hsame).trans hnoted.symm,?_⟩⟩
      · simp only [encodeHeadlessString,hindex,if_true,hheader]
        exact if_pos hempty
      · rw [List.length_append]
        exact hreads.length_pos.trans_le (Nat.le_add_right _ _)
      · rw [List.append_assoc]
        exact decodeHeadlessString_value hshort hreads
  · have hcut : cut (cut (2 * (i : ℤ)) : ℤ) = 2 * i := by
      rw [cut,cut]
      omega
    obtain ⟨header,hheader,hreads⟩ := encodeHeadlessInteger_reads (v := cut (2 * (i : ℤ))) (by omega)
    rw [hcut,Nat.mod_eq_of_lt (by omega)] at hreads
    have hnoted : ctx.table.strings = noted ctx.table.strings (utf8 cs) :=
      (if_neg fun h => h.2 (List.mem_of_getElem? hi)).symm
    refine ⟨header,ctx,?_,hctx,hreads.length_pos,hnoted,fun dctx hsame data rest depth _ =>
      ⟨_,(hremember dctx hsame).trans hnoted.symm,?_⟩⟩
    · have hne : (i : ℤ) ≠ -1 := by omega
      simp only [encodeHeadlessString,hindex,if_neg hne,hheader]
      rfl
    · rw [← hsame] at hi
      exact decodeHeadlessString_reference hi hreads

/-- The string behind all names. -/
theorem nil_follows (hall : all.card ≤ 2^28) : Follows all [[]] (fun ctx => encodeHeadlessString ctx [])
    (fun _ => decodeHeadlessString strict) [] :=
  @string_follows strict all hall [] (by decide) fun h => absurd rfl h

end Strings

/-- Values without numbers: texts of whole symbols, sizes that fit, and objects with their fields in the order of the
keys, none of which is empty. -/
inductive Tree : SVal → Prop
  | null : Tree .null
  | bool (value : Bool) : Tree (.bool value)
  | str {cs : List Char} (short : (utf8 cs).length < 2^28) : Tree (.str (utf8 cs))
  | binary {value : Bytes} (short : value.length < 2^28) : Tree (.binary value)
  | arr {elements : List SVal} (short : elements.length < 2^28) (trees : ∀ e ∈ elements, Tree e) : Tree (.arr elements)
  | obj {fields : List (Bytes × SVal)}
    (keys : ∀ f ∈ fields, f.1 ≠ [] ∧ ∃ cs, f.1 = utf8 cs ∧ (utf8 cs).length < 2^28)
    (sorted : fields.Pairwise fun f g => SObj.order f < SObj.order g) (trees : ∀ f ∈ fields, Tree f.2) :
    Tree (.obj fields)

mutual

/-- The strings of a value in the order in which they are written, with the empty ones behind names. -/
def strings : SVal → List Bytes
  | .str value => [value]
  | .arr elements => [] :: stringsOfElements elements
  | .obj fields => [] :: (stringsOfMembers fields ++ [[]])
  | _ => []

def stringsOfElements : List SVal → List Bytes
  | [] => []
  | element :: elements => strings element ++ stringsOfElements elements

def stringsOfMembers : List (Bytes × SVal) → List Bytes
  | [] => []
  | (key,value) :: fields => key :: (strings value ++ stringsOfMembers fields)

end

theorem mem_stringsOfElements {elements : List SVal} {e : SVal} {s : Bytes} (he : e ∈ elements) (hs : s ∈ strings e) :
    s ∈ stringsOfElements elements := by
  induction elements with
  | nil => exact absurd he List.not_mem_nil
  | cons d elements ih =>
    rw [stringsOfElements,List.mem_append]
    rcases List.mem_cons.mp he with rfl | he
    · exact .inl hs
    · exact .inr (ih he)

theorem mem_stringsOfMembers {fields : List (Bytes × SVal)} {f : Bytes × SVal} {s : Bytes} (hf : f ∈ fields)
    (hs : s = f.1 ∨ s ∈ strings f.2) : s ∈ stringsOfMembers fields := by
  induction fields with
  | nil => exact absurd hf List.not_mem_nil
  | cons g fields ih =>
    rw [stringsOfMembers,List.mem_cons,List.mem_append]
    rcases List.mem_cons.mp hf with rfl | hf
    · exact hs.imp_right .inl
    · exact .inr (.inr (ih hf))

section Trees

variable {β : Type} {all : Finset Bytes} {these more : List Bytes} {write write' : Context → Written}
  {float : Bytes → Except Fault Bytes}

theorem Follows.congr {read : ℕ → Context → Decoder (α × Context)} {a : α} (h : Follows all these write read a)
    (heq : ∀ ctx, write ctx = write' ctx) : Follows all these write' read a := by
  obtain rfl := funext heq
  exact h

theorem Follows.catching {context : Bytes → Bytes} {read : ℕ → Context → Decoder (α × Context)} {a : α}
    (h : Follows all these write read a) : Follows all these write (fun depth ctx => catching context (read depth ctx)) a := by
  intro ctx hctx
  obtain ⟨w,ctx',hwrite,hwithin,hlength,hstrings,hread⟩ := h ctx hctx
  refine ⟨w,ctx',hwrite,hwithin,hlength,hstrings,fun dctx hsame data rest depth hdepth => ?_⟩
  obtain ⟨dctx',hsame',hgives⟩ := hread dctx hsame data rest depth hdepth
  exact ⟨dctx',hsame',catching_gives hgives⟩

/-- What is written one after another is read one after another. -/
theorem Follows.bind {read : ℕ → Context → Decoder (β × Context)} {b : β} {a : α}
    (next : ℕ → β × Context → Decoder (α × Context)) (h : Follows all these write read b)
    (hnext : Follows all more write' (fun depth ctx => next depth (b,ctx)) a) :
    Follows all (these ++ more) (fun ctx => do
      let (x,ctx) ← write ctx
      let (y,ctx) ← write' ctx
      pure (x ++ y,ctx)) (fun depth ctx => read depth ctx >>= next depth) a := by
  intro ctx hctx
  obtain ⟨x,ctx₁,hwrite₁,hwithin₁,hlength₁,hstrings₁,hread₁⟩ := h ctx hctx
  obtain ⟨y,ctx₂,hwrite₂,hwithin₂,hlength₂,hstrings₂,hread₂⟩ := hnext ctx₁ hwithin₁
  refine ⟨x ++ y,ctx₂,?_,hwithin₂,?_,?_,fun dctx hsame data rest depth hdepth => ?_⟩
  · simp only [hwrite₁]
    change (do
      let (y,ctx) ← write' ctx₁
      pure (x ++ y,ctx)) = _
    rw [hwrite₂]
    rfl
  · rw [List.length_append,List.length_append]
    exact Nat.add_le_add hlength₁ hlength₂
  · rw [List.foldl_append,← hstrings₁,hstrings₂]
  · rw [List.length_append] at hdepth
    obtain ⟨dctx₁,hsame₁,hgives₁⟩ := hread₁ dctx hsame data (y ++ rest) depth (by omega)
    obtain ⟨dctx₂,hsame₂,hgives₂⟩ := hread₂ dctx₁ hsame₁ data rest depth (by omega)
    rw [List.append_assoc]
    exact ⟨dctx₂,hsame₂,hgives₁.bind hgives₂⟩

theorem nothing_follows {a : α} : Follows all [] (fun ctx => .ok ([],ctx)) (fun _ ctx => pure (a,ctx)) a :=
  fun ctx hctx => ⟨[],ctx,rfl,hctx,Nat.le_refl _,rfl,fun dctx hsame _ _ _ _ => ⟨dctx,hsame,Gives.pure⟩⟩

/-- A loop that has enough rounds for what is written. -/
theorem Follows.loop {body : ℕ → β → Decoder (β ⊕ (α × Context))} {state : Context → β} {a : α} {k : ℕ}
    (hk : k ≤ these.length)
    (h : ∀ n, k < n → Follows all these write (fun depth ctx => iterate (body depth) n (state ctx)) a) :
    Follows all these write (fun depth ctx => Scanner.loop (body depth) (state ctx)) a := by
  intro ctx hctx
  obtain ⟨w,ctx',hwrite,hwithin,hlength,hstrings,-⟩ := h (k + 1) (Nat.lt_succ_self k) ctx hctx
  refine ⟨w,ctx',hwrite,hwithin,hlength,hstrings,fun dctx hsame data rest depth hdepth => ?_⟩
  by_cases hsuffix : w ++ rest <:+ data
  · have hle := hsuffix.length_le
    rw [List.length_append] at hle
    obtain ⟨v,ctx'',hwrite',-,-,-,hread⟩ := h (data.length + 1) (by omega) ctx hctx
    obtain ⟨rfl,rfl⟩ := Prod.mk.inj (Except.ok.inj (hwrite'.symm.trans hwrite))
    obtain ⟨dctx',hsame',hgives⟩ := hread dctx hsame data rest depth hdepth
    refine ⟨dctx',hsame',fun s hs => ?_⟩
    have hloop : (Scanner.loop (body depth) (state dctx)).run s =
        (iterate (body depth) (data.length + 1) (state dctx)).run s := by
      rw [← hs.served]
      rfl
    rw [hloop]
    exact hgives s hs
  · exact ⟨ctx',rfl,fun s hs => absurd hs.suffix hsuffix⟩

theorem elements_follow {elements : List SVal}
    (h : ∀ e ∈ elements, Follows all (strings e) (fun ctx => encodeValue float ctx e) (decodeValue strict) e)
    (arr : List SVal) : Follows all (stringsOfElements elements) (fun ctx => encodeElements float ctx elements)
      (fun depth ctx => decodeElements (decodeValue strict depth) elements.length arr ctx) (arr ++ elements) := by
  induction elements generalizing arr with
  | nil =>
    rw [List.append_nil]
    exact nothing_follows
  | cons e elements ih =>
    rw [List.append_cons]
    have hrest := ih (fun d hd => h d (List.mem_cons_of_mem _ hd)) (arr ++ [e])
    exact Follows.bind (fun depth p => decodeElements (decodeValue strict depth) elements.length (arr ++ [p.1]) p.2)
      (h e List.mem_cons_self).catching hrest

/-- The rounds behind a key that was read. -/
def behindKey (strict : Bool) (value : Context → Decoder (SVal × Context)) (n : ℕ) (obj : List (Bytes × SVal))
    (p : Bytes × Context) : Decoder (SVal × Context) :=
  if p.1 = [] then pure (.obj obj,p.2)
  else Amf3.catching (fun e => text "Can't parse value of object field '" ++ p.1 ++ text "' ← " ++ what e) (value p.2) >>=
    fun q => iterate (decodeDynamic strict value) n (p.1,SObj.emplace p.1 q.1 obj,q.2)

theorem iterate_dynamic {value : Context → Decoder (SVal × Context)} (n : ℕ) (prevKey : Bytes)
    (obj : List (Bytes × SVal)) (ctx : Context) :
    iterate (decodeDynamic strict value) (n + 1) (prevKey,obj,ctx) =
      Amf3.catching (fun e => text "Can't parse key of object field (prev field: " ++ prevKey ++ text ") ← " ++ what e)
        (decodeHeadlessString strict ctx) >>= behindKey strict value n obj := by
  rw [iterate,decodeDynamic,bind_assoc]
  congr 1
  funext p
  rw [behindKey]
  split_ifs with hkey
  · simp only [if_pos hkey]
    exact pure_bind _ _
  · simp only [if_neg hkey]
    exact bind_assoc _ _ _

/-- Fields, and the empty key behind them. -/
def encodeAllMembers (float : Bytes → Except Fault Bytes) (fields : List (Bytes × SVal)) (ctx : Context) : Written := do
  let (members,ctx) ← encodeMembers float ctx fields
  let (final,ctx) ← encodeHeadlessString ctx []
  pure (members ++ final,ctx)

theorem encodeAllMembers_cons (ctx : Context) (key : Bytes) (value : SVal) (fields : List (Bytes × SVal)) :
    encodeAllMembers float ((key,value) :: fields) ctx = (do
      let (name,ctx) ← encodeHeadlessString ctx key
      let (y,ctx) ← (do
        let (first,ctx) ← encodeValue float ctx value
        let (more,ctx) ← encodeAllMembers float fields ctx
        pure (first ++ more,ctx))
      pure (name ++ y,ctx)) := by
  simp only [encodeAllMembers,encodeMembers,bind,Except.bind,pure,Except.pure]
  cases encodeHeadlessString ctx key with
  | error e => rfl
  | ok p =>
    dsimp only
    cases encodeValue float p.2 value with
    | error e => rfl
    | ok q =>
      dsimp only
      cases encodeMembers float q.2 fields with
      | error e => rfl
      | ok r =>
        dsimp only
        cases encodeHeadlessString r.2 [] with
        | error e => rfl
        | ok t => simp only [List.append_assoc]

theorem members_follow (hall : all.card ≤ 2^28) {fields : List (Bytes × SVal)}
    (hkeys : ∀ f ∈ fields, f.1 ≠ [] ∧ f.1 ∈ all ∧ ∃ cs, f.1 = utf8 cs ∧ (utf8 cs).length < 2^28)
    (h : ∀ f ∈ fields, Follows all (strings f.2) (fun ctx => encodeValue float ctx f.2) (decodeValue strict) f.2)
    (prevKey : Bytes) (obj : List (Bytes × SVal)) {n : ℕ} (hn : fields.length < n) :
    Follows all (stringsOfMembers fields ++ [[]]) (encodeAllMembers float fields)
      (fun depth ctx => iterate (decodeDynamic strict (decodeValue strict depth)) n (prevKey,obj,ctx))
      (.obj (fields.foldl (fun obj f => SObj.emplace f.1 f.2 obj) obj)) := by
  induction fields generalizing prevKey obj n with
  | nil =>
    cases n with
    | zero => omega
    | succ n =>
      simp only [iterate_dynamic]
      have hend : Follows all [] (fun ctx => .ok ([],ctx))
          (fun depth ctx => behindKey strict (decodeValue strict depth) n obj ([],ctx)) (.obj obj) := nothing_follows
      refine (Follows.bind (fun depth => behindKey strict (decodeValue strict depth) n obj)
        (nil_follows hall).catching hend).congr fun ctx => ?_
      simp only [encodeAllMembers,encodeMembers,bind,Except.bind,pure,Except.pure,List.append_nil,List.nil_append]
  | cons f fields ih =>
    obtain ⟨key,value⟩ := f
    obtain ⟨hne,hmem,cs,hcs,hshort⟩ := hkeys (key,value) List.mem_cons_self
    obtain rfl : key = utf8 cs := hcs
    cases n with
    | zero => omega
    | succ n =>
      simp only [iterate_dynamic]
      have hrest := ih (fun g hg => hkeys g (List.mem_cons_of_mem _ hg)) (fun g hg => h g (List.mem_cons_of_mem _ hg))
        (utf8 cs) (SObj.emplace (utf8 cs) value obj) (Nat.lt_of_succ_lt_succ hn)
      have hfield : Follows all (strings value ++ (stringsOfMembers fields ++ [[]])) (fun ctx => do
          let (first,ctx) ← encodeValue float ctx value
          let (more,ctx) ← encodeAllMembers float fields ctx
          pure (first ++ more,ctx)) (fun depth ctx => behindKey strict (decodeValue strict depth) n obj (utf8 cs,ctx))
          (.obj (fields.foldl (fun obj f => SObj.emplace f.1 f.2 obj) (SObj.emplace (utf8 cs) value obj))) := by
        simp only [behindKey,if_neg hne]
        exact Follows.bind (fun depth q => iterate (decodeDynamic strict (decodeValue strict depth)) n
          (utf8 cs,SObj.emplace (utf8 cs) q.1 obj,q.2)) (h (utf8 cs,value) List.mem_cons_self).catching hrest
      rw [stringsOfMembers,List.cons_append,List.append_assoc]
      exact (Follows.bind (fun depth => behindKey strict (decodeValue strict depth) n obj)
        (string_follows hall hshort fun _ => hmem).catching hfield).congr fun ctx =>
          (encodeAllMembers_cons ctx (utf8 cs) value fields).symm

theorem length_stringsOfMembers (fields : List (Bytes × SVal)) :
    fields.length ≤ (stringsOfMembers fields).length := by
  induction fields with
  | nil => exact Nat.le_refl _
  | cons f fields ih =>
    rw [stringsOfMembers,List.length_cons,List.length_cons,List.length_append]
    omega

/-- A value of one token, and what stands behind it. -/
theorem token_follows {v : SVal} {token : UInt8} {more : Bytes} (hwrite : ∀ ctx, encodeValue float ctx v = .ok (token :: more,ctx))
    (hread : ∀ (data rest : Bytes) (depth : ℕ) (ctx : Context), Gives (Before data (token :: (more ++ rest)))
      (decodeValue strict (depth + 1) ctx) (v,ctx) (Before data rest)) :
    Follows all [] (fun ctx => encodeValue float ctx v) (decodeValue strict) v := by
  intro ctx hctx
  refine ⟨_,ctx,hwrite ctx,hctx,Nat.zero_le _,rfl,fun dctx hsame data rest depth hdepth => ⟨dctx,hsame,?_⟩⟩
  cases depth with
  | zero => exact absurd hdepth (Nat.not_succ_le_zero _)
  | succ depth => exact hread data rest depth dctx

theorem null_follows : Follows all [] (fun ctx => encodeValue float ctx .null) (decodeValue strict) .null := by
  apply token_follows (fun _ => rfl)
  intro data rest depth ctx
  apply Gives.bind eof_gives
  apply Gives.bind peekChar_gives
  exact map_gives _ decodeToken_gives

theorem bool_follows (value : Bool) :
    Follows all [] (fun ctx => encodeValue float ctx (.bool value)) (decodeValue strict) (.bool value) := by
  cases value with
  | true =>
    apply token_follows (fun _ => rfl)
    intro data rest depth ctx
    apply Gives.bind eof_gives
    apply Gives.bind peekChar_gives
    exact map_gives _ (Gives.bind getChar_gives Gives.pure)
  | false =>
    apply token_follows (fun _ => rfl)
    intro data rest depth ctx
    apply Gives.bind eof_gives
    apply Gives.bind peekChar_gives
    exact map_gives _ (Gives.bind getChar_gives Gives.pure)

theorem decodeBinaryBytes_gives (value bin : Bytes) : Gives (Before data (value ++ rest))
    (decodeBinaryBytes value.length bin) (bin ++ value) (Before data rest) := by
  induction value generalizing bin with
  | nil =>
    rw [List.append_nil]
    exact Gives.pure
  | cons c value ih =>
    have hrest := ih (bin ++ [c])
    rw [List.append_assoc,List.singleton_append] at hrest
    apply Gives.bind eof_gives
    exact Gives.bind getChar_gives hrest

theorem binary_follows {value : Bytes} (short : value.length < 2^28) :
    Follows all [] (fun ctx => encodeValue float ctx (.binary value)) (decodeValue strict) (.binary value) := by
  obtain ⟨header,hheader,w,hw,hgives⟩ := encodeLength_reads short
  have hlow : w &&& 1 = 1 := (low_bit w).mpr (by omega)
  have hlength : (w >>> 1).toNat = value.length := by
    rw [without_low_bit]
    omega
  have hwrite : ∀ ctx, encodeValue float ctx (.binary value) = .ok (12 :: (header ++ value),ctx) := by
    intro ctx
    rw [encodeValue,hheader]
    rfl
  apply token_follows hwrite
  intro data rest depth ctx
  apply Gives.bind eof_gives
  apply Gives.bind peekChar_gives
  apply map_gives
  apply Gives.bind decodeToken_gives
  rw [List.append_assoc]
  apply Gives.bind (catching_gives (hgives data _))
  rw [if_pos hlow,hlength]
  exact Gives.bind (decodeBinaryBytes_gives value []) Gives.pure

theorem str_follows (hall : all.card ≤ 2^28) {cs : List Char} (short : (utf8 cs).length < 2^28)
    (hmem : utf8 cs ≠ [] → utf8 cs ∈ all) : Follows all [utf8 cs] (fun ctx => encodeValue float ctx (.str (utf8 cs)))
      (decodeValue strict) (.str (utf8 cs)) := by
  have hstring : Follows all [utf8 cs] (fun ctx => encodeHeadlessString ctx (utf8 cs))
      (fun _ => decodeHeadlessString strict) (utf8 cs) := string_follows hall short hmem
  intro ctx hctx
  obtain ⟨w,ctx',hwrite,hwithin,hlength,hstrings,hread⟩ := hstring ctx hctx
  refine ⟨6 :: w,ctx',?_,hwithin,hlength.trans (Nat.le_succ _),hstrings,fun dctx hsame data rest depth hdepth => ?_⟩
  · simp only [encodeValue,hwrite]
    rfl
  · obtain ⟨dctx',hsame',hgives⟩ := hread dctx hsame data rest depth (Nat.le_of_succ_le hdepth)
    refine ⟨dctx',hsame',?_⟩
    cases depth with
    | zero => exact absurd hdepth (Nat.not_succ_le_zero _)
    | succ depth =>
      apply Gives.bind eof_gives
      apply Gives.bind peekChar_gives
      apply Gives.bind decodeToken_gives
      exact Gives.bind hgives Gives.pure

theorem arr_follows (hall : all.card ≤ 2^28) {elements : List SVal} (short : elements.length < 2^28)
    (h : ∀ e ∈ elements, Follows all (strings e) (fun ctx => encodeValue float ctx e) (decodeValue strict) e) :
    Follows all (strings (.arr elements)) (fun ctx => encodeValue float ctx (.arr elements)) (decodeValue strict)
      (.arr elements) := by
  intro ctx hctx
  obtain ⟨header,hheader,w,hw,hgives⟩ := encodeLength_reads short
  have hlow : w &&& 1 = 1 := (low_bit w).mpr (by omega)
  have hlength : (w >>> 1).toNat = elements.length := by
    rw [without_low_bit]
    omega
  have hname : Follows all [[]] (fun ctx => encodeHeadlessString ctx []) (fun _ => decodeHeadlessString strict) [] :=
    nil_follows hall
  obtain ⟨name,ctx₁,hwrite₁,hwithin₁,hlength₁,hstrings₁,hread₁⟩ := hname ctx hctx
  obtain ⟨dense,ctx₂,hwrite₂,hwithin₂,hlength₂,hstrings₂,hread₂⟩ := elements_follow h [] ctx₁ hwithin₁
  rw [List.length_singleton] at hlength₁
  refine ⟨9 :: header ++ name ++ dense,ctx₂,?_,hwithin₂,?_,?_,fun dctx hsame data rest depth hdepth => ?_⟩
  · simp only [encodeValue,hheader,hwrite₁,hwrite₂,bind,Except.bind]
    rfl
  · rw [strings,List.length_cons,List.length_append,List.length_append]
    omega
  · rw [strings,List.foldl_cons,hstrings₂,hstrings₁]
    rfl
  · rw [List.length_append,List.length_append,List.length_cons] at hdepth
    cases depth with
    | zero => omega
    | succ depth =>
      obtain ⟨dctx₁,hsame₁,hgives₁⟩ := hread₁ dctx hsame data (dense ++ rest) depth (by omega)
      obtain ⟨dctx₂,hsame₂,hgives₂⟩ := hread₂ dctx₁ hsame₁ data rest depth (by omega)
      refine ⟨dctx₂,hsame₂,?_⟩
      rw [List.append_assoc,List.append_assoc,List.cons_append]
      apply Gives.bind eof_gives
      apply Gives.bind peekChar_gives
      apply Gives.bind decodeToken_gives
      apply Gives.bind (catching_gives (hgives data _))
      rw [if_pos hlow,hlength]
      have hround : Gives (Before data (name ++ (dense ++ rest)))
          (decodeAssociative strict (decodeValue strict depth) dctx) (.inr dctx₁) (Before data (dense ++ rest)) :=
        catching_gives (hgives₁.bind Gives.pure)
      have hloop : Gives (Before data (name ++ (dense ++ rest)))
          (Scanner.loop (decodeAssociative strict (decodeValue strict depth)) dctx) dctx₁ (Before data (dense ++ rest)) := by
        apply loop_gives
        intro n hn
        cases n with
        | zero => omega
        | succ n => exact iterate_ends hround
      exact hloop.bind (hgives₂.bind Gives.pure)

theorem encodeValue_obj (ctx : Context) (fields : List (Bytes × SVal)) : encodeValue float ctx (.obj fields) = (do
    let (name,ctx) ← encodeHeadlessString ctx []
    let (members,ctx) ← encodeAllMembers float fields ctx
    pure (10 :: 0x0b :: (name ++ members),ctx)) := by
  have hheader : encodeHeadlessInteger 0x0b = .ok [0x0b] := rfl
  simp only [encodeValue,hheader,encodeAllMembers,bind,Except.bind,pure,Except.pure]
  cases encodeHeadlessString ctx [] with
  | error e => rfl
  | ok p =>
    dsimp only
    cases encodeMembers float p.2 fields with
    | error e => rfl
    | ok q =>
      dsimp only
      cases encodeHeadlessString q.2 [] with
      | error e => rfl
      | ok r => simp only [List.cons_append,List.nil_append,List.append_assoc]

/-- The header of an object says that all its fields are dynamic. -/
theorem decodeTraits_gives {name : Bytes} {ctx ctx' : Context} {Q : TextStream → Prop}
    (hname : Gives (Before data (name ++ rest)) (decodeHeadlessString strict ctx) ([],ctx') Q) :
    Gives (Before data (0x0b :: (name ++ rest))) (decodeTraits strict ctx)
      (⟨[],true,false,[]⟩,{ ctx' with traits := ctx'.traits ++ [⟨[],true,false,[]⟩] }) Q := by
  obtain ⟨w,hw,hgives⟩ := reads_one (a := 0x0b) (by decide)
  obtain rfl : w = 11 := UInt32.toNat_inj.mp hw
  apply Gives.bind (hgives data (name ++ rest))
  exact hname.bind Gives.pure

theorem obj_follows (hall : all.card ≤ 2^28) {fields : List (Bytes × SVal)}
    (hkeys : ∀ f ∈ fields, f.1 ≠ [] ∧ f.1 ∈ all ∧ ∃ cs, f.1 = utf8 cs ∧ (utf8 cs).length < 2^28)
    (hsorted : fields.Pairwise fun f g => SObj.order f < SObj.order g)
    (h : ∀ f ∈ fields, Follows all (strings f.2) (fun ctx => encodeValue float ctx f.2) (decodeValue strict) f.2) :
    Follows all (strings (.obj fields)) (fun ctx => encodeValue float ctx (.obj fields)) (decodeValue strict)
      (.obj fields) := by
  intro ctx hctx
  have hmembers : Follows all (stringsOfMembers fields ++ [[]]) (encodeAllMembers float fields)
      (fun depth ctx => Scanner.loop (decodeDynamic strict (decodeValue strict depth)) ([],[],ctx)) (.obj fields) := by
    have hle := length_stringsOfMembers fields
    have hfields := SObj.foldl_emplace ((List.nil_append fields).symm ▸ hsorted)
    apply Follows.loop (k := fields.length)
    · rw [List.length_append]
      omega
    · intro n hn
      have hrounds : Follows all (stringsOfMembers fields ++ [[]]) (encodeAllMembers float fields)
          (fun depth ctx => iterate (decodeDynamic strict (decodeValue strict depth)) n ([],[],ctx)) _ :=
        members_follow hall hkeys h [] [] hn
      rwa [hfields] at hrounds
  have hname : Follows all [[]] (fun ctx => encodeHeadlessString ctx []) (fun _ => decodeHeadlessString strict) [] :=
    nil_follows hall
  obtain ⟨name,ctx₁,hwrite₁,hwithin₁,hlength₁,hstrings₁,hread₁⟩ := hname ctx hctx
  obtain ⟨members,ctx₂,hwrite₂,hwithin₂,hlength₂,hstrings₂,hread₂⟩ := hmembers ctx₁ hwithin₁
  rw [List.length_singleton] at hlength₁
  refine ⟨10 :: 0x0b :: (name ++ members),ctx₂,?_,hwithin₂,?_,?_,fun dctx hsame data rest depth hdepth => ?_⟩
  · simp only [encodeValue_obj,hwrite₁,hwrite₂,bind,Except.bind]
    rfl
  · have hsum : (name ++ members).length = name.length + members.length := List.length_append
    rw [strings,List.length_cons,List.length_cons,List.length_cons,hsum]
    omega
  · rw [strings,List.foldl_cons,hstrings₂,hstrings₁]
    rfl
  · rw [List.length_cons,List.length_cons,List.length_append] at hdepth
    cases depth with
    | zero => omega
    | succ depth =>
      obtain ⟨dctx₁,hsame₁,hgives₁⟩ := hread₁ dctx hsame data (members ++ rest) depth (by omega)
      obtain ⟨dctx₂,hsame₂,hgives₂⟩ := hread₂ { dctx₁ with traits := dctx₁.traits ++ [⟨[],true,false,[]⟩] } hsame₁ data
        rest depth (by omega)
      refine ⟨dctx₂,hsame₂,?_⟩
      rw [List.cons_append,List.cons_append,List.append_assoc]
      apply Gives.bind eof_gives
      apply Gives.bind peekChar_gives
      apply Gives.bind decodeToken_gives
      apply Gives.bind (catching_gives (decodeTraits_gives hgives₁))
      exact Gives.bind Gives.pure hgives₂

theorem value_follows (hall : all.card ≤ 2^28) {v : SVal} (hv : Tree v) (hmem : ∀ s ∈ strings v, s ≠ [] → s ∈ all) :
    Follows all (strings v) (fun ctx => encodeValue float ctx v) (decodeValue strict) v := by
  induction hv with
  | null => exact null_follows
  | bool value => exact bool_follows value
  | str short => exact str_follows hall short (hmem _ (List.mem_singleton_self _))
  | binary short => exact binary_follows short
  | @arr elements short trees ih =>
    apply arr_follows hall short
    intro e he
    apply ih e he
    intro s hs
    apply hmem
    exact List.mem_cons_of_mem _ (mem_stringsOfElements he hs)
  | @obj fields keys sorted trees ih =>
    apply obj_follows hall _ sorted
    · intro f hf
      apply ih f hf
      intro s hs
      apply hmem
      exact List.mem_cons_of_mem _ (List.mem_append_left _ (mem_stringsOfMembers hf (.inr hs)))
    · intro f hf
      obtain ⟨hne,hkey⟩ := keys f hf
      have hmember := List.mem_cons_of_mem [] (List.mem_append_left [[]] (mem_stringsOfMembers hf (.inl rfl)))
      exact ⟨hne,hmem f.1 hmember hne,hkey⟩

end Trees

/-- A value, its elements and fields, and theirs. -/
inductive Part : SVal → SVal → Prop
  | whole (v : SVal) : Part v v
  | element {u e : SVal} {elements : List SVal} (part : Part u e) (mem : e ∈ elements) : Part u (.arr elements)
  | field {u : SVal} {f : Bytes × SVal} {fields : List (Bytes × SVal)} (part : Part u f.2) (mem : f ∈ fields) :
    Part u (.obj fields)

section Parts

variable {u v : SVal}

theorem Part.tree (h : Part u v) (hv : Tree v) : Tree u := by
  induction h with
  | whole => exact hv
  | element part mem ih =>
    cases hv with
    | arr short trees => exact ih (trees _ mem)
  | field part mem ih =>
    cases hv with
    | obj keys sorted trees => exact ih (trees _ mem)

theorem Part.strings (h : Part u v) : ∀ s ∈ strings u, s ∈ Amf3.strings v := by
  induction h with
  | whole => exact fun s hs => hs
  | element part mem ih => exact fun s hs => List.mem_cons_of_mem _ (mem_stringsOfElements mem (ih s hs))
  | field part mem ih =>
    exact fun s hs => List.mem_cons_of_mem _ (List.mem_append_left _ (mem_stringsOfMembers mem (.inr (ih s hs))))

theorem of_mem_stringsOfElements {elements : List SVal} {s : Bytes} (h : s ∈ stringsOfElements elements) :
    ∃ e ∈ elements, s ∈ strings e := by
  induction elements with
  | nil => exact absurd h List.not_mem_nil
  | cons e elements ih =>
    rcases List.mem_append.mp h with h | h
    · exact ⟨e,List.mem_cons_self,h⟩
    · obtain ⟨d,hd,hs⟩ := ih h
      exact ⟨d,List.mem_cons_of_mem _ hd,hs⟩

theorem of_mem_stringsOfMembers {fields : List (Bytes × SVal)} {s : Bytes} (h : s ∈ stringsOfMembers fields) :
    ∃ f ∈ fields, s = f.1 ∨ s ∈ strings f.2 := by
  induction fields with
  | nil => exact absurd h List.not_mem_nil
  | cons f fields ih =>
    rw [stringsOfMembers,List.mem_cons,List.mem_append] at h
    rcases h with h | h | h
    · exact ⟨f,List.mem_cons_self,.inl h⟩
    · exact ⟨f,List.mem_cons_self,.inr h⟩
    · obtain ⟨g,hg,hs⟩ := ih h
      exact ⟨g,List.mem_cons_of_mem _ hg,hs⟩

/-- All strings of a tree are texts that fit. -/
theorem Tree.string (hv : Tree v) : ∀ s ∈ strings v, ∃ cs, s = utf8 cs ∧ (utf8 cs).length < 2^28 := by
  have hnil : ∃ cs, [] = utf8 cs ∧ (utf8 cs).length < 2^28 := ⟨[],rfl,by decide⟩
  induction hv with
  | null => exact List.forall_mem_nil _
  | bool value => exact List.forall_mem_nil _
  | @str cs short => exact List.forall_mem_singleton.mpr ⟨cs,rfl,short⟩
  | binary short => exact List.forall_mem_nil _
  | arr short trees ih =>
    rw [strings,List.forall_mem_cons]
    refine ⟨hnil,fun s hs => ?_⟩
    obtain ⟨e,he,hs⟩ := of_mem_stringsOfElements hs
    exact ih e he s hs
  | obj keys sorted trees ih =>
    rw [strings,List.forall_mem_cons]
    refine ⟨hnil,List.forall_mem_append.mpr ⟨fun s hs => ?_,List.forall_mem_singleton.mpr hnil⟩⟩
    obtain ⟨f,hf,rfl | hs⟩ := of_mem_stringsOfMembers hs
    · exact (keys f hf).2
    · exact ih f hf s hs

end Parts

/-- The strings of a value that may come into a table. -/
def stringSet (v : SVal) : Finset Bytes := (strings v).toFinset.erase []

/-- A value with nothing behind it. -/
theorem value_gives {w : Bytes} {v : SVal} {depth : ℕ} {dctx : Context}
    (hgives : Gives (Before w w) (decodeValue false depth .empty) (v,dctx) (Before w [])) :
    Gives (Before w w) (catching (fun e => text "Can't decode AMF ← " ++ what e) (do
      let (value,_) ← decodeValue false depth .empty
      let atEnd ← eof
      if !atEnd && false then fail "Redundant bytes after parsed data" else pure value)) v fun _ => True := by
  have hrest : Gives (Before w []) (do
      let atEnd ← eof
      if !atEnd && false then fail "Redundant bytes after parsed data" else pure v : Decoder SVal) v fun _ => True := by
    intro s _
    refine ⟨s,?_,trivial⟩
    change (if (!s.eofbit && false) = true then _ else (pure v : Decoder SVal)).run s = _
    rw [Bool.and_false]
    rfl
  exact catching_gives (hgives.bind hrest)

/-- Without `STRICT` nothing is asked of what stands behind a value. -/
theorem decode_of_gives {w : Bytes} {v : SVal} (h : ∀ depth, w.length ≤ depth → ∃ dctx,
    Gives (Before w (w ++ [])) (decodeValue false depth .empty) (v,dctx) (Before w [])) : decode false w = .ok v := by
  obtain ⟨dctx,hgives⟩ := h (w.length + 1) (Nat.le_succ _)
  rw [List.append_nil] at hgives
  obtain ⟨t,ht,-⟩ := value_gives hgives _ (before_ofBytes w)
  have hrun : (decodeStream false (w.length + 1)).run (.ofBytes w) = .ok (v,t) := ht
  rw [decode,hrun]
  rfl

/-- What is written of a tree is read as the same tree. At each value and each string in it both tables are the same
before, and the same behind. -/
theorem decode_encode_tree (float : Bytes → Except Fault Bytes) {v : SVal} (hv : Tree v) (hfew : (stringSet v).card ≤ 2^28) :
    (∃ w, encode float v = .ok w ∧ decode false w = .ok v) ∧
      (∀ u, Part u v → Follows (stringSet v) (strings u) (fun ctx => encodeValue float ctx u) (decodeValue false) u) ∧
      ∀ s ∈ strings v, Follows (stringSet v) [s] (fun ctx => encodeHeadlessString ctx s)
        (fun _ => decodeHeadlessString false) s := by
  have hmem : ∀ s ∈ strings v, s ≠ [] → s ∈ stringSet v :=
    fun s hs hne => Finset.mem_erase.mpr ⟨hne,List.mem_toFinset.mpr hs⟩
  refine ⟨?_,fun u hu => ?_,fun s hs => ?_⟩
  · have hfollows : Follows (stringSet v) (strings v) (fun ctx => encodeValue float ctx v) (decodeValue false) v :=
      value_follows hfew hv hmem
    obtain ⟨w,ctx,hwrite,-,-,-,hread⟩ := hfollows .empty ⟨List.nodup_nil,List.forall_mem_nil _⟩
    have hencode : encode float v = .ok w := by
      simp only [encode,hwrite]
    exact ⟨w,hencode,decode_of_gives fun depth hdepth => (hread .empty rfl w [] depth hdepth).imp fun _ h => h.2⟩
  · exact value_follows hfew (hu.tree hv) fun s hs hne => hmem s (hu.strings s hs) hne
  · obtain ⟨cs,rfl,hshort⟩ := hv.string s hs
    exact string_follows hfew hshort (hmem _ hs)

/-- The same string as an element, a key and a field. -/
def repeated : SVal := .arr [.str (utf8 ['a']),.obj [(utf8 ['a'],.str (utf8 ['a']))],.null]

theorem repeated_tree : Tree repeated := by
  have ha : Tree (.str (utf8 ['a'])) := .str (by decide)
  apply Tree.arr (by decide)
  simp only [List.forall_mem_cons]
  refine ⟨ha,?_,.null,List.forall_mem_nil _⟩
  apply Tree.obj
  · exact List.forall_mem_singleton.mpr ⟨by decide,['a'],rfl,by decide⟩
  · exact List.pairwise_singleton _ _
  · exact List.forall_mem_singleton.mpr ha

theorem decode_repeated : ∃ w, encode (fun _ => .error .undefined) repeated = .ok w ∧ decode false w = .ok repeated :=
  (decode_encode_tree _ repeated_tree (by decide)).1

end Amf3
end Tkeycoin
