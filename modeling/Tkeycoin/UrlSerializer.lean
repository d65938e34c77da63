import Tkeycoin.PercentEncoding

/-! `UrlSerializer`: the fields of an object under lines of keys. -/
namespace Tkeycoin
namespace UrlSerializer

open JsonSerializer (utf8)

def equal : UInt8 := 0x3d
def ampersand : UInt8 := 0x26
def openBrace : UInt8 := 0x5b
def closeBrace : UInt8 := 0x5d

/-- An output stream, where what is put goes over what is there. -/
structure OutStream where
  text : Bytes
  pos : ℕ

namespace OutStream

def empty : OutStream := ⟨[],0⟩

def put (os : OutStream) (w : Bytes) : OutStream :=
  ⟨os.text.take os.pos ++ w ++ os.text.drop (os.pos + w.length),os.pos + w.length⟩

/-- `seekp(-1, std::ios_base::cur)`. -/
def back (os : OutStream) : OutStream := { os with pos := os.pos - 1 }

end OutStream

section Encoding

-- how a double is written
variable (floatText : Bytes → Bytes)

mutual

def encodeValue (keyline : Bytes) : SVal → OutStream → Except Bytes OutStream
  | .str value, os => .ok (os.put (keyline ++ equal :: HttpUri.urlencode value))
  | .int value, os => .ok (os.put (keyline ++ equal :: text (toString value)))
  | .float literal, os => .ok (os.put (keyline ++ equal :: floatText literal))
  | .obj fields, os =>
    if fields.isEmpty then .ok os else (encodeFields keyline fields os).map OutStream.back
  | .arr elements, os =>
    if elements.isEmpty then .ok os else (encodeElements keyline 0 elements os).map OutStream.back
  | .bool value, os => .ok (os.put (keyline ++ equal :: text (if value then "*true*" else "*false*")))
  | .null, os => .ok (os.put (keyline ++ equal :: text "*null*"))
  | .binary _, os => .ok (os.put (text "*binary*"))
  | .undefined, _ => .error (text "Unknown value type")

def encodeFields (keyline : Bytes) : List (Bytes × SVal) → OutStream → Except Bytes OutStream
  | [], os => .ok os
  | (key,value) :: fields, os => do
    let line := if keyline = [] then key else keyline ++ [openBrace] ++ key ++ [closeBrace]
    let os ← encodeValue line value os
    encodeFields keyline fields (os.put [ampersand])

def encodeElements (keyline : Bytes) (index : ℕ) : List SVal → OutStream → Except Bytes OutStream
  | [], os => .ok os
  | element :: elements, os => do
    let os ← encodeValue (keyline ++ [openBrace] ++ text (toString index) ++ [closeBrace]) element os
    encodeElements keyline (index + 1) elements (os.put [ampersand])

end

def what (msg : Bytes) : Bytes := msg.takeWhile (· ≠ 0)

/-- What stands in the stream in the end. -/
def encode (value : SVal) : Except Bytes Bytes :=
  match encodeValue floatText [] value .empty with
  | .ok os => .ok os.text
  | .error e => .error (text "Can't encode into URI ← " ++ what e)

end Encoding

abbrev Decoded (α : Type) := Except (Failure Bytes) α

/-- The first key of a line, and the line behind it. -/
def splitKey (keyline : Bytes) : Decoded (Bytes × Bytes) :=
  if keyline.head? = some openBrace then
    if closeBrace ∈ keyline then
      .ok (keyline.tail.takeWhile (· ≠ closeBrace),(keyline.tail.dropWhile (· ≠ closeBrace)).tail)
    else .error (.thrown (text "Not found close brace"))
  else .ok (keyline.takeWhile (· ≠ openBrace),keyline.dropWhile (· ≠ openBrace))

/-- The field under a key becomes another value. -/
def replace (key : Bytes) (value : SVal) (obj : List (Bytes × SVal)) : List (Bytes × SVal) :=
  obj.map fun f => if f.1 = key then (key,value) else f

/-- Lines have no more keys than characters. -/
def emplace : ℕ → List (Bytes × SVal) → Bytes → Bytes → Decoded (List (Bytes × SVal))
  | 0, _, _, _ => .error .endless
  | depth+1, parent, keyline, val => do
    let (key,keyline) ← splitKey keyline
    let oKey ← HttpUri.urldecode key
    if keyline ≠ [] then
      match parent.lookup oKey with
      | none => .error (.thrown (text "Field '" ++ oKey ++ text "' not found"))
      | some (.obj object) =>
        let object ← emplace depth object keyline val
        pure (replace oKey (.obj object) parent)
      | some _ =>
        let object ← emplace depth [] keyline val
        pure (SObj.emplace oKey (.obj object) parent)
    else
      let oVal ← HttpUri.urldecode val
      pure (SObj.emplace oKey (.str oVal) parent)

/-- A space of the stream: `&`, and all other spaces but ` ` itself. -/
def isSpace (c : UInt8) : Bool := c == ampersand || (0x09 ≤ c && c ≤ 0x0d)

/-- What `std::istream_iterator<std::string>` gives. -/
def pairs (data : Bytes) : List Bytes := (data.splitOnP isSpace).filter (· ≠ [])

/-- Without a separator the whole pair is the key, and the value too. -/
def keyOf (pair : Bytes) : Bytes := pair.takeWhile (· ≠ equal)

def valueOf (pair : Bytes) : Bytes := if equal ∈ pair then (pair.dropWhile (· ≠ equal)).tail else pair

def decodePair (obj : List (Bytes × SVal)) (pair : Bytes) : Decoded (List (Bytes × SVal)) :=
  emplace ((keyOf pair).length + 1) obj (keyOf pair) (valueOf pair)

def decode (data : Bytes) : Decoded SVal :=
  match (pairs data).foldlM decodePair [] with
  | .ok obj => .ok (.obj obj)
  | .error (.thrown e) => .error (.thrown (text "Can't decode URI ← " ++ what e))
  | .error .endless => .error .endless

/-- A character that a key keeps. -/
def keeps (c : UInt8) : Bool :=
  !isSpace c && c != equal && c != openBrace && c != PercentEncoding.percent && c != 0x2b

section Keys

variable {obj : List (Bytes × SVal)} {keyline key rest val : Bytes}

/-- How long all keys are. -/
def weight (obj : List (Bytes × SVal)) : ℕ := (obj.map fun f => f.1.length).sum

/-- A line has one key, or all that it is split in is shorter. -/
theorem splitKey_cases (h : splitKey keyline = .ok (key,rest)) : (openBrace ∉ keyline ∧ key = keyline ∧ rest = []) ∨
    (openBrace ∈ keyline ∧ key.length < keyline.length) := by
  rw [splitKey] at h
  split_ifs at h with hhead hclose
  · obtain ⟨rfl,-⟩ := Prod.mk.inj (Except.ok.inj h)
    obtain ⟨tail,rfl⟩ : ∃ tail, keyline = openBrace :: tail := by
      cases keyline with
      | nil => exact absurd hhead nofun
      | cons c tail => exact ⟨tail,by rw [Option.some.inj hhead]⟩
    refine .inr ⟨List.mem_cons_self,?_⟩
    rw [List.tail_cons,List.length_cons]
    exact Nat.lt_succ_of_le (List.takeWhile_prefix _).length_le
  · obtain ⟨rfl,rfl⟩ := Prod.mk.inj (Except.ok.inj h)
    by_cases hmem : openBrace ∈ keyline
    · refine .inr ⟨hmem,?_⟩
      apply lt_of_le_of_ne (List.takeWhile_prefix _).length_le
      intro heq
      have hall : ∀ c ∈ keyline, decide (c ≠ openBrace) = true :=
        List.takeWhile_eq_self_iff.mp ((List.takeWhile_prefix _).eq_of_length heq)
      exact of_decide_eq_true (hall openBrace hmem) rfl
    · have hall : ∀ c ∈ keyline, decide (c ≠ openBrace) = true :=
        fun c hc => decide_eq_true fun heq => hmem (heq ▸ hc)
      exact .inl ⟨hmem,List.takeWhile_eq_self_iff.mpr hall,List.dropWhile_eq_nil_iff.mpr hall⟩

theorem splitKey_plain (h : openBrace ∉ keyline) : splitKey keyline = .ok (keyline,[]) := by
  have hall : ∀ c ∈ keyline, decide (c ≠ openBrace) = true :=
    fun c hc => decide_eq_true fun heq => h (heq ▸ hc)
  have hhead : ¬ keyline.head? = some openBrace := fun heq => h (List.mem_of_mem_head? heq)
  rw [splitKey,if_neg hhead,List.takeWhile_eq_self_iff.mpr hall,List.dropWhile_eq_nil_iff.mpr hall]

theorem plusToSpace_of_ne : ∀ c : UInt8, c ≠ 0x2b → HttpUri.plusToSpace c = c := fun _ hc => if_neg hc

theorem map_plusToSpace (h : 0x2b ∉ key) : key.map HttpUri.plusToSpace = key := by
  have hmap : key.map HttpUri.plusToSpace = key.map id :=
    List.map_congr_left fun c hc => plusToSpace_of_ne c fun heq => h (heq ▸ hc)
  rw [hmap,List.map_id]

theorem percent_mem_map : PercentEncoding.percent ∈ key.map HttpUri.plusToSpace ↔ PercentEncoding.percent ∈ key := by
  have hall : ∀ c : UInt8, HttpUri.plusToSpace c = PercentEncoding.percent → c = PercentEncoding.percent :=
    ScriptNum.forall_byte (by decide)
  rw [List.mem_map]
  constructor
  · rintro ⟨c,hc,heq⟩
    exact hall c heq ▸ hc
  · exact fun h => ⟨_,h,rfl⟩

theorem plus_not_mem_map : 0x2b ∉ key.map HttpUri.plusToSpace := by
  have hall : ∀ c : UInt8, HttpUri.plusToSpace c ≠ 0x2b := ScriptNum.forall_byte (by decide)
  intro h
  obtain ⟨c,-,hc⟩ := List.mem_map.mp h
  exact hall c hc

/-- A key that keeps its length has no percent sign. -/
theorem urldecode_length (h : HttpUri.urldecode key = .ok rest) : rest.length ≤ key.length ∧
    (rest.length = key.length → PercentEncoding.percent ∉ key ∧ rest = key.map HttpUri.plusToSpace) := by
  have hsettles := PercentEncoding.decode_settles (key.map HttpUri.plusToSpace)
  rw [HttpUri.urldecode] at h
  rw [h] at hsettles
  obtain ⟨hsame,hshorter⟩ : PercentEncoding.Decoded [] (key.map HttpUri.plusToSpace) rest := hsettles
  rw [percent_mem_map] at hsame hshorter
  rw [List.length_nil,Nat.zero_add,List.length_map] at hshorter
  by_cases hpercent : PercentEncoding.percent ∈ key
  · have hlt := hshorter hpercent
    exact ⟨Nat.le_of_lt hlt,fun heq => absurd heq (Nat.ne_of_lt hlt)⟩
  · obtain rfl := hsame hpercent
    rw [List.nil_append,List.length_map]
    exact ⟨Nat.le_refl _,fun _ => ⟨hpercent,rfl⟩⟩

theorem urldecode_plain (hpercent : PercentEncoding.percent ∉ key) (hplus : 0x2b ∉ key) :
    HttpUri.urldecode key = .ok key := by
  rw [HttpUri.urldecode,map_plusToSpace hplus]
  exact PercentEncoding.decode_plain hpercent

end Keys

section Fields

variable {obj : List (Bytes × SVal)} {key : Bytes} {value : SVal}

/-- Strings under keys in their order. -/
structure Sound (obj : List (Bytes × SVal)) : Prop where
  flat : ∀ f ∈ obj, ∃ s, f.2 = .str s
  sorted : obj.Pairwise fun f g => SObj.order f < SObj.order g

theorem mem_emplace {f : Bytes × SVal} (h : f ∈ SObj.emplace key value obj) : f ∈ obj ∨ f = (key,value) := by
  rcases SObj.emplace_perm key value obj with heq | hperm
  · exact .inl (heq ▸ h)
  · exact (List.mem_append.mp (hperm.subset h)).imp_right List.mem_singleton.mp

theorem order_injective {f g : Bytes × SVal} (h : SObj.order f = SObj.order g) : f.1 = g.1 :=
  List.map_injective_iff.mpr (fun _ _ => UInt8.toNat_inj.mp) h

theorem sorted_emplace (h : obj.Pairwise fun f g => SObj.order f < SObj.order g) :
    (SObj.emplace key value obj).Pairwise fun f g => SObj.order f < SObj.order g := by
  induction obj with
  | nil => exact List.pairwise_singleton _ _
  | cons field obj ih =>
    obtain ⟨hbelow,htail⟩ := List.pairwise_cons.mp h
    rw [SObj.emplace]
    split_ifs with heq hlt
    · exact h
    · refine List.pairwise_cons.mpr ⟨?_,h⟩
      intro g hg
      rcases List.mem_cons.mp hg with rfl | hg
      · exact hlt
      · exact lt_trans hlt (hbelow g hg)
    · refine List.pairwise_cons.mpr ⟨?_,ih htail⟩
      intro g hg
      rcases mem_emplace hg with hg | rfl
      · exact hbelow g hg
      · apply lt_of_le_of_ne (not_lt.mp hlt)
        intro horder
        exact heq (order_injective (f := (key,value)) horder.symm)

theorem emplace_of_mem (h : obj.Pairwise fun f g => SObj.order f < SObj.order g) {f : Bytes × SVal} (hf : f ∈ obj)
    (hkey : f.1 = key) : SObj.emplace key value obj = obj := by
  induction obj with
  | nil => exact absurd hf List.not_mem_nil
  | cons field obj ih =>
    obtain ⟨hbelow,htail⟩ := List.pairwise_cons.mp h
    rw [SObj.emplace]
    split_ifs with heq hlt
    · rfl
    · rcases List.mem_cons.mp hf with rfl | hf
      · exact absurd hkey.symm heq
      · have horder : SObj.order field < SObj.order f := hbelow f hf
        rw [SObj.order,SObj.order,hkey] at horder
        exact absurd hlt (lt_asymm horder)
    · rcases List.mem_cons.mp hf with rfl | hf
      · exact absurd hkey.symm heq
      · rw [ih htail hf]

theorem weight_emplace : weight (SObj.emplace key value obj) ≤ weight obj + key.length := by
  rcases SObj.emplace_perm key value obj with heq | hperm
  · rw [heq]
    exact Nat.le_add_right _ _
  · rw [weight,(hperm.map _).sum_eq,List.map_append,List.sum_append]
    exact Nat.le_refl _

theorem Sound.emplace {s : Bytes} (h : Sound obj) : Sound (SObj.emplace key (.str s) obj) where
  flat f hf := by
    rcases mem_emplace hf with hf | rfl
    · exact h.flat f hf
    · exact ⟨s,rfl⟩
  sorted := sorted_emplace h.sorted

end Fields

section Lines

variable {obj obj' : List (Bytes × SVal)} {keyline val : Bytes}

/-- What a line of keys does to an object of strings. -/
inductive Emplaced (keyline : Bytes) (obj : List (Bytes × SVal)) : List (Bytes × SVal) → Prop
  | kept (nested : openBrace ∈ keyline) : Emplaced keyline obj obj
  | put {key s : Bytes} (length : key.length ≤ keyline.length)
    (plain : key.length = keyline.length → openBrace ∉ keyline ∧ PercentEncoding.percent ∉ keyline ∧
      key = keyline.map HttpUri.plusToSpace) : Emplaced keyline obj (SObj.emplace key (.str s) obj)

theorem emplaced {depth : ℕ} (hobj : Sound obj) (h : emplace depth obj keyline val = .ok obj') :
    Emplaced keyline obj obj' := by
  cases depth with
  | zero => exact nomatch h
  | succ depth =>
    rw [emplace] at h
    obtain ⟨⟨key,rest⟩,hsplit,h⟩ := except_bind_ok h
    obtain ⟨oKey,hkey,h⟩ := except_bind_ok h
    by_cases hrest : rest ≠ []
    · simp only [if_pos hrest] at h
      have hnested : openBrace ∈ keyline := by
        rcases splitKey_cases hsplit with ⟨-,-,hnil⟩ | ⟨hmem,-⟩
        · exact absurd hnil hrest
        · exact hmem
      cases hlookup : obj.lookup oKey with
      | none =>
        simp only [hlookup] at h
        exact nomatch h
      | some found =>
        obtain ⟨front,back,hobj',-⟩ := List.lookup_eq_some_iff.mp hlookup
        have hmem : (oKey,found) ∈ obj := hobj' ▸ List.mem_append_right _ List.mem_cons_self
        obtain ⟨s,hs⟩ := hobj.flat _ hmem
        obtain rfl : found = .str s := hs
        simp only [hlookup] at h
        obtain ⟨object,-,h⟩ := except_bind_ok h
        rw [emplace_of_mem hobj.sorted hmem rfl] at h
        obtain rfl := Except.ok.inj h
        exact .kept hnested
    · simp only [if_neg hrest] at h
      obtain ⟨oVal,-,h⟩ := except_bind_ok h
      obtain rfl := Except.ok.inj h
      obtain ⟨hlength,hplain⟩ := urldecode_length hkey
      rcases splitKey_cases hsplit with ⟨hmem,rfl,-⟩ | ⟨-,hshort⟩
      · exact .put hlength fun heq => ⟨hmem,hplain heq⟩
      · exact .put (by omega) fun heq => by omega

theorem Emplaced.sound (hobj : Sound obj) (h : Emplaced keyline obj obj') : Sound obj' := by
  cases h with
  | kept nested => exact hobj
  | put length plain => exact hobj.emplace

/-- A key line adds no more than its own length, and that much only as one plain key. -/
theorem Emplaced.weight (h : Emplaced keyline obj obj') : weight obj' ≤ weight obj + keyline.length ∧
    (weight obj' = weight obj + keyline.length → openBrace ∉ keyline ∧ PercentEncoding.percent ∉ keyline ∧
      ∀ f ∈ obj', f ∈ obj ∨ 0x2b ∉ f.1) := by
  cases h with
  | kept nested =>
    have hlength := List.length_pos_of_mem nested
    exact ⟨by omega,fun heq => by omega⟩
  | @put key s length plain =>
    have hweight : UrlSerializer.weight (SObj.emplace key (.str s) obj) ≤ UrlSerializer.weight obj + key.length :=
      weight_emplace
    refine ⟨by omega,fun heq => ?_⟩
    obtain ⟨hbrace,hpercent,hkey⟩ := plain (by omega)
    refine ⟨hbrace,hpercent,fun f hf => ?_⟩
    rcases mem_emplace hf with hf | rfl
    · exact .inl hf
    · exact .inr (hkey ▸ plus_not_mem_map)

/-- How long the keys of all pairs are. -/
def keylines (pieces : List Bytes) : ℕ := (pieces.map fun pair => (keyOf pair).length).sum

theorem foldlM_decodePair {pieces : List Bytes} (hobj : Sound obj) (h : pieces.foldlM decodePair obj = .ok obj') :
    Sound obj' ∧ weight obj' ≤ weight obj + keylines pieces ∧
    (weight obj' = weight obj + keylines pieces →
      (∀ pair ∈ pieces, openBrace ∉ keyOf pair ∧ PercentEncoding.percent ∉ keyOf pair) ∧
        ∀ f ∈ obj', f ∈ obj ∨ 0x2b ∉ f.1) := by
  induction pieces generalizing obj with
  | nil =>
    obtain rfl := Except.ok.inj h
    exact ⟨hobj,Nat.le_refl _,fun _ => ⟨List.forall_mem_nil _,fun f hf => .inl hf⟩⟩
  | cons pair pieces ih =>
    rw [List.foldlM_cons] at h
    obtain ⟨next,hpair,h⟩ := except_bind_ok h
    have hput := emplaced hobj hpair
    obtain ⟨hsound,hle,heq⟩ := ih (hput.sound hobj) h
    obtain ⟨hle',heq'⟩ := hput.weight
    have hcons : keylines (pair :: pieces) = (keyOf pair).length + keylines pieces := List.sum_cons
    refine ⟨hsound,by omega,fun hall => ?_⟩
    obtain ⟨hbrace,hpercent,hnext⟩ := heq' (by omega)
    obtain ⟨hpieces,hobj'⟩ := heq (by omega)
    refine ⟨List.forall_mem_cons.mpr ⟨⟨hbrace,hpercent⟩,hpieces⟩,fun f hf => ?_⟩
    rcases hobj' f hf with hf | hplus
    · exact hnext f hf
    · exact .inr hplus

end Lines

section Pieces

variable {key encoded : Bytes}

theorem keylines_pairs (data : Bytes) : keylines (pairs data) = keylines (data.splitOnP isSpace) := by
  rw [pairs]
  induction data.splitOnP isSpace with
  | nil => rfl
  | cons pair pieces ih =>
    have hcons : keylines (pair :: pieces) = (keyOf pair).length + keylines pieces := List.sum_cons
    by_cases hpair : pair = []
    · subst hpair
      rw [List.filter_cons_of_neg (by simp),ih,hcons]
      exact (Nat.zero_add _).symm
    · rw [List.filter_cons_of_pos (by simpa using hpair),hcons,← ih]
      exact List.sum_cons

/-- A key is cut at its spaces and at the first `=`. -/
theorem keylines_key (key : Bytes) (hencoded : ∀ c ∈ encoded, isSpace c = false) :
    keylines ((key ++ equal :: encoded).splitOnP isSpace) ≤ key.length ∧
    (keylines ((key ++ equal :: encoded).splitOnP isSpace) = key.length →
      ∀ c ∈ key, isSpace c = false ∧ c ≠ equal) := by
  induction key with
  | nil =>
    have hall : ∀ c ∈ equal :: encoded, isSpace c = false := List.forall_mem_cons.mpr ⟨rfl,hencoded⟩
    rw [List.nil_append,List.splitOnP_eq_singleton hall]
    exact ⟨Nat.le_refl _,fun _ => nofun⟩
  | cons c key ih =>
    obtain ⟨hle,heq⟩ := ih
    rw [List.cons_append,List.splitOnP_cons_eq_if_modifyHead,List.length_cons]
    cases hspace : isSpace c with
    | true =>
      have hnil : keylines ([] :: (key ++ equal :: encoded).splitOnP isSpace) =
          keylines ((key ++ equal :: encoded).splitOnP isSpace) := by
        rw [keylines,List.map_cons,List.sum_cons]
        exact Nat.zero_add _
      rw [if_pos rfl,hnil]
      exact ⟨by omega,fun h => by omega⟩
    | false =>
      rw [if_neg Bool.false_ne_true]
      obtain ⟨piece,pieces,hsplit⟩ := List.exists_cons_of_ne_nil (List.splitOnP_ne_nil isSpace (key ++ equal :: encoded))
      have hcons : ∀ p, keylines (p :: pieces) = (keyOf p).length + keylines pieces := fun p => List.sum_cons
      rw [hsplit,hcons] at hle heq
      rw [hsplit,List.modifyHead_cons,hcons]
      by_cases hc : c = equal
      · have hkey : (keyOf (c :: piece)).length = 0 := by rw [keyOf,List.takeWhile_cons_of_neg (by simpa using hc)]; rfl
        exact ⟨by omega,fun h => by omega⟩
      · have hkey : (keyOf (c :: piece)).length = (keyOf piece).length + 1 := by
          rw [keyOf,List.takeWhile_cons_of_pos (by simpa using hc),List.length_cons]
          rfl
        exact ⟨by omega,fun h => List.forall_mem_cons.mpr ⟨⟨hspace,hc⟩,heq (by omega)⟩⟩

theorem encoded_plain (h : PercentEncoding.Encoded encoded) : ∀ c ∈ encoded, isSpace c = false := by
  have hplain : ∀ c : UInt8, PercentEncoding.unreserved c = true → isSpace c = false := ScriptNum.forall_byte (by decide)
  have hdigit : ∀ c : UInt8, (PercentEncoding.hexValue c).isSome → isSpace c = false :=
    ScriptNum.forall_byte (by decide)
  induction h with
  | nil => exact nofun
  | plain char more ih => exact List.forall_mem_cons.mpr ⟨hplain _ char,ih⟩
  | triple digits more ih =>
    exact List.forall_mem_cons.mpr ⟨rfl,List.forall_mem_cons.mpr ⟨hdigit _ digits.1,
      List.forall_mem_cons.mpr ⟨hdigit _ digits.2,ih⟩⟩⟩

theorem urlencode_plain (value : Bytes) : ∀ c ∈ HttpUri.urlencode value, isSpace c = false :=
  encoded_plain (PercentEncoding.encode_encoded value)

theorem pairs_append (front back : Bytes) : pairs (front ++ ampersand :: back) = pairs front ++ pairs back := by
  have hsep : isSpace ampersand = true := rfl
  rw [pairs,pairs,pairs,List.splitOnP_append_cons front back hsep,List.filter_append]

/-- What is written of a field. -/
def pairOf (f : Bytes × Bytes) : Bytes := f.1 ++ equal :: HttpUri.urlencode f.2

def fieldOf (f : Bytes × Bytes) : Bytes × SVal := (f.1,.str f.2)

def lines (strings : List (Bytes × Bytes)) : Bytes := strings.flatMap fun f => pairOf f ++ [ampersand]

theorem lines_cons (f : Bytes × Bytes) (strings : List (Bytes × Bytes)) :
    lines (f :: strings) = pairOf f ++ ampersand :: lines strings := by
  rw [lines,List.flatMap_cons,List.append_assoc,List.singleton_append]
  rfl

theorem keyOf_pairOf {f : Bytes × Bytes} (h : equal ∉ f.1) : keyOf (pairOf f) = f.1 := by
  have hall : ∀ c ∈ f.1, decide (c ≠ equal) = true := fun c hc => decide_eq_true fun heq => h (heq ▸ hc)
  rw [keyOf,pairOf,List.takeWhile_append_of_pos hall,List.takeWhile_cons_of_neg (by simp),List.append_nil]

theorem valueOf_pairOf {f : Bytes × Bytes} (h : equal ∉ f.1) : valueOf (pairOf f) = HttpUri.urlencode f.2 := by
  have hall : ∀ c ∈ f.1, decide (c ≠ equal) = true := fun c hc => decide_eq_true fun heq => h (heq ▸ hc)
  have hmem : equal ∈ pairOf f := List.mem_append_right _ List.mem_cons_self
  rw [valueOf,if_pos hmem,pairOf,List.dropWhile_append_of_pos hall,List.dropWhile_cons_of_neg (by simp),
    List.tail_cons]

/-- Fields without spaces in their keys are read as they were written. -/
theorem pairs_lines {strings : List (Bytes × Bytes)} (h : ∀ f ∈ strings, ∀ c ∈ f.1, isSpace c = false) :
    pairs (lines strings) = strings.map pairOf := by
  induction strings with
  | nil => rfl
  | cons f strings ih =>
    obtain ⟨hf,hstrings⟩ := List.forall_mem_cons.mp h
    have hall : ∀ c ∈ pairOf f, isSpace c = false := by
      intro c hc
      rcases List.mem_append.mp hc with hc | hc
      · exact hf c hc
      · rcases List.mem_cons.mp hc with rfl | hc
        · rfl
        · exact urlencode_plain _ c hc
    have hne : pairOf f ≠ [] := List.append_ne_nil_of_right_ne_nil _ (List.cons_ne_nil _ _)
    rw [lines_cons,pairs_append,ih hstrings,List.map_cons,pairs,
      List.splitOnP_eq_singleton hall,List.filter_cons_of_pos (by simpa using hne)]
    rfl

theorem keylines_lines (strings : List (Bytes × Bytes)) :
    keylines (pairs (lines strings)) ≤ weight (strings.map fieldOf) ∧
    (keylines (pairs (lines strings)) = weight (strings.map fieldOf) →
      ∀ f ∈ strings, ∀ c ∈ f.1, isSpace c = false ∧ c ≠ equal) := by
  induction strings with
  | nil => exact ⟨Nat.le_refl _,fun _ => nofun⟩
  | cons f strings ih =>
    obtain ⟨hle,heq⟩ := ih
    obtain ⟨hle',heq'⟩ := keylines_key f.1 (urlencode_plain f.2)
    have hweight : weight ((f :: strings).map fieldOf) = f.1.length + weight (strings.map fieldOf) := List.sum_cons
    have hkeys : keylines (pairs (lines (f :: strings))) =
        keylines ((f.1 ++ equal :: HttpUri.urlencode f.2).splitOnP isSpace) +
          keylines (pairs (lines strings)) := by
      rw [lines_cons,pairs_append,keylines,List.map_append,
        List.sum_append,← keylines,← keylines,keylines_pairs (pairOf f)]
      rfl
    rw [hkeys,hweight]
    exact ⟨by omega,fun h => List.forall_mem_cons.mpr ⟨heq' (by omega),heq (by omega)⟩⟩

end Pieces

section RoundTrips

variable {floatText : Bytes → Bytes} {obj fields : List (Bytes × SVal)} {strings : List (Bytes × Bytes)}

theorem put_end {os : OutStream} (h : os.pos = os.text.length) (w : Bytes) :
    os.put w = ⟨os.text ++ w,(os.text ++ w).length⟩ := by
  rw [OutStream.put,h,List.take_length,List.drop_eq_nil_of_le (Nat.le_add_right _ _),List.append_nil,
    List.length_append]

theorem encodeFields_strings {os : OutStream} (h : os.pos = os.text.length) :
    ∃ pos, encodeFields floatText [] (strings.map fieldOf) os =
      .ok ⟨os.text ++ lines strings,pos⟩ := by
  induction strings generalizing os with
  | nil =>
    refine ⟨os.pos,?_⟩
    rw [lines,List.flatMap_nil,List.append_nil]
    rfl
  | cons f strings ih =>
    have hpair := put_end h (pairOf f)
    have hline : (os.put (pairOf f)).put [ampersand] =
        ⟨os.text ++ pairOf f ++ [ampersand],(os.text ++ pairOf f ++ [ampersand]).length⟩ := by
      rw [hpair]
      exact put_end rfl [ampersand]
    have hend : ((os.put (pairOf f)).put [ampersand]).pos = ((os.put (pairOf f)).put [ampersand]).text.length := by
      rw [hline]
    obtain ⟨pos,hfields⟩ := ih hend
    refine ⟨pos,?_⟩
    rw [hline] at hfields
    have htext : os.text ++ lines (f :: strings) = os.text ++ pairOf f ++ [ampersand] ++ lines strings := by
      rw [lines_cons,List.append_cons,← List.append_assoc,← List.append_assoc]
    rw [htext,List.map_cons]
    change encodeFields floatText [] (strings.map fieldOf) ((os.put (pairOf f)).put [ampersand]) = _
    rw [hline]
    exact hfields

/-- Strings are written under their keys as these are. -/
theorem encode_strings (strings : List (Bytes × Bytes)) :
    encode floatText (.obj (strings.map fieldOf)) = .ok (lines strings) := by
  cases strings with
  | nil => rfl
  | cons f strings =>
    obtain ⟨pos,hfields⟩ : ∃ pos, encodeFields floatText [] ((f :: strings).map fieldOf) .empty =
      .ok ⟨OutStream.empty.text ++ lines (f :: strings),pos⟩ := encodeFields_strings rfl
    have hvalue : encodeValue floatText [] (.obj ((f :: strings).map fieldOf)) .empty =
        (encodeFields floatText [] ((f :: strings).map fieldOf) .empty).map OutStream.back := rfl
    rw [encode,hvalue,hfields]
    rfl

theorem strings_of_sound (h : Sound obj) : ∃ strings : List (Bytes × Bytes), obj = strings.map fieldOf := by
  obtain ⟨hflat,-⟩ := h
  induction obj with
  | nil => exact ⟨[],rfl⟩
  | cons f obj ih =>
    obtain ⟨⟨s,hs⟩,hobj⟩ := List.forall_mem_cons.mp hflat
    obtain ⟨strings,rfl⟩ := ih hobj
    refine ⟨(f.1,s) :: strings,?_⟩
    rw [List.map_cons,fieldOf,← hs]

theorem decode_sound {data : Bytes} (h : decode data = .ok (.obj fields)) :
    (pairs data).foldlM decodePair [] = .ok fields := by
  rw [decode] at h
  cases hfold : (pairs data).foldlM decodePair [] with
  | ok obj =>
    simp only [hfold] at h
    obtain rfl := SVal.obj.inj (Except.ok.inj h)
    rfl
  | error e =>
    simp only [hfold] at h
    cases e <;> exact nomatch h

theorem sound_nil : Sound [] := ⟨nofun,List.Pairwise.nil⟩

/-- Only objects of strings are ever decoded. -/
theorem decode_flat {data : Bytes} (h : decode data = .ok (.obj fields)) : Sound fields :=
  (foldlM_decodePair sound_nil (decode_sound h)).1

theorem keeps_iff {c : UInt8} : keeps c = true ↔
    isSpace c = false ∧ c ≠ equal ∧ c ≠ openBrace ∧ c ≠ PercentEncoding.percent ∧ c ≠ 0x2b := by
  simp [keeps,and_assoc]

/-- Keys that come back hold nothing that the format uses. -/
theorem keeps_of_decode (h : decode (lines strings) =
    .ok (.obj (strings.map fieldOf))) : ∀ f ∈ strings, ∀ c ∈ f.1, keeps c = true := by
  obtain ⟨-,hle,heq⟩ := foldlM_decodePair sound_nil (decode_sound h)
  obtain ⟨hle',heq'⟩ := keylines_lines strings
  have hnil : weight [] = 0 := rfl
  have hplain := heq' (by omega)
  obtain ⟨hpairs,hplus⟩ := heq (by omega)
  rw [pairs_lines fun f hf c hc => (hplain f hf c hc).1] at hpairs
  intro f hf c hc
  obtain ⟨hspace,hequal⟩ := hplain f hf c hc
  obtain ⟨hbrace,hpercent⟩ := hpairs (pairOf f) (List.mem_map_of_mem hf)
  rw [keyOf_pairOf fun hmem => (hplain f hf _ hmem).2 rfl] at hbrace hpercent
  have hnotplus := (hplus (fieldOf f) (List.mem_map_of_mem hf)).resolve_left List.not_mem_nil
  exact keeps_iff.mpr ⟨hspace,hequal,fun hmem => hbrace (hmem ▸ hc),fun hmem => hpercent (hmem ▸ hc),
    fun hmem => hnotplus (hmem ▸ hc)⟩

theorem decodePair_pairOf {f : Bytes × Bytes} (hkeeps : ∀ c ∈ f.1, keeps c = true) (htext : ∃ cs, f.2 = utf8 cs) :
    decodePair obj (pairOf f) = .ok (SObj.emplace f.1 (.str f.2) obj) := by
  obtain ⟨cs,hcs⟩ := htext
  have hequal : equal ∉ f.1 := fun hmem => (keeps_iff.mp (hkeeps _ hmem)).2.1 rfl
  have hbrace : openBrace ∉ f.1 := fun hmem => (keeps_iff.mp (hkeeps _ hmem)).2.2.1 rfl
  have hpercent : PercentEncoding.percent ∉ f.1 := fun hmem => (keeps_iff.mp (hkeeps _ hmem)).2.2.2.1 rfl
  have hplus : 0x2b ∉ f.1 := fun hmem => (keeps_iff.mp (hkeeps _ hmem)).2.2.2.2 rfl
  rw [decodePair,keyOf_pairOf hequal,valueOf_pairOf hequal,emplace,splitKey_plain hbrace]
  change (HttpUri.urldecode f.1 >>= fun oKey => HttpUri.urldecode (HttpUri.urlencode f.2) >>= fun oVal =>
    pure (SObj.emplace oKey (.str oVal) obj)) = _
  rw [urldecode_plain hpercent hplus,hcs,PercentEncoding.urldecode_encoded]
  rfl

theorem foldlM_pairOf (hkeeps : ∀ f ∈ strings, ∀ c ∈ f.1, keeps c = true)
    (htext : ∀ f ∈ strings, ∃ cs, f.2 = utf8 cs) : (strings.map pairOf).foldlM decodePair obj =
      .ok ((strings.map fieldOf).foldl (fun obj f => SObj.emplace f.1 f.2 obj) obj) := by
  induction strings generalizing obj with
  | nil => rfl
  | cons f strings ih =>
    obtain ⟨hf,hstrings⟩ := List.forall_mem_cons.mp hkeeps
    obtain ⟨hcs,hrest⟩ := List.forall_mem_cons.mp htext
    rw [List.map_cons,List.foldlM_cons,decodePair_pairOf hf hcs]
    exact ih hstrings hrest

end RoundTrips

section Claims

variable {fields : List (Bytes × SVal)}

/-- An object comes back exactly when its fields are strings under keys that the format does not read otherwise: the
keys are not encoded, and an inner object is only looked up. -/
theorem decode_encode_object_iff (floatText : Bytes → Bytes)
    (hsorted : fields.Pairwise fun f g => SObj.order f < SObj.order g)
    (htext : ∀ f ∈ fields, ∀ s, f.2 = .str s → ∃ cs, s = utf8 cs) :
    (∃ data, encode floatText (.obj fields) = .ok data ∧ decode data = .ok (.obj fields)) ↔
      ∀ f ∈ fields, (∃ s, f.2 = .str s) ∧ ∀ c ∈ f.1, keeps c = true := by
  constructor
  · rintro ⟨data,hencode,hdecode⟩
    have hsound := decode_flat hdecode
    obtain ⟨strings,rfl⟩ := strings_of_sound hsound
    obtain rfl := Except.ok.inj ((encode_strings strings).symm.trans hencode)
    intro f hf
    obtain ⟨g,hg,rfl⟩ := List.mem_map.mp hf
    exact ⟨⟨g.2,rfl⟩,keeps_of_decode hdecode g hg⟩
  · intro h
    obtain ⟨strings,rfl⟩ : ∃ strings : List (Bytes × Bytes), fields = strings.map fieldOf :=
      strings_of_sound ⟨fun f hf => (h f hf).1,hsorted⟩
    have hkeeps : ∀ f ∈ strings, ∀ c ∈ f.1, keeps c = true := fun f hf => (h _ (List.mem_map_of_mem hf)).2
    have hcs : ∀ f ∈ strings, ∃ cs, f.2 = utf8 cs := fun f hf => htext _ (List.mem_map_of_mem hf) f.2 rfl
    refine ⟨_,encode_strings strings,?_⟩
    rw [decode,pairs_lines fun f hf c hc => (keeps_iff.mp (hkeeps f hf c hc)).1,foldlM_pairOf hkeeps hcs,
      SObj.foldl_emplace hsorted]
    rfl

/-- `{"a b": "x=1"}` comes back. -/
theorem decode_encode_spaced : ∃ data,
    encode id (.obj [([0x61,0x20,0x62],.str (utf8 ['x','=','1']))]) = .ok data ∧
      decode data = .ok (.obj [([0x61,0x20,0x62],.str (utf8 ['x','=','1']))]) := by
  apply (decode_encode_object_iff id (List.pairwise_singleton _ _) ?_).mpr
  · exact List.forall_mem_singleton.mpr ⟨⟨_,rfl⟩,List.all_eq_true.mp rfl⟩
  · exact List.forall_mem_singleton.mpr fun s hs => ⟨['x','=','1'],(SVal.str.inj hs).symm⟩

/-- `{"a": {"b": "1"}}` does not. -/
theorem nested_lost : ¬ ∃ data, encode id (.obj [([0x61],.obj [([0x62],.str [0x31])])]) = .ok data ∧
    decode data = .ok (.obj [([0x61],.obj [([0x62],.str [0x31])])]) := by
  rintro ⟨data,-,hdecode⟩
  obtain ⟨s,hs⟩ := (decode_flat hdecode).flat _ List.mem_cons_self
  exact SVal.noConfusion hs

end Claims

end UrlSerializer
end Tkeycoin
