import Tkeycoin.JsonValues

/-! What `JsonSerializer` reads of an object that it wrote: a field under a key that was read as a lower one is
missing in the end. -/
namespace Tkeycoin
namespace SObj

/-- The characters of a key, by which `std::map` orders the fields. -/
def order (field : Bytes × SVal) : List ℕ := field.1.map UInt8.toNat

/-- A field goes behind all lower ones. -/
theorem emplace_last {key : Bytes} {value : SVal} {obj : List (Bytes × SVal)}
    (h : ∀ field ∈ obj, order field < order (key,value)) : emplace key value obj = obj ++ [(key,value)] := by
  induction obj with
  | nil => rfl
  | cons field obj ih =>
    have hlt : order field < order (key,value) := h field List.mem_cons_self
    have hne : key ≠ field.1 := by
      rintro rfl
      exact lt_irrefl _ hlt
    have hle : ¬ key.map UInt8.toNat < field.1.map UInt8.toNat := lt_asymm hlt
    rw [emplace,if_neg hne,if_neg hle,ih fun f hf => h f (List.mem_cons_of_mem _ hf)]
    rfl

/-- Fields in their order are all there. -/
theorem foldl_emplace {obj fields : List (Bytes × SVal)}
    (h : (obj ++ fields).Pairwise fun f g => order f < order g) :
    fields.foldl (fun obj f => emplace f.1 f.2 obj) obj = obj ++ fields := by
  induction fields generalizing obj with
  | nil => exact (List.append_nil obj).symm
  | cons field fields ih =>
    have hlast : ∀ f ∈ obj, order f < order (field.1,field.2) :=
      fun f hf => (List.pairwise_append.mp h).2.2 f hf field List.mem_cons_self
    rw [List.append_cons] at h
    rw [List.foldl_cons,emplace_last hlast,ih h,List.append_assoc,List.singleton_append]

/-- A field is new, or its key is there already. -/
theorem emplace_perm (key : Bytes) (value : SVal) (obj : List (Bytes × SVal)) :
    emplace key value obj = obj ∨ (emplace key value obj).Perm (obj ++ [(key,value)]) := by
  induction obj with
  | nil => exact .inr (List.Perm.refl _)
  | cons field obj ih =>
    rw [emplace]
    split_ifs with heq hlt
    · exact .inl rfl
    · exact .inr (List.perm_append_singleton _ _).symm
    · rcases ih with h | h
      · exact .inl (congrArg (field :: ·) h)
      · exact .inr (h.cons field)

/-- Fields that are as many in the end are those that were put in. -/
theorem foldl_emplace_perm (obj fields : List (Bytes × SVal)) :
    (fields.foldl (fun obj f => emplace f.1 f.2 obj) obj).length ≤ obj.length + fields.length ∧
    ((fields.foldl (fun obj f => emplace f.1 f.2 obj) obj).length = obj.length + fields.length →
      (fields.foldl (fun obj f => emplace f.1 f.2 obj) obj).Perm (obj ++ fields)) := by
  induction fields generalizing obj with
  | nil => exact ⟨Nat.le_refl _,fun _ => by rw [List.foldl_nil,List.append_nil]⟩
  | cons field fields ih =>
    obtain ⟨hle,hperm⟩ := ih (emplace field.1 field.2 obj)
    rw [List.foldl_cons,List.length_cons]
    rcases emplace_perm field.1 field.2 obj with h | h
    · rw [h] at hle
      rw [h]
      exact ⟨by omega,fun hlength => by omega⟩
    · have hlength := h.length_eq
      rw [List.length_append,List.length_singleton] at hlength
      refine ⟨by omega,fun heq => ?_⟩
      rw [List.append_cons]
      exact (hperm (by omega)).trans (h.append_right fields)

/-- Where the keys were read as they were or as lower ones, the same fields in the end were read one by one. -/
theorem reads_of_perm {fields values : List (Bytes × SVal)} (hsorted : fields.Pairwise fun f g => order f < order g)
    (hlower : List.Forall₂ (fun f v => v.1 = f.1 ∨ order v < order f) fields values) (hperm : fields.Perm values) :
    values = fields := by
  induction hlower with
  | nil => rfl
  | @cons f v fields values hfirst hlower ih =>
    obtain ⟨hbelow,htail⟩ := List.pairwise_cons.mp hsorted
    have hv : v = f := by
      rcases List.mem_cons.mp (hperm.symm.subset List.mem_cons_self) with h | h
      · exact h
      · have hlt := hbelow v h
        rcases hfirst with heq | hlt'
        · exact absurd hlt (by rw [order,order,heq]; exact lt_irrefl _)
        · exact absurd hlt' (lt_asymm hlt)
    subst hv
    rw [ih htail ((List.perm_cons v).mp hperm)]

/-- What is read of sorted fields is the same object only if each of them is read as it was. -/
theorem reads_eq {fields values : List (Bytes × SVal)} (hsorted : fields.Pairwise fun f g => order f < order g)
    (hlower : List.Forall₂ (fun f v => v.1 = f.1 ∨ order v < order f) fields values)
    (h : values.foldl (fun obj f => emplace f.1 f.2 obj) [] = fields) : values = fields := by
  have hlength := hlower.length_eq
  have hperm := (foldl_emplace_perm [] values).2
  rw [h,List.nil_append] at hperm
  exact reads_of_perm hsorted hlower (hperm (by rw [hlength]; exact (Nat.zero_add _).symm))

end SObj

namespace JsonSerializer

open Scanner TextStream

variable {data rest : Bytes} {fits : FloatRange}

/-- A field of an object under the text of its key. -/
structure FieldPiece where
  key : List Char
  piece : Piece

namespace FieldPiece

variable (escaped : Bool) (f : FieldPiece)

def field : Bytes × SVal := (utf8 f.key,f.piece.value)

def text : Bytes := [quote] ++ textOf escaped f.key ++ [quote] ++ [colon] ++ f.piece.text

def kept : Prop := (∀ c ∈ f.key, Rereads escaped c) ∧ f.piece.kept

/-- What the field may be read as. -/
def reads (v : Bytes × SVal) : Prop :=
  ((v.1 = utf8 f.key ∧ ∀ c ∈ f.key, Rereads escaped c) ∨ SObj.order v < SObj.order f.field) ∧
    (v.2 = f.piece.value → f.piece.kept)

theorem text_append (more : Bytes) : f.text escaped ++ more =
    [quote] ++ textOf escaped f.key ++ [quote] ++ colon :: (f.piece.text ++ more) := by
  simp [text]

theorem opens : ∃ c l, f.text escaped = c :: l ∧ isSpace c = false ∧ c ≠ closeObject :=
  ⟨quote,_,rfl,rfl,by decide⟩

end FieldPiece

section Objects

variable {escaped : Bool} {f : FieldPiece}

theorem field_taken (hp : Spells fits f.piece) (hkept : f.kept escaped) {depth : ℕ}
    (hdepth : f.piece.text.length < depth) : Taken (FieldPiece.text escaped) FieldPiece.field
      (decodeField (decodeValue fits depth)) (fun obj v => SObj.emplace v.1 v.2 obj) .obj closeObject
      "Wrong token after field-value of object" f := by
  intro data more obj r Q hmore hseparator
  rw [FieldPiece.text_append]
  apply Gives.bind eof_gives
  rw [if_neg Bool.false_ne_true]
  apply Gives.bind (catchRuntimeError_gives _ (decodeString_gives hkept.1))
  apply Gives.bind (skipSpaces_gives rfl)
  apply Gives.bind getChar_gives
  rw [if_neg (not_not.mpr rfl)]
  apply Gives.bind (hp.skipSpaces_gives more)
  exact Gives.bind (catchRuntimeError_gives _ (hp.gives hkept.2 hmore hdepth)) hseparator

theorem field_mayBeTaken (hp : Spells fits f.piece) (depth : ℕ) :
    MayBeTaken (FieldPiece.text escaped) (FieldPiece.reads escaped) (decodeField (decodeValue fits depth))
      (fun obj v => SObj.emplace v.1 v.2 obj) .obj closeObject "Wrong token after field-value of object" f := by
  intro data more obj Q hmore hseparator
  rw [FieldPiece.text_append]
  refine MayGive.after eof_gives ?_
  rw [if_neg Bool.false_ne_true]
  refine MayGive.bind (catchRuntimeError_mayGive _ decodeString_mayGive) fun key => ?_
  rintro s ⟨hs,hkey⟩
  have hrest : MayGive (Before data (colon :: (f.piece.text ++ more))) (do
      skipSpaces
      let c ← getChar
      if c ≠ some colon then
        seekBack 1
        failNearHere "Wrong token after field-key of object"
      else
        skipSpaces
        let field ← catchRuntimeError "Can't parse field-value of object ← " (decodeValue fits depth)
        let obj := SObj.emplace key field obj
        separator closeObject "Wrong token after field-value of object" obj (.obj obj)) Q := by
    refine MayGive.after (skipSpaces_gives rfl) ?_
    refine MayGive.after getChar_gives ?_
    rw [if_neg (not_not.mpr rfl)]
    refine MayGive.after (hp.skipSpaces_gives more) ?_
    refine MayGive.bind (catchRuntimeError_mayGive _ (hp.mayGive depth hmore)) fun v => ?_
    rintro t ⟨ht | ht,hkept⟩
    · exact hseparator (key,v) ⟨hkey,hkept⟩ t ht
    · exact separator_failed t ht
  exact hrest s hs

/-- An object is read back if its keys and values are. -/
theorem object_spells (escaped : Bool) {fields : List FieldPiece} (h : ∀ f ∈ fields, Spells fits f.piece)
    (hsorted : (fields.map FieldPiece.field).Pairwise fun f g => SObj.order f < SObj.order g) :
    Spells fits ⟨.obj (fields.map FieldPiece.field),
      [openObject] ++ [comma].intercalate (fields.map (FieldPiece.text escaped)) ++ [closeObject],
      ∀ f ∈ fields, f.kept escaped⟩ := by
  have hopens : ∀ f ∈ fields, ∃ c l, f.text escaped = c :: l ∧ isSpace c = false ∧ c ≠ closeObject :=
    fun f _ => f.opens escaped
  apply Spells.of_valueAt (c := openObject)
    (l := [comma].intercalate (fields.map (FieldPiece.text escaped)) ++ [closeObject]) rfl (by decide)
  · intro hkept data rest depth hrest hdepth
    have htaken : ∀ f ∈ fields, Taken (FieldPiece.text escaped) FieldPiece.field
        (decodeField (decodeValue fits depth)) (fun obj v => SObj.emplace v.1 v.2 obj) .obj closeObject
        "Wrong token after field-value of object" f := by
      intro f hf
      apply field_taken (h f hf) (hkept f hf)
      have hle := length_part (List.mem_map_of_mem (f := FieldPiece.text escaped) hf)
      rw [FieldPiece.text,List.length_append] at hle
      rw [List.length_append] at hdepth
      omega
    have hread : Gives (Before data ([openObject] ++ [comma].intercalate (fields.map (FieldPiece.text escaped)) ++
        [closeObject] ++ rest)) (decodeObject (decodeValue fits depth))
        (.obj ((fields.map FieldPiece.field).foldl (fun obj v => SObj.emplace v.1 v.2 obj) [])) (Before data rest) := by
      rw [decodeObject_eq]
      exact container_gives (.inr rfl) htaken hopens
    rw [SObj.foldl_emplace hsorted,List.nil_append] at hread
    exact hread
  · intro data rest depth hrest
    have htaken : ∀ f ∈ fields, MayBeTaken (FieldPiece.text escaped) (FieldPiece.reads escaped)
        (decodeField (decodeValue fits depth)) (fun obj v => SObj.emplace v.1 v.2 obj) .obj closeObject
        "Wrong token after field-value of object" f := fun f hf => field_mayBeTaken (h f hf) depth
    have hread : MayGive (Before data ([openObject] ++ [comma].intercalate (fields.map (FieldPiece.text escaped)) ++
        [closeObject] ++ rest)) (decodeObject (decodeValue fits depth)) fun w t => Before data rest t ∧ ∃ values,
          w = .obj (values.foldl (fun obj v => SObj.emplace v.1 v.2 obj) []) ∧
          List.Forall₂ (FieldPiece.reads escaped) fields values := by
      rw [decodeObject_eq]
      exact container_mayGive (.inr rfl) htaken hopens
    refine hread.mono ?_
    rintro w t ⟨ht,values,rfl,hvalues⟩
    refine ⟨.inl ht,fun heq => ?_⟩
    have hlower : List.Forall₂ (fun f v => v.1 = f.1 ∨ SObj.order v < SObj.order f) (fields.map FieldPiece.field)
        values := by
      rw [List.forall₂_map_left_iff]
      exact hvalues.imp fun f v hv => hv.1.imp (fun hkey => hkey.1) fun hlt => hlt
    obtain rfl := SObj.reads_eq hsorted hlower (SVal.obj.inj heq)
    rw [List.forall₂_map_right_iff,List.forall₂_same] at hvalues
    intro f hf
    obtain ⟨hkey,hvalue⟩ := hvalues f hf
    rcases hkey with hkey | hlt
    · exact ⟨hkey.2,hvalue rfl⟩
    · exact absurd hlt (lt_irrefl _)

end Objects

end JsonSerializer
end Tkeycoin
