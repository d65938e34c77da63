import Tkeycoin.TlvRoundTrip
import Tkeycoin.UrlSerializer

/-! What `TlvSerializer::decode` makes of any bytes, also of those that no value was written to. -/
namespace Tkeycoin
namespace TlvSerializer

open Scanner TextStream

section Halting

variable {value : Decoder SVal} {bound : ℤ}

theorem binarySize_ends (token : Option UInt8) : Ends bound (fun _ => 0) (binarySize token) := by
  have hread (size : ℕ) : Ends bound (fun _ => 0) (do
      let size_le ← readBytes size []
      pure (leValue size_le) : Decoder ℕ) :=
    Ends.bind (readBytes_ends size []) fun _ => Ends.pure (by omega)
  refine Ends.ite (fun _ => ?_) fun _ => Ends.ite (fun _ => hread 2) fun _ => Ends.ite (fun _ => hread 4) fun _ =>
    fail_ends _
  exact Ends.skip getChar_ends fun _ => Ends.pure (Int.le_refl 0)

/-- A binary takes its token. -/
theorem decodeBinary_ends : Ends bound (fun _ => 1) decodeBinary := by
  have hbytes (size : ℕ) (b : ℤ) : Ends b (fun _ => 0) (do
      let bin ← binaryBytes size []
      pure (SBinary.ofString bin) : Decoder Bytes) :=
    Ends.skip (binaryBytes_ends size []) fun _ => Ends.pure (Int.le_refl 0)
  have hnone : Ends bound (fun _ => 1) (binarySize none) := fail_ends _
  refine Ends.take (Ends.bind hnone fun size => (hbytes size _).mono (Int.le_refl _) fun _ => by omega) fun c => ?_
  exact Ends.skip (binarySize_ends (some c)) fun size => hbytes size _

/-- A container takes the token in front of its items. -/
theorem container_ends {openToken : UInt8} {wrong : String} {empty : SVal} {items : Decoder SVal}
    (hitems : Ends (bound - 1) (fun _ => 0) items) : Ends bound (fun _ => 1) (do
      let token ← getChar
      if token ≠ some openToken then fail wrong
      else
        let c ← peekChar
        if c = some Token.END then
          ignore
          pure empty
        else items : Decoder SVal) := by
  refine Ends.take (Ends.ite (fun _ => fail_ends _) fun h => absurd nofun h) fun c => ?_
  refine Ends.ite (fun _ => fail_ends _) fun _ => Ends.skip Ends.peekChar fun next => ?_
  exact Ends.ite (fun _ => Ends.skip Ends.ignore (fun _ => Ends.pure (Int.le_refl 0))) fun _ => hitems

theorem decodeElement_ends (hvalue : Ends bound (fun _ => 1) value) (arr : List SVal) :
    Ends bound (Sum.elim (fun _ => 1) fun _ => 0) (decodeElement value arr) := by
  refine Ends.skip Ends.eof fun atEnd => Ends.ite (fun _ => fail_ends _) fun _ => ?_
  exact Ends.bind (catching_ends _ hvalue) fun e => nextOrEnd_ends (by simp) (by simp)

theorem decodeField_ends (hvalue : Ends bound (fun _ => 1) value) (obj : List (Bytes × SVal)) :
    Ends bound (Sum.elim (fun _ => 1) fun _ => 0) (decodeField value obj) := by
  refine Ends.skip Ends.eof fun atEnd => Ends.ite (fun _ => fail_ends _) fun _ => ?_
  have hkey : Ends bound (fun _ => 0) (catching "Can't parse field-key of object ← " decodeString) :=
    (catching_ends _ decodeString_ends).mono (Int.le_refl _) fun s => by have := stringWorth_nonneg s; omega
  refine Ends.skip hkey fun key => ?_
  exact Ends.bind (catching_ends _ hvalue) fun field => nextOrEnd_ends (by simp) (by simp)

theorem valueAt_ends (hvalue : Ends (bound - 1) (fun _ => 1) value) (token : Option UInt8) :
    Ends bound (fun _ => 1) (valueAt value token) := by
  refine Ends.ite (fun _ => map_ends _ decodeBool_ends fun _ => Int.le_refl _) fun _ => ?_
  refine Ends.ite (fun _ => map_ends _ decodeNull_ends fun _ => Int.le_refl _) fun _ => ?_
  refine Ends.ite (fun _ => map_ends _ decodeInteger_ends fun n => by omega) fun _ => ?_
  refine Ends.ite (fun _ => map_ends _ decodeFloat_ends fun _ => Int.le_refl _) fun _ => ?_
  refine Ends.ite (fun _ => map_ends _ decodeString_ends fun s => ?_) fun _ => ?_
  · have hnonneg := stringWorth_nonneg s
    omega
  refine Ends.ite (fun _ => container_ends (Ends.loop (decodeElement_ends hvalue) _)) fun _ => ?_
  refine Ends.ite (fun _ => container_ends (Ends.loop (decodeField_ends hvalue) _)) fun _ => ?_
  exact Ends.ite (fun _ => map_ends _ decodeBinary_ends fun _ => Int.le_refl _) fun _ => fail_ends _

/-- No value nests deeper than there are bytes. -/
theorem decodeValue_ends {depth : ℕ} (h : bound < depth) : Ends bound (fun _ => 1) (decodeValue depth) := by
  induction depth generalizing bound with
  | zero =>
    intro s hs hl
    simp only [Nat.cast_zero] at h
    omega
  | succ depth ih =>
    refine Ends.skip Ends.eof fun atEnd => Ends.ite (fun _ => fail_ends _) fun _ => ?_
    exact Ends.skip Ends.peekChar fun token => valueAt_ends (ih (by push_cast at h; omega)) token

theorem decodeStream_ends (strict : Bool) {depth : ℕ} (h : bound < depth) :
    Ends bound (fun _ => 0) (decodeStream strict depth) := by
  have hvalue : Ends bound (fun _ => 0) (do
      let value ← decodeValue depth
      let atEnd ← eof
      if (!atEnd && strict) = true then fail "Redundant bytes after parsed data" else pure value : Decoder SVal) := by
    refine Ends.skip ((decodeValue_ends h).mono (Int.le_refl _) fun _ => by omega) fun value => ?_
    exact Ends.skip Ends.eof fun atEnd => Ends.ite (fun _ => fail_ends _) fun _ => Ends.pure (Int.le_refl 0)
  have hnext (next : Option UInt8) : Ends bound (fun _ => 0) (if next = none then
      fail "No data for parsing" else catching "Can't decode TLV ← " do
        let value ← decodeValue depth
        let atEnd ← eof
        if (!atEnd && strict) = true then fail "Redundant bytes after parsed data" else pure value : Decoder SVal) :=
    Ends.ite (fun _ => fail_ends _) fun _ => catching_ends _ hvalue
  refine Ends.skip Ends.eof fun atEnd => Ends.ite (fun _ => ?_) fun _ => Ends.skip Ends.peekChar hnext
  exact Ends.skip (Ends.pure (Int.le_refl 0)) hnext

/-- The decoder comes to an end. -/
theorem decode_halts (strict : Bool) (data : Bytes) : decode strict data ≠ .error .endless := by
  have hbound : (data.length : ℤ) < (data.length + 1 : ℕ) := by
    push_cast
    omega
  have hends := decodeStream_ends strict hbound (.ofBytes data) (Nat.zero_le _) (Int.le_refl _)
  intro h
  rw [decode] at h
  cases hrun : (decodeStream strict (data.length + 1)).run (.ofBytes data) with
  | ok r =>
    rw [hrun] at h
    cases h
  | error e =>
    rw [hrun] at h hends
    exact hends (Except.error.inj h)

end Halting

section WellFormed

/-- What can come of bytes: integers of `int64_t`, floating point numbers of four or eight bytes, empty binaries, and
objects with their fields in order. -/
inductive Formed : SVal → Prop
  | null : Formed .null
  | bool (value : Bool) : Formed (.bool value)
  | int {n : ℤ} (low : -2^63 ≤ n) (high : n < 2^63) : Formed (.int n)
  | float {literal : Bytes} (width : literal.length = 4 ∨ literal.length = 8) : Formed (.float literal)
  | str (value : Bytes) : Formed (.str value)
  | binary : Formed (.binary [])
  | arr {elements : List SVal} (formed : ∀ e ∈ elements, Formed e) : Formed (.arr elements)
  | obj {fields : List (Bytes × SVal)} (sorted : fields.Pairwise fun f g => SObj.order f < SObj.order g)
    (formed : ∀ f ∈ fields, Formed f.2) : Formed (.obj fields)

variable {value : Decoder SVal}

theorem map_mayGive {α β : Type} {x : Decoder α} {V : α → Prop} {Q : β → Prop} {f : α → β}
    (hx : MayGive (fun _ => True) x fun a _ => V a) (hf : ∀ a, V a → Q (f a)) :
    MayGive (fun _ => True) (f <$> x) fun b _ => Q b := by
  rw [map_eq_pure_bind]
  exact MayGive.bind hx fun a => MayGive.pure fun _ ha => hf a ha

theorem any_mayGive {α : Type} (x : Decoder α) : MayGive (fun _ => True) x fun _ _ => True :=
  fun _ _ _ _ _ => trivial

theorem decodeInteger_range : MayGive (fun _ => True) decodeInteger fun n _ => -2^63 ≤ n ∧ n < 2^63 := by
  refine MayGive.skip fun token => ?_
  cases integerToken token with
  | none => exact MayGive.raise _
  | some r =>
    refine MayGive.skip fun data => MayGive.pure fun _ _ => ?_
    have hlow := Int.le_bmod (x := (if r.1 = true then -1 else 1) * (leValue data : ℤ)) (m := 2^64) (by decide)
    have hhigh := Int.bmod_lt (x := (if r.1 = true then -1 else 1) * (leValue data : ℤ)) (m := 2^64) (by decide)
    exact ⟨by omega,by omega⟩

theorem decodeFloat_width : MayGive (fun _ => True) decodeFloat fun l _ => l.length = 4 ∨ l.length = 8 := by
  refine MayGive.skip fun token => ?_
  split_ifs
  · exact (numberBytes_length 4 []).mono fun l _ hl => .inl hl
  · exact (numberBytes_length 8 []).mono fun l _ hl => .inr hl
  · exact MayGive.raise _

theorem decodeBinary_empty : MayGive (fun _ => True) decodeBinary fun b _ => b = [] :=
  MayGive.skip fun _ => MayGive.skip fun _ => MayGive.skip fun _ => MayGive.pure fun _ _ => rfl

/-- What follows an item is the container with it, which ends or goes on. -/
theorem nextOrEnd_formed {β : Type} {I : β → Prop} {goOn : β} {container : SVal} (hgoes : I goOn)
    (hends : Formed container) : MayGive (fun _ => True) (nextOrEnd goOn container) fun r _ => r.elim I Formed := by
  refine MayGive.skip fun c => ?_
  split_ifs
  · exact MayGive.skip fun _ => MayGive.pure fun _ _ => hends
  · exact MayGive.pure fun _ _ => hgoes

section Containers

variable {value : Decoder SVal} (hvalue : MayGive (fun _ => True) value fun v _ => Formed v)
include hvalue

theorem decodeElement_formed {arr : List SVal} (h : ∀ e ∈ arr, Formed e) :
    MayGive (fun _ => True) (decodeElement value arr) fun r _ => r.elim (fun arr' => ∀ e ∈ arr', Formed e) Formed := by
  refine MayGive.skip fun atEnd => ?_
  split_ifs
  · exact MayGive.raise _
  · refine MayGive.bind (hvalue.of_run fun s r => (catching_ok _ _ s r).mp) fun e s he => ?_
    have hall : ∀ e' ∈ arr ++ [e], Formed e' := List.forall_mem_append.mpr ⟨h,List.forall_mem_singleton.mpr he⟩
    exact nextOrEnd_formed hall (.arr hall) s trivial

/-- The fields of an object are kept in their order. -/
theorem decodeField_formed {obj : List (Bytes × SVal)}
    (h : obj.Pairwise (fun f g => SObj.order f < SObj.order g) ∧ ∀ f ∈ obj, Formed f.2) :
    MayGive (fun _ => True) (decodeField value obj) fun r _ =>
      r.elim (fun obj' => obj'.Pairwise (fun f g => SObj.order f < SObj.order g) ∧ ∀ f ∈ obj', Formed f.2) Formed := by
  refine MayGive.skip fun atEnd => ?_
  split_ifs
  · exact MayGive.raise _
  · refine MayGive.skip fun key => ?_
    refine MayGive.bind (hvalue.of_run fun s r => (catching_ok _ _ s r).mp) fun field s hfield => ?_
    have hsorted : (SObj.emplace key field obj).Pairwise fun f g => SObj.order f < SObj.order g :=
      UrlSerializer.sorted_emplace h.1
    have hall : ∀ f ∈ SObj.emplace key field obj, Formed f.2 := by
      intro f hf
      rcases UrlSerializer.mem_emplace hf with hold | rfl
      · exact h.2 f hold
      · exact hfield
    exact nextOrEnd_formed ⟨hsorted,hall⟩ (.obj hsorted hall) s trivial

theorem valueAt_formed (token : Option UInt8) : MayGive (fun _ => True) (valueAt value token) fun v _ => Formed v := by
  have hcontainer {openToken : UInt8} {wrong : String} {empty : SVal} {items : Decoder SVal} (hempty : Formed empty)
      (hitems : MayGive (fun _ => True) items fun v _ => Formed v) : MayGive (fun _ => True) (do
        let token ← getChar
        if token ≠ some openToken then fail wrong
        else
          let c ← peekChar
          if c = some Token.END then
            ignore
            pure empty
          else items : Decoder SVal) fun v _ => Formed v := by
    refine MayGive.skip fun token => ?_
    split_ifs
    · exact MayGive.raise _
    · refine MayGive.skip fun c => ?_
      split_ifs
      · exact MayGive.skip fun _ => MayGive.pure fun _ _ => hempty
      · exact hitems
  unfold valueAt
  split_ifs
  · exact map_mayGive (any_mayGive _) fun b _ => .bool b
  · exact map_mayGive (any_mayGive _) fun _ _ => .null
  · exact map_mayGive decodeInteger_range fun n hn => .int hn.1 hn.2
  · exact map_mayGive decodeFloat_width fun l hl => .float hl
  · exact map_mayGive (any_mayGive _) fun s _ => .str s
  · exact hcontainer (.arr nofun) (loop_keeps (fun arr harr => decodeElement_formed hvalue harr) nofun)
  · exact hcontainer (.obj .nil nofun) (loop_keeps (fun obj hobj => decodeField_formed hvalue hobj) ⟨.nil,nofun⟩)
  · exact map_mayGive decodeBinary_empty fun b hb => hb ▸ .binary
  · exact MayGive.raise _

end Containers

theorem decodeValue_formed (depth : ℕ) : MayGive (fun _ => True) (decodeValue depth) fun v _ => Formed v := by
  induction depth with
  | zero => exact fun _ _ _ _ => nofun
  | succ depth ih =>
    refine MayGive.skip fun atEnd => ?_
    split_ifs
    · exact MayGive.raise _
    · exact MayGive.skip fun token => valueAt_formed ih token

theorem decodeStream_formed (strict : Bool) (depth : ℕ) :
    MayGive (fun _ => True) (decodeStream strict depth) fun v _ => Formed v := by
  have hvalue : MayGive (fun _ => True) (do
      let value ← decodeValue depth
      let atEnd ← eof
      if (!atEnd && strict) = true then fail "Redundant bytes after parsed data" else pure value : Decoder SVal)
      fun v _ => Formed v := by
    refine MayGive.bind (decodeValue_formed depth) fun v s hv => ?_
    have hend : MayGive (fun _ => True) (do
        let atEnd ← eof
        if (!atEnd && strict) = true then fail "Redundant bytes after parsed data" else pure v : Decoder SVal)
        fun v _ => Formed v := by
      refine MayGive.skip fun atEnd => ?_
      split_ifs
      · exact MayGive.raise _
      · exact MayGive.pure fun _ _ => hv
    exact hend s trivial
  have hnext (next : Option UInt8) : MayGive (fun _ => True) (if next = none then
      fail "No data for parsing" else catching "Can't decode TLV ← " do
        let value ← decodeValue depth
        let atEnd ← eof
        if (!atEnd && strict) = true then fail "Redundant bytes after parsed data" else pure value : Decoder SVal)
      fun v _ => Formed v := by
    split_ifs
    · exact MayGive.raise _
    · exact hvalue.of_run fun s r => (catching_ok _ _ s r).mp
  refine MayGive.skip fun atEnd => ?_
  split_ifs
  · exact MayGive.skip hnext
  · exact MayGive.skip hnext

end WellFormed

end TlvSerializer
end Tkeycoin
