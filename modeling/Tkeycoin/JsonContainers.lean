import Tkeycoin.JsonNumbers

/-! What `JsonSerializer` reads of the elements of an array and the fields of an object. -/
namespace Tkeycoin
namespace JsonSerializer

open Scanner TextStream

variable {α β ρ : Type} {data rest : Bytes} {P : TextStream → Prop} {close c : UInt8}

section Exceptions

variable {x : Decoder α} {a : α}

/-- Only exceptions are changed. -/
theorem catchRuntimeError_ok (context : String) (s : TextStream) (r : α × TextStream) :
    (catchRuntimeError context x).run s = .ok r ↔ x.run s = .ok r := by
  change catchRuntimeError context x s = .ok r ↔ x s = .ok r
  rw [catchRuntimeError]
  split
  · next h => simp [h]
  · exact Iff.rfl

theorem catchException_ok (context : String) (s : TextStream) (r : α × TextStream) :
    (catchException context x).run s = .ok r ↔ x.run s = .ok r := by
  change catchException context x s = .ok r ↔ x s = .ok r
  rw [catchException]
  split
  · next h => simp [h]
  · exact Iff.rfl

theorem catchRuntimeError_gives (context : String) {Q : TextStream → Prop} (h : Gives P x a Q) :
    Gives P (catchRuntimeError context x) a Q := h.of_run fun s r => (catchRuntimeError_ok context s r).mpr

theorem catchRuntimeError_mayGive (context : String) {Q : α → TextStream → Prop} (h : MayGive P x Q) :
    MayGive P (catchRuntimeError context x) Q := h.of_run fun s r => (catchRuntimeError_ok context s r).mp

end Exceptions

section Separators

variable {goOn : β} {value : α} {wrong : String}

/-- In front of a character that is no space nothing is skipped. -/
theorem skipSpaces_gives (hc : isSpace c = false) :
    Gives (Before data (c :: rest)) skipSpaces () (Before data (c :: rest)) :=
  skipWhile_gives (l := []) (List.forall_mem_nil _) hc

theorem separator_comma (hc : isSpace c = false) :
    Gives (Before data (comma :: c :: rest)) (separator close wrong goOn value) (.inl goOn) (Before data (c :: rest)) := by
  apply Gives.bind (skipSpaces_gives rfl)
  apply Gives.bind getChar_gives
  rw [if_pos rfl]
  exact Gives.bind (skipSpaces_gives hc) Gives.pure

theorem separator_close (hspace : isSpace close = false) (hcomma : close ≠ comma) :
    Gives (Before data (close :: rest)) (separator close wrong goOn value) (.inr value) (Before data rest) := by
  have hsome : ¬ some close = some comma := fun h => hcomma (Option.some.inj h)
  apply Gives.bind (skipSpaces_gives hspace)
  apply Gives.bind getChar_gives
  rw [if_neg hsome,if_pos rfl]
  exact Gives.pure

/-- Behind a failure nothing is separated any more. -/
theorem separator_failed {Q : β ⊕ α → TextStream → Prop} : MayGive Failed (separator close wrong goOn value) Q := by
  refine MayGive.after skipWhile_failed ?_
  refine MayGive.after getChar_failed ?_
  exact backFailNearHere_mayGive 1 wrong

end Separators

section Items

/-- What stands behind an item: the others, each behind a comma, and what closes them. -/
def behind (close : UInt8) (rest : Bytes) : List Bytes → Bytes
  | [] => close :: rest
  | part :: parts => comma :: (part ++ behind close rest parts)

theorem intercalate_behind (part : Bytes) (parts : List Bytes) :
    [comma].intercalate (part :: parts) ++ close :: rest = part ++ behind close rest parts := by
  induction parts generalizing part with
  | nil =>
    rw [List.intercalate_singleton]
    rfl
  | cons next parts ih =>
    rw [List.intercalate_cons_cons,List.append_assoc,List.append_assoc,ih]
    rfl

theorem closes_behind (hclose : close = closeArray ∨ close = closeObject) (parts : List Bytes) :
    Closes (behind close rest parts) := by
  cases parts with
  | nil =>
    intro c hc
    obtain rfl := Option.some.inj hc
    exact .inr hclose
  | cons part parts =>
    intro c hc
    exact .inl (Option.some.inj hc).symm

variable {ι : Type} (part : ι → Bytes) (result : ι → ρ) (reads : ι → ρ → Prop)
variable (body : β → Decoder (β ⊕ SVal)) (add : β → ρ → β) (mk : β → SVal) (close : UInt8) (wrong : String)

/-- The item is taken into the container. -/
def Taken (i : ι) : Prop :=
  ∀ {data more : Bytes} {b : β} {r : β ⊕ SVal} {Q : TextStream → Prop}, Closes more →
    Gives (Before data more) (separator close wrong (add b (result i)) (mk (add b (result i)))) r Q →
    Gives (Before data (part i ++ more)) (body b) r Q

/-- If anything is taken, it is something that the item can be read as. -/
def MayBeTaken (i : ι) : Prop :=
  ∀ {data more : Bytes} {b : β} {Q : β ⊕ SVal → TextStream → Prop}, Closes more →
    (∀ v, reads i v → MayGive (Before data more) (separator close wrong (add b v) (mk (add b v))) Q) →
    MayGive (Before data (part i ++ more)) (body b) Q

variable {part result reads body add mk close wrong} {i : ι} {items : List ι}

/-- The items of a container, one after the other. -/
theorem items_give (hclose : close = closeArray ∨ close = closeObject)
    (htaken : ∀ j ∈ i :: items, Taken part result body add mk close wrong j)
    (hopens : ∀ j ∈ items, ∃ c l, part j = c :: l ∧ isSpace c = false) {n : ℕ} (hn : items.length < n) (b : β) :
    Gives (Before data (part i ++ behind close rest (items.map part))) (iterate body n b)
      (mk (((i :: items).map result).foldl add b)) (Before data rest) := by
  have hspace : isSpace close = false ∧ close ≠ comma := by rcases hclose with rfl | rfl <;> decide
  induction items generalizing i n b with
  | nil =>
    obtain ⟨n,rfl⟩ := Nat.exists_eq_add_of_lt hn
    apply iterate_ends
    exact htaken i List.mem_cons_self (closes_behind hclose []) (separator_close hspace.1 hspace.2)
  | cons j items ih =>
    obtain ⟨c,l,hpart,hc⟩ := hopens j List.mem_cons_self
    obtain ⟨n,rfl⟩ : ∃ m, n = m + 1 := ⟨n - 1,by omega⟩
    have hnext : Gives (Before data (behind close rest ((j :: items).map part)))
        (separator close wrong (add b (result i)) (mk (add b (result i)))) (.inl (add b (result i)))
        (Before data (part j ++ behind close rest (items.map part))) := by
      rw [List.map_cons,behind,hpart,List.cons_append]
      exact separator_comma hc
    apply iterate_goes (htaken i List.mem_cons_self (closes_behind hclose _) hnext)
    exact ih (fun k hk => htaken k (List.mem_cons_of_mem _ hk)) (fun k hk => hopens k (List.mem_cons_of_mem _ hk))
      (Nat.lt_of_succ_lt_succ hn) (add b (result i))

theorem items_mayGive (hclose : close = closeArray ∨ close = closeObject)
    (htaken : ∀ j ∈ i :: items, MayBeTaken part reads body add mk close wrong j)
    (hopens : ∀ j ∈ items, ∃ c l, part j = c :: l ∧ isSpace c = false) (n : ℕ) (b : β) :
    MayGive (Before data (part i ++ behind close rest (items.map part))) (iterate body n b) fun w t =>
      Before data rest t ∧ ∃ values, w = mk (values.foldl add b) ∧ List.Forall₂ reads (i :: items) values := by
  have hspace : isSpace close = false ∧ close ≠ comma := by rcases hclose with rfl | rfl <;> decide
  induction items generalizing i n b with
  | nil =>
    cases n with
    | zero => exact iterate_zero
    | succ n =>
      refine iterate_mayGive (R := fun r t => ∃ v, reads i v ∧ r = .inr (mk (add b v)) ∧ Before data rest t) ?_ ?_ ?_
      · refine htaken i List.mem_cons_self (closes_behind hclose []) fun v hv => ?_
        exact (separator_close hspace.1 hspace.2).mayGive fun t ht => ⟨v,hv,rfl,ht⟩
      · rintro b' s ⟨v,-,hr,-⟩
        contradiction
      · rintro w t ⟨v,hv,hr,ht⟩
        exact ⟨ht,[v],Sum.inr.inj hr,.cons hv .nil⟩
  | cons j items ih =>
    obtain ⟨c,l,hpart,hc⟩ := hopens j List.mem_cons_self
    cases n with
    | zero => exact iterate_zero
    | succ n =>
      refine iterate_mayGive (R := fun r t => ∃ v, reads i v ∧ r = .inl (add b v) ∧
        Before data (part j ++ behind close rest (items.map part)) t) ?_ (fun b' => ?_) ?_
      · refine htaken i List.mem_cons_self (closes_behind hclose _) fun v hv => ?_
        rw [List.map_cons,behind,hpart,List.cons_append]
        exact (separator_comma hc).mayGive fun t ht => ⟨v,hv,rfl,ht⟩
      · rintro s ⟨v,hv,hr,hs⟩ w t ht
        obtain rfl := Sum.inl.inj hr
        obtain ⟨hbehind,values,rfl,hvalues⟩ := ih (fun k hk => htaken k (List.mem_cons_of_mem _ hk))
          (fun k hk => hopens k (List.mem_cons_of_mem _ hk)) n (add b v) s hs w t ht
        exact ⟨hbehind,v :: values,rfl,.cons hv hvalues⟩
      · rintro w t ⟨v,-,hr,-⟩
        contradiction
end Items

section Containers

/-- What `decodeArray` and `decodeObject` have in common. -/
def decodeContainer (openChar close : UInt8) (wrongOpen : String) (mk : β → SVal) (body : β → Decoder (β ⊕ SVal))
    (b : β) : Decoder SVal := do
  let c ← getChar
  if c ≠ some openChar then
    seekBack 1
    failNearHere wrongOpen
  else
    skipSpaces
    let c ← peekChar
    if c = some close then
      ignore
      pure (mk b)
    else loop body b

theorem decodeArray_eq (value : Decoder SVal) : decodeArray value =
    decodeContainer openArray closeArray "Wrong token for open array" .arr (decodeElement value) [] := rfl

theorem decodeObject_eq (value : Decoder SVal) : decodeObject value =
    decodeContainer openObject closeObject "Wrong token for open object" .obj (decodeField value) [] := rfl

theorem length_behind (parts : List Bytes) : parts.length < (behind close rest parts).length := by
  induction parts with
  | nil => exact Nat.succ_pos _
  | cons part parts ih =>
    rw [behind,List.length_cons,List.length_cons,List.length_append]
    omega

theorem enclosed_append (openChar : UInt8) (body rest : Bytes) :
    [openChar] ++ body ++ [close] ++ rest = openChar :: (body ++ close :: rest) := by
  simp

variable {ι : Type} {part : ι → Bytes} {result : ι → ρ} {reads : ι → ρ → Prop} {body : β → Decoder (β ⊕ SVal)}
variable {add : β → ρ → β} {mk : β → SVal} {wrong wrongOpen : String} {openChar : UInt8} {items : List ι} {b : β}

/-- An empty container. -/
theorem container_nil (hclose : isSpace close = false) : Gives (Before data (openChar :: close :: rest))
    (decodeContainer openChar close wrongOpen mk body b) (mk b) (Before data rest) := by
  apply Gives.bind getChar_gives
  rw [if_neg (not_not.mpr rfl)]
  apply Gives.bind (skipSpaces_gives hclose)
  apply Gives.bind peekChar_gives
  rw [if_pos rfl]
  exact Gives.bind ignore_gives Gives.pure

/-- All items of a container are read. -/
theorem container_gives (hclose : close = closeArray ∨ close = closeObject)
    (htaken : ∀ i ∈ items, Taken part result body add mk close wrong i)
    (hopens : ∀ i ∈ items, ∃ c l, part i = c :: l ∧ isSpace c = false ∧ c ≠ close) :
    Gives (Before data ([openChar] ++ [comma].intercalate (items.map part) ++ [close] ++ rest))
      (decodeContainer openChar close wrongOpen mk body b) (mk ((items.map result).foldl add b)) (Before data rest) := by
  rw [enclosed_append]
  cases items with
  | nil =>
    apply container_nil
    rcases hclose with rfl | rfl <;> rfl
  | cons i items =>
    obtain ⟨c,l,hpart,hspace,hc⟩ := hopens i List.mem_cons_self
    have hsome : ¬ some c = some close := fun h => hc (Option.some.inj h)
    have hitems : Gives (Before data (c :: (l ++ behind close rest (items.map part)))) (loop body b)
        (mk (((i :: items).map result).foldl add b)) (Before data rest) := by
      rw [← List.cons_append,← hpart]
      apply loop_gives
      intro n hn
      have hlength : (items.map part).length < (behind close rest (items.map part)).length := length_behind _
      rw [List.length_append] at hn
      rw [List.length_map] at hlength
      apply items_give hclose htaken _ (by omega)
      intro j hj
      obtain ⟨c,l,hpart,hspace,-⟩ := hopens j (List.mem_cons_of_mem _ hj)
      exact ⟨c,l,hpart,hspace⟩
    rw [List.map_cons,intercalate_behind,hpart,List.cons_append]
    apply Gives.bind getChar_gives
    rw [if_neg (not_not.mpr rfl)]
    apply Gives.bind (skipSpaces_gives hspace)
    apply Gives.bind peekChar_gives
    rw [if_neg hsome]
    exact hitems

theorem container_mayGive (hclose : close = closeArray ∨ close = closeObject)
    (htaken : ∀ i ∈ items, MayBeTaken part reads body add mk close wrong i)
    (hopens : ∀ i ∈ items, ∃ c l, part i = c :: l ∧ isSpace c = false ∧ c ≠ close) :
    MayGive (Before data ([openChar] ++ [comma].intercalate (items.map part) ++ [close] ++ rest))
      (decodeContainer openChar close wrongOpen mk body b) fun w t =>
        Before data rest t ∧ ∃ values, w = mk (values.foldl add b) ∧ List.Forall₂ reads items values := by
  rw [enclosed_append]
  cases items with
  | nil =>
    have hspace : isSpace close = false := by rcases hclose with rfl | rfl <;> rfl
    exact (container_nil hspace).mayGive fun t ht => ⟨ht,[],rfl,.nil⟩
  | cons i items =>
    obtain ⟨c,l,hpart,hspace,hc⟩ := hopens i List.mem_cons_self
    have hsome : ¬ some c = some close := fun h => hc (Option.some.inj h)
    have hitems : MayGive (Before data (c :: (l ++ behind close rest (items.map part)))) (loop body b) fun w t =>
        Before data rest t ∧ ∃ values, w = mk (values.foldl add b) ∧ List.Forall₂ reads (i :: items) values := by
      rw [← List.cons_append,← hpart]
      refine loop_mayGive fun n _ => items_mayGive hclose htaken (fun j hj => ?_) n b
      obtain ⟨c,l,hpart,hspace,-⟩ := hopens j (List.mem_cons_of_mem _ hj)
      exact ⟨c,l,hpart,hspace⟩
    rw [List.map_cons,intercalate_behind,hpart,List.cons_append]
    refine MayGive.after getChar_gives ?_
    rw [if_neg (not_not.mpr rfl)]
    refine MayGive.after (skipSpaces_gives hspace) ?_
    refine MayGive.after peekChar_gives ?_
    rw [if_neg hsome]
    exact hitems

end Containers

end JsonSerializer
end Tkeycoin
