import Tkeycoin.TextStream

/-! What programs on a text stream give in front of a known text. -/
namespace Tkeycoin

namespace TextStream

/-- The stream stands in front of the last part of its data. Where nothing is left it may know. -/
structure Before (data rest : List UInt8) (s : TextStream) : Prop where
  served : s.data = data
  suffix : rest <:+ data
  place : s.pos + rest.length = data.length
  fail : s.failbit = false
  eof : rest ≠ [] → s.eofbit = false

variable {data rest : List UInt8} {c : UInt8} {s : TextStream}

theorem Before.head (h : s.Before data (c :: rest)) : s.data[s.pos]? = some c := by
  obtain ⟨front,hfront⟩ := h.suffix
  have hplace := h.place
  have hpos : s.pos = front.length := by
    rw [← hfront,List.length_append] at hplace
    omega
  rw [h.served,← hfront,hpos,List.getElem?_append_right (Nat.le_refl _),Nat.sub_self]
  rfl

theorem Before.good (h : s.Before data (c :: rest)) : s.good = true := by
  rw [TextStream.good,h.fail,h.eof (List.cons_ne_nil _ _)]
  rfl

/-- What is left of the data is their end. -/
theorem Before.drop (h : s.Before data rest) : s.data.drop s.pos = rest := by
  obtain ⟨front,hfront⟩ := h.suffix
  have hplace := h.place
  have hpos : s.pos = front.length := by
    rw [← hfront,List.length_append] at hplace
    omega
  rw [h.served,← hfront,hpos,List.drop_left]

/-- A character further on. -/
theorem Before.next (h : s.Before data (c :: rest)) : Before data rest { s with pos := s.pos + 1 } where
  served := h.served
  suffix := (List.suffix_cons c rest).trans h.suffix
  place := by
    have hplace := h.place
    rw [List.length_cons] at hplace
    dsimp only
    omega
  fail := h.fail
  eof _ := h.eof (List.cons_ne_nil _ _)

/-- Back to a character that was read. -/
theorem Before.back (h : s.Before data rest) {more : List UInt8} (hmore : more ++ rest <:+ data) :
    Before data (more ++ rest) { s with pos := s.pos - more.length, eofbit := false } where
  served := h.served
  suffix := hmore
  place := by
    have hplace := h.place
    have hle := hmore.length_le
    rw [List.length_append] at hle ⊢
    dsimp only
    omega
  fail := h.fail
  eof _ := rfl

/-- The stream has noticed that there is no more. -/
def Ended (data : List UInt8) (s : TextStream) : Prop := s.data = data ∧ s.eofbit = true

/-- The stream serves nothing any more. -/
def Failed (s : TextStream) : Prop := s.failbit = true

/-- The stream has looked at what it stands in front of. -/
def Seen (data rest : List UInt8) (s : TextStream) : Prop :=
  rest ≠ [] ∧ s.Before data rest ∨ rest = [] ∧ s.Ended data

/-- In front of a character there is no difference. -/
theorem seen_cons : Seen data (c :: rest) = Before data (c :: rest) := by
  funext s
  simp [Seen]

theorem Seen.served (h : s.Seen data rest) : s.data = data := by
  rcases h with ⟨-,h⟩ | ⟨-,h⟩
  · exact h.served
  · exact h.1

theorem before_ofBytes (data : List UInt8) : Before data data (.ofBytes data) :=
  ⟨rfl,List.suffix_refl data,Nat.zero_add _,rfl,fun _ => rfl⟩

/-- The stream stands in front of the last part of its data, and has not noticed an end. -/
def Fresh (data rest : List UInt8) (s : TextStream) : Prop := s.Before data rest ∧ s.eofbit = false

theorem fresh_ofBytes (data : List UInt8) : Fresh data data (.ofBytes data) := ⟨before_ofBytes data,rfl⟩

end TextStream

namespace Scanner

open TextStream

variable {ε α β : Type} {data rest : List UInt8} {c : UInt8}

/-- From such a stream the program gives `a`, and leaves the stream so. -/
def Gives (P : TextStream → Prop) (x : Scanner ε α) (a : α) (Q : TextStream → Prop) : Prop :=
  ∀ s, P s → ∃ t, x.run s = .ok (a,t) ∧ Q t

/-- Whatever the program gives from such a stream, if it gives anything. -/
def MayGive (P : TextStream → Prop) (x : Scanner ε α) (Q : α → TextStream → Prop) : Prop :=
  ∀ s, P s → ∀ a t, x.run s = .ok (a,t) → Q a t

/-- From such a stream the program is not stuck in a loop, and what it gives, if anything, is such. -/
def Settles (P : TextStream → Prop) (x : Scanner ε α) (Q : α → TextStream → Prop) : Prop :=
  ∀ s, P s → match x.run s with
    | .ok (a,t) => Q a t
    | .error e => e ≠ .endless

section Rules

variable {P R : TextStream → Prop} {x : Scanner ε α} {f : α → Scanner ε β} {a : α} {b : β}

theorem Gives.pure : Gives P (Pure.pure a : Scanner ε α) a P := fun s hs => ⟨s,rfl,hs⟩

theorem Gives.bind {Q : TextStream → Prop} (hx : Gives P x a R) (hf : Gives R (f a) b Q) : Gives P (x >>= f) b Q := by
  intro s hs
  obtain ⟨t,ht,hR⟩ := hx s hs
  obtain ⟨u,hu,hQ⟩ := hf t hR
  refine ⟨u,?_,hQ⟩
  rw [StateT.run_bind,ht]
  exact hu

theorem Gives.mono {Q Q' : TextStream → Prop} (hx : Gives P x a Q) (hQ : ∀ t, Q t → Q' t) : Gives P x a Q' := by
  intro s hs
  obtain ⟨t,ht,h⟩ := hx s hs
  exact ⟨t,ht,hQ t h⟩

theorem Gives.mayGive {Q : TextStream → Prop} {Q' : α → TextStream → Prop} (hx : Gives P x a Q)
    (hQ : ∀ t, Q t → Q' a t) : MayGive P x Q' := by
  intro s hs b t ht
  obtain ⟨u,hu,h⟩ := hx s hs
  obtain ⟨rfl,rfl⟩ := Prod.mk.inj (Except.ok.inj (hu.symm.trans ht))
  exact hQ u h

theorem MayGive.raise (e : ε) {Q : α → TextStream → Prop} : MayGive P (Scanner.raise e : Scanner ε α) Q :=
  fun _ _ _ _ => nofun

theorem MayGive.pure {Q : α → TextStream → Prop} (h : ∀ s, P s → Q a s) : MayGive P (Pure.pure a : Scanner ε α) Q := by
  intro s hs b t ht
  obtain ⟨rfl,rfl⟩ := Prod.mk.inj (Except.ok.inj ht)
  exact h s hs

theorem MayGive.mono {Q Q' : α → TextStream → Prop} (hx : MayGive P x Q) (hQ : ∀ b t, Q b t → Q' b t) :
    MayGive P x Q' :=
  fun s hs b t ht => hQ b t (hx s hs b t ht)

theorem MayGive.bind {Q : β → TextStream → Prop} {R : α → TextStream → Prop} (hx : MayGive P x R)
    (hf : ∀ a, MayGive (R a) (f a) Q) : MayGive P (x >>= f) Q := by
  intro s hs b u hu
  rw [StateT.run_bind] at hu
  cases hr : x.run s with
  | error e =>
    rw [hr] at hu
    contradiction
  | ok r =>
    rw [hr] at hu
    exact hf r.1 r.2 (hx s hs r.1 r.2 hr) b u hu

/-- What is certain comes first. -/
theorem MayGive.after {Q : β → TextStream → Prop} (hx : Gives P x a R) (hf : MayGive R (f a) Q) :
    MayGive P (x >>= f) Q := by
  intro s hs b u hu
  obtain ⟨t,ht,hR⟩ := hx s hs
  rw [StateT.run_bind,ht] at hu
  exact hf t hR b u hu

/-- Whatever comes first. -/
theorem MayGive.skip {Q : β → TextStream → Prop} (hf : ∀ a, MayGive (fun _ => True) (f a) Q) : MayGive P (x >>= f) Q :=
  MayGive.bind (R := fun _ _ => True) (fun _ _ _ _ _ => trivial) hf

theorem MayGive.weaken {P' : TextStream → Prop} {Q : α → TextStream → Prop} (hx : MayGive P x Q)
    (hP : ∀ s, P' s → P s) : MayGive P' x Q :=
  fun s hs => hx s (hP s hs)

theorem Settles.pure {Q : α → TextStream → Prop} (h : ∀ s, P s → Q a s) : Settles P (Pure.pure a : Scanner ε α) Q := h

theorem Settles.raise (e : ε) {Q : α → TextStream → Prop} : Settles P (Scanner.raise e : Scanner ε α) Q :=
  fun _ _ => nofun

theorem Settles.mono {Q Q' : α → TextStream → Prop} (hx : Settles P x Q) (hQ : ∀ b t, Q b t → Q' b t) :
    Settles P x Q' := by
  intro s hs
  have h := hx s hs
  cases hr : x.run s with
  | error e => simpa only [hr] using h
  | ok r =>
    simp only [hr] at h
    exact hQ r.1 r.2 h

theorem Settles.bind {Q : β → TextStream → Prop} {R : α → TextStream → Prop} (hx : Settles P x R)
    (hf : ∀ a, Settles (R a) (f a) Q) : Settles P (x >>= f) Q := by
  intro s hs
  have h := hx s hs
  rw [StateT.run_bind]
  cases hr : x.run s with
  | error e =>
    simp only [hr] at h
    exact h
  | ok r =>
    simp only [hr] at h
    exact hf r.1 r.2 h

/-- What is certain comes first. -/
theorem Settles.after {Q : β → TextStream → Prop} (hx : Gives P x a R) (hf : Settles R (f a) Q) :
    Settles P (x >>= f) Q := by
  intro s hs
  obtain ⟨t,ht,hR⟩ := hx s hs
  rw [StateT.run_bind,ht]
  exact hf t hR

/-- Programs that end with the same results. -/
theorem Gives.of_run {y : Scanner ε α} {Q : TextStream → Prop} (hx : Gives P x a Q)
    (h : ∀ s r, x.run s = .ok r → y.run s = .ok r) : Gives P y a Q := by
  intro s hs
  obtain ⟨t,ht,hQ⟩ := hx s hs
  exact ⟨t,h s (a,t) ht,hQ⟩

theorem MayGive.of_run {y : Scanner ε α} {Q : α → TextStream → Prop} (hx : MayGive P x Q)
    (h : ∀ s r, y.run s = .ok r → x.run s = .ok r) : MayGive P y Q :=
  fun s hs b t ht => hx s hs b t (h s (b,t) ht)

end Rules

section Steps

theorem getChar_gives : Gives (Before data (c :: rest)) (getChar : Scanner ε (Option UInt8)) (some c)
    (Before data rest) := by
  intro s hs
  refine ⟨{ s with pos := s.pos + 1 },?_,hs.next⟩
  simp [getChar,hs.good,hs.head]
  rfl

theorem peekChar_gives : Gives (Before data (c :: rest)) (peekChar : Scanner ε (Option UInt8)) (some c)
    (Before data (c :: rest)) := by
  intro s hs
  refine ⟨s,?_,hs⟩
  simp [peekChar,hs.good,hs.head]
  rfl

theorem ignore_gives : Gives (Before data (c :: rest)) (ignore : Scanner ε Unit) () (Before data rest) := by
  intro s hs
  refine ⟨{ s with pos := s.pos + 1 },?_,hs.next⟩
  simp [ignore,hs.good,hs.head]
  rfl

theorem eof_gives : Gives (Before data (c :: rest)) (eof : Scanner ε Bool) false (Before data (c :: rest)) := by
  intro s hs
  refine ⟨s,?_,hs⟩
  have heof := hs.eof (List.cons_ne_nil _ _)
  simp [eof,heof]
  rfl

theorem tellg_gives : Gives (Before data (c :: rest)) (tellg : Scanner ε (Option ℕ))
    (some (data.length - (c :: rest).length)) (Before data (c :: rest)) := by
  intro s hs
  refine ⟨s,?_,hs⟩
  have hpos : s.pos = data.length - (c :: rest).length := Nat.eq_sub_of_add_eq hs.place
  simp [tellg,hs.good,hpos]
  rfl

theorem eof_fresh : Gives (Fresh data rest) (eof : Scanner ε Bool) false (Fresh data rest) := by
  intro s hs
  refine ⟨s,?_,hs⟩
  simp [eof,hs.2]
  rfl

theorem getChar_fresh : Gives (Fresh data (c :: rest)) (getChar : Scanner ε (Option UInt8)) (some c)
    (Fresh data rest) := by
  intro s hs
  refine ⟨{ s with pos := s.pos + 1 },?_,hs.1.next,hs.2⟩
  simp [getChar,hs.1.good,hs.1.head]
  rfl

theorem peekChar_fresh : Gives (Fresh data (c :: rest)) (peekChar : Scanner ε (Option UInt8)) (some c)
    (Fresh data (c :: rest)) := by
  intro s hs
  refine ⟨s,?_,hs⟩
  simp [peekChar,hs.1.good,hs.1.head]
  rfl

theorem ignore_fresh : Gives (Fresh data (c :: rest)) (ignore : Scanner ε Unit) () (Fresh data rest) := by
  intro s hs
  refine ⟨{ s with pos := s.pos + 1 },?_,hs.1.next,hs.2⟩
  simp [ignore,hs.1.good,hs.1.head]
  rfl

theorem tellg_fresh : Gives (Fresh data rest) (tellg : Scanner ε (Option ℕ)) (some (data.length - rest.length))
    (Fresh data rest) := by
  intro s hs
  refine ⟨s,?_,hs⟩
  have hgood : s.good = true := by rw [TextStream.good,hs.2,hs.1.fail]; rfl
  have hpos : s.pos = data.length - rest.length := Nat.eq_sub_of_add_eq hs.1.place
  simp [tellg,hgood,hpos]
  rfl

theorem getChar_end : Gives (Before data []) (getChar : Scanner ε (Option UInt8)) none Failed := by
  intro s hs
  have hget : s.data[s.pos]? = none := by
    have hplace := hs.place
    rw [List.length_nil,Nat.add_zero] at hplace
    rw [hs.served,hplace]
    exact List.getElem?_eq_none (Nat.le_refl _)
  cases hgood : s.good with
  | true =>
    refine ⟨{ s with eofbit := true, failbit := true },?_,rfl⟩
    simp [getChar,hgood,hget]
    rfl
  | false =>
    refine ⟨{ s with failbit := true },?_,rfl⟩
    simp [getChar,hgood]
    rfl

theorem getChar_failed : Gives Failed (getChar : Scanner ε (Option UInt8)) none Failed := by
  intro s hs
  have hgood : s.good = false := by rw [good,show s.failbit = true from hs,Bool.not_true,Bool.and_false]
  refine ⟨{ s with failbit := true },?_,rfl⟩
  simp [getChar,hgood]
  rfl

/-- The stream has failed if no character came. -/
theorem getChar_none (s t : TextStream) (h : (getChar : Scanner ε (Option UInt8)).run s = .ok (none,t)) : Failed t := by
  cases hgood : s.good with
  | false =>
    simp [getChar,hgood] at h
    exact (Prod.mk.inj (Except.ok.inj h)).2 ▸ rfl
  | true =>
    cases hc : s.data[s.pos]? with
    | none =>
      simp [getChar,hgood,hc] at h
      exact (Prod.mk.inj (Except.ok.inj h)).2 ▸ rfl
    | some c =>
      simp [getChar,hgood,hc] at h
      exact absurd (Prod.mk.inj (Except.ok.inj h)).1 (Option.some_ne_none c)

theorem eof_failed : MayGive Failed (eof : Scanner ε Bool) fun _ t => Failed t := by
  intro s hs a t ht
  obtain ⟨-,rfl⟩ := Prod.mk.inj (Except.ok.inj ht)
  exact hs

theorem peekChar_failed : Gives Failed (peekChar : Scanner ε (Option UInt8)) none Failed := by
  intro s hs
  have hgood : s.good = false := by rw [good,show s.failbit = true from hs,Bool.not_true,Bool.and_false]
  refine ⟨{ s with failbit := true },?_,rfl⟩
  simp [peekChar,hgood]
  rfl

/-- What is left of the data may be known to be their end. -/
theorem Gives.of_suffix {x : Scanner ε α} {a : α} {Q : TextStream → Prop}
    (h : rest <:+ data → Gives (Before data rest) x a Q) : Gives (Before data rest) x a Q :=
  fun s hs => h hs.suffix s hs

theorem MayGive.of_suffix {x : Scanner ε α} {Q : α → TextStream → Prop}
    (h : rest <:+ data → MayGive (Before data rest) x Q) : MayGive (Before data rest) x Q :=
  fun s hs => h hs.suffix s hs

/-- Characters that were read are given back. -/
theorem seekBack_gives {more : List UInt8} (hmore : more ++ rest <:+ data) {n : ℕ} (hn : more.length = n) :
    Gives (Before data rest) (seekBack n : Scanner ε Unit) () (Before data (more ++ rest)) := by
  intro s hs
  subst hn
  have hplace := hs.place
  have hle := hmore.length_le
  rw [List.length_append] at hle
  have hback : (!s.failbit) = true ∧ more.length ≤ s.pos := ⟨by rw [hs.fail]; rfl,by omega⟩
  refine ⟨{ s with pos := s.pos - more.length, eofbit := false },?_,hs.back hmore⟩
  simp only [seekBack,StateT.run_bind,StateT.run_get,pure_bind,if_pos hback]
  rfl

/-- Where the stream stood it stands again. -/
theorem backTo_gives (a : α) (hsuffix : c :: rest <:+ data) : Gives (fun t => t.data = data)
    (do clear; seekg (some (data.length - (c :: rest).length)); pure a : Scanner ε α) a (Before data (c :: rest)) := by
  intro t hdata
  have hle : data.length - (c :: rest).length ≤ t.data.length := by
    rw [hdata]
    exact Nat.sub_le _ _
  have hlength := hsuffix.length_le
  refine ⟨⟨t.data,data.length - (c :: rest).length,false,false⟩,?_,hdata,hsuffix,Nat.sub_add_cancel hlength,rfl,
    fun _ => rfl⟩
  simp only [clear,seekg,StateT.run_bind,StateT.run_modify,StateT.run_get,pure_bind,if_pos hle]
  rfl

/-- A program that looks further on leaves the stream where it stands. -/
theorem lookAhead_gives {x : Scanner ε α} {a : α}
    (hx : Gives (Before data (c :: rest)) x a fun t => t.data = data) :
    Gives (Before data (c :: rest)) (lookAhead x) a (Before data (c :: rest)) := by
  apply Gives.of_suffix
  intro hsuffix
  apply Gives.bind tellg_gives
  exact Gives.bind hx (backTo_gives a hsuffix)

theorem lookAhead_mayGive {x : Scanner ε α} {Q : α → Prop}
    (hx : MayGive (Before data (c :: rest)) x fun a t => t.data = data ∧ Q a) :
    MayGive (Before data (c :: rest)) (lookAhead x) fun a t => Q a ∧ Before data (c :: rest) t := by
  refine MayGive.of_suffix fun hsuffix => ?_
  refine MayGive.after tellg_gives ?_
  refine MayGive.bind hx fun a s hs => ?_
  exact (backTo_gives a hsuffix).mayGive (fun t ht => ⟨hs.2,ht⟩) s hs.1

end Steps

section Loops

variable {body : β → Scanner ε (β ⊕ α)} {b : β} {P : TextStream → Prop}

theorem iterate_goes {R Q : TextStream → Prop} {n : ℕ} {b' : β} {a : α} (hbody : Gives P (body b) (.inl b') R)
    (hrest : Gives R (iterate body n b') a Q) : Gives P (iterate body (n + 1) b) a Q :=
  Gives.bind hbody hrest

theorem iterate_ends {Q : TextStream → Prop} {n : ℕ} {a : α} (hbody : Gives P (body b) (.inr a) Q) :
    Gives P (iterate body (n + 1) b) a Q :=
  Gives.bind hbody Gives.pure

theorem iterate_zero {Q : α → TextStream → Prop} : MayGive P (iterate body 0 b) Q := fun _ _ _ _ => nofun

theorem iterate_mayGo {R : TextStream → Prop} {Q : α → TextStream → Prop} {n : ℕ} {b' : β}
    (hbody : Gives P (body b) (.inl b') R) (hrest : MayGive R (iterate body n b') Q) :
    MayGive P (iterate body (n + 1) b) Q :=
  MayGive.after hbody hrest

theorem iterate_mayGive {R : β ⊕ α → TextStream → Prop} {Q : α → TextStream → Prop} {n : ℕ}
    (hbody : MayGive P (body b) R) (hgoes : ∀ b', MayGive (R (.inl b')) (iterate body n b') Q)
    (hends : ∀ a t, R (.inr a) t → Q a t) : MayGive P (iterate body (n + 1) b) Q := by
  refine MayGive.bind hbody fun r => ?_
  cases r with
  | inl b' => exact hgoes b'
  | inr a => exact MayGive.pure (hends a)

theorem iterate_settles {R : β ⊕ α → TextStream → Prop} {Q : α → TextStream → Prop} {n : ℕ}
    (hbody : Settles P (body b) R) (hgoes : ∀ b', Settles (R (.inl b')) (iterate body n b') Q)
    (hends : ∀ a t, R (.inr a) t → Q a t) : Settles P (iterate body (n + 1) b) Q := by
  refine Settles.bind hbody fun r => ?_
  cases r with
  | inl b' => exact hgoes b'
  | inr a => exact Settles.pure (hends a)

/-- A loop may take as many rounds as there are characters left, and one more. -/
theorem loop_gives {a : α} {Q : TextStream → Prop}
    (h : ∀ n, rest.length < n → Gives (Before data rest) (iterate body n b) a Q) :
    Gives (Before data rest) (loop body b) a Q := by
  intro s hs
  have hlt : rest.length < s.data.length + 1 := by
    rw [hs.served]
    exact Nat.lt_succ_of_le hs.suffix.length_le
  exact h _ hlt s hs

theorem loop_mayGive {Q : α → TextStream → Prop}
    (h : ∀ n, rest.length < n → MayGive (Before data rest) (iterate body n b) Q) :
    MayGive (Before data rest) (loop body b) Q := by
  intro s hs
  have hlt : rest.length < s.data.length + 1 := by
    rw [hs.served]
    exact Nat.lt_succ_of_le hs.suffix.length_le
  exact h _ hlt s hs

/-- What every round keeps of the value of a loop, and what follows for its result. -/
theorem loop_keeps {I : β → Prop} {Q : α → Prop}
    (h : ∀ b, I b → MayGive (fun _ => True) (body b) fun r _ => r.elim I Q) (hb : I b) :
    MayGive (fun _ => True) (loop body b) fun a _ => Q a := by
  have hall (n : ℕ) : ∀ b, I b → MayGive (fun _ => True) (iterate body n b) fun a _ => Q a := by
    induction n with
    | zero => exact fun _ _ => iterate_zero
    | succ n ih => exact fun b hb => iterate_mayGive (h b hb) (fun b' s hs => ih b' hs s trivial) fun _ _ hq => hq
  exact fun s _ => hall _ b hb s trivial

/-- A loop that begins before the stream has noticed an end. -/
theorem loop_fresh {a : α} {Q : TextStream → Prop}
    (h : ∀ n, rest.length < n → Gives (Fresh data rest) (iterate body n b) a Q) :
    Gives (Fresh data rest) (loop body b) a Q := by
  intro s hs
  have hlt : rest.length < s.data.length + 1 := by
    rw [hs.1.served]
    exact Nat.lt_succ_of_le hs.1.suffix.length_le
  exact h _ hlt s hs

variable {p : UInt8 → Bool}

theorem skipStep_goes (hc : p c = true) :
    Gives (Before data (c :: rest)) (skipStep p : Scanner ε (Unit ⊕ Unit)) (.inl ()) (Before data rest) := by
  apply Gives.bind peekChar_gives
  simp only [Option.any_some,hc,if_true]
  exact Gives.bind ignore_gives Gives.pure

theorem skipStep_ends (hc : p c = false) :
    Gives (Before data (c :: rest)) (skipStep p : Scanner ε (Unit ⊕ Unit)) (.inr ()) (Before data (c :: rest)) := by
  apply Gives.bind peekChar_gives
  simp only [Option.any_some,hc]
  exact Gives.pure

/-- Such characters are skipped up to one that is not. -/
theorem skipWhile_gives {l : List UInt8} (hl : ∀ x ∈ l, p x = true) (hc : p c = false) :
    Gives (Before data (l ++ c :: rest)) (skipWhile p : Scanner ε Unit) () (Before data (c :: rest)) := by
  apply loop_gives
  intro n hn
  induction l generalizing n with
  | nil =>
    cases n with
    | zero => omega
    | succ n => exact iterate_ends (skipStep_ends hc)
  | cons x l ih =>
    cases n with
    | zero => omega
    | succ n =>
      apply iterate_goes (skipStep_goes (hl x List.mem_cons_self))
      apply ih (fun y hy => hl y (List.mem_cons_of_mem _ hy))
      rw [List.cons_append,List.length_cons] at hn
      omega

theorem peekChar_end : Gives (Before data []) (peekChar : Scanner ε (Option UInt8)) none (Ended data) := by
  intro s hs
  have hget : s.data[s.pos]? = none := by
    have hplace := hs.place
    rw [List.length_nil,Nat.add_zero] at hplace
    rw [hs.served,hplace]
    exact List.getElem?_eq_none (Nat.le_refl _)
  cases heof : s.eofbit with
  | true =>
    refine ⟨{ s with failbit := true },?_,hs.served,heof⟩
    simp [peekChar,good,heof]
    rfl
  | false =>
    refine ⟨{ s with eofbit := true },?_,hs.served,rfl⟩
    simp [peekChar,good,heof,hs.fail,hget]
    rfl

theorem peekChar_ended : Gives (Ended data) (peekChar : Scanner ε (Option UInt8)) none (Ended data) := by
  intro s hs
  refine ⟨{ s with failbit := true },?_,hs⟩
  simp [peekChar,good,hs.2]
  rfl

theorem eof_ended : Gives (Ended data) (eof : Scanner ε Bool) true (Ended data) := by
  intro s hs
  refine ⟨s,?_,hs⟩
  simp [eof,hs.2]
  rfl

/-- Characters are skipped up to the end. -/
theorem skipWhile_end {l : List UInt8} (hl : ∀ x ∈ l, p x = true) :
    Gives (Before data l) (skipWhile p : Scanner ε Unit) () (Ended data) := by
  apply loop_gives
  intro n hn
  induction l generalizing n with
  | nil =>
    cases n with
    | zero => omega
    | succ n => exact iterate_ends (Gives.bind peekChar_end Gives.pure)
  | cons x l ih =>
    cases n with
    | zero => omega
    | succ n =>
      apply iterate_goes (skipStep_goes (hl x List.mem_cons_self))
      apply ih (fun y hy => hl y (List.mem_cons_of_mem _ hy))
      rw [List.length_cons] at hn
      omega

/-- Characters are skipped up to one that is not such, or to the end. -/
theorem skipWhile_seen {l : List UInt8} (hl : ∀ x ∈ l, p x = true) (hrest : ∀ c ∈ rest.head?, p c = false) :
    Gives (Before data (l ++ rest)) (skipWhile p : Scanner ε Unit) () (Seen data rest) := by
  cases rest with
  | nil =>
    rw [List.append_nil]
    exact (skipWhile_end hl).mono fun t ht => .inr ⟨rfl,ht⟩
  | cons c rest =>
    exact (skipWhile_gives hl (hrest c rfl)).mono fun t ht => .inl ⟨List.cons_ne_nil _ _,ht⟩

theorem skipWhile_failed : Gives Failed (skipWhile p : Scanner ε Unit) () Failed := by
  have hstep : Gives Failed (skipStep p : Scanner ε (Unit ⊕ Unit)) (.inr ()) Failed :=
    Gives.bind peekChar_failed Gives.pure
  intro s hs
  have hloop : Gives Failed (iterate (fun _ => skipStep p : Unit → Scanner ε (Unit ⊕ Unit)) (s.data.length + 1) ()) ()
      Failed := iterate_ends hstep
  exact hloop s hs

theorem peekChar_seen : Gives (Seen data rest) (peekChar : Scanner ε (Option UInt8)) rest.head? (Seen data rest) := by
  intro s hs
  rcases hs with ⟨hne,hs⟩ | ⟨rfl,hs⟩
  · obtain ⟨c,more,rfl⟩ := List.exists_cons_of_ne_nil hne
    obtain ⟨t,ht,hbefore⟩ := peekChar_gives (ε := ε) s hs
    exact ⟨t,ht,.inl ⟨hne,hbefore⟩⟩
  · obtain ⟨t,ht,hended⟩ := peekChar_ended (ε := ε) s hs
    exact ⟨t,ht,.inr ⟨rfl,hended⟩⟩

theorem peekChar_before : Gives (Before data rest) (peekChar : Scanner ε (Option UInt8)) rest.head? (Seen data rest) := by
  cases rest with
  | nil => exact peekChar_end.mono fun t ht => .inr ⟨rfl,ht⟩
  | cons c rest => exact peekChar_gives.mono fun t ht => .inl ⟨List.cons_ne_nil _ _,ht⟩

theorem eof_seen : Gives (Seen data rest) (eof : Scanner ε Bool) rest.isEmpty (Seen data rest) := by
  intro s hs
  rcases hs with ⟨hne,hs⟩ | ⟨rfl,hs⟩
  · obtain ⟨c,more,rfl⟩ := List.exists_cons_of_ne_nil hne
    obtain ⟨t,ht,hbefore⟩ := eof_gives (ε := ε) s hs
    exact ⟨t,ht,.inl ⟨hne,hbefore⟩⟩
  · obtain ⟨t,ht,hended⟩ := eof_ended (ε := ε) s hs
    exact ⟨t,ht,.inr ⟨rfl,hended⟩⟩

end Loops

section Simulations

variable {α' β' : Type} {lost lost' : TextStream → Prop} {x : Scanner ε α} {y : Scanner ε α'}

/-- What the first program gives, and the stream it leaves, the second gives and leaves, too. Where the stream is lost
it need not. -/
def Simulates (lost : TextStream → Prop) (x : Scanner ε α) (y : Scanner ε α') (like : α → α' → Prop) : Prop :=
  ∀ s a t, x.run s = .ok (a,t) → lost t ∨ ∃ b, y.run s = .ok (b,t) ∧ like a b

namespace Simulates

variable {like : α → α' → Prop} {like' : β → β' → Prop} {f : α → Scanner ε β} {g : α' → Scanner ε β'}

theorem pure {a : α} {b : α'} (h : like a b) : Simulates lost (Pure.pure a : Scanner ε α) (Pure.pure b) like := by
  intro s c t ht
  obtain ⟨rfl,rfl⟩ := Prod.mk.inj (Except.ok.inj ht)
  exact .inr ⟨b,rfl,h⟩

theorem same {x : Scanner ε α} {like : α → α → Prop} (h : ∀ a, like a a) : Simulates lost x x like :=
  fun _ a _ ht => .inr ⟨a,ht,h a⟩

theorem never (h : MayGive (fun _ => True) x fun _ _ => False) : Simulates lost x y like :=
  fun s a t ht => (h s trivial a t ht).elim

/-- Behind a lost stream nothing may come any more. -/
theorem bind (hx : Simulates lost' x y like) (hlost : ∀ a, MayGive lost' (f a) fun _ _ => False)
    (hf : ∀ a b, like a b → Simulates lost (f a) (g b) like') : Simulates lost (x >>= f) (y >>= g) like' := by
  intro s c u hu
  rw [StateT.run_bind] at hu
  cases hr : x.run s with
  | error e =>
    rw [hr] at hu
    exact nomatch hu
  | ok r =>
    rw [hr] at hu
    rcases hx s r.1 r.2 hr with hl | ⟨b,hb,hlike⟩
    · exact (hlost r.1 r.2 hl c u hu).elim
    · rcases hf r.1 b hlike r.2 c u hu with hl | ⟨d,hd,hlike'⟩
      · exact .inl hl
      · refine .inr ⟨d,?_,hlike'⟩
        rw [StateT.run_bind,hb]
        exact hd

theorem skip {f' : α → Scanner ε β'} (hf : ∀ a, Simulates lost (f a) (f' a) like') :
    Simulates lost (x >>= f) (x >>= f') like' := by
  have hsame : Simulates (fun _ => False) x x Eq := same fun a => rfl
  refine bind hsame (fun a s hs => hs.elim) ?_
  rintro a _ rfl
  exact hf a

theorem ite {p : Prop} [Decidable p] {x' : Scanner ε α} {y' : Scanner ε α'} (hx : p → Simulates lost x y like)
    (hy : ¬ p → Simulates lost x' y' like) : Simulates lost (if p then x else x') (if p then y else y') like := by
  split_ifs with h
  · exact hx h
  · exact hy h

theorem mono (hx : Simulates lost x y like) (h : ∀ t, lost t → lost' t) : Simulates lost' x y like :=
  fun s a t ht => (hx s a t ht).imp_left (h t)

/-- Programs that end with the same results. -/
theorem of_run {x' : Scanner ε α} {y' : Scanner ε α'} (hx : Simulates lost x y like)
    (h : ∀ s r, x'.run s = .ok r → x.run s = .ok r) (h' : ∀ s r, y.run s = .ok r → y'.run s = .ok r) :
    Simulates lost x' y' like :=
  fun s a t ht => (hx s a t (h s (a,t) ht)).imp_right fun ⟨b,hb,hlike⟩ => ⟨b,h' s (b,t) hb,hlike⟩

theorem iterate {body : β → Scanner ε (β ⊕ α)} {body' : β' → Scanner ε (β' ⊕ α')} {goes : β → β' → Prop}
    (h : ∀ b b', goes b b' → Simulates (fun _ => False) (body b) (body' b') (Sum.LiftRel goes like)) (n : ℕ)
    {b : β} {b' : β'} (hb : goes b b') :
    Simulates lost (Scanner.iterate body n b) (Scanner.iterate body' n b') like := by
  induction n generalizing b b' with
  | zero => exact fun _ _ _ => nofun
  | succ n ih =>
    refine bind (h b b' hb) (fun a s hs => hs.elim) fun r r' hr => ?_
    cases hr with
    | inl hgoes => exact ih hgoes
    | inr hlike => exact pure hlike

/-- A loop that goes on like another. -/
theorem loop {body : β → Scanner ε (β ⊕ α)} {body' : β' → Scanner ε (β' ⊕ α')} {goes : β → β' → Prop}
    (h : ∀ b b', goes b b' → Simulates (fun _ => False) (body b) (body' b') (Sum.LiftRel goes like))
    {b : β} {b' : β'} (hb : goes b b') : Simulates lost (Scanner.loop body b) (Scanner.loop body' b') like :=
  fun s => iterate h (s.data.length + 1) hb s

end Simulates

end Simulations

section Payments

/-- What the program gives it has taken characters for, unless the stream is lost behind it. -/
def Pays (lost : α → TextStream → Prop) (cost : α → ℤ) (x : Scanner ε α) : Prop :=
  ∀ s, s.pos ≤ s.data.length → ∀ a t, x.run s = .ok (a,t) →
    t.pos ≤ t.data.length ∧ (lost a t ∨ (t.left : ℤ) + cost a ≤ s.left)

namespace Pays

variable {lost : α → TextStream → Prop} {lostb : β → TextStream → Prop} {cost : α → ℤ} {costb : β → ℤ}
variable {x : Scanner ε α} {f : α → Scanner ε β}

theorem of_ends (h : ∀ bound, Ends bound cost x) : Pays lost cost x := by
  intro s hs a t ht
  have hends := h s.left s hs le_rfl
  rw [ht] at hends
  exact ⟨hends.2.1,.inr hends.2.2⟩

theorem pure {a : α} (h : cost a ≤ 0) : Pays lost cost (Pure.pure a : Scanner ε α) := of_ends fun _ => Ends.pure h

theorem raise (e : ε) : Pays lost cost (Scanner.raise e : Scanner ε α) := fun _ _ _ _ => nofun

theorem mono {lost' : α → TextStream → Prop} {cost' : α → ℤ} (h : Pays lost cost x)
    (hlost : ∀ a t, lost a t → lost' a t) (hcost : ∀ a, cost' a ≤ cost a) : Pays lost' cost' x := by
  intro s hs a t ht
  obtain ⟨hpos,h⟩ := h s hs a t ht
  exact ⟨hpos,h.imp (hlost a t) fun h => by linarith [hcost a]⟩

/-- Where no character comes the stream has failed. -/
theorem getChar : Pays (fun c t => c = none ∧ Failed t) (fun _ => 1) (Scanner.getChar : Scanner ε (Option UInt8)) := by
  intro s hs c t ht
  have hends := Ends.getChar (ε := ε) s hs le_rfl
  rw [ht] at hends
  refine ⟨hends.2.1,?_⟩
  cases c with
  | some c => exact .inr hends.2.2
  | none => exact .inl ⟨rfl,getChar_none s t ht⟩

theorem bind (hx : Pays lost cost x) (hlost : ∀ a, MayGive (lost a) (f a) lostb)
    (hf : ∀ a, Pays lostb (fun b => costb b - cost a) (f a)) : Pays lostb costb (x >>= f) := by
  intro s hs b u hu
  rw [StateT.run_bind] at hu
  cases hr : x.run s with
  | error e =>
    rw [hr] at hu
    exact nomatch hu
  | ok r =>
    rw [hr] at hu
    obtain ⟨hpos,hpaid⟩ := hx s hs r.1 r.2 hr
    obtain ⟨hpos',hpaid'⟩ := hf r.1 r.2 hpos b u hu
    refine ⟨hpos',?_⟩
    rcases hpaid with hl | hpaid
    · exact .inl (hlost r.1 r.2 hl b u hu)
    · exact hpaid'.imp_right fun h => by linarith

theorem of_run {y : Scanner ε α} (hx : Pays lost cost x) (h : ∀ s r, y.run s = .ok r → x.run s = .ok r) :
    Pays lost cost y :=
  fun s hs a t ht => hx s hs a t (h s (a,t) ht)

/-- A program that takes nothing for certain comes first. -/
theorem skip (hx : ∀ bound, Ends bound (fun _ => 0) x) (hf : ∀ a, Pays lostb costb (f a)) :
    Pays lostb costb (x >>= f) := by
  refine bind (of_ends hx : Pays (fun _ _ => False) (fun _ => 0) x) (fun a s hs => hs.elim) fun a => ?_
  exact (hf a).mono (fun _ _ h => h) fun b => by linarith

theorem ite {p : Prop} [Decidable p] {y : Scanner ε α} (hx : p → Pays lost cost x) (hy : ¬ p → Pays lost cost y) :
    Pays lost cost (if p then x else y) := by
  split_ifs with h
  · exact hx h
  · exact hy h

/-- Where a round pays for what it adds, and nothing goes on behind a lost stream. -/
theorem iterate {dead : TextStream → Prop} {body : β → Scanner ε (β ⊕ α)} {worth : β → ℤ}
    (h : ∀ b, Pays (Sum.elim (fun _ t => dead t) lost) (Sum.elim (fun b' => worth b' - worth b) fun a => cost a - worth b)
      (body b))
    (hdead : ∀ b, MayGive dead (body b) fun _ _ => False) (n : ℕ) (b : β) :
    Pays lost (fun a => cost a - worth b) (Scanner.iterate body n b) := by
  induction n generalizing b with
  | zero => exact fun _ _ _ _ => nofun
  | succ n ih =>
    refine bind (h b) (fun r => ?_) fun r => ?_
    · cases r with
      | inl b' =>
        cases n with
        | zero => exact iterate_zero
        | succ n => exact MayGive.bind (hdead b') fun _ _ h => h.elim
      | inr a => exact MayGive.pure fun _ h => h
    · cases r with
      | inl b' => exact (ih b').mono (fun _ _ h => h) fun a => by simp
      | inr a => exact pure (by simp)

theorem loop {dead : TextStream → Prop} {body : β → Scanner ε (β ⊕ α)} {worth : β → ℤ}
    (h : ∀ b, Pays (Sum.elim (fun _ t => dead t) lost) (Sum.elim (fun b' => worth b' - worth b) fun a => cost a - worth b)
      (body b))
    (hdead : ∀ b, MayGive dead (body b) fun _ _ => False) (b : β) :
    Pays lost (fun a => cost a - worth b) (Scanner.loop body b) :=
  fun s => iterate h hdead (s.data.length + 1) b s

end Pays

end Payments

end Scanner
end Tkeycoin
