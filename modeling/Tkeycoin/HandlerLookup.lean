import Tkeycoin.HttpServer
import Tkeycoin.HttpUri

/-! The handler of a path: `getHandler` of `HttpServer` and `WsServer` in a map of selectors. -/
namespace Tkeycoin

open Splitting

/-- A map of selectors to handlers, in the order of the selectors. -/
structure HandlersMap (Handler : Type) where
  entries : List (Bytes × Handler)
  ascending : entries.Pairwise fun a b => a.1 < b.1

namespace HandlersMap

variable {Handler : Type}

/-- `std::strncmp` of texts that are not shorter than `n`. -/
def strncmp : ℕ → Bytes → Bytes → Ordering
  | n + 1, a :: l, b :: r =>
    if a < b then .lt else if b < a then .gt else if a = 0 then .eq else strncmp n l r
  | _, _, _ => .eq

/-- One round of the loop: what is returned, or what is left of the subject. Not above the subject is what stands in
front of its `upper_bound`. -/
def getHandlerRound (m : HandlersMap Handler) (subject : Bytes) : Option Handler ⊕ Bytes :=
  let i := m.entries.dropWhile fun e => ¬ subject < e.1
  match i.head?.filter fun e => e.1 = subject with
  | some e => .inl (some e.2)
  | none =>
    match (m.entries.takeWhile fun e => ¬ subject < e.1).getLast? with
    | none => .inl none
    | some e =>
      let len := min subject.length e.1.length
      match strncmp len e.1 subject with
      | .eq => .inl (some e.2)
      | .gt => .inl none
      | .lt => .inr (subject.take (len - 1))

/-- `none` while the loop has not ended. -/
def getHandler (m : HandlersMap Handler) : ℕ → Bytes → Option (Option Handler)
  | 0, _ => none
  | rounds + 1, subject =>
    match m.getHandlerRound subject with
    | .inl result => some result
    | .inr subject => if subject.length = 0 then some none else m.getHandler rounds subject

section Registration

variable {m : HandlersMap Handler} {a b c : Bytes}

theorem bytes_lt_trans (hab : a < b) (hbc : b < c) : a < c := List.lt_trans hab hbc

/-- Keys that are not below a key behind which they stand, nor equal to it, are above it. -/
theorem lt_of_not_lt (h : ¬ a < b) (hne : a ≠ b) : b < a :=
  (List.le_iff_lt_or_eq.mp (List.not_lt.mp h)).resolve_right fun h => hne h.symm

/-- A selector that is not there yet comes behind those below it. -/
theorem ascending_insert {selector : Bytes} (handler : Handler) (hset : ¬ ∃ e ∈ m.entries, e.1 = selector) :
    (m.entries.takeWhile (fun e => e.1 < selector) ++
      (selector,handler) :: m.entries.dropWhile fun e => e.1 < selector).Pairwise fun a b => a.1 < b.1 := by
  have hall := m.ascending
  rw [← List.takeWhile_append_dropWhile (p := fun e => decide (e.1 < selector)) (l := m.entries)] at hall
  obtain ⟨hbefore,hafter,hcross⟩ := List.pairwise_append.mp hall
  have hbelow : ∀ e ∈ m.entries.takeWhile (fun e => e.1 < selector), e.1 < selector := by
    intro e he
    have h := List.mem_takeWhile_imp he
    exact of_decide_eq_true h
  have habove : ∀ e ∈ m.entries.dropWhile (fun e => e.1 < selector), selector < e.1 := by
    cases hdrop : m.entries.dropWhile (fun e => e.1 < selector) with
    | nil => exact List.forall_mem_nil _
    | cons d rest =>
      have hnot := List.head?_dropWhile_not (fun e => decide (e.1 < selector)) m.entries
      rw [hdrop] at hnot hafter
      have hd : d ∈ m.entries := (List.dropWhile_sublist _).subset (hdrop ▸ List.mem_cons_self)
      have hfirst : selector < d.1 := lt_of_not_lt (of_decide_eq_false hnot) fun h => hset ⟨d,hd,h⟩
      rw [List.forall_mem_cons]
      exact ⟨hfirst,fun e he => bytes_lt_trans hfirst (List.rel_of_pairwise_cons hafter he)⟩
  rw [List.pairwise_append]
  refine ⟨hbefore,List.pairwise_cons.mpr ⟨habove,hafter⟩,fun e he d hd => ?_⟩
  rcases List.mem_cons.mp hd with rfl | hd
  · exact hbelow e he
  · exact hcross e he d hd

/-- `bindHandler`. -/
def bindHandler (m : HandlersMap Handler) (selector : Bytes) (handler : Handler) :
    Except String (HandlersMap Handler) :=
  if hset : ∃ e ∈ m.entries, e.1 = selector then .error "Handler already set early"
  else .ok {
    entries := m.entries.takeWhile (fun e => e.1 < selector) ++
      (selector,handler) :: m.entries.dropWhile fun e => e.1 < selector
    ascending := ascending_insert handler hset }

/-- `unbindHandler`. -/
def unbindHandler (m : HandlersMap Handler) (selector : Bytes) : HandlersMap Handler where
  entries := m.entries.filter fun e => e.1 ≠ selector
  ascending := m.ascending.filter _

end Registration

/-- The handler of the longest selector that begins the path, and none where no selector does. -/
def Longest (m : HandlersMap Handler) (path : Bytes) : Option Handler → Prop
  | some handler => ∃ selector, (selector,handler) ∈ m.entries ∧ selector <+: path ∧
      ∀ e ∈ m.entries, e.1 <+: path → e.1.length ≤ selector.length
  | none => ∀ e ∈ m.entries, ¬ e.1 <+: path

section Lookup

variable {m : HandlersMap Handler} {subject rest k : Bytes} {n : ℕ} {e : Bytes × Handler}

theorem strncmp_eq_iff (hk : n ≤ k.length) (hs : n ≤ subject.length) (hnul : ∀ c ∈ subject, c ≠ 0) :
    strncmp n k subject = .eq ↔ k.take n = subject.take n := by
  induction n generalizing k subject with
  | zero => simp [strncmp]
  | succ n ih =>
    cases k with
    | nil => simp at hk
    | cons a k =>
      cases subject with
      | nil => simp at hs
      | cons b subject =>
        obtain ⟨hb,hmore⟩ := List.forall_mem_cons.mp hnul
        rw [strncmp,List.take_succ_cons,List.take_succ_cons,List.cons.injEq]
        by_cases hab : a < b
        · rw [if_pos hab]
          exact iff_of_false nofun fun h => UInt8.lt_irrefl b (h.1 ▸ hab)
        · rw [if_neg hab]
          by_cases hba : b < a
          · rw [if_pos hba]
            exact iff_of_false nofun fun h => UInt8.lt_irrefl b (h.1 ▸ hba)
          · obtain rfl : a = b := UInt8.le_antisymm (UInt8.not_lt.mp hba) (UInt8.not_lt.mp hab)
            rw [if_neg hba,if_neg hb,ih (Nat.le_of_succ_le_succ hk) (Nat.le_of_succ_le_succ hs) hmore]
            exact (and_iff_right rfl).symm

theorem strncmp_gt (h : strncmp n k subject = .gt) : subject < k := by
  induction n generalizing k subject with
  | zero => exact absurd h (by simp [strncmp])
  | succ n ih =>
    cases k with
    | nil => exact absurd h (by simp [strncmp])
    | cons a k =>
      cases subject with
      | nil => exact List.nil_lt_cons a k
      | cons b subject =>
        rw [strncmp] at h
        split_ifs at h with hab hba hzero
        · exact List.cons_lt_cons_iff.mpr (.inl hba)
        · obtain rfl : a = b := UInt8.le_antisymm (UInt8.not_lt.mp hba) (UInt8.not_lt.mp hab)
          exact List.cons_lt_cons_iff.mpr (.inr ⟨rfl,ih h⟩)

theorem strncmp_lt (h : strncmp n k subject = .lt) : k.take n < subject.take n := by
  induction n generalizing k subject with
  | zero => exact absurd h (by simp [strncmp])
  | succ n ih =>
    cases k with
    | nil => exact absurd h (by simp [strncmp])
    | cons a k =>
      cases subject with
      | nil => exact absurd h (by simp [strncmp])
      | cons b subject =>
        rw [strncmp] at h
        rw [List.take_succ_cons,List.take_succ_cons]
        split_ifs at h with hab hba hzero
        · exact List.cons_lt_cons_iff.mpr (.inl hab)
        · obtain rfl : a = b := UInt8.le_antisymm (UInt8.not_lt.mp hba) (UInt8.not_lt.mp hab)
          exact List.cons_lt_cons_iff.mpr (.inr ⟨rfl,ih h⟩)

/-- In front of the `upper_bound` stands what is not above the subject. -/
theorem mem_notAbove : e ∈ m.entries.takeWhile (fun e => ¬ subject < e.1) ↔ e ∈ m.entries ∧ e.1 ≤ subject := by
  have hall := m.ascending
  generalize m.entries = entries at hall
  induction entries with
  | nil => simp
  | cons d l ih =>
    rw [List.pairwise_cons] at hall
    by_cases hd : subject < d.1
    · have hnone : ¬ ((e ∈ d :: l) ∧ e.1 ≤ subject) := by
        rintro ⟨he,hle⟩
        apply List.not_lt.mpr hle
        rcases List.mem_cons.mp he with rfl | he
        · exact hd
        · exact bytes_lt_trans hd (hall.1 e he)
      rw [List.takeWhile_cons_of_neg (by simpa using hd)]
      exact iff_of_false List.not_mem_nil hnone
    · have hmore := ih hall.2
      rw [List.takeWhile_cons_of_pos (by simpa using hd),List.mem_cons,List.mem_cons]
      constructor
      · rintro (rfl | he)
        · exact ⟨.inl rfl,List.not_lt.mp hd⟩
        · exact ⟨.inr (hmore.mp he).1,(hmore.mp he).2⟩
      · rintro ⟨rfl | he,hle⟩
        · exact .inl rfl
        · exact .inr (hmore.mpr ⟨he,hle⟩)

/-- The last of them is the highest. -/
theorem le_last {d : Bytes × Handler} (h : (m.entries.takeWhile fun e => ¬ subject < e.1).getLast? = some e)
    (hd : d ∈ m.entries) (hle : d.1 ≤ subject) : d.1 ≤ e.1 := by
  have hmem := mem_notAbove.mpr ⟨hd,hle⟩
  have hsorted := m.ascending.sublist (List.takeWhile_sublist fun e => ¬ subject < e.1)
  obtain ⟨front,hfront⟩ := List.getLast?_eq_some_iff.mp h
  rw [hfront] at hmem hsorted
  rcases List.mem_append.mp hmem with hin | hlast
  · exact List.le_of_lt ((List.pairwise_append.mp hsorted).2.2 d hin e (List.mem_singleton.mpr rfl))
  · rw [List.mem_singleton.mp hlast]
    exact List.le_refl _

/-- A selector that is not above the subject and does not differ from it where both go on begins it. -/
theorem begins_of_take (hle : k ≤ subject)
    (h : k.take (min subject.length k.length) = subject.take (min subject.length k.length)) : k <+: subject := by
  by_cases hlength : k.length ≤ subject.length
  · rw [Nat.min_eq_right hlength,List.take_length] at h
    exact h ▸ List.take_prefix _ _
  · have hshort := Nat.le_of_not_le hlength
    rw [Nat.min_eq_left hshort,List.take_length] at h
    have hbegin : subject <+: k := h ▸ List.take_prefix _ _
    rw [List.le_antisymm hle (prefix_le hbegin)]

/-- The subject itself is not at its `upper_bound`. -/
theorem upperBound_ne :
    ((m.entries.dropWhile fun e => ¬ subject < e.1).head?.filter fun e => e.1 = subject) = none := by
  have hnot := List.head?_dropWhile_not (fun e => decide (¬ subject < e.1)) m.entries
  cases hhead : (m.entries.dropWhile fun e => ¬ subject < e.1).head? with
  | none => rfl
  | some e =>
    rw [hhead] at hnot
    have habove : subject < e.1 := not_not.mp (of_decide_eq_false hnot)
    rw [Option.filter_eq_none_iff]
    intro d hd
    obtain rfl := Option.some.inj hd
    simp only [decide_eq_true_eq]
    exact fun h => List.lt_irrefl subject (h ▸ habove)

/-- A round returns the handler of the longest selector, or leaves a subject that begins with the same selectors. -/
theorem getHandlerRound_spec (hnul : ∀ c ∈ subject, c ≠ 0) :
    match m.getHandlerRound subject with
    | .inl result => m.Longest subject result
    | .inr rest => rest <+: subject ∧ rest.length < subject.length ∧
        ∀ e ∈ m.entries, e.1 <+: subject → e.1 <+: rest := by
  rw [getHandlerRound]
  simp only [upperBound_ne]
  cases hlast : (m.entries.takeWhile fun e => ¬ subject < e.1).getLast? with
  | none =>
    intro e he hbegin
    have hmem := mem_notAbove.mpr ⟨he,prefix_le hbegin⟩
    rw [List.getLast?_eq_none_iff.mp hlast] at hmem
    exact absurd hmem List.not_mem_nil
  | some e =>
    obtain ⟨he,hle⟩ := mem_notAbove.mp (List.mem_of_getLast? hlast)
    have hbegins : ∀ d ∈ m.entries, d.1 <+: subject → d.1 <+: e.1 := fun d hd hbegin =>
      prefix_between hbegin (le_last hlast hd (prefix_le hbegin)) hle
    have heq := strncmp_eq_iff (Nat.min_le_right subject.length e.1.length) (Nat.min_le_left _ _) hnul
    cases hcmp : strncmp (min subject.length e.1.length) e.1 subject with
    | eq =>
      simp only [hcmp]
      exact ⟨e.1,he,begins_of_take hle (heq.mp hcmp),fun d hd hbegin => (hbegins d hd hbegin).length_le⟩
    | gt => exact absurd (strncmp_gt hcmp) (List.not_lt.mpr hle)
    | lt =>
      have hdiffer : e.1.take (min subject.length e.1.length) ≠ subject.take (min subject.length e.1.length) :=
        fun h => absurd ((heq.mpr h).symm.trans hcmp) nofun
      simp only [hcmp]
      refine ⟨List.take_prefix _ _,?_,fun d hd hbegin => prefix_short (hbegins d hd hbegin) hbegin hdiffer⟩
      have hpos : 0 < subject.length := by
        by_contra hzero
        rw [Nat.eq_zero_of_not_pos hzero,Nat.zero_min] at hdiffer
        exact hdiffer rfl
      rw [List.length_take]
      omega

/-- The loop ends, with the handler of the longest selector. -/
theorem getHandler_spec (hne : ∀ e ∈ m.entries, e.1 ≠ []) (hnul : ∀ c ∈ subject, c ≠ 0) :
    ∃ result, (∀ rounds, subject.length < rounds → m.getHandler rounds subject = some result) ∧
      m.Longest subject result := by
  induction hlength : subject.length using Nat.strong_induction_on generalizing subject with
  | _ length ih =>
    have hround := getHandlerRound_spec (m := m) hnul
    cases hstep : m.getHandlerRound subject with
    | inl result =>
      rw [hstep] at hround
      refine ⟨result,fun rounds hrounds => ?_,hround⟩
      obtain ⟨n,rfl⟩ := Nat.exists_eq_succ_of_ne_zero (Nat.ne_of_gt (Nat.zero_lt_of_lt hrounds))
      rw [getHandler,hstep]
    | inr rest =>
      rw [hstep] at hround
      obtain ⟨hbegin,hshort,hsame⟩ := hround
      by_cases hempty : rest.length = 0
      · refine ⟨none,fun rounds hrounds => ?_,fun e he hbegins => hne e he ?_⟩
        · obtain ⟨n,rfl⟩ := Nat.exists_eq_succ_of_ne_zero (Nat.ne_of_gt (Nat.zero_lt_of_lt hrounds))
          rw [getHandler,hstep]
          exact if_pos hempty
        · have hnil := hsame e he hbegins
          rw [List.length_eq_zero_iff.mp hempty] at hnil
          exact List.prefix_nil.mp hnil
      · obtain ⟨result,hruns,hlongest⟩ := ih rest.length (hlength ▸ hshort)
          (fun c hc => hnul c (hbegin.subset hc)) rfl
        refine ⟨result,fun rounds hrounds => ?_,?_⟩
        · obtain ⟨n,rfl⟩ := Nat.exists_eq_succ_of_ne_zero (Nat.ne_of_gt (Nat.zero_lt_of_lt hrounds))
          rw [getHandler,hstep]
          simp only [if_neg hempty]
          exact hruns n (by omega)
        · cases result with
          | none => exact fun e he hbegins => hlongest e he (hsame e he hbegins)
          | some handler =>
            obtain ⟨selector,hselector,hbegins,hlongest⟩ := hlongest
            exact ⟨selector,hselector,hbegins.trans hbegin,fun e he h => hlongest e he (hsame e he h)⟩

end Lookup

section Selectors

variable {subject : Bytes}

theorem toNat_lt (a b : Bytes) : a.map UInt8.toNat < b.map UInt8.toNat ↔ a < b := by
  induction a generalizing b with
  | nil => cases b <;> simp
  | cons x a ih =>
    cases b with
    | nil => simp
    | cons y b =>
      rw [List.map_cons,List.map_cons,List.cons_lt_cons_iff,List.cons_lt_cons_iff,ih,UInt8.toNat_inj]
      rfl

/-- Every selector with itself for a handler. -/
def selectors (m : HandlersMap Handler) : HandlersMap Bytes where
  entries := m.entries.map fun e => (e.1,e.1)
  ascending := List.pairwise_map.mpr m.ascending

theorem filter_notAbove (m : HandlersMap Handler) (subject : Bytes) :
    ((m.entries.map Prod.fst).filter fun key => ¬ subject.map UInt8.toNat < key.map UInt8.toNat) =
      (m.selectors.entries.takeWhile fun e => ¬ subject < e.1).map Prod.fst := by
  have hall := m.ascending
  change _ = ((m.entries.map fun e => (e.1,e.1)).takeWhile fun e => ¬ subject < e.1).map Prod.fst
  generalize m.entries = entries at hall
  induction entries with
  | nil => rfl
  | cons d l ih =>
    rw [List.pairwise_cons] at hall
    have hmore := ih hall.2
    simp only [toNat_lt] at hmore ⊢
    rw [List.map_cons,List.map_cons]
    by_cases hd : subject < d.1
    · rw [List.takeWhile_cons_of_neg (by simpa using hd),List.filter_cons_of_neg (by simpa using hd)]
      rw [List.map_nil,List.filter_eq_nil_iff]
      intro key hkey
      obtain ⟨e,he,rfl⟩ := List.mem_map.mp hkey
      simpa using bytes_lt_trans hd (hall.1 e he)
    · rw [List.takeWhile_cons_of_pos (by simpa using hd),List.filter_cons_of_pos (by simpa using hd),hmore]
      rfl

/-- The selector that the server works with is the one found here. -/
theorem http_getHandler (m : HandlersMap Handler) (hnul : ∀ c ∈ subject, c ≠ 0) (rounds : ℕ) :
    HttpServer.getHandler (m.entries.map Prod.fst) rounds subject = (m.selectors.getHandler rounds subject).join := by
  induction rounds generalizing subject with
  | zero => rfl
  | succ rounds ih =>
    rw [HttpServer.getHandler,getHandler,getHandlerRound]
    simp only [upperBound_ne,filter_notAbove,List.getLast?_map]
    cases hlast : (m.selectors.entries.takeWhile fun e => ¬ subject < e.1).getLast? with
    | none => rfl
    | some e =>
      obtain ⟨he,hle⟩ := mem_notAbove.mp (List.mem_of_getLast? hlast)
      obtain ⟨d,-,rfl⟩ := List.mem_map.mp he
      have heq := strncmp_eq_iff (Nat.min_le_right subject.length d.1.length) (Nat.min_le_left _ _) hnul
      simp only [Option.map_some]
      cases hcmp : strncmp (min subject.length d.1.length) d.1 subject with
      | eq =>
        rw [if_pos (heq.mp hcmp)]
        rfl
      | gt => exact absurd (strncmp_gt hcmp) (List.not_lt.mpr hle)
      | lt =>
        have hdiffer : ¬ d.1.take (min subject.length d.1.length) = subject.take (min subject.length d.1.length) :=
          fun h => absurd ((heq.mpr h).symm.trans hcmp) nofun
        have hbelow : ¬ (subject.take (min subject.length d.1.length)).map UInt8.toNat <
            (d.1.take (min subject.length d.1.length)).map UInt8.toNat := by
          rw [toNat_lt]
          exact List.lt_asymm (strncmp_lt hcmp)
        have hlength : (subject.take (min subject.length d.1.length - 1)).length =
            min subject.length d.1.length - 1 := by
          rw [List.length_take]
          omega
        have hplain : ∀ c ∈ subject.take (min subject.length d.1.length - 1), c ≠ 0 :=
          fun c hc => hnul c ((List.take_prefix _ _).subset hc)
        have hmore := ih hplain
        rw [if_neg hdiffer,if_neg hbelow]
        simp only [hlength]
        split_ifs
        · rfl
        · exact hmore

end Selectors

end HandlersMap

/-- A path as the callers of `getHandler` have it from a URI. -/
structure RequestPath where
  bytes : Bytes
  slash : bytes ≠ [] → bytes.head? = some 0x2f
  plain : ∀ c ∈ bytes, c ≠ 0

/-- The path of a URI that was read. -/
def HttpUri.requestPath (u : HttpUri) (h : u.Plain) : RequestPath where
  bytes := u._path
  slash := h.path
  plain := by
    rintro c hc rfl
    exact absurd (h.pathChars 0 hc) (by decide)

/-- What is taken of a request line is such a path. -/
theorem HttpUri.parse_requestPath {s bytes : Bytes} (h : HttpUri.parse s = .ok bytes) :
    ∃ path : RequestPath, path.bytes = bytes := by
  rw [HttpUri.parse_eq] at h
  cases hread : HttpUri.parseUri s with
  | error what =>
    rw [hread] at h
    exact absurd h nofun
  | ok u =>
    rw [hread] at h
    exact ⟨u.requestPath (HttpUri.parseUri_ok hread).1,Except.ok.inj h⟩

namespace WsServer

variable {Handler : Type}

/-- `getHandler`, which is the one of `HttpServer` with other messages in its comments. -/
def getHandler (m : HandlersMap Handler) (rounds : ℕ) (subject : Bytes) : Option (Option Handler) :=
  m.getHandler rounds subject

end WsServer

namespace HandlersMap

variable {Handler : Type}

/-- For selectors that begin with a slash and the path of a request both loops end, with the handler of the longest
selector that begins the path, or with none if no selector does. -/
theorem getHandler_longest (m : HandlersMap Handler) (hslash : ∀ e ∈ m.entries, e.1.head? = some 0x2f)
    (path : RequestPath) : ∃ result,
      (∀ rounds, path.bytes.length < rounds → m.getHandler rounds path.bytes = some result ∧
        WsServer.getHandler m rounds path.bytes = some result) ∧
      m.Longest path.bytes result := by
  have hne : ∀ e ∈ m.entries, e.1 ≠ [] := by
    intro e he hnil
    have hhead := hslash e he
    rw [hnil] at hhead
    exact absurd hhead nofun
  obtain ⟨result,hruns,hlongest⟩ := getHandler_spec hne path.plain
  exact ⟨result,fun rounds hrounds => ⟨hruns rounds hrounds,hruns rounds hrounds⟩,hlongest⟩

/-- Two selectors, and a path whose handler is found in the second round. -/
theorem getHandler_longest_pair : ∃ result : Option ℕ,
    (∀ rounds, 4 < rounds →
      (⟨[(text "/a",1),(text "/aab",2)],by decide⟩ : HandlersMap ℕ).getHandler rounds (text "/aac") = some result ∧
      WsServer.getHandler ⟨[(text "/a",1),(text "/aab",2)],by decide⟩ rounds (text "/aac") = some result) ∧
    (⟨[(text "/a",1),(text "/aab",2)],by decide⟩ : HandlersMap ℕ).Longest (text "/aac") result :=
  getHandler_longest ⟨[(text "/a",1),(text "/aab",2)],by decide⟩
    (List.forall_mem_cons.mpr ⟨rfl,List.forall_mem_singleton.mpr rfl⟩) ⟨text "/aac",fun _ => rfl,
      fun _ hc hzero => absurd (hzero ▸ hc) (by decide : (0 : UInt8) ∉ text "/aac")⟩

end HandlersMap

end Tkeycoin
