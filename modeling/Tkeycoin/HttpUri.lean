import Tkeycoin.JsonNumbers
import Tkeycoin.HttpRequest

/-! `HttpUri`: a URI is read from a text and written as one again. -/
namespace Tkeycoin

inductive HttpUri.Scheme
  | UNDEFINED | HTTP | HTTPS
  deriving DecidableEq

structure HttpUri where
  _scheme : HttpUri.Scheme
  _host : Bytes
  _port : ℕ
  _path : Bytes
  _hasQuery : Bool
  _query : Bytes
  _hasFragment : Bool
  _fragment : Bytes
  deriving DecidableEq

namespace HttpUri

def isalnum (c : UInt8) : Bool := isalpha c || isdigit c

/-- The end of a fragment: the text ends, or a blank stands there. -/
def endsFragment (c : UInt8) : Bool := c = 0 || isspace c

def endsQuery (c : UInt8) : Bool := c = 0x23 || endsFragment c

def endsPath (c : UInt8) : Bool := c = 0x3f || endsQuery c

def endsPort (c : UInt8) : Bool := c = 0x2f || endsPath c

def endsHost (c : UInt8) : Bool := c = 0x3a || endsPort c

def hostChar (c : UInt8) : Bool := isalnum c || c = 0x2e || c = 0x2d

/-- The host, and what follows it. -/
def readHost : Bytes → Except String (Bytes × Bytes)
  | [] => .ok ([],[])
  | c :: s =>
    if endsHost c then .ok ([],c :: s)
    else if ¬ hostChar c then .error "Wrong hostname"
    else (readHost s).map fun p => (tolower c :: p.1,p.2)

/-- The digits of a port, after those of `port`. -/
def readPort (port : ℕ) : Bytes → Except String (ℕ × Bytes)
  | [] => .ok (port,[])
  | c :: s =>
    if endsPort c then .ok (port,c :: s)
    else if ¬ isdigit c then .error "Wrong port"
    else
      let port := port * 10 + digitValue c
      if port < 1 ∨ port > 65535 then .error "Wrong port" else readPort port s

/-- What follows a mark, where it stands. -/
def readPart (mark : UInt8) (ends : UInt8 → Bool) (s : Bytes) : Option Bytes × Bytes :=
  if s.head? = some mark then (some (s.tail.takeWhile (!ends ·)),s.tail.dropWhile (!ends ·)) else (none,s)

/-- From the label `path` on nothing is refused. -/
def readPath (u : HttpUri) (s : Bytes) : HttpUri :=
  let path := if s.head? = some 0x2f then s.takeWhile (!endsPath ·) else []
  let (query,s) := readPart 0x3f endsQuery (s.drop path.length)
  let (fragment,_) := readPart 0x23 endsFragment s
  { u with
    _path := path
    _hasQuery := query.isSome
    _query := query.getD []
    _hasFragment := fragment.isSome
    _fragment := fragment.getD [] }

/-- A URI of a scheme with its default port, before the rest is read. -/
def ofScheme (scheme : Scheme) (port : ℕ) : HttpUri := ⟨scheme,[],port,[],false,[],false,[]⟩

/-- The port behind a colon, or the one there was. -/
def readColon (port : ℕ) (s : Bytes) : Except String (ℕ × Bytes) :=
  if s.head? = some 0x3a then readPort 0 s.tail else .ok (port,s)

/-- From the host on. -/
def readAuthority (u : HttpUri) (s : Bytes) : Except String HttpUri := do
  let (host,s) ← readHost s
  let (port,s) ← readColon u._port s
  return readPath { u with _host := host, _port := port } s

/-- `parse` of a URI that is new. `HttpUri.parse` has the path only. -/
def parseUri (s : Bytes) : Except String HttpUri :=
  if startsWith s "//" then readAuthority (ofScheme .UNDEFINED 0) (s.drop 2)
  else if s.head? = some 0x2f then .ok (readPath (ofScheme .UNDEFINED 0) s)
  else if startsWith s "http://" then readAuthority (ofScheme .HTTP 80) (s.drop 7)
  else if startsWith s "https://" then readAuthority (ofScheme .HTTPS 443) (s.drop 8)
  else .error "Wrong scheme"

/-- The constructor. -/
def ofBytes (s : Bytes) : Except String HttpUri := RequestHead.within "Bad URI" (parseUri s)

/-- The port is written behind a scheme that has another one by default. -/
def portShown (u : HttpUri) : Bool :=
  u._port ≠ 0 && (u._scheme = .HTTP && u._port ≠ 80 || u._scheme = .HTTPS && u._port ≠ 443)

def schemeText (u : HttpUri) : Bytes :=
  match u._scheme with
  | .HTTP => text "http://"
  | .HTTPS => text "https://"
  | .UNDEFINED => if u._host ≠ [] then text "//" else []

/-- A part with its mark. -/
def partText (mark : UInt8) (present : Bool) (part : Bytes) : Bytes := if present then mark :: part else []

def tailText (u : HttpUri) : Bytes :=
  partText 0x3f u._hasQuery u._query ++ partText 0x23 u._hasFragment u._fragment

def str (u : HttpUri) : Bytes :=
  u.schemeText ++ u._host ++ (if u.portShown then 0x3a :: text u._port.repr else []) ++ u._path ++ u.tailText

section Parts

variable {c : UInt8} {l s rest : Bytes} {mark : UInt8} {ends : UInt8 → Bool}

theorem hostChar_spec : ∀ c : UInt8, hostChar c = true → endsHost c = false ∧ hostChar (tolower c) = true ∧
    tolower (tolower c) = tolower c :=
  ScriptNum.forall_byte (by decide)

theorem marks_end : endsHost 0x3a = true ∧ endsHost 0x2f = true ∧ endsPort 0x2f = true ∧ endsPath 0x3f = true ∧
    endsPath 0x23 = true ∧ endsQuery 0x23 = true := by
  decide

theorem endsPort_of_endsPath (h : endsPath c = true) : endsPort c = true := by
  rw [endsPort,h,Bool.or_true]

theorem endsHost_of_endsPort (h : endsPort c = true) : endsHost c = true := by
  rw [endsHost,h,Bool.or_true]

/-- Nothing in `l` ends a part, and what follows does. -/
theorem takeWhile_ends (hl : ∀ c ∈ l, ends c = false) (hrest : ∀ c ∈ rest.head?, ends c = true) :
    (l ++ rest).takeWhile (!ends ·) = l ∧ (l ++ rest).dropWhile (!ends ·) = rest := by
  have hpos : ∀ c ∈ l, (!ends c) = true := fun c hc => by rw [hl c hc,Bool.not_false]
  rw [List.takeWhile_append_of_pos hpos,List.dropWhile_append_of_pos hpos]
  cases rest with
  | nil => simp
  | cons c rest =>
    have hc : (!ends c) = false := by rw [hrest c rfl,Bool.not_true]
    rw [List.takeWhile_cons,List.dropWhile_cons,hc]
    simp

theorem forall_takeWhile (s : Bytes) : ∀ c ∈ s.takeWhile (!ends ·), ends c = false := by
  intro c hc
  have h := List.mem_takeWhile_imp hc
  simpa using h

theorem readPart_of {part : Bytes} {present : Bool} (hpart : ∀ c ∈ part, ends c = false)
    (hrest : ∀ c ∈ rest.head?, ends c = true ∧ c ≠ mark) (hnone : present = false → part = []) :
    readPart mark ends (partText mark present part ++ rest) =
      (if present then some part else none,rest) := by
  cases present with
  | true =>
    obtain ⟨htake,hdrop⟩ := takeWhile_ends hpart fun c hc => (hrest c hc).1
    simp only [partText,if_true,readPart,List.cons_append,List.head?_cons,List.tail_cons,htake,hdrop]
  | false =>
    have hmark : ¬ rest.head? = some mark := fun h => (hrest mark h).2 rfl
    simp only [partText,Bool.false_eq_true,if_false,List.nil_append,readPart,if_neg hmark]

end Parts

/-- What `parse` leaves. -/
structure Plain (u : HttpUri) : Prop where
  host : ∀ c ∈ u._host, hostChar c = true ∧ tolower c = c
  port : u._port ≤ 65535
  path : u._path ≠ [] → u._path.head? = some 0x2f
  pathChars : ∀ c ∈ u._path, endsPath c = false
  query : ∀ c ∈ u._query, endsQuery c = false
  noQuery : u._hasQuery = false → u._query = []
  fragment : ∀ c ∈ u._fragment, endsFragment c = false
  noFragment : u._hasFragment = false → u._fragment = []

section Tail

variable {u v : HttpUri} {l s rest : Bytes} {mark : UInt8} {ends : UInt8 → Bool}

theorem readPart_plain (s : Bytes) : (∀ c ∈ (readPart mark ends s).1.getD [], ends c = false) ∧
    ((readPart mark ends s).1.isSome = false → (readPart mark ends s).1.getD [] = []) := by
  rw [readPart]
  split_ifs with h
  · exact ⟨forall_takeWhile s.tail,nofun⟩
  · exact ⟨fun c hc => absurd hc List.not_mem_nil,fun _ => rfl⟩

/-- The path, the query and the fragment are plain, whatever is read. -/
theorem readPath_plain (hhost : ∀ c ∈ u._host, hostChar c = true ∧ tolower c = c) (hport : u._port ≤ 65535)
    (s : Bytes) : Plain (readPath u s) where
  host := hhost
  port := hport
  path := by
    intro h
    simp only [readPath] at h ⊢
    split_ifs at h ⊢ with hslash
    · cases s with
      | nil => exact absurd rfl h
      | cons c s =>
        obtain rfl : c = 0x2f := Option.some.inj hslash
        rfl
    · exact absurd rfl h
  pathChars := by
    intro c hc
    simp only [readPath] at hc
    split_ifs at hc
    · exact forall_takeWhile s c hc
    · exact absurd hc List.not_mem_nil
  query := (readPart_plain _).1
  noQuery := (readPart_plain _).2
  fragment := (readPart_plain _).1
  noFragment := (readPart_plain _).2

/-- What follows the path ends it. -/
theorem tailText_head (v : HttpUri) : ∀ c ∈ v.tailText.head?, endsPath c = true ∧ c ≠ 0x2f := by
  intro c hc
  rw [tailText,partText,partText] at hc
  cases hquery : v._hasQuery with
  | true =>
    rw [hquery] at hc
    obtain rfl : 0x3f = c := Option.some.inj hc
    exact ⟨marks_end.2.2.2.1,by decide⟩
  | false =>
    cases hfragment : v._hasFragment with
    | true =>
      rw [hquery,hfragment] at hc
      obtain rfl : 0x23 = c := Option.some.inj hc
      exact ⟨marks_end.2.2.2.2.1,by decide⟩
    | false =>
      rw [hquery,hfragment] at hc
      exact absurd hc nofun

theorem getD_part {part : Bytes} {present : Bool} (h : present = false → part = []) :
    (if present then some part else none).getD [] = part ∧ (if present then some part else none).isSome = present := by
  cases present with
  | true => exact ⟨rfl,rfl⟩
  | false => exact ⟨(h rfl).symm,rfl⟩

/-- A plain path, query and fragment are read as they were written. -/
theorem readPath_text (hv : Plain v) (u : HttpUri) : readPath u (v._path ++ v.tailText) =
    { u with
      _path := v._path
      _hasQuery := v._hasQuery
      _query := v._query
      _hasFragment := v._hasFragment
      _fragment := v._fragment } := by
  have hpath : (if (v._path ++ v.tailText).head? = some 0x2f then
      (v._path ++ v.tailText).takeWhile (!endsPath ·) else []) = v._path := by
    by_cases hne : v._path = []
    · have hslash : ¬ v.tailText.head? = some 0x2f := fun h => (tailText_head v _ h).2 rfl
      rw [hne,List.nil_append,if_neg hslash]
    · have hslash : (v._path ++ v.tailText).head? = some 0x2f := by
        rw [List.head?_append_of_ne_nil _ hne]
        exact hv.path hne
      rw [if_pos hslash]
      exact (takeWhile_ends hv.pathChars fun c hc => (tailText_head v c hc).1).1
  have hfragment : readPart 0x23 endsFragment (partText 0x23 v._hasFragment v._fragment ++ []) =
      (if v._hasFragment then some v._fragment else none,[]) :=
    readPart_of hv.fragment (fun c hc => absurd hc nofun) hv.noFragment
  rw [List.append_nil] at hfragment
  have hquery : readPart 0x3f endsQuery v.tailText =
      (if v._hasQuery then some v._query else none,partText 0x23 v._hasFragment v._fragment) := readPart_of hv.query (by
    intro c hc
    cases hpresent : v._hasFragment with
    | true =>
      rw [hpresent] at hc
      obtain rfl : 0x23 = c := Option.some.inj hc
      exact ⟨marks_end.2.2.2.2.2,by decide⟩
    | false =>
      rw [hpresent] at hc
      exact absurd hc nofun) hv.noQuery
  obtain ⟨hq,hq'⟩ := getD_part hv.noQuery
  obtain ⟨hf,hf'⟩ := getD_part hv.noFragment
  simp only [readPath,hpath,List.drop_left,hquery,hfragment,hq,hq',hf,hf']

end Tail

section Authority

variable {host host' s rest : Bytes} {port p n : ℕ} {u v : HttpUri}

theorem readHost_ok (h : readHost s = .ok (host,rest)) :
    (∀ c ∈ s.takeWhile (!endsHost ·), hostChar c = true) ∧ host = (s.takeWhile (!endsHost ·)).map tolower ∧
      rest = s.dropWhile (!endsHost ·) := by
  induction s generalizing host rest with
  | nil =>
    obtain ⟨rfl,rfl⟩ := Prod.mk.inj (Except.ok.inj h)
    exact ⟨List.forall_mem_nil _,rfl,rfl⟩
  | cons c s ih =>
    rw [readHost] at h
    rw [List.takeWhile_cons,List.dropWhile_cons]
    by_cases hends : endsHost c = true
    · rw [if_pos hends] at h
      obtain ⟨rfl,rfl⟩ := Prod.mk.inj (Except.ok.inj h)
      rw [hends,Bool.not_true]
      exact ⟨List.forall_mem_nil _,rfl,rfl⟩
    · rw [if_neg hends] at h
      rw [Bool.not_eq_true] at hends
      rw [hends,Bool.not_false,if_pos rfl,if_pos rfl]
      by_cases hchar : hostChar c = true
      · rw [if_neg (not_not.mpr hchar)] at h
        cases hread : readHost s with
        | error what =>
          rw [hread] at h
          exact absurd h nofun
        | ok q =>
          rw [hread] at h
          obtain ⟨rfl,rfl⟩ := Prod.mk.inj (Except.ok.inj h)
          obtain ⟨hchars,hhost,hrest⟩ := ih hread
          exact ⟨List.forall_mem_cons.mpr ⟨hchar,hchars⟩,congrArg (tolower c :: ·) hhost,hrest⟩
      · rw [if_pos hchar] at h
        exact absurd h nofun

/-- A plain host is read as it was written. -/
theorem readHost_plain (hhost : ∀ c ∈ host, hostChar c = true ∧ tolower c = c)
    (hrest : ∀ c ∈ rest.head?, endsHost c = true) : readHost (host ++ rest) = .ok (host,rest) := by
  induction host with
  | nil =>
    cases rest with
    | nil => rfl
    | cons c rest => rw [List.nil_append,readHost,if_pos (hrest c rfl)]
  | cons c host ih =>
    obtain ⟨⟨hchar,hlower⟩,hmore⟩ := List.forall_mem_cons.mp hhost
    have hends := (hostChar_spec c hchar).1
    rw [List.cons_append,readHost,if_neg (by rw [hends]; exact Bool.false_ne_true),if_neg (not_not.mpr hchar),ih hmore]
    exact congrArg (fun c => Except.ok (c :: host,rest)) hlower

theorem readPort_ok (h : readPort p s = .ok (port,rest)) : rest = s.dropWhile (!endsPort ·) ∧
    (p ≤ 65535 → port ≤ 65535) ∧ (s.head?.all endsPort = true → port = p) ∧
    (s.head?.all endsPort = false ∨ p ≠ 0 → port ≠ 0) := by
  induction s generalizing p with
  | nil =>
    obtain ⟨rfl,rfl⟩ := Prod.mk.inj (Except.ok.inj h)
    exact ⟨rfl,id,fun _ => rfl,fun h => h.resolve_left nofun⟩
  | cons c s ih =>
    rw [readPort] at h
    rw [List.dropWhile_cons,List.head?_cons,Option.all_some]
    by_cases hends : endsPort c = true
    · rw [if_pos hends] at h
      obtain ⟨rfl,rfl⟩ := Prod.mk.inj (Except.ok.inj h)
      rw [hends,Bool.not_true]
      exact ⟨rfl,id,fun _ => rfl,fun h => h.resolve_left nofun⟩
    · rw [if_neg hends] at h
      rw [Bool.not_eq_true] at hends
      rw [hends,Bool.not_false,if_pos rfl]
      by_cases hdigit : isdigit c = true
      · rw [if_neg (not_not.mpr hdigit)] at h
        simp only at h
        split_ifs at h with hrange
        rw [not_or,Nat.not_lt,Nat.not_lt] at hrange
        obtain ⟨hrest,hle,-,hne⟩ := ih h
        exact ⟨hrest,fun _ => hle hrange.2,nofun,fun _ => hne (.inr (Nat.one_le_iff_ne_zero.mp hrange.1))⟩
      · rw [if_pos hdigit] at h
        exact absurd h nofun

theorem digit_port : ∀ i : Fin 10, endsPort (UInt8.ofNat (48 + i)) = false ∧ isdigit (UInt8.ofNat (48 + i)) = true ∧
    digitValue (UInt8.ofNat (48 + i)) = i := by
  decide

theorem readPort_digit {d : ℕ} (hd : d < 10) (hlow : 1 ≤ p * 10 + d) (hhigh : p * 10 + d ≤ 65535) (s : Bytes) :
    readPort p (UInt8.ofNat (48 + d) :: s) = readPort (p * 10 + d) s := by
  obtain ⟨hends,hdigit,hvalue⟩ := digit_port ⟨d,hd⟩
  rw [readPort,if_neg (by rw [hends]; exact Bool.false_ne_true),if_neg (not_not.mpr hdigit)]
  have hrange : ¬ (p * 10 + d < 1 ∨ p * 10 + d > 65535) := by omega
  simp only [hvalue,if_neg hrange]

/-- The digits of a port, where it is not zero. -/
theorem readPort_repr (hlow : 1 ≤ n) (hhigh : n ≤ 65535) (s : Bytes) :
    readPort 0 (text n.repr ++ s) = readPort n s := by
  induction n using Nat.strong_induction_on generalizing s with
  | _ n ih =>
    by_cases h : n < 10
    · rw [JsonSerializer.text_repr_lt h,List.singleton_append,readPort_digit h (by omega) (by omega),Nat.zero_mul,
        Nat.zero_add]
    · have hmod := Nat.mod_lt n (by decide : 0 < 10)
      have hvalue : n / 10 * 10 + n % 10 = n := by omega
      rw [JsonSerializer.text_repr_ge (Nat.not_lt.mp h),List.append_assoc,ih (n / 10) (by omega) (by omega) (by omega),
        List.singleton_append,readPort_digit hmod (by omega) (by omega),hvalue]

end Authority

section Conditions

variable {s : Bytes} {u v base : HttpUri}

/-- The host, behind the scheme. -/
def authority (s : Bytes) : Bytes := s.takeWhile (!endsHost ·)

/-- What follows the host. -/
def behindHost (s : Bytes) : Bytes := s.dropWhile (!endsHost ·)

/-- What follows the port, if there is one. -/
def behindPort (s : Bytes) : Bytes :=
  if (behindHost s).head? = some 0x3a then (behindHost s).tail.dropWhile (!endsPort ·) else behindHost s

/-- A colon with no digits. -/
def emptyPort (s : Bytes) : Bool := (behindHost s).head? = some 0x3a && (behindHost s).tail.head?.all endsPort

/-- A colon with digits. -/
def digitPort (s : Bytes) : Bool := (behindHost s).head? = some 0x3a && !(behindHost s).tail.head?.all endsPort

/-- One slash stands in front, not two. -/
def oneSlash (s : Bytes) : Bool := s.head? = some 0x2f && s.tail.head? ≠ some 0x2f

/-- A text that can be written again: behind a scheme a colon has a port, and without one there is no port, and a path
that is not taken for a host. -/
def Rewritable (s : Bytes) : Prop :=
  if startsWith s "//" then
    digitPort (s.drop 2) = false ∧ (authority (s.drop 2) ≠ [] ∨ oneSlash (behindPort (s.drop 2)) = true)
  else s.head? = some 0x2f ∨ emptyPort (s.drop (if startsWith s "http://" then 7 else 8)) = false

instance (s : Bytes) : Decidable (Rewritable s) := by
  unfold Rewritable
  infer_instance

/-- The same of what was read. -/
def Writable (u : HttpUri) : Prop :=
  if u._scheme = .UNDEFINED then u._port = 0 ∧ (u._host ≠ [] ∨ oneSlash u._path = true) else u._port ≠ 0

theorem readColon_ok {p port : ℕ} {rest : Bytes} (h : readColon p (behindHost s) = .ok (port,rest)) :
    rest = behindPort s ∧ (p ≤ 65535 → port ≤ 65535) ∧ (emptyPort s = true → port = 0) ∧
      (digitPort s = true → port ≠ 0) ∧ (emptyPort s = false → digitPort s = false → port = p) := by
  rw [readColon] at h
  rw [behindPort,emptyPort,digitPort]
  by_cases hcolon : (behindHost s).head? = some 0x3a
  · rw [if_pos hcolon] at h
    obtain ⟨rfl,hle,hempty,hdigits⟩ := readPort_ok h
    rw [if_pos hcolon,decide_eq_true hcolon,Bool.true_and,Bool.true_and]
    refine ⟨rfl,fun _ => hle (Nat.zero_le _),hempty,fun hd => hdigits (.inl ?_),fun he hd => ?_⟩
    · rwa [Bool.not_eq_true'] at hd
    · rw [he] at hd
      exact absurd hd nofun
  · rw [if_neg hcolon] at h
    obtain ⟨rfl,rfl⟩ := Prod.mk.inj (Except.ok.inj h)
    rw [if_neg hcolon,decide_eq_false hcolon,Bool.false_and,Bool.false_and]
    exact ⟨rfl,id,nofun,nofun,fun _ _ => rfl⟩

/-- What is read from the host on. -/
theorem readAuthority_ok (h : readAuthority base s = .ok u) : ∃ port,
    u = readPath { base with _host := (authority s).map tolower, _port := port } (behindPort s) ∧
      (∀ c ∈ authority s, hostChar c = true) ∧ (base._port ≤ 65535 → port ≤ 65535) ∧
      (emptyPort s = true → port = 0) ∧ (digitPort s = true → port ≠ 0) ∧
      (emptyPort s = false → digitPort s = false → port = base._port) := by
  rw [readAuthority] at h
  cases hread : readHost s with
  | error what =>
    rw [hread] at h
    exact absurd h nofun
  | ok q =>
    obtain ⟨host,rest⟩ := q
    obtain ⟨hchars,rfl,rfl⟩ := readHost_ok hread
    rw [hread] at h
    cases hport : readColon base._port (behindHost s) with
    | error what =>
      have hport' : readColon base._port (s.dropWhile (!endsHost ·)) = .error what := hport
      simp only [bind,Except.bind,hport'] at h
      exact absurd h nofun
    | ok q =>
      obtain ⟨port,rest⟩ := q
      have hport' : readColon base._port (s.dropWhile (!endsHost ·)) = .ok (port,rest) := hport
      simp only [bind,Except.bind,hport'] at h
      obtain ⟨rfl,hspec⟩ := readColon_ok hport
      exact ⟨port,(Except.ok.inj h).symm,hchars,hspec⟩

theorem readPath_oneSlash (u : HttpUri) (s : Bytes) : oneSlash (readPath u s)._path = oneSlash s := by
  change oneSlash (if s.head? = some 0x2f then s.takeWhile (!endsPath ·) else []) = oneSlash s
  by_cases hslash : s.head? = some 0x2f
  · rw [if_pos hslash]
    cases s with
    | nil => rfl
    | cons c s =>
      obtain rfl : c = 0x2f := Option.some.inj hslash
      have htake : (0x2f :: s).takeWhile (!endsPath ·) = 0x2f :: s.takeWhile (!endsPath ·) := rfl
      rw [htake,oneSlash,oneSlash,List.tail_cons,List.tail_cons,List.head?_cons,List.head?_cons]
      cases s with
      | nil => rfl
      | cons d s =>
        by_cases hd : endsPath d = true
        · have hne : d ≠ 0x2f := fun h => absurd (h ▸ hd) (by decide)
          rw [List.takeWhile_cons,hd,Bool.not_true]
          simp [hne]
        · rw [Bool.not_eq_true] at hd
          rw [List.takeWhile_cons,hd,Bool.not_false,if_pos rfl,List.head?_cons,List.head?_cons]
  · rw [if_neg hslash,oneSlash,oneSlash,decide_eq_false hslash]
    rfl

theorem plain_host (hchars : ∀ c ∈ authority s, hostChar c = true) :
    ∀ c ∈ (authority s).map tolower, hostChar c = true ∧ tolower c = c := by
  intro c hc
  obtain ⟨d,hd,rfl⟩ := List.mem_map.mp hc
  exact (hostChar_spec d (hchars d hd)).2

theorem readAuthority_known {scheme : Scheme} {p : ℕ} (hscheme : scheme ≠ .UNDEFINED) (hp : p ≠ 0) (hle : p ≤ 65535)
    (h : readAuthority (ofScheme scheme p) s = .ok u) : Plain u ∧ (emptyPort s = false ↔ Writable u) := by
  obtain ⟨port,rfl,hchars,hport,hempty,hdigits,hnone⟩ := readAuthority_ok h
  refine ⟨readPath_plain (plain_host hchars) (hport hle) _,Iff.trans ?_ (iff_of_eq (if_neg hscheme)).symm⟩
  change emptyPort s = false ↔ port ≠ 0
  constructor
  · intro he
    cases hd : digitPort s with
    | true => exact hdigits hd
    | false => exact hnone he hd ▸ hp
  · intro hne
    rw [← Bool.not_eq_true]
    exact fun he => hne (hempty he)

theorem readAuthority_undefined (h : readAuthority (ofScheme .UNDEFINED 0) s = .ok u) : Plain u ∧
    (digitPort s = false ∧ (authority s ≠ [] ∨ oneSlash (behindPort s) = true) ↔ Writable u) := by
  obtain ⟨port,rfl,hchars,hport,hempty,hdigits,hnone⟩ := readAuthority_ok h
  refine ⟨readPath_plain (plain_host hchars) (hport (Nat.zero_le _)) _,?_⟩
  have hzero : digitPort s = false ↔ port = 0 := by
    constructor
    · intro hd
      cases he : emptyPort s with
      | true => exact hempty he
      | false => exact hnone he hd
    · intro hzero
      rw [← Bool.not_eq_true]
      exact fun hd => hdigits hd hzero
  refine Iff.trans ?_ (iff_of_eq (if_pos rfl)).symm
  rw [readPath_oneSlash,hzero]
  apply and_congr Iff.rfl
  apply or_congr _ Iff.rfl
  exact not_congr List.map_eq_nil_iff.symm

theorem twoSlashes (hslash : s.head? = some 0x2f) (hnext : s.tail.head? = some 0x2f) : startsWith s "//" = true := by
  match s, hslash, hnext with
  | c :: d :: t, hslash, hnext =>
    obtain rfl : c = 0x2f := Option.some.inj hslash
    obtain rfl : d = 0x2f := Option.some.inj hnext
    rfl

/-- What is read is plain, and can be written again where the text could. -/
theorem parseUri_ok (h : parseUri s = .ok u) : Plain u ∧ (Rewritable s ↔ Writable u) := by
  rw [parseUri] at h
  by_cases hslashes : startsWith s "//" = true
  · rw [if_pos hslashes] at h
    rw [Rewritable,if_pos hslashes]
    exact readAuthority_undefined h
  · rw [if_neg hslashes] at h
    rw [Rewritable,if_neg hslashes]
    by_cases hslash : s.head? = some 0x2f
    · rw [if_pos hslash] at h
      obtain rfl := Except.ok.inj h
      refine ⟨readPath_plain (List.forall_mem_nil _) (Nat.zero_le _) _,iff_of_true (.inl hslash) ?_⟩
      have hone : oneSlash s = true := by
        rw [oneSlash,decide_eq_true hslash,Bool.true_and,decide_eq_true_eq]
        exact fun hnext => hslashes (twoSlashes hslash hnext)
      have hpath := readPath_oneSlash (ofScheme .UNDEFINED 0) s
      exact (iff_of_eq (if_pos rfl)).mpr ⟨rfl,.inr (hpath.trans hone)⟩
    · rw [if_neg hslash] at h
      rw [or_iff_right hslash]
      by_cases hhttp : startsWith s "http://" = true
      · rw [if_pos hhttp] at h ⊢
        exact readAuthority_known (by decide : Scheme.HTTP ≠ .UNDEFINED) (by decide) (by decide) h
      · rw [if_neg hhttp] at h ⊢
        by_cases hhttps : startsWith s "https://" = true
        · rw [if_pos hhttps] at h
          exact readAuthority_known (by decide : Scheme.HTTPS ≠ .UNDEFINED) (by decide) (by decide) h
        · rw [if_neg hhttps] at h
          exact absurd h nofun

end Conditions

section Rereading

variable {s x tail : Bytes} {ends : UInt8 → Bool} {u base : HttpUri}

def portText (shown : Bool) (port : ℕ) : Bytes := if shown then 0x3a :: text port.repr else []

theorem slash_of_tolower : ∀ c : UInt8, tolower c = 0x2f → c = 0x2f := ScriptNum.forall_byte (by decide)

theorem endsPort_slash : endsPort 0x2f = true := rfl

theorem behind_head (hu : Plain u) : ∀ c ∈ (u._path ++ u.tailText).head?, endsPort c = true ∧ c ≠ 0x3a := by
  intro c hc
  by_cases hpath : u._path = []
  · rw [hpath,List.nil_append] at hc
    have hends := (tailText_head u c hc).1
    exact ⟨endsPort_of_endsPath hends,fun h => absurd (h ▸ hends) (by decide)⟩
  · rw [List.head?_append_of_ne_nil _ hpath,hu.path hpath] at hc
    obtain rfl : 0x2f = c := Option.some.inj hc
    exact ⟨endsPort_slash,by decide⟩

/-- What was written from the host on is read again, with the port if it was written. -/
theorem readAuthority_text (hu : Plain u) {shown : Bool} (hshown : shown = true → 1 ≤ u._port) :
    readAuthority base (u._host ++ (portText shown u._port ++ (u._path ++ u.tailText))) =
      .ok { u with _scheme := base._scheme, _port := if shown then u._port else base._port } := by
  have hbehind := behind_head hu
  have hhost : readHost (u._host ++ (portText shown u._port ++ (u._path ++ u.tailText))) =
      .ok (u._host,portText shown u._port ++ (u._path ++ u.tailText)) := readHost_plain hu.host (by
    intro c hc
    cases shown with
    | true =>
      obtain rfl : 0x3a = c := Option.some.inj hc
      rfl
    | false => exact endsHost_of_endsPort (hbehind c hc).1)
  have hport : readColon base._port (portText shown u._port ++ (u._path ++ u.tailText)) =
      .ok (if shown then u._port else base._port,u._path ++ u.tailText) := by
    cases shown with
    | true =>
      have hend : ∀ rest : Bytes, (∀ c ∈ rest.head?, endsPort c = true) → ∀ p, readPort p rest = .ok (p,rest) := by
        intro rest hrest p
        cases rest with
        | nil => rfl
        | cons c rest => rw [readPort,if_pos (hrest c rfl)]
      rw [readColon,portText,if_pos rfl,if_pos rfl,if_pos (by rfl),List.cons_append,List.tail_cons,
        readPort_repr (hshown rfl) hu.port,hend _ fun c hc => (hbehind c hc).1]
    | false =>
      have hcolon : ¬ (u._path ++ u.tailText).head? = some 0x3a := fun h => (hbehind _ h).2 rfl
      rw [readColon,portText,if_neg Bool.false_ne_true,if_neg Bool.false_ne_true,List.nil_append,if_neg hcolon]
  rw [readAuthority,hhost]
  simp only [bind,Except.bind,hport,readPath_text hu]
  rfl

theorem dropWhile_tail (htail : ∀ c ∈ tail.head?, ends c = true) (x : Bytes) :
    ∃ y, (x ++ tail).dropWhile (!ends ·) = y ++ tail ∧ y.length ≤ x.length := by
  induction x with
  | nil =>
    refine ⟨[],?_,le_rfl⟩
    cases tail with
    | nil => rfl
    | cons c tail => rw [List.nil_append,List.dropWhile_cons,htail c rfl,Bool.not_true,if_neg Bool.false_ne_true]
  | cons c x ih =>
    rw [List.cons_append,List.dropWhile_cons]
    by_cases hc : ends c = true
    · rw [hc,Bool.not_true,if_neg Bool.false_ne_true]
      exact ⟨c :: x,rfl,le_rfl⟩
    · rw [Bool.not_eq_true] at hc
      obtain ⟨y,hy,hle⟩ := ih
      rw [hc,Bool.not_false,if_pos rfl]
      exact ⟨y,hy,Nat.le_succ_of_le hle⟩

theorem takeWhile_tail (htail : ∀ c ∈ tail.head?, ends c = true) (x : Bytes) :
    ((x ++ tail).takeWhile (!ends ·)).length ≤ x.length := by
  induction x with
  | nil =>
    cases tail with
    | nil => exact le_rfl
    | cons c tail =>
      rw [List.nil_append,List.takeWhile_cons,htail c rfl,Bool.not_true,if_neg Bool.false_ne_true]
  | cons c x ih =>
    rw [List.cons_append,List.takeWhile_cons]
    by_cases hc : ends c = true
    · rw [hc,Bool.not_true,if_neg Bool.false_ne_true]
      exact Nat.zero_le _
    · rw [Bool.not_eq_true] at hc
      rw [hc,Bool.not_false,if_pos rfl]
      exact Nat.succ_le_succ ih

/-- A path behind two slashes is no longer than what there is of it behind them. -/
theorem readAuthority_path (htail : ∀ c ∈ tail.head?, endsPath c = true)
    (h : readAuthority base (x ++ tail) = .ok u) : u._path.length ≤ x.length := by
  obtain ⟨port,rfl,-⟩ := readAuthority_ok h
  have hport : ∀ c ∈ tail.head?, endsPort c = true := fun c hc => endsPort_of_endsPath (htail c hc)
  have hhost : ∀ c ∈ tail.head?, endsHost c = true := fun c hc => endsHost_of_endsPort (hport c hc)
  obtain ⟨y,hy,hle⟩ : ∃ y, behindPort (x ++ tail) = y ++ tail ∧ y.length ≤ x.length := by
    obtain ⟨y,hy,hle⟩ := dropWhile_tail hhost x
    rw [behindPort,behindHost,hy]
    split_ifs with hcolon
    · cases y with
      | nil => exact absurd (htail 0x3a hcolon) (by decide)
      | cons c y =>
        obtain ⟨z,hz,hshort⟩ := dropWhile_tail hport y
        exact ⟨z,hz,hshort.trans ((Nat.le_succ _).trans hle)⟩
    · exact ⟨y,rfl,hle⟩
  rw [hy]
  change (if (y ++ tail).head? = some 0x2f then (y ++ tail).takeWhile (!endsPath ·) else []).length ≤ _
  split_ifs
  · exact (takeWhile_tail htail y).trans hle
  · exact Nat.zero_le _

theorem str_eq (u : HttpUri) :
    u.str = u.schemeText ++ (u._host ++ (portText u.portShown u._port ++ (u._path ++ u.tailText))) := by
  simp only [str,portText,List.append_assoc]

theorem portShown_pos (h : u.portShown = true) : 1 ≤ u._port := by
  rw [portShown,Bool.and_eq_true,decide_eq_true_eq] at h
  exact Nat.one_le_iff_ne_zero.mpr h.1

theorem parseUri_known (hu : Plain u) (h : u._scheme ≠ .UNDEFINED) : ∃ p, p ≠ 0 ∧
    (u.portShown = false → u._port = 0 ∨ u._port = p) ∧
    parseUri u.str = .ok { u with _port := if u.portShown then u._port else p } := by
  obtain ⟨scheme,host,port,path,hasQuery,query,hasFragment,fragment⟩ := u
  rw [str_eq]
  cases scheme with
  | UNDEFINED => exact absurd rfl h
  | HTTP =>
    refine ⟨80,by decide,fun hshown => ?_,readAuthority_text hu portShown_pos⟩
    simpa [portShown,or_iff_not_imp_left] using hshown
  | HTTPS =>
    refine ⟨443,by decide,fun hshown => ?_,readAuthority_text hu portShown_pos⟩
    simpa [portShown,or_iff_not_imp_left] using hshown

theorem oneSlash_cons {c : UInt8} (s : Bytes) : oneSlash (c :: s) = true ↔ c = 0x2f ∧ s.head? ≠ some 0x2f := by
  rw [oneSlash,Bool.and_eq_true,decide_eq_true_eq,decide_eq_true_eq,List.head?_cons,List.tail_cons,Option.some.injEq]

/-- Without a host the path is what the text begins with. -/
theorem parseUri_path (hu : Plain u) (hscheme : u._scheme = .UNDEFINED) (hhost : u._host = []) :
    parseUri u.str = .ok u ↔ u._port = 0 ∧ oneSlash u._path = true := by
  have hstr : u.str = u._path ++ u.tailText := by
    have hshown : u.portShown = false := by simp [portShown,hscheme]
    rw [str_eq,schemeText,hscheme,hhost,hshown]
    rfl
  rw [hstr]
  cases hpath : u._path with
  | nil =>
    apply iff_of_false _ fun h => absurd h.2 (by decide)
    have hmark : ∀ c s, c = 0x3f ∨ c = 0x23 → parseUri (c :: s) = .error "Wrong scheme" := by
      rintro c s (rfl | rfl) <;> rfl
    have hwrong : parseUri u.tailText = .error "Wrong scheme" := by
      rw [tailText,partText,partText]
      cases u._hasQuery with
      | true => exact hmark 0x3f _ (.inl rfl)
      | false =>
        cases u._hasFragment with
        | true => exact hmark 0x23 _ (.inr rfl)
        | false => rfl
    rw [List.nil_append,hwrong]
    exact nofun
  | cons c p =>
    have hslash := hu.path (hpath ▸ List.cons_ne_nil c p)
    rw [hpath,List.head?_cons,Option.some.injEq] at hslash
    subst hslash
    rw [oneSlash_cons]
    by_cases hnext : p.head? = some 0x2f
    · apply iff_of_false _ fun h => h.2.2 hnext
      obtain ⟨q,rfl⟩ : ∃ q, p = 0x2f :: q := by
        cases p with
        | nil => exact absurd hnext nofun
        | cons d q => exact ⟨q,congrArg (· :: q) (Option.some.inj hnext)⟩
      intro h
      have hle := readAuthority_path (fun c hc => (tailText_head u c hc).1)
        (show readAuthority (ofScheme .UNDEFINED 0) (q ++ u.tailText) = .ok u from h)
      rw [hpath,List.length_cons,List.length_cons] at hle
      omega
    · have hsecond : (p ++ u.tailText).head? ≠ some 0x2f := by
        cases p with
        | nil => exact fun h => (tailText_head u _ h).2 rfl
        | cons d q => exact hnext
      have hread : parseUri (0x2f :: p ++ u.tailText) = .ok (readPath (ofScheme .UNDEFINED 0) (u._path ++ u.tailText)) := by
        have hone : startsWith (0x2f :: (p ++ u.tailText)) "//" = false := by
          rw [← Bool.not_eq_true]
          intro h
          cases htext : p ++ u.tailText with
          | nil =>
            rw [htext] at h
            exact absurd h (by decide)
          | cons d q =>
            rw [htext] at h hsecond
            rw [startsWith,decide_eq_true_eq] at h
            have hd : tolower d = 0x2f := (List.cons.inj (List.cons.inj h).2).1
            exact hsecond (congrArg some (slash_of_tolower d hd))
        rw [parseUri,List.cons_append,hone,if_neg Bool.false_ne_true,if_pos (by rfl),hpath,List.cons_append]
      rw [hread,readPath_text hu]
      obtain ⟨scheme,host,port,path,hasQuery,query,hasFragment,fragment⟩ := u
      obtain rfl : scheme = .UNDEFINED := hscheme
      obtain rfl : host = [] := hhost
      simp [ofScheme,hnext,eq_comm]

/-- What was read and written is read again where it is writable, and nowhere else. -/
theorem parseUri_str (hu : Plain u) : parseUri u.str = .ok u ↔ Writable u := by
  by_cases hscheme : u._scheme = .UNDEFINED
  · rw [Writable,if_pos hscheme]
    by_cases hhost : u._host = []
    · rw [parseUri_path hu hscheme hhost]
      simp [hhost]
    · have hread : parseUri u.str = .ok { u with _port := 0 } := by
        have hshown : u.portShown = false := by simp [portShown,hscheme]
        rw [str_eq,schemeText,hscheme,hshown]
        simp only [if_pos hhost]
        obtain ⟨scheme,host,port,path,hasQuery,query,hasFragment,fragment⟩ := u
        obtain rfl : scheme = .UNDEFINED := hscheme
        exact readAuthority_text hu nofun
      rw [hread]
      obtain ⟨scheme,host,port,path,hasQuery,query,hasFragment,fragment⟩ := u
      have hhost' : host ≠ [] := hhost
      simp [hhost',eq_comm (a := port)]
  · rw [Writable,if_neg hscheme]
    obtain ⟨p,hp,hnot,hread⟩ := parseUri_known hu hscheme
    rw [hread]
    cases hshown : u.portShown with
    | true => exact iff_of_true rfl (Nat.one_le_iff_ne_zero.mp (portShown_pos hshown))
    | false =>
      rcases hnot hshown with hzero | hdefault
      · obtain ⟨scheme,host,port,path,hasQuery,query,hasFragment,fragment⟩ := u
        simp [hp,show port = 0 from hzero]
      · rw [hdefault]
        obtain ⟨scheme,host,port,path,hasQuery,query,hasFragment,fragment⟩ := u
        simp [hp,show port = p from hdefault]

end Rereading

/-- A URI that was read is read the same from what it is written as, exactly where the text is rewritable: behind
`http://` and `https://` a colon comes with a port, and without a scheme there is no port, and a host or a path that
begins with one slash. -/
theorem reparse_iff (s : Bytes) (u : HttpUri) (h : parseUri s = .ok u) : parseUri u.str = .ok u ↔ Rewritable s := by
  obtain ⟨hplain,hwritable⟩ := parseUri_ok h
  rw [hwritable]
  exact parseUri_str hplain

/-- A port and an upper case host are read again with `http://`. -/
theorem reparse_http : ∃ u, parseUri (text "HTTP://Host:8080/a?b") = .ok u ∧
    (parseUri u.str = .ok u ↔ Rewritable (text "HTTP://Host:8080/a?b")) :=
  ⟨_,rfl,reparse_iff _ _ rfl⟩

/-- Without a scheme the port is not written. -/
theorem port_lost : ∃ u, parseUri (text "//host:8080") = .ok u ∧ u._port = 8080 ∧ parseUri u.str ≠ .ok u :=
  ⟨_,rfl,rfl,by decide⟩

section PathOnly

theorem ends_spec : ∀ c : UInt8,
    (endsHost c = true ↔ c = 0 ∨ c = 0x3a ∨ c = 0x2f ∨ c = 0x3f ∨ c = 0x23 ∨ isspace c = true) ∧
    (endsPort c = true ↔ c = 0 ∨ c = 0x2f ∨ c = 0x3f ∨ c = 0x23 ∨ isspace c = true) ∧
    ((!endsPath c) = decide (c ≠ 0 ∧ c ≠ 0x3f ∧ c ≠ 0x23 ∧ ¬ isspace c = true)) ∧
    (¬ hostChar c = true ↔ ¬ isalpha c = true ∧ ¬ isdigit c = true ∧ c ≠ 0x2e ∧ c ≠ 0x2d) :=
  ScriptNum.forall_byte (by decide)

theorem parseHost_eq (s : Bytes) : parseHost s = (readHost s).map Prod.snd := by
  induction s with
  | nil => rfl
  | cons c s ih =>
    obtain ⟨hends,-,-,hchar⟩ := ends_spec c
    rw [parseHost,readHost,ih]
    simp only [← hends,← hchar]
    by_cases hend : endsHost c = true
    · rw [if_pos hend,if_pos hend]
      rfl
    · rw [if_neg hend,if_neg hend]
      by_cases hc : hostChar c = true
      · rw [if_neg (not_not.mpr hc),if_neg (not_not.mpr hc)]
        cases readHost s <;> rfl
      · rw [if_pos hc,if_pos hc]
        rfl

theorem parsePort_eq (port : ℕ) (s : Bytes) : parsePort port s = (readPort port s).map Prod.snd := by
  induction s generalizing port with
  | nil => rfl
  | cons c s ih =>
    rw [parsePort,readPort]
    simp only [← (ends_spec c).2.1,ih]
    split_ifs <;> rfl

theorem parsePath_eq (u : HttpUri) (s : Bytes) : parsePath s = (readPath u s)._path := by
  rw [parsePath,funext fun c => ((ends_spec c).2.2.1).symm]
  rfl

theorem parseAuthority_eq (u : HttpUri) (s : Bytes) : parseAuthority s = (readAuthority u s).map _path := by
  rw [parseAuthority,readAuthority,parseHost_eq]
  cases readHost s with
  | error what => rfl
  | ok p =>
    simp only [bind,Except.bind,Except.map,readColon,List.drop_one,parsePort_eq]
    split_ifs
    · cases readPort 0 p.2.tail with
      | error what => rfl
      | ok q => exact congrArg Except.ok (parsePath_eq _ _)
    · exact congrArg Except.ok (parsePath_eq _ _)

/-- The path that is taken of a request line is the one of the URI. -/
theorem parse_eq (s : Bytes) : parse s = (parseUri s).map _path := by
  rw [parse,parseUri]
  split_ifs
  · exact parseAuthority_eq _ _
  · exact congrArg Except.ok (parsePath_eq _ _)
  · exact parseAuthority_eq _ _
  · exact parseAuthority_eq _ _
  · rfl

end PathOnly

end HttpUri
end Tkeycoin
