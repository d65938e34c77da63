import Tkeycoin.Buffer
import Tkeycoin.JsonSerializer
import Tkeycoin.Splitting

/-! `HttpRequest`: the request line and the headers of a request, and the head of a chunk. -/
namespace Tkeycoin

open Splitting

def isspace (c : UInt8) : Bool := c = 0x20 ∨ (0x09 ≤ c ∧ c ≤ 0x0d)

def isdigit (c : UInt8) : Bool := 0x30 ≤ c ∧ c ≤ 0x39

def tolower (c : UInt8) : UInt8 := if 0x41 ≤ c ∧ c ≤ 0x5a then c + 0x20 else c

def toupper (c : UInt8) : UInt8 := if 0x61 ≤ c ∧ c ≤ 0x7a then c - 0x20 else c

def isalpha (c : UInt8) : Bool := 0x61 ≤ tolower c ∧ tolower c ≤ 0x7a

/-- `strncasecmp` with the whole of a word finds no difference. -/
def startsWith (s : Bytes) (word : String) : Bool :=
  (s.take word.length).map tolower = (text word).map tolower

/-- The value of a digit of a base up to 16. -/
def digitValue (c : UInt8) : ℕ :=
  if isdigit c then c.toNat - 0x30 else (tolower c).toNat - 0x61 + 10

def isxdigit (c : UInt8) : Bool := isdigit c ∨ (0x61 ≤ tolower c ∧ tolower c ≤ 0x66)

def number (base : ℕ) (digits : Bytes) : ℕ := digits.foldl (fun n c => base * n + digitValue c) 0

/-- A sign, and what follows it. -/
def sign : Bytes → Bool × Bytes
  | 0x2b :: s => (false,s)
  | 0x2d :: s => (true,s)
  | s => (false,s)

/-- `atoll`, which stops at the ends of its range, cast to a `size_t`. -/
def atoll (value : Bytes) : ℕ :=
  let (negative,s) := sign (value.dropWhile isspace)
  let n := number 10 (s.takeWhile isdigit)
  if negative then (2 ^ 64 - min n (2 ^ 63)) % 2 ^ 64 else min n (2 ^ 63 - 1)

/-- `std::stoull(header,nullptr,16)`, `none` where it throws. -/
def stoull16 (header : Bytes) : Option ℕ :=
  let (negative,s) := sign (header.dropWhile isspace)
  let s := if startsWith s "0x" ∧ isxdigit (s.getD 2 0) then s.drop 2 else s
  let digits := s.takeWhile isxdigit
  let n := number 16 digits
  if digits = [] ∨ n ≥ 2 ^ 64 then none
  else some (if negative then (2 ^ 64 - n) % 2 ^ 64 else n)

def crlf : Bytes := [0x0d,0x0a]

section Digits

variable {digits ext : Bytes}

theorem isxdigit_plain {c : UInt8} (h : isxdigit c) :
    isspace c = false ∧ c ≠ 0x2b ∧ c ≠ 0x2d ∧ tolower c ≠ 0x78 := by
  have hall : ∀ n : Fin 256, isxdigit (UInt8.ofNat n) → isspace (UInt8.ofNat n) = false ∧
      UInt8.ofNat n ≠ 0x2b ∧ UInt8.ofNat n ≠ 0x2d ∧ tolower (UInt8.ofNat n) ≠ 0x78 := by
    decide +kernel
  have hc := hall ⟨c.toNat,c.toNat_lt⟩
  simp only [UInt8.ofNat_toNat] at hc
  exact hc h

theorem sign_digit {c : UInt8} (h : isxdigit c) (s : Bytes) : sign (c :: s) = (false,c :: s) := by
  obtain ⟨_,hplus,hminus,_⟩ := isxdigit_plain h
  simp only [sign]
  split <;> simp_all

theorem takeWhile_digits (hex : ∀ c ∈ digits, isxdigit c) (hext : ∀ c, ext.head? = some c → c = 0x3b) :
    (digits ++ ext).takeWhile isxdigit = digits := by
  rw [List.takeWhile_append_of_pos hex]
  cases ext with
  | nil => simp
  | cons c ext =>
    have hsemicolon : isxdigit 0x3b = false := by decide
    simp [hext c rfl,hsemicolon]

/-- Digits with a semicolon behind them do not begin with the mark of the base. -/
theorem not_marked (hex : ∀ c ∈ digits, isxdigit c) (hne : digits ≠ [])
    (hext : ∀ c, ext.head? = some c → c = 0x3b) : startsWith (digits ++ ext) "0x" = false := by
  have hmark : (text "0x").map tolower = [0x30,0x78] := by decide
  have hlength : "0x".length = 2 := by decide
  simp only [startsWith,hmark,hlength,decide_eq_false_iff_not]
  intro heq
  cases digits with
  | nil => exact hne rfl
  | cons c digits =>
    cases digits with
    | nil =>
      cases ext with
      | nil => simp at heq
      | cons d ext =>
        have hsemicolon : tolower 0x3b ≠ 0x78 := by decide
        simp only [hext d rfl,List.cons_append,List.nil_append,List.take_succ_cons,List.map_cons,
          List.cons.injEq] at heq
        exact hsemicolon heq.2.1
    | cons d digits =>
      have hd := (isxdigit_plain (hex d (by simp))).2.2.2
      simp only [List.cons_append,List.take_succ_cons,List.map_cons,List.cons.injEq] at heq
      exact hd heq.2.1

/-- A number in digits of base 16 is read, whatever follows a semicolon. -/
theorem stoull16_digits (hex : ∀ c ∈ digits, isxdigit c) (hne : digits ≠ [])
    (hext : ∀ c, ext.head? = some c → c = 0x3b) (hlt : number 16 digits < 2 ^ 64) :
    stoull16 (digits ++ ext) = some (number 16 digits) := by
  have hdigits := takeWhile_digits hex hext
  have hplain := not_marked hex hne hext
  obtain ⟨c,rest,hcons⟩ : ∃ c rest, digits = c :: rest := List.exists_cons_of_ne_nil hne
  have hc : isxdigit c := hex c (by simp [hcons])
  have hdrop : (digits ++ ext).dropWhile isspace = digits ++ ext := by
    rw [hcons,List.cons_append,List.dropWhile_cons,(isxdigit_plain hc).1]
    rfl
  have hsign : sign (digits ++ ext) = (false,digits ++ ext) := by
    rw [hcons,List.cons_append,sign_digit hc]
  have hok : ¬ (digits = [] ∨ number 16 digits ≥ 2 ^ 64) := by
    rw [not_or]
    exact ⟨hne,not_le.mpr hlt⟩
  simp only [stoull16,hdrop,hsign,hplain,Bool.false_eq_true,false_and,if_false,hdigits,hok]

end Digits

namespace HttpUri

def parseHost : Bytes → Except String Bytes
  | [] => .ok []
  | c :: s =>
    if c = 0 ∨ c = 0x3a ∨ c = 0x2f ∨ c = 0x3f ∨ c = 0x23 ∨ isspace c then .ok (c :: s)
    else if ¬ isalpha c ∧ ¬ isdigit c ∧ c ≠ 0x2e ∧ c ≠ 0x2d then .error "Wrong hostname"
    else parseHost s

def parsePort (port : ℕ) : Bytes → Except String Bytes
  | [] => .ok []
  | c :: s =>
    if c = 0 ∨ c = 0x2f ∨ c = 0x3f ∨ c = 0x23 ∨ isspace c then .ok (c :: s)
    else if ¬ isdigit c then .error "Wrong port"
    else
      let port := port * 10 + digitValue c
      if port < 1 ∨ port > 65535 then .error "Wrong port" else parsePort port s

def parsePath (s : Bytes) : Bytes :=
  if s.head? = some 0x2f then s.takeWhile fun c => c ≠ 0 ∧ c ≠ 0x3f ∧ c ≠ 0x23 ∧ ¬ isspace c
  else []

def parseAuthority (s : Bytes) : Except String Bytes := do
  let s ← parseHost s
  let s ← if s.head? = some 0x3a then parsePort 0 (s.drop 1) else .ok s
  return parsePath s

/-- The path of a URI. Query and fragment are taken as they are. -/
def parse (s : Bytes) : Except String Bytes :=
  if startsWith s "//" then parseAuthority (s.drop 2)
  else if s.head? = some 0x2f then .ok (parsePath s)
  else if startsWith s "http://" then parseAuthority (s.drop 7)
  else if startsWith s "https://" then parseAuthority (s.drop 8)
  else .error "Wrong scheme"

end HttpUri

inductive Method
  | UNKNOWN | GET | POST
  deriving DecidableEq

/-- What a request is by its header block. Names of headers are in capitals. -/
structure RequestHead where
  _method : Method
  path : Bytes
  _protocolVersion : ℕ
  _headers : List (Bytes × Bytes)
  _hasContentLength : Bool
  _contentLength : ℕ
  deriving DecidableEq

namespace RequestHead

/-- What an exception says, behind what it was thrown in. -/
def within {α : Type} (part : String) (x : Except String α) : Except String α :=
  x.mapError fun what => part ++ " ← " ++ what

def parseMethod (s : Bytes) : Except String (Method × Bytes) := do
  let (method,s) ←
    if startsWith s "GET" then .ok (.GET,s.drop 3)
    else if startsWith s "POST" then .ok (.POST,s.drop 4)
    else .error "Unknown method"
  if ¬ isspace (s.getD 0 0) then .error "Wrong method"
  else return (method,s.drop 1)

def parseProtocol (s : Bytes) : Except String (ℕ × Bytes) :=
  if ¬ startsWith s "HTTP/" then .error "Wrong type"
  else if startsWith (s.drop 5) "1.1" then .ok (101,s.drop 8)
  else if startsWith (s.drop 5) "1.0" then .ok (100,s.drop 8)
  else .error "Wrong version"

def parseRequestLine (s : Bytes) : Except String (RequestHead × Bytes) :=
  within "Bad request line" do
    if find crlf s = none then .error "Unexpected end"
    else
      let (method,s) ← within "Bad method" (parseMethod s)
      let uri := s.takeWhile fun c => c ≠ 0 ∧ c ≠ 0x20 ∧ c ≠ 0x0d
      let s := s.drop uri.length
      if ¬ isspace (s.getD 0 0) then .error "Bad uri ← Unexpected end"
      else
        let path ← within "Bad uri" (HttpUri.parse uri)
        let (version,s) ← within "Bad protocol" (parseProtocol (s.drop 1))
        if ¬ crlf <+: s then .error "Redundant data on end of line"
        else return (⟨method,path,version,[],false,0⟩,s.drop 2)

def isCtl (c : UInt8) : Bool := c < 0x20 ∨ c = 0x7f

def isSpecial (c : UInt8) : Bool := c ∈ text "()<>[]\x7b\x7d \t/\\,;:\"@?="

def isToken (c : UInt8) : Bool := ¬ isSpecial c ∧ ¬ isCtl c

def isBlank (c : UInt8) : Bool := c = 0x20 ∨ c = 0x09

/-- What stands before the end of the line, and what behind. -/
def restOfLine (s : Bytes) : Bytes × Bytes :=
  let s := s.dropWhile isBlank
  let length := (find crlf s).getD s.length
  (s.take length,s.drop (length + 2))

/-- A header that goes on in the next line, with a space between. -/
def extendLast (r : RequestHead) (more : Bytes) : RequestHead :=
  match r._headers.getLast? with
  | some (name,value) =>
    { r with _headers := r._headers.dropLast ++ [(name,value ++ 0x20 :: more)] }
  | none => r

def addHeader (r : RequestHead) (name value : Bytes) : RequestHead :=
  let r := { r with _headers := r._headers ++ [(name.map toupper,value)] }
  if name.map toupper = text "CONTENT-LENGTH" then
    { r with _hasContentLength := true, _contentLength := atoll value }
  else r

/-- Each round takes a line. -/
def parseLines : ℕ → RequestHead → Bytes → Except String RequestHead
  | 0, _, _ => .error "Unexpected end"
  | fuel + 1, r, s =>
    match find crlf s with
    | none => .error "Unexpected end"
    | some 0 => .ok r
    | some _ =>
      if r._headers ≠ [] ∧ isBlank (s.getD 0 0) then
        let (more,s) := restOfLine s
        parseLines fuel (r.extendLast more) s
      else
        let name := s.takeWhile isToken
        let s := s.drop name.length
        if s.head? ≠ some 0x3a then .error "Bad name"
        else
          let (value,s) := restOfLine (s.drop 1)
          parseLines fuel (r.addHeader name value) s

def parseHeaders (r : RequestHead) (s : Bytes) : Except String RequestHead :=
  within "Bad headers" (parseLines (s.length + 1) r s)

/-- The constructor. -/
def ofBytes (s : Bytes) : Except String RequestHead :=
  within "Bad request" do
    let (r,s) ← parseRequestLine s
    r.parseHeaders s

/-- `getHeader` of a name in capitals. -/
def getHeader (r : RequestHead) (name : String) : Bytes :=
  ((r._headers.find? fun header => header.1 = text name).map Prod.snd).getD []

/-- `ifTransferEncoding(TransferEncoding::CHUNKED)`. -/
def isChunked (r : RequestHead) : Bool :=
  ((r.getHeader "TRANSFER-ENCODING").splitOn 0x2c).contains (text "chunked")

/-- A client that waits for a 100 before it sends the body. -/
def expectsContinue (r : RequestHead) : Bool :=
  (find (text "100-continue") ((r.getHeader "EXPECT").map tolower)).isSome

/-- A header block that is read begins with one of the methods. -/
theorem startsWith_of_ofBytes {s : Bytes} {r : RequestHead} (h : ofBytes s = .ok r) :
    startsWith s "GET" ∨ startsWith s "POST" := by
  by_contra hnot
  rw [not_or] at hnot
  have hmethod : parseMethod s = .error "Unknown method" := by
    simp only [parseMethod,hnot.1,hnot.2]
    rfl
  have hline : ∃ what, parseRequestLine s = .error what := by
    simp only [parseRequestLine,hmethod]
    split_ifs
    · exact ⟨_,rfl⟩
    · exact ⟨_,rfl⟩
  obtain ⟨what,hline⟩ := hline
  rw [ofBytes,hline] at h
  contradiction

end RequestHead

/-- Only the front of a string tells whether it begins with a word. -/
theorem startsWith_congr {s t : Bytes} {word : String} {n : ℕ} (h : s.take n = t.take n)
    (hn : word.length ≤ n) : startsWith s word = startsWith t word := by
  have htake : s.take word.length = t.take word.length := by
    rw [← Nat.min_eq_left hn,← List.take_take,h,List.take_take]
  rw [startsWith,startsWith,htake]

end Tkeycoin
