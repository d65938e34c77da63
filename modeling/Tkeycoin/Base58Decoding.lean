import Tkeycoin.Base58
import Mathlib.Data.List.GetD

/-! What `DecodeBase58` makes of the characters from a view's start to the first NUL behind it. -/
namespace Tkeycoin
namespace Base58

/-- The entries of the table, each beside the character it stands at. -/
theorem map_table : ∀ p ∈ map.zipIdx,
    (p.1.toInt32.toUInt32 = -1 ∨
      p.1.toInt32.toUInt32.toNat < 58 ∧ charOf p.1.toInt32.toUInt32.toNat = UInt8.ofNat p.2) ∧
    (p.1.toInt32.toUInt32.toNat = 0 ↔ p.2 = 49) ∧
    (p.2 = 0 ∨ isspace (UInt8.ofNat p.2) → p.1.toInt32.toUInt32 = -1) := by
  decide +kernel

theorem digitOf_table (c : UInt8) :
    (digitOf c = -1 ∨ (digitOf c).toNat < 58 ∧ charOf (digitOf c).toNat = c) ∧
    ((digitOf c).toNat = 0 ↔ c = 49) ∧ (c = 0 ∨ isspace c → digitOf c = -1) := by
  have hlt : c.toNat < map.length := by
    rw [map_length]
    exact c.toNat_lt
  have hmem : (map.getD c.toNat 0,c.toNat) ∈ map.zipIdx := by
    rw [List.mem_zipIdx_iff_getElem?,List.getD_eq_getElem _ _ hlt]
    exact List.getElem?_eq_getElem hlt
  have hentry := map_table _ hmem
  rw [UInt8.ofNat_toNat] at hentry
  simpa only [digitOf,← UInt8.toNat_inj,UInt8.toNat_ofNat] using hentry

theorem digitOf_charOf {d : ℕ} (hd : d < 58) : (digitOf (charOf d)).toNat = d := by
  revert d
  decide +kernel

theorem alphabet_length : alphabet.length = 58 := by decide +kernel

theorem charOf_mem {d : ℕ} (hd : d < 58) : charOf d ∈ alphabet := by
  have hlt : d < alphabet.length := by rw [alphabet_length]; exact hd
  rw [charOf,List.getD_eq_getElem _ _ hlt]
  exact List.getElem_mem hlt

theorem mem_alphabet_iff (c : UInt8) : c ∈ alphabet ↔ digitOf c ≠ -1 := by
  constructor
  · intro hc h
    obtain ⟨d,hd,rfl⟩ := List.mem_iff_getElem.mp hc
    have hlt : d < 58 := by rw [← alphabet_length]; exact hd
    have hdigit := digitOf_charOf hlt
    rw [charOf,List.getD_eq_getElem _ _ hd,h] at hdigit
    have hbig : (-1 : UInt32).toNat = 4294967295 := rfl
    omega
  · intro h
    obtain ⟨hlt,hchar⟩ := (digitOf_table c).1.resolve_left h
    rw [← hchar]
    exact charOf_mem hlt

/-- Neither the NUL nor white space is in the alphabet. -/
theorem not_mem_alphabet {c : UInt8} (h : c = 0 ∨ isspace c) : c ∉ alphabet := by
  rw [mem_alphabet_iff,not_not]
  exact (digitOf_table c).2.2 h

theorem isspace_ne_zero {c : UInt8} (h : isspace c) : c ≠ 0 := by
  intro hz
  rw [hz] at h
  exact absurd h (by decide)

/-- What a character stands for as the decoder takes it. -/
def digitNat (c : UInt8) : ℕ := (digitOf c).toNat

/-- The bytes of a Base58 form. -/
def decoded (body : Bytes) : Bytes := (Radix.recode 58 256 (body.map digitNat)).map UInt8.ofNat

theorem skipWhile_append {p : UInt8 → Bool} {front : Bytes} (h : ∀ c ∈ front, p c) (psz : Bytes) :
    skipWhile p (front ++ psz) = skipWhile p psz := by
  induction front with
  | nil => rfl
  | cons c front ih =>
    rw [List.cons_append,skipWhile,if_pos (h c (by simp)),ih (fun x hx => h x (by simp [hx]))]

theorem countOnes_append (n k : ℕ) (hn : n < 2^31) {c : UInt8} (hc : c ≠ 49) (psz : Bytes) :
    countOnes n (List.replicate k 49 ++ c :: psz) =
      if n+k < 2^31 then .ok (n+k,c :: psz) else .error .overflow := by
  induction k generalizing n with
  | zero => simp only [List.replicate,List.nil_append,countOnes,if_neg hc,Nat.add_zero,if_pos hn]
  | succ k ih =>
    rw [List.replicate_succ,List.cons_append,countOnes,if_pos rfl,increment]
    by_cases hroom : n+1 < 2^31
    · rw [if_pos hroom,ok_bind,ih _ hroom,Nat.add_assoc,Nat.add_comm 1]
    · rw [if_neg hroom,error_bind,if_neg (by omega)]

/-- Characters of the alphabet go into the buffer. -/
theorem decodeDigits_append (s : ℕ × List UInt32) {body : Bytes} (h : ∀ c ∈ body, c ∈ alphabet)
    (psz : Bytes) : decodeDigits s (body ++ psz) =
      (body.map digitOf).foldlM (addDigit decodeStep) s >>= fun s => decodeDigits s psz := by
  induction body generalizing s with
  | nil => rfl
  | cons c body ih =>
    have hc := h c (by simp)
    have hgo : c ≠ 0 ∧ ¬isspace c := by
      by_contra hstop
      exact not_mem_alphabet (by simpa [or_iff_not_imp_left] using hstop) hc
    have hdigit : digitOf c ≠ -1 := (mem_alphabet_iff c).mp hc
    rw [List.cons_append,decodeDigits,if_pos hgo,if_neg hdigit,List.map_cons,List.foldlM_cons,
      bind_assoc]
    congr 1
    funext s
    exact ih s (fun x hx => h x (by simp [hx]))

/-- Text that begins with white space and characters of the alphabet and goes on with another
character. Without a character of the alphabet the white space in front ends there too. -/
structure Stops (text front body : Bytes) (c : UInt8) (rest : Bytes) : Prop where
  text_eq : text = front ++ (body ++ c :: rest)
  front_space : ∀ x ∈ front, isspace x
  body_alphabet : ∀ x ∈ body, x ∈ alphabet
  stop : c ∉ alphabet
  stop_space : body = [] → isspace c = false

theorem stops_or_ends (text : Bytes) : (∃ front body c rest, Stops text front body c rest) ∨
    ∃ front body, text = front ++ body ∧ (∀ x ∈ front, isspace x) ∧ ∀ x ∈ body, x ∈ alphabet := by
  have hfront : ∀ x ∈ text.takeWhile isspace, isspace x := fun x hx => List.mem_takeWhile_imp hx
  have htext := List.takeWhile_append_dropWhile (p := isspace) (l := text)
  have hhead := List.head?_dropWhile_not isspace text
  generalize text.takeWhile isspace = front at hfront htext
  generalize text.dropWhile isspace = psz at htext hhead
  have hbody : ∀ x ∈ psz.takeWhile (· ∈ alphabet), x ∈ alphabet :=
    fun x hx => by simpa using List.mem_takeWhile_imp hx
  have hpsz := List.takeWhile_append_dropWhile (p := (· ∈ alphabet)) (l := psz)
  have hstop := List.head?_dropWhile_not (· ∈ alphabet) psz
  generalize psz.takeWhile (· ∈ alphabet) = body at hbody hpsz
  cases hrest : psz.dropWhile (· ∈ alphabet) with
  | nil =>
    rw [hrest,List.append_nil] at hpsz
    exact .inr ⟨front,body,by rw [hpsz,htext],hfront,hbody⟩
  | cons c rest =>
    rw [hrest] at hpsz hstop
    refine .inl ⟨front,body,c,rest,by rw [hpsz,htext],hfront,hbody,by simpa using hstop,?_⟩
    intro hnil
    rw [← hpsz,hnil] at hhead
    simpa using hhead

/-- The characters behind the leading '1's. -/
def behindOnes (body : Bytes) : Bytes := body.dropWhile (· = 49)

def ones (body : Bytes) : ℕ := (body.takeWhile (· = 49)).length

theorem ones_append (body : Bytes) : body = List.replicate (ones body) 49 ++ behindOnes body := by
  have hones : body.takeWhile (· = 49) = List.replicate (ones body) 49 := by
    apply List.eq_replicate_iff.mpr
    exact ⟨rfl,fun c hc => by simpa using List.mem_takeWhile_imp hc⟩
  rw [← hones,behindOnes,List.takeWhile_append_dropWhile]

theorem behindOnes_subset {body : Bytes} {c : UInt8} (hc : c ∈ behindOnes body) : c ∈ body :=
  (List.dropWhile_sublist _).subset hc

theorem ones_map (body : Bytes) : Radix.zeros (body.map digitNat) = ones body ∧
    Radix.behindZeros (body.map digitNat) = (behindOnes body).map digitNat := by
  have hp : ((fun d => decide (d = 0)) ∘ digitNat) = (fun c => decide (c = 49)) := by
    funext c
    exact decide_eq_decide.mpr (digitOf_table c).2.1
  constructor
  · rw [Radix.zeros,List.takeWhile_map,List.length_map,hp,ones]
  · rw [Radix.behindZeros,List.dropWhile_map,hp,behindOnes]

/-- What stands behind the leading '1's begins with another character. -/
theorem behindOnes_cons (body : Bytes) {c : UInt8} (hc : c ∉ alphabet) (rest : Bytes) :
    ∃ x psz, x ≠ 49 ∧ behindOnes body ++ c :: rest = x :: psz := by
  cases hbody : behindOnes body with
  | cons x body' =>
    refine ⟨x,_,?_,rfl⟩
    have := List.head?_dropWhile_not (· = 49) body
    rw [← behindOnes,hbody] at this
    simpa using this
  | nil =>
    refine ⟨c,rest,?_,rfl⟩
    intro h
    rw [h] at hc
    exact hc (by decide)

/-- The size of the buffer. -/
def buffer (left : ℤ) : Except Fault ℕ := estimate left 73322 >>= allocate 4

/-- What is done behind the last character taken. -/
def finish (zeroes size : ℕ) (psz : Bytes) (s : ℕ × List UInt32) : Except Fault (Option Bytes) := do
  let psz ← skipWhile isspace psz
  if psz.head? ≠ some 0 then .ok none
  else .ok (some (List.replicate zeroes 0 ++
    ((s.2.reverse.drop (size - s.1)).dropWhile (· = 0)).map UInt32.toUInt8))

theorem skipWhile_front {front : Bytes} (hfront : ∀ x ∈ front, isspace x) {x : UInt8} {psz : Bytes}
    (hx : isspace x = false) : skipWhile (fun c => c ≠ 0 && isspace c) (front ++ x :: psz) = .ok (x :: psz) := by
  rw [skipWhile_append (by
    intro c hc
    simpa using ⟨isspace_ne_zero (hfront c hc),hfront c hc⟩),skipWhile,if_neg (by simp [hx])]

theorem decodeBase58_stops {str behind front body rest : Bytes} {c : UInt8}
    (h : Stops (str ++ behind) front body c rest) : decodeBase58 str behind =
      if ones body < 2^31 then do
        let size ← buffer ((behindOnes body ++ c :: rest).length - behind.length)
        let s ← ((behindOnes body).map digitOf).foldlM (addDigit decodeStep) (0,List.replicate size 0)
        if c = 0 ∨ isspace c then finish (ones body) size (c :: rest) s else .ok none
      else .error .overflow := by
  have hfront : skipWhile (fun c => c ≠ 0 && isspace c) (str ++ behind) = .ok (body ++ c :: rest) := by
    rw [h.text_eq]
    cases hbody : body with
    | nil => exact skipWhile_front h.front_space (h.stop_space hbody)
    | cons x body' =>
      apply skipWhile_front h.front_space
      by_contra hspace
      exact not_mem_alphabet (.inr (by simpa using hspace)) (h.body_alphabet x (by simp [hbody]))
  obtain ⟨x,psz,hx,hpsz⟩ := behindOnes_cons body h.stop rest
  have hones : countOnes 0 (body ++ c :: rest) =
      if ones body < 2^31 then .ok (ones body,behindOnes body ++ c :: rest)
      else .error .overflow := by
    conv_lhs => rw [ones_append body]
    rw [List.append_assoc,hpsz,countOnes_append _ _ (by norm_num) hx,Nat.zero_add]
  have hdigit : digitOf c = -1 := by
    by_contra hin
    exact h.stop ((mem_alphabet_iff c).mpr hin)
  rw [decodeBase58,hfront,ok_bind,hones]
  by_cases hcount : ones body < 2^31
  · rw [if_pos hcount,if_pos hcount,ok_bind]
    simp only [buffer,bind_assoc]
    congr 1
    funext e
    congr 1
    funext size
    rw [decodeDigits_append _ (fun c hc => h.body_alphabet c (behindOnes_subset hc)),bind_assoc]
    congr 1
    funext s
    rw [decodeDigits]
    by_cases hstop : c = 0 ∨ isspace c
    · rw [if_neg (by tauto),if_pos hstop]
      rfl
    · rw [if_pos (by tauto),if_pos hdigit,if_neg hstop]
      rfl
  · rw [if_neg hcount,if_neg hcount]
    rfl

theorem skipWhile_ok {p : UInt8 → Bool} {psz next : Bytes} (h : skipWhile p psz = .ok next) :
    ∃ back, psz = back ++ next ∧ ∀ c ∈ back, p c := by
  induction psz with
  | nil => exact absurd h (by simp [skipWhile])
  | cons c psz ih =>
    rw [skipWhile] at h
    by_cases hp : p c
    · rw [if_pos hp] at h
      obtain ⟨back,hpsz,hback⟩ := ih h
      refine ⟨c :: back,by rw [hpsz]; rfl,?_⟩
      intro x hx
      cases List.mem_cons.mp hx with
      | inl hxc => rw [hxc]; exact hp
      | inr hxb => exact hback x hxb
    · rw [if_neg hp] at h
      exact ⟨[],(Except.ok.inj h),by simp⟩

theorem countOnes_suffix {n m : ℕ} {psz next : Bytes} (h : countOnes n psz = .ok (m,next)) :
    next <:+ psz := by
  induction psz generalizing n with
  | nil => exact absurd h (by simp [countOnes])
  | cons c psz ih =>
    rw [countOnes] at h
    by_cases hc : c = 49
    · rw [if_pos hc] at h
      obtain ⟨k,_,h⟩ := bind_ok h
      exact (ih h).trans (List.suffix_cons c psz)
    · rw [if_neg hc] at h
      cases h
      exact List.suffix_rfl

theorem decodeDigits_suffix {s s' : ℕ × List UInt32} {psz next : Bytes}
    (h : decodeDigits s psz = .ok (some (next,s'))) : next <:+ psz := by
  induction psz generalizing s with
  | nil => exact absurd h (by simp [decodeDigits])
  | cons c psz ih =>
    rw [decodeDigits] at h
    split at h
    · split at h
      · exact absurd h (by simp)
      · obtain ⟨t,_,h⟩ := bind_ok h
        exact (ih h).trans (List.suffix_cons c psz)
    · cases h
      exact List.suffix_rfl

/-- White space up to a NUL. -/
def Blank (psz : Bytes) : Prop := ∃ back tail, psz = back ++ 0 :: tail ∧ ∀ c ∈ back, isspace c

theorem finish_iff {zeroes size : ℕ} {psz : Bytes} {s : ℕ × List UInt32} {b : Bytes} :
    finish zeroes size psz s = .ok (some b) ↔ Blank psz ∧ b = List.replicate zeroes 0 ++
      ((s.2.reverse.drop (size - s.1)).dropWhile (· = 0)).map UInt32.toUInt8 := by
  constructor
  · intro h
    rw [finish] at h
    obtain ⟨next,hskip,h⟩ := bind_ok h
    by_cases hhead : next.head? = some 0
    · rw [if_neg (by simpa using hhead)] at h
      obtain ⟨back,hpsz,hback⟩ := skipWhile_ok hskip
      obtain ⟨tail,htail⟩ := List.head?_eq_some_iff.mp hhead
      exact ⟨⟨back,tail,by rw [hpsz,htail],hback⟩,(Option.some.inj (Except.ok.inj h)).symm⟩
    · rw [if_pos hhead] at h
      exact absurd h (by simp)
  · rintro ⟨⟨back,tail,hpsz,hback⟩,hb⟩
    rw [finish,hpsz,skipWhile_append hback,hb]
    rfl

theorem finish_assertion (zeroes size : ℕ) (psz : Bytes) (s : ℕ × List UInt32) :
    finish zeroes size psz s ≠ .error .assertion := by
  have hskip : ∀ psz, skipWhile isspace psz ≠ .error .assertion := by
    intro psz
    induction psz with
    | nil => simp [skipWhile]
    | cons c psz ih =>
      rw [skipWhile]
      split
      · exact ih
      · simp
  rw [finish]
  cases h : skipWhile isspace psz with
  | error e =>
    rw [error_bind]
    exact fun he => hskip psz (h.trans (congrArg _ (Except.error.inj he)))
  | ok next =>
    rw [ok_bind]
    split <;> simp

/-- The number that a run of characters stands for. -/
def number58 (body : Bytes) : ℕ := Radix.value 58 (body.map digitNat)

theorem number58_behindOnes (body : Bytes) : number58 (behindOnes body) = number58 body := by
  rw [number58,← (ones_map body).2,Radix.value_behindZeros,number58]

theorem decoded_eq (body : Bytes) : decoded body =
    List.replicate (ones body) 0 ++ (Nat.digits 256 (number58 body)).reverse.map UInt8.ofNat := by
  rw [decoded,Radix.recode,(ones_map body).1,List.map_append,List.map_replicate]
  rfl

theorem holds_zero256 (size : ℕ) : toBase256.Holds size 0 (0,List.replicate size 0) := by
  simp [Conversion.Holds,toBase256]

theorem digitNat_lt {c : UInt8} (hc : c ∈ alphabet) : digitNat c < 58 :=
  ((digitOf_table c).1.resolve_left ((mem_alphabet_iff c).mp hc)).1

theorem decodeLoop_makes {body : Bytes} (hbody : ∀ c ∈ body, c ∈ alphabet) (size : ℕ) :
    toBase256.Makes size (number58 body)
      ((body.map digitOf).foldlM (addDigit decodeStep) (0,List.replicate size 0)) := by
  have hmakes := toBase256.addDigits_makes (body.map digitOf) (holds_zero256 size)
    (Nat.pow_pos (by norm_num [toBase256])) (by simp) (by
      intro c hc
      obtain ⟨x,hx,rfl⟩ := List.mem_map.mp hc
      have := digitNat_lt (hbody x hx)
      simp only [toBase256,digitNat] at this ⊢
      omega)
  rwa [List.map_map] at hmakes

theorem decode_output {size v : ℕ} {s : ℕ × List UInt32} (hs : toBase256.Holds size v s)
    (hv : v < 256 ^ size) : ((s.2.reverse.drop (size - s.1)).dropWhile (· = 0)).map UInt32.toUInt8 =
      (Nat.digits 256 v).reverse.map UInt8.ofNat := by
  have htrimmed := hs.trimmed toBase256 hv (fun d => d = 0) (by
    intro d
    apply decide_eq_decide.mpr
    simp [toBase256,← UInt32.toNat_inj])
  rw [toBase256_base] at htrimmed
  rw [← htrimmed,List.map_map]
  congr 1

/-- The run of characters can be converted: the leading '1's and the digits are counted within an
`int`, and the buffer made for what is left of the view behind the leading '1's holds the number. -/
structure Fits (left : ℤ) (body : Bytes) : Prop where
  ones_lt : ones body < 2^31
  buffer_holds : ∃ size, buffer left = .ok size ∧ number58 body < 256 ^ size
  count_lt : (Nat.digits 256 (number58 body)).length < 2^31

theorem Blank.head {c : UInt8} {rest : Bytes} (h : Blank (c :: rest)) : c = 0 ∨ isspace c := by
  obtain ⟨back,tail,hpsz,hback⟩ := h
  cases back with
  | nil => exact .inl (List.cons.inj hpsz).1
  | cons x back =>
    rw [(List.cons.inj hpsz).1]
    exact .inr (hback x (by simp))

/-- The decoder succeeds where only white space follows the run up to the NUL, if this fits. -/
theorem decodeBase58_iff {str behind front body rest b : Bytes} {c : UInt8}
    (h : Stops (str ++ behind) front body c rest) : decodeBase58 str behind = .ok (some b) ↔
      Blank (c :: rest) ∧ Fits ((behindOnes body ++ c :: rest).length - behind.length) body ∧
        b = decoded body := by
  rw [decodeBase58_stops h]
  generalize ((behindOnes body ++ c :: rest).length - behind.length : ℤ) = left
  have hbody : ∀ c ∈ behindOnes body, c ∈ alphabet := fun c hc => h.body_alphabet c (behindOnes_subset hc)
  by_cases hones : ones body < 2^31
  · rw [if_pos hones]
    cases hbuffer : buffer left with
    | error e =>
      rw [error_bind]
      constructor
      · exact fun h => absurd h (by simp)
      · rintro ⟨_,⟨_,⟨size,hsize,_⟩,_⟩,_⟩
        rw [hbuffer] at hsize
        exact absurd hsize (by simp)
    | ok size =>
      have hmakes := decodeLoop_makes hbody size
      rw [number58_behindOnes] at hmakes
      rw [ok_bind]
      cases hrun : ((behindOnes body).map digitOf).foldlM (addDigit decodeStep)
          (0,List.replicate size 0) with
      | ok s =>
        rw [hrun] at hmakes
        obtain ⟨hs,hfit,hcount⟩ := hmakes
        rw [toBase256_base] at hfit hcount
        rw [ok_bind]
        have hfits : Fits left body := ⟨hones,⟨size,hbuffer,hfit⟩,hcount⟩
        by_cases hstop : c = 0 ∨ isspace c
        · rw [if_pos hstop,finish_iff,decode_output hs hfit,decoded_eq]
          tauto
        · rw [if_neg hstop]
          constructor
          · exact fun h => absurd h (by simp)
          · exact fun h => absurd h.1.head hstop
      | error e =>
        rw [hrun] at hmakes
        rw [error_bind]
        constructor
        · exact fun h => absurd h (by simp)
        · rintro ⟨_,⟨_,⟨size',hsize,hfit⟩,hcount⟩,_⟩
          rw [hbuffer] at hsize
          cases hsize
          have := (hmakes hfit).2
          rw [toBase256_base] at this
          omega
  · rw [if_neg hones]
    constructor
    · exact fun h => absurd h (by simp)
    · exact fun h => absurd h.2.1.ones_lt hones

theorem decode_fits (n : ℕ) : 58 ^ n ≤ 256 ^ (n * 73322 / 100000 + 1) :=
  calc 58 ^ n ≤ 256 ^ (n * 52 / 71 + 1) :=
        Radix.pow_le_pow_of_ratio (by norm_num) (by norm_num) (by decide +kernel) n
    _ ≤ 256 ^ (n * 73322 / 100000 + 1) := Nat.pow_le_pow_right (by norm_num) (by omega)

theorem buffer_eq (left : ℕ) : buffer left =
    if left * 73322 < 2^63 then .ok (left * 73322 / 100000 + 1) else .error .overflow := by
  rw [buffer]
  by_cases h : left * 73322 < 2^63
  · rw [estimate_ok h,ok_bind,allocate_ok (by norm_num) h,if_pos h]
  · rw [estimate,if_neg (by push_cast; omega),if_neg h]
    rfl

theorem number58_lt {body : Bytes} (h : ∀ c ∈ body, c ∈ alphabet) :
    number58 body < 58 ^ (behindOnes body).length := by
  rw [← number58_behindOnes,← List.length_map (f := digitNat)]
  apply Radix.value_lt (by norm_num)
  intro d hd
  obtain ⟨c,hc,rfl⟩ := List.mem_map.mp hd
  exact digitNat_lt (h c (behindOnes_subset hc))

/-- A buffer made for no less than the characters behind the leading '1's holds their number. -/
theorem fits_iff {left : ℕ} {body : Bytes} (hbody : ∀ c ∈ body, c ∈ alphabet)
    (hleft : (behindOnes body).length ≤ left) : Fits left body ↔
      ones body < 2^31 ∧ left * 73322 < 2^63 ∧ (Nat.digits 256 (number58 body)).length < 2^31 := by
  constructor
  · rintro ⟨hones,⟨size,hsize,_⟩,hcount⟩
    refine ⟨hones,?_,hcount⟩
    by_contra h
    rw [buffer_eq,if_neg h] at hsize
    exact absurd hsize (by simp)
  · rintro ⟨hones,hroom,hcount⟩
    refine ⟨hones,⟨_,by rw [buffer_eq,if_pos hroom],?_⟩,hcount⟩
    calc number58 body < 58 ^ (behindOnes body).length := number58_lt hbody
      _ ≤ 58 ^ left := Nat.pow_le_pow_right (by norm_num) hleft
      _ ≤ 256 ^ (left * 73322 / 100000 + 1) := decode_fits left

theorem Stops.nul_not_mem {text front body rest : Bytes} {c : UInt8} (h : Stops text front body c rest) :
    0 ∉ front ++ body := by
  intro hmem
  cases List.mem_append.mp hmem with
  | inl hf => exact isspace_ne_zero (h.front_space 0 hf) rfl
  | inr hb => exact not_mem_alphabet (.inl rfl) (h.body_alphabet 0 hb)

/-- Where a NUL follows the view, what is left of it behind the leading '1's is the whole run at least. -/
theorem Stops.left_eq {str tail front body rest : Bytes} {c : UInt8}
    (h : Stops (str ++ 0 :: tail) front body c rest) :
    ∃ left : ℕ, ((behindOnes body ++ c :: rest).length : ℤ) - (0 :: tail).length = left ∧
      (behindOnes body).length ≤ left := by
  have htext : str ++ 0 :: tail = (front ++ body) ++ c :: rest := by
    rw [h.text_eq,List.append_assoc]
  have hle : (front ++ body).length ≤ str.length := by
    by_contra hlt
    have hmem : (0 : UInt8) ∈ ((front ++ body) ++ c :: rest).take (front ++ body).length := by
      rw [← htext,List.take_append]
      apply List.mem_append_right
      obtain ⟨n,hn⟩ : ∃ n, (front ++ body).length - str.length = n+1 := ⟨_,(Nat.succ_pred (by omega)).symm⟩
      rw [hn]
      simp
    rw [List.take_left] at hmem
    exact h.nul_not_mem hmem
  have hlength := congrArg List.length htext
  simp only [List.length_append,List.length_cons] at hlength hle ⊢
  exact ⟨(behindOnes body).length + (str.length - (front.length + body.length)),by omega,by omega⟩

/-- A run of characters in front of a NUL. -/
theorem stops_of_run {body : Bytes} (h : ∀ c ∈ body, c ∈ alphabet) (tail : Bytes) :
    Stops (body ++ 0 :: tail) [] body 0 tail :=
  ⟨rfl,by simp,h,by decide,fun _ => by decide⟩

theorem decodeBase58_run {body : Bytes} (h : ∀ c ∈ body, c ∈ alphabet) (tail b : Bytes) :
    decodeBase58 body (0 :: tail) = .ok (some b) ↔ (ones body < 2^31 ∧
      (behindOnes body).length * 73322 < 2^63 ∧ (Nat.digits 256 (number58 body)).length < 2^31) ∧
        b = decoded body := by
  have hleft : ((behindOnes body ++ 0 :: tail).length : ℤ) - (0 :: tail).length =
      ((behindOnes body).length : ℕ) := by
    simp
  have hblank : Blank (0 :: tail) := ⟨[],tail,rfl,by simp⟩
  rw [decodeBase58_iff (stops_of_run h tail),hleft,fits_iff h le_rfl]
  tauto

/-- No carry is lost where a NUL follows the view. -/
theorem decodeBase58_assertion (str tail : Bytes) : decodeBase58 str (0 :: tail) ≠ .error .assertion := by
  intro hfault
  cases stops_or_ends (str ++ 0 :: tail) with
  | inr h =>
    obtain ⟨front,body,htext,hfront,hbody⟩ := h
    have hmem : (0 : UInt8) ∈ front ++ body := by
      rw [← htext]
      simp
    cases List.mem_append.mp hmem with
    | inl hf => exact isspace_ne_zero (hfront 0 hf) rfl
    | inr hb => exact not_mem_alphabet (.inl rfl) (hbody 0 hb)
  | inl h =>
    obtain ⟨front,body,c,rest,h⟩ := h
    obtain ⟨left,hleft,hle⟩ := h.left_eq
    have hbody : ∀ c ∈ behindOnes body, c ∈ alphabet :=
      fun c hc => h.body_alphabet c (behindOnes_subset hc)
    rw [decodeBase58_stops h,hleft,buffer_eq] at hfault
    by_cases hones : ones body < 2^31
    · rw [if_pos hones] at hfault
      by_cases hroom : left * 73322 < 2^63
      · have hfits : number58 body < 256 ^ (left * 73322 / 100000 + 1) :=
          calc number58 body < 58 ^ (behindOnes body).length := number58_lt h.body_alphabet
            _ ≤ 58 ^ left := Nat.pow_le_pow_right (by norm_num) hle
            _ ≤ 256 ^ (left * 73322 / 100000 + 1) := decode_fits left
        rw [if_pos hroom,ok_bind] at hfault
        generalize left * 73322 / 100000 + 1 = size at hfits hfault
        have hmakes := decodeLoop_makes hbody size
        rw [number58_behindOnes] at hmakes
        cases hrun : ((behindOnes body).map digitOf).foldlM (addDigit decodeStep)
            (0,List.replicate size 0) with
        | ok s =>
          rw [hrun,ok_bind] at hfault
          by_cases hstop : c = 0 ∨ isspace c
          · rw [if_pos hstop] at hfault
            exact finish_assertion _ _ _ _ hfault
          · rw [if_neg hstop] at hfault
            exact absurd hfault (by simp)
        | error e =>
          rw [hrun] at hmakes hfault
          have := (hmakes hfits).1
          rw [error_bind,this] at hfault
          exact absurd hfault (by simp)
      · rw [if_neg hroom] at hfault
        exact absurd hfault (by simp)
    · rw [if_neg hones] at hfault
      exact absurd hfault (by simp)

end Base58
end Tkeycoin
