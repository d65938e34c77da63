import Tkeycoin.Base58RoundTrip
import Tkeycoin.Sha256

/-! Base58 with a checksum, which is that of the memory an iterator stands in. -/
namespace Tkeycoin
namespace Base58

/-- The bytes from the address of the iterator `begin`, in the frame of the call. -/
def stack (frame : ℕ → UInt8) (n : ℕ) : Bytes := (List.range n).map frame

/-- `Hash` of two iterators that are no pointers, `n` apart: it writes `(unsigned char*)&begin`. -/
def Hash (frame : ℕ → UInt8) (n : ℕ) : uint256 := (CHash256.new.Write (stack frame n)).Finalize

def encodeBase58Check (frame : ℕ → UInt8) (data : Bytes) : Except Fault Bytes :=
  let hash := Hash frame data.length
  encodeBase58 (data ++ hash.toList.take 4)

/-- `DecodeBase58Check`. The pointer `psz` that is passed on stands for what is in front of a NUL. It
gives the vector where `true` is returned; where `false` is, the vector is empty. -/
def decodeBase58Check (frame : ℕ → UInt8) (str behind : Bytes) : Except Fault (Option Bytes) :=
  let view := (str ++ behind).takeWhile (· ≠ 0)
  match (str ++ behind).dropWhile (· ≠ 0) with
  | [] => .error .outOfRange
  | nul :: tail => do
    match ← decodeBase58 view (nul :: tail) with
    | none => .ok none
    | some vchRet =>
      if vchRet.length < 4 then .ok none
      else
        let hash := Hash frame (vchRet.length - 4)
        if hash.toList.take 4 ≠ vchRet.drop (vchRet.length - 4) then .ok none
        else .ok (some (vchRet.take (vchRet.length - 4)))

/-- The first four bytes of the double hash. -/
def checksum (data : Bytes) : Bytes := (hash256 data).toList.take 4

theorem Hash_eq (frame : ℕ → UInt8) (n : ℕ) : Hash frame n = hash256 (stack frame n) :=
  CHash256.Finalize_eq (CSHA256.Write_absorbed CSHA256.new_absorbed _)

theorem checksum_length (data : Bytes) : (checksum data).length = 4 := by
  simp [checksum]

/-- Bytes in front of the last four, and these. -/
def payload (b : Bytes) : Bytes := b.take (b.length - 4)

def lastFour (b : Bytes) : Bytes := b.drop (b.length - 4)

/-- The characters in front of the first NUL. -/
def upToNul (str : Bytes) : Bytes := str.takeWhile (· ≠ 0)

theorem nul_not_mem_upToNul (str : Bytes) : 0 ∉ upToNul str := by
  intro h
  have := List.mem_takeWhile_imp h
  simp at this

/-- A string with a NUL behind it, as the pointer to its start stands for it. -/
theorem split_string (str tail : Bytes) : ∃ rest, str ++ 0 :: tail = upToNul str ++ 0 :: rest := by
  induction str with
  | nil => exact ⟨tail,rfl⟩
  | cons c str ih =>
    by_cases hc : c = 0
    · refine ⟨str ++ 0 :: tail,?_⟩
      rw [upToNul,List.takeWhile_cons_of_neg (by simpa using hc),hc]
      rfl
    · obtain ⟨rest,hrest⟩ := ih
      refine ⟨rest,?_⟩
      rw [upToNul,List.takeWhile_cons_of_pos (by simpa using hc),List.cons_append,hrest]
      rfl

theorem decodeBase58Check_iff {frame : ℕ → UInt8} {str tail d : Bytes} :
    decodeBase58Check frame str (0 :: tail) = .ok (some d) ↔
      ∃ body, Surrounds (upToNul str) body ∧ 4 ≤ (decoded body).length ∧
        checksum (stack frame ((decoded body).length - 4)) = lastFour (decoded body) ∧
        d = payload (decoded body) := by
  obtain ⟨rest,hrest⟩ := split_string str tail
  have hnul := nul_not_mem_upToNul str
  have hkeep : ∀ c ∈ upToNul str, decide (c ≠ 0) := by
    intro c hc
    exact decide_eq_true (fun h => hnul (h ▸ hc))
  have hview : (str ++ 0 :: tail).takeWhile (· ≠ 0) = upToNul str := by
    rw [hrest,List.takeWhile_append_of_pos hkeep,List.takeWhile_cons_of_neg (by simp),List.append_nil]
  have hbehind : (str ++ 0 :: tail).dropWhile (· ≠ 0) = 0 :: rest := by
    rw [hrest,List.dropWhile_append_of_pos hkeep,List.dropWhile_cons_of_neg (by simp)]
  rw [decodeBase58Check,hview,hbehind]
  constructor
  · intro h
    obtain ⟨r,hdecode,h⟩ := bind_ok h
    cases r with
    | none => exact absurd h (by simp)
    | some b =>
      obtain ⟨body,hbody,rfl⟩ := decodeBase58_eq_iff.mp hdecode
      simp only at h
      split at h
      · exact absurd h (by simp)
      · split at h
        · exact absurd h (by simp)
        · next hlength hsum =>
          refine ⟨body,(reads_terminated hnul rest body).mp hbody,by omega,?_,?_⟩
          · rw [checksum,← Hash_eq]
            exact not_not.mp hsum
          · exact (Option.some.inj (Except.ok.inj h)).symm
  · rintro ⟨body,hbody,hlength,hsum,rfl⟩
    have hdecode := decodeBase58_eq_iff.mpr ⟨body,(reads_terminated hnul rest body).mpr hbody,rfl⟩
    rw [checksum,← Hash_eq,lastFour] at hsum
    simp only [hdecode,ok_bind]
    rw [if_neg (by omega),if_neg (not_not.mpr hsum)]
    rfl

theorem encodeBase58Check_eq (frame : ℕ → UInt8) (data : Bytes) :
    encodeBase58Check frame data = encodeBase58 (data ++ checksum (stack frame data.length)) := by
  rw [encodeBase58Check,Hash_eq]
  rfl

theorem upToNul_run {s : Bytes} (h : ∀ c ∈ s, c ∈ alphabet) : upToNul s = s := by
  apply List.takeWhile_eq_self_iff.mpr
  intro c hc
  exact decide_eq_true (fun h0 => not_mem_alphabet (.inl h0) (h c hc))

/-- A run has no white space around it. -/
theorem surrounds_run {s body : Bytes} (h : ∀ c ∈ s, c ∈ alphabet) :
    Surrounds s body ↔ body = s ∧ Fits (behindOnes s).length s := by
  constructor
  · rintro ⟨front,back,hs,hfront,_,hback,_,hfits⟩
    have hnone : ∀ t : Bytes, (∀ c ∈ t, isspace c) → (∀ c ∈ t, c ∈ s) → t = [] := by
      intro t ht hsub
      apply List.eq_nil_iff_forall_not_mem.mpr
      exact fun c hc => not_mem_alphabet (.inr (ht c hc)) (h c (hsub c hc))
    have hf := hnone front hfront (fun c hc => by rw [hs]; simp [hc])
    have hb := hnone back hback (fun c hc => by rw [hs]; simp [hc])
    rw [hf,hb,List.nil_append,List.append_nil] at hs
    rw [hb] at hfits
    exact ⟨hs.symm,by simpa [hs] using hfits⟩
  · rintro ⟨rfl,hfits⟩
    exact ⟨[],[],by simp,by simp,h,by simp,fun _ => rfl,by simpa using hfits⟩

theorem fits_run {s : Bytes} (h : ∀ c ∈ s, c ∈ alphabet) (hones : ones s < 2^31)
    (hcount : (behindOnes s).length < 2^31) : Fits (behindOnes s).length s := by
  have hdigits := Radix.digits_length_le (B := 256) (C := 58) (by norm_num) (by norm_num) (number58 s)
  rw [digits_number58 h] at hdigits
  exact (fits_iff h le_rfl).mpr ⟨hones,by omega,by omega⟩

theorem payload_append (d : Bytes) {sum : Bytes} (h : sum.length = 4) :
    payload (d ++ sum) = d ∧ lastFour (d ++ sum) = sum := by
  rw [payload,lastFour,List.length_append,h,Nat.add_sub_cancel,List.take_left,List.drop_left]
  exact ⟨rfl,rfl⟩

theorem payload_lastFour (b : Bytes) : payload b ++ lastFour b = b := List.take_append_drop _ _

/-- What is encoded with a checksum is decoded again exactly if the two calls of `Hash` find memory with
one checksum. -/
theorem returned_iff (encoder decoder : ℕ → UInt8) (d tail : Bytes) :
    (∃ str, encodeBase58Check encoder d = .ok str ∧
      decodeBase58Check decoder str (0 :: tail) = .ok (some d)) ↔
    checksum (stack encoder d.length) = checksum (stack decoder d.length) ∧
      Radix.zeros ((d ++ checksum (stack encoder d.length)).map UInt8.toNat) < 2^31 ∧
      (Nat.digits 58 (number256 (d ++ checksum (stack encoder d.length)))).length < 2^31 := by
  have hsum := checksum_length (stack encoder d.length)
  obtain ⟨hpayload,hlast⟩ := payload_append d hsum
  rw [encodeBase58Check_eq]
  generalize checksum (stack encoder d.length) = sum at *
  have hlength : (d ++ sum).length - 4 = d.length := by rw [List.length_append,hsum]; omega
  generalize hb : d ++ sum = b at *
  have hword := encoded_alphabet (b.map UInt8.toNat)
  have hcount := digits_number58 hword
  rw [number58_encoded] at hcount
  have hdecodes : decodeBase58Check decoder (encoded (b.map UInt8.toNat)) (0 :: tail) = .ok (some d) ↔
      sum = checksum (stack decoder d.length) ∧
        Fits (behindOnes (encoded (b.map UInt8.toNat))).length (encoded (b.map UInt8.toNat)) := by
    rw [decodeBase58Check_iff,upToNul_run hword]
    simp only [surrounds_run hword,and_assoc,exists_eq_left,decoded_encoded,hlength,hlast,hpayload]
    have hfour : 4 ≤ b.length := by rw [← hb,List.length_append]; omega
    tauto
  rw [encodeBase58_uint8,← ones_encoded]
  constructor
  · rintro ⟨str,hstr,hdecode⟩
    by_cases hshort : (Nat.digits 58 (number256 b)).length < 2^31
    · rw [if_pos hshort] at hstr
      cases hstr
      obtain ⟨hsame,hfits⟩ := hdecodes.mp hdecode
      exact ⟨hsame,hfits.ones_lt,hshort⟩
    · rw [if_neg hshort] at hstr
      exact absurd hstr (by simp)
  · rintro ⟨hsame,hones,hshort⟩
    exact ⟨_,if_pos hshort,hdecodes.mpr ⟨hsame,fits_run hword hones (by omega)⟩⟩

/-- The Base58 form of bytes behind which their checksum stands. -/
def Checked (s : Bytes) : Prop := ∃ d, s = encoded ((d ++ checksum d).map UInt8.toNat)

/-- A run is such a form exactly if its last four bytes are the checksum of those before them. -/
theorem checked_run {s : Bytes} (h : ∀ c ∈ s, c ∈ alphabet) :
    Checked s ↔ 4 ≤ (decoded s).length ∧ checksum (payload (decoded s)) = lastFour (decoded s) := by
  constructor
  · rintro ⟨d,hd⟩
    obtain ⟨hpayload,hlast⟩ := payload_append d (checksum_length d)
    have hdecoded : decoded s = d ++ checksum d := by rw [hd,decoded_encoded]
    rw [hdecoded,hpayload,hlast,List.length_append,checksum_length]
    exact ⟨by omega,rfl⟩
  · rintro ⟨_,hsum⟩
    refine ⟨payload (decoded s),?_⟩
    rw [hsum,payload_lastFour,encoded_decoded h]

theorem Checked.alphabet {s : Bytes} (h : Checked s) : ∀ c ∈ s, c ∈ alphabet := by
  obtain ⟨d,rfl⟩ := h
  exact encoded_alphabet _

theorem surrounds_decoded {c body body' : Bytes} (hnul : 0 ∉ c) (h : Surrounds c body)
    (h' : Surrounds c body') : decoded body = decoded body' := by
  have hread := decodeBase58_eq_iff.mpr ⟨body,(reads_terminated hnul [] body).mpr h,rfl⟩
  have hread' := decodeBase58_eq_iff.mpr ⟨body',(reads_terminated hnul [] body').mpr h',rfl⟩
  exact Option.some.inj (Except.ok.inj (hread.symm.trans hread'))

/-- What the decoder accepts, once it is known what the characters are decoded to. -/
theorem accepted_by_stack {decoder : ℕ → UInt8} {s tail body : Bytes} (hbody : Surrounds (upToNul s) body)
    (hfour : 4 ≤ (decoded body).length) :
    (∃ vch, decodeBase58Check decoder s (0 :: tail) = .ok (some vch)) ↔
      checksum (stack decoder ((decoded body).length - 4)) = lastFour (decoded body) := by
  simp only [decodeBase58Check_iff]
  constructor
  · rintro ⟨_,body',hbody',_,hsum,_⟩
    rwa [surrounds_decoded (nul_not_mem_upToNul s) hbody hbody']
  · intro hsum
    exact ⟨_,body,hbody,hfour,hsum,rfl⟩

theorem checked_surrounded {s body : Bytes} (hbody : Surrounds (upToNul s) body)
    (hfour : 4 ≤ (decoded body).length) :
    Checked s ↔ s = body ∧ checksum (payload (decoded body)) = lastFour (decoded body) := by
  constructor
  · intro h
    rw [upToNul_run h.alphabet] at hbody
    have hs := ((surrounds_run h.alphabet).mp hbody).1
    rw [hs]
    exact ⟨rfl,((checked_run h.alphabet).mp h).2⟩
  · rintro ⟨hs,hsum⟩
    obtain ⟨_,_,_,_,halphabet,_⟩ := hbody
    rw [hs]
    exact (checked_run halphabet).mpr ⟨hfour,hsum⟩

/-- A string is accepted exactly if it has the checked form: where it does its characters can be counted,
and where the characters up to its first NUL are white space, a run that is decoded to four bytes or more,
and white space, the checksum of the memory is the one in the run exactly if that of the payload is and
the string is the run alone. -/
theorem acceptance_iff (decoder : ℕ → UInt8) (s tail : Bytes) :
    ((∃ vch, decodeBase58Check decoder s (0 :: tail) = .ok (some vch)) ↔ Checked s) ↔
      (Checked s → Fits (behindOnes s).length s) ∧
      ∀ body, Surrounds (upToNul s) body → 4 ≤ (decoded body).length →
        (checksum (stack decoder ((decoded body).length - 4)) = lastFour (decoded body) ↔
          s = body ∧ checksum (payload (decoded body)) = lastFour (decoded body)) := by
  constructor
  · intro h
    refine ⟨fun hs => ?_,fun body hbody hfour => ?_⟩
    · obtain ⟨vch,hvch⟩ := h.mpr hs
      obtain ⟨body,hbody,_⟩ := decodeBase58Check_iff.mp hvch
      rw [upToNul_run hs.alphabet] at hbody
      exact ((surrounds_run hs.alphabet).mp hbody).2
    · rw [← accepted_by_stack hbody hfour,← checked_surrounded hbody hfour]
      exact h
  · rintro ⟨hfits,hsums⟩
    constructor
    · rintro ⟨vch,hvch⟩
      obtain ⟨body,hbody,hfour,hsum,_⟩ := decodeBase58Check_iff.mp hvch
      exact (checked_surrounded hbody hfour).mpr ((hsums body hbody hfour).mp hsum)
    · intro hs
      have hrun := hs.alphabet
      have hbody : Surrounds (upToNul s) s := by
        rw [upToNul_run hrun]
        exact (surrounds_run hrun).mpr ⟨rfl,hfits hs⟩
      have hfour := ((checked_run hrun).mp hs).1
      exact (accepted_by_stack hbody hfour).mpr
        ((hsums s hbody hfour).mpr ((checked_surrounded hbody hfour).mp hs))

/-- Both directions of Base58Check. -/
theorem checksum_iff (encoder decoder : ℕ → UInt8) (d s tail : Bytes) :
    ((∃ str, encodeBase58Check encoder d = .ok str ∧
        decodeBase58Check decoder str (0 :: tail) = .ok (some d)) ↔
      checksum (stack encoder d.length) = checksum (stack decoder d.length) ∧
        Radix.zeros ((d ++ checksum (stack encoder d.length)).map UInt8.toNat) < 2^31 ∧
        (Nat.digits 58 (number256 (d ++ checksum (stack encoder d.length)))).length < 2^31) ∧
    (((∃ vch, decodeBase58Check decoder s (0 :: tail) = .ok (some vch)) ↔ Checked s) ↔
      (Checked s → Fits (behindOnes s).length s) ∧
      ∀ body, Surrounds (upToNul s) body → 4 ≤ (decoded body).length →
        (checksum (stack decoder ((decoded body).length - 4)) = lastFour (decoded body) ↔
          s = body ∧ checksum (payload (decoded body)) = lastFour (decoded body))) :=
  ⟨returned_iff encoder decoder d tail,acceptance_iff decoder s tail⟩

/-- One byte is lost where the two calls find 0 and 1 in memory. -/
theorem one_byte_lost : ¬∀ encoder decoder : ℕ → UInt8, ∀ d : Bytes, ∃ str,
    encodeBase58Check encoder d = .ok str ∧ decodeBase58Check decoder str [0] = .ok (some d) := by
  intro h
  have hsame := ((returned_iff (fun _ => 0) (fun _ => 1) [0] []).mp (h _ _ [0])).1
  have hdiffer : checksum (stack (fun _ => 0) 1) ≠ checksum (stack (fun _ => 1) 1) := by
    decide +kernel
  exact hdiffer hsame

end Base58
end Tkeycoin
