import Tkeycoin.Base58Decoding

/-! When the two conversions of Base58 undo each other, and which views are decoded. -/
namespace Tkeycoin
namespace Base58

/-- The number of a byte string, most significant byte first. -/
def number256 (bs : Bytes) : ℕ := Radix.value 256 (bs.map UInt8.toNat)

/-- Elements that a function leaves as they are. -/
theorem map_of_fixed {α : Type} {f : α → α} {l : List α} (h : ∀ x ∈ l, f x = x) : l.map f = l :=
  (List.map_congr_left h).trans (List.map_id _)

theorem byteOf_uint8 (bs : Bytes) : bs.map byteOf = bs.map UInt8.toNat := by
  apply List.map_congr_left
  intro c _
  exact UInt8.toNat_toUInt32 c

theorem encodeBase58_uint8 (bs : Bytes) : encodeBase58 bs =
    if (Nat.digits 58 (number256 bs)).length < 2^31 then .ok (encoded (bs.map UInt8.toNat))
    else .error .overflow := by
  rw [encodeBase58_eq bs (by
    intro c _
    simpa [byteOf,OneByte.toUInt32] using c.toNat_lt),byteOf_uint8,number256]

theorem encoded_alphabet (bytes : List ℕ) : ∀ c ∈ encoded bytes, c ∈ alphabet := by
  intro c hc
  obtain ⟨d,hd,rfl⟩ := List.mem_map.mp hc
  exact charOf_mem (Radix.recode_lt 256 (by norm_num) bytes d hd)

theorem encoded_digits (bytes : List ℕ) : (encoded bytes).map digitNat = Radix.recode 256 58 bytes := by
  rw [encoded,List.map_map]
  apply map_of_fixed
  intro d hd
  exact digitOf_charOf (Radix.recode_lt 256 (by norm_num) bytes d hd)

/-- Decoded is what was encoded. -/
theorem decoded_encoded (bs : Bytes) : decoded (encoded (bs.map UInt8.toNat)) = bs := by
  have hlt : ∀ d ∈ bs.map UInt8.toNat, d < 256 := by
    intro d hd
    obtain ⟨c,_,rfl⟩ := List.mem_map.mp hd
    exact c.toNat_lt
  rw [decoded,encoded_digits,Radix.recode_recode (by norm_num) hlt,List.map_map]
  exact map_of_fixed fun c _ => UInt8.ofNat_toNat

theorem decoded_bytes (s : Bytes) : (decoded s).map UInt8.toNat = Radix.recode 58 256 (s.map digitNat) := by
  rw [decoded,List.map_map]
  apply map_of_fixed
  intro d hd
  have := Radix.recode_lt 58 (by norm_num : 1 < 256) _ d hd
  simpa using this

/-- Encoded is what was decoded. -/
theorem encoded_decoded {s : Bytes} (h : ∀ c ∈ s, c ∈ alphabet) :
    encoded ((decoded s).map UInt8.toNat) = s := by
  have hlt : ∀ d ∈ s.map digitNat, d < 58 := by
    intro d hd
    obtain ⟨c,hc,rfl⟩ := List.mem_map.mp hd
    exact digitNat_lt (h c hc)
  rw [decoded_bytes,encoded,Radix.recode_recode (by norm_num) hlt,List.map_map]
  apply map_of_fixed
  intro c hc
  exact ((digitOf_table c).1.resolve_left ((mem_alphabet_iff c).mp (h c hc))).2

theorem ones_encoded (bytes : List ℕ) : ones (encoded bytes) = Radix.zeros bytes := by
  rw [← (ones_map (encoded bytes)).1,encoded_digits,Radix.zeros_recode]

theorem number58_encoded (bs : Bytes) : number58 (encoded (bs.map UInt8.toNat)) = number256 bs := by
  rw [number58,encoded_digits,Radix.value_recode,number256]

/-- The number of a run is read off its characters. -/
theorem number58_digits (z v : ℕ) :
    number58 (List.replicate z 49 ++ (Nat.digits 58 v).reverse.map charOf) = v := by
  have hmap : (List.replicate z 49 ++ (Nat.digits 58 v).reverse.map charOf).map digitNat =
      List.replicate z 0 ++ (Nat.digits 58 v).reverse := by
    have hone : digitNat 49 = 0 := by decide +kernel
    rw [List.map_append,List.map_replicate,List.map_map,hone]
    congr 1
    apply map_of_fixed
    intro d hd
    exact digitOf_charOf (Nat.digits_lt_base (by norm_num) (List.mem_reverse.mp hd))
  rw [number58,hmap,← Radix.value_behindZeros,
    (Radix.zeros_replicate_append z _ (Radix.digits_reverse_head v)).2,Radix.value_digits]

theorem number256_decoded (s : Bytes) : number256 (decoded s) = number58 s := by
  rw [number256,decoded_bytes,Radix.value_recode,number58]

/-- The digits of a run's number are its characters behind the leading '1's. -/
theorem digits_number58 {s : Bytes} (h : ∀ c ∈ s, c ∈ alphabet) :
    (Nat.digits 58 (number58 s)).length = (behindOnes s).length := by
  have hlt : ∀ d ∈ (behindOnes s).map digitNat, d < 58 := by
    intro d hd
    obtain ⟨c,hc,rfl⟩ := List.mem_map.mp hd
    exact digitNat_lt (h c (behindOnes_subset hc))
  have hdigits := Radix.digits_value (by norm_num) hlt (by
    rw [← (ones_map s).2]
    exact Radix.behindZeros_head _)
  have hlength := congrArg List.length hdigits
  rw [← number58_behindOnes,number58]
  simpa using hlength

/-- A string over the alphabet. -/
abbrev Word := {s : Bytes // ∀ c ∈ s, c ∈ alphabet}

/-- A run whose characters can be counted is decoded. -/
theorem decodeBase58_counted {s : Bytes} (h : ∀ c ∈ s, c ∈ alphabet) (tail : Bytes)
    (hones : ones s < 2^31) (hdigits : (behindOnes s).length < 2^31) :
    decodeBase58 s (0 :: tail) = .ok (some (decoded s)) := by
  have hcount := Radix.digits_length_le (B := 256) (C := 58) (by norm_num) (by norm_num) (number58 s)
  rw [digits_number58 h] at hcount
  exact (decodeBase58_run h tail _).mpr ⟨⟨hones,by omega,by omega⟩,rfl⟩

theorem decode_encode_iff (bs tail : Bytes) :
    (∃ str, encodeBase58 bs = .ok str ∧ decodeBase58 str (0 :: tail) = .ok (some bs)) ↔
      Radix.zeros (bs.map UInt8.toNat) < 2^31 ∧ (Nat.digits 58 (number256 bs)).length < 2^31 := by
  have hword := encoded_alphabet (bs.map UInt8.toNat)
  have hlength := digits_number58 hword
  rw [number58_encoded] at hlength
  rw [encodeBase58_uint8,← ones_encoded,hlength]
  constructor
  · rintro ⟨str,hstr,hdecode⟩
    by_cases hcount : (behindOnes (encoded (bs.map UInt8.toNat))).length < 2^31
    · rw [if_pos hcount] at hstr
      cases hstr
      exact ⟨((decodeBase58_run hword tail bs).mp hdecode).1.1,hcount⟩
    · rw [if_neg hcount] at hstr
      exact absurd hstr (by simp)
  · rintro ⟨hones,hcount⟩
    refine ⟨_,if_pos hcount,?_⟩
    rw [decodeBase58_counted hword tail hones hcount,decoded_encoded]

theorem encode_decode_iff {s : Bytes} (hs : ∀ c ∈ s, c ∈ alphabet) (tail : Bytes) :
    (∃ vch, decodeBase58 s (0 :: tail) = .ok (some vch) ∧ encodeBase58 vch = .ok s) ↔
      ones s < 2^31 ∧ (behindOnes s).length < 2^31 := by
  have hencode : encodeBase58 (decoded s) =
      if (behindOnes s).length < 2^31 then .ok s else .error .overflow := by
    rw [encodeBase58_uint8,number256_decoded,digits_number58 hs,encoded_decoded hs]
  constructor
  · rintro ⟨vch,hdecode,hvch⟩
    obtain ⟨hfits,rfl⟩ := (decodeBase58_run hs tail vch).mp hdecode
    rw [hencode] at hvch
    by_cases hcount : (behindOnes s).length < 2^31
    · exact ⟨hfits.1,hcount⟩
    · rw [if_neg hcount] at hvch
      exact absurd hvch (by simp)
  · rintro ⟨hones,hcount⟩
    exact ⟨decoded s,decodeBase58_counted hs tail hones hcount,by rw [hencode]; exact if_pos hcount⟩

/-- The encoder gives a string that the decoder turns into the bytes, and the other way round: exactly
where the zeros in front and the digits behind them can be counted by an `int`. The memory behind a
string begins with a NUL. No assertion fails. -/
theorem bijection_iff (bs : Bytes) (s : Word) (tail : Bytes) :
    ((∃ str, encodeBase58 bs = .ok str ∧ decodeBase58 str (0 :: tail) = .ok (some bs)) ↔
      Radix.zeros (bs.map UInt8.toNat) < 2^31 ∧ (Nat.digits 58 (number256 bs)).length < 2^31) ∧
    ((∃ vch, decodeBase58 s (0 :: tail) = .ok (some vch) ∧ encodeBase58 vch = .ok s.1) ↔
      ones s < 2^31 ∧ (behindOnes s).length < 2^31) ∧
    encodeBase58 bs ≠ .error .assertion ∧ ∀ str, decodeBase58 str (0 :: tail) ≠ .error .assertion := by
  refine ⟨decode_encode_iff bs tail,encode_decode_iff s.2 tail,?_,fun str => decodeBase58_assertion str tail⟩
  rw [encodeBase58_uint8]
  split <;> simp

/-- 2^31 zero bytes are encoded, and not decoded again. -/
theorem many_zeros_lost : ¬∀ bs : Bytes, ∃ str, encodeBase58 bs = .ok str ∧
    decodeBase58 str [0] = .ok (some bs) := by
  intro h
  have hzeros := ((decode_encode_iff (List.replicate (2^31) 0) []).mp (h _)).1
  rw [List.map_replicate] at hzeros
  have hall := (Radix.zeros_replicate_append (2^31) [] (by simp)).1
  rw [List.append_nil] at hall
  exact absurd (hall ▸ hzeros) (by norm_num)

/-- White space, characters of the alphabet, white space. -/
def Form (s : Bytes) : Prop := ∃ front body back, s = front ++ (body ++ back) ∧
  (∀ c ∈ front, isspace c) ∧ (∀ c ∈ body, c ∈ alphabet) ∧ ∀ c ∈ back, isspace c

theorem Form.nul_not_mem {s : Bytes} (h : Form s) : 0 ∉ s := by
  obtain ⟨front,body,back,rfl,hfront,hbody,hback⟩ := h
  intro hmem
  simp only [List.mem_append] at hmem
  rcases hmem with hf | hb | hk
  · exact isspace_ne_zero (hfront 0 hf) rfl
  · exact not_mem_alphabet (.inl rfl) (hbody 0 hb)
  · exact isspace_ne_zero (hback 0 hk) rfl

/-- What begins a text of the form has the form. -/
theorem Form.of_append {s t : Bytes} (h : Form (s ++ t)) : Form s := by
  obtain ⟨front,body,back,htext,hfront,hbody,hback⟩ := h
  have hs := congrArg (List.take s.length) htext
  rw [List.take_left,List.take_append,List.take_append] at hs
  exact ⟨_,_,_,hs,fun c hc => hfront c (List.mem_of_mem_take hc),
    fun c hc => hbody c (List.mem_of_mem_take hc),fun c hc => hback c (List.mem_of_mem_take hc)⟩

/-- What stands in front of the first NUL, from the start of the view on, is white space, the run, and
white space, and the run can be converted. The size of the buffer comes from the end of the view, wherever
that is. -/
def Reads (str behind body : Bytes) : Prop := ∃ front back tail,
  str ++ behind = front ++ (body ++ (back ++ 0 :: tail)) ∧ (∀ c ∈ front, isspace c) ∧
    (∀ c ∈ body, c ∈ alphabet) ∧ (∀ c ∈ back, isspace c) ∧ (body = [] → back = []) ∧
    Fits ((behindOnes body ++ (back ++ 0 :: tail)).length - behind.length) body

def Accepted (str behind : Bytes) : Prop := ∃ body, Reads str behind body

/-- No view is decoded without a NUL somewhere. -/
theorem nul_mem_of_decoded {str behind b : Bytes} (h : decodeBase58 str behind = .ok (some b)) :
    0 ∈ str ++ behind := by
  rw [decodeBase58] at h
  obtain ⟨psz,hfront,h⟩ := bind_ok h
  obtain ⟨⟨zeroes,start⟩,hones,h⟩ := bind_ok h
  obtain ⟨_,_,h⟩ := bind_ok h
  obtain ⟨size,_,h⟩ := bind_ok h
  obtain ⟨r,hdigits,h⟩ := bind_ok h
  obtain ⟨front,htext,_⟩ := skipWhile_ok hfront
  cases r with
  | none => exact absurd h (by simp)
  | some r =>
    obtain ⟨next,length,b256⟩ := r
    obtain ⟨last,hback,h⟩ := bind_ok h
    obtain ⟨back,hnext,_⟩ := skipWhile_ok hback
    by_cases hhead : last.head? = some 0
    · obtain ⟨tail,htail⟩ := List.head?_eq_some_iff.mp hhead
      have hmem : 0 ∈ next := by
        rw [hnext,htail]
        simp
      rw [htext]
      apply List.mem_append_right
      exact (countOnes_suffix hones).subset ((decodeDigits_suffix hdigits).subset hmem)
    · rw [if_pos hhead] at h
      exact absurd h (by simp)

theorem decodeBase58_eq_iff {str behind b : Bytes} :
    decodeBase58 str behind = .ok (some b) ↔ ∃ body, Reads str behind body ∧ b = decoded body := by
  constructor
  · intro hb
    cases stops_or_ends (str ++ behind) with
    | inl h =>
      obtain ⟨front,body,c,rest,h⟩ := h
      obtain ⟨⟨back,tail,hrest,hback⟩,hfits,hdecoded⟩ := (decodeBase58_iff h).mp hb
      rw [hrest] at hfits
      refine ⟨body,⟨front,back,tail,by rw [h.text_eq,hrest],h.front_space,h.body_alphabet,hback,?_,
        hfits⟩,hdecoded⟩
      intro hnil
      cases back with
      | nil => rfl
      | cons x back =>
        have hspace := hback x (by simp)
        rw [← (List.cons.inj hrest).1,h.stop_space hnil] at hspace
        exact absurd hspace (by simp)
    | inr h =>
      obtain ⟨front,body,htext,hfront,hbody⟩ := h
      have hmem := nul_mem_of_decoded hb
      rw [htext] at hmem
      cases List.mem_append.mp hmem with
      | inl hf => exact absurd rfl (isspace_ne_zero (hfront 0 hf))
      | inr hn => exact absurd (hbody 0 hn) (not_mem_alphabet (.inl rfl))
  · rintro ⟨body,⟨front,back,tail,htext,hfront,hbody,hback,hnil,hfits⟩,hdecoded⟩
    cases hrest : back ++ 0 :: tail with
    | nil => simp at hrest
    | cons c rest =>
      have hblank : Blank (c :: rest) := ⟨back,tail,hrest.symm,hback⟩
      rw [hrest] at htext hfits
      have hstops : Stops (str ++ behind) front body c rest := by
        refine ⟨htext,hfront,hbody,not_mem_alphabet hblank.head,?_⟩
        intro h
        rw [hnil h] at hrest
        rw [← (List.cons.inj hrest).1]
        decide
      exact (decodeBase58_iff hstops).mpr ⟨hblank,hfits,hdecoded⟩

theorem decodes_iff_accepted (str behind : Bytes) :
    (∃ b, decodeBase58 str behind = .ok (some b)) ↔ Accepted str behind := by
  simp only [decodeBase58_eq_iff,Accepted]
  constructor
  · rintro ⟨_,body,h,_⟩
    exact ⟨body,h⟩
  · rintro ⟨body,h⟩
    exact ⟨decoded body,body,h,rfl⟩

/-- Two texts in front of their first NUL. -/
theorem split_at_nul {s t : Bytes} {u v : Bytes} (hs : 0 ∉ s) (ht : 0 ∉ t) (h : s ++ 0 :: u = t ++ 0 :: v) :
    s = t ∧ u = v := by
  induction s generalizing t with
  | nil =>
    cases t with
    | nil => exact ⟨rfl,(List.cons.inj h).2⟩
    | cons c t =>
      have := (List.cons.inj h).1
      exact absurd (by rw [this]; simp) ht
  | cons c s ih =>
    cases t with
    | nil =>
      have := (List.cons.inj h).1
      exact absurd (by rw [this]; simp) hs
    | cons d t =>
      obtain ⟨hcd,hrest⟩ := List.cons.inj h
      obtain ⟨hst,huv⟩ := ih (fun hm => hs (by simp [hm])) (fun hm => ht (by simp [hm])) hrest
      exact ⟨by rw [hcd,hst],huv⟩

/-- The text is white space, the run, and white space, and the run can be converted. -/
def Surrounds (str body : Bytes) : Prop := ∃ front back, str = front ++ (body ++ back) ∧
  (∀ c ∈ front, isspace c) ∧ (∀ c ∈ body, c ∈ alphabet) ∧ (∀ c ∈ back, isspace c) ∧
  (body = [] → back = []) ∧ Fits ((behindOnes body).length + back.length) body

/-- A view without a NUL that is followed by one is read up to its end. -/
theorem reads_terminated {str : Bytes} (hnul : 0 ∉ str) (tail body : Bytes) :
    Reads str (0 :: tail) body ↔ Surrounds str body := by
  have hleft : ∀ back : Bytes, ((behindOnes body ++ (back ++ 0 :: tail)).length : ℤ) - (0 :: tail).length =
      (behindOnes body).length + back.length := by
    intro back
    simp only [List.length_append,List.length_cons]
    push_cast
    ring
  constructor
  · rintro ⟨front,back,tail',htext,hfront,hbody,hback,hnil,hfits⟩
    have hform : Form (front ++ (body ++ back)) := ⟨front,body,back,rfl,hfront,hbody,hback⟩
    have hsplit : str ++ 0 :: tail = (front ++ (body ++ back)) ++ 0 :: tail' := by
      rw [htext,List.append_assoc,List.append_assoc]
    obtain ⟨hstr,htail⟩ := split_at_nul hnul hform.nul_not_mem hsplit
    rw [← htail,hleft] at hfits
    exact ⟨front,back,hstr,hfront,hbody,hback,hnil,hfits⟩
  · rintro ⟨front,back,hstr,hfront,hbody,hback,hnil,hfits⟩
    refine ⟨front,back,tail,?_,hfront,hbody,hback,hnil,by rw [hleft]; exact hfits⟩
    rw [hstr,List.append_assoc,List.append_assoc]

theorem form_of_accepted {str : Bytes} (behind : Bytes) (hnul : 0 ∉ str) (h : Accepted str behind) : Form str := by
  obtain ⟨body,front,back,tail,htext,hfront,hbody,hback,_⟩ := h
  have hsplit : str ++ behind = (front ++ (body ++ back)) ++ 0 :: tail := by
    rw [htext,List.append_assoc,List.append_assoc]
  have hform : Form (front ++ (body ++ back)) := ⟨front,body,back,rfl,hfront,hbody,hback⟩
  cases List.append_eq_append_iff.mp hsplit with
  | inl h =>
    obtain ⟨more,hmore,_⟩ := h
    rw [hmore] at hform
    exact hform.of_append
  | inr h =>
    obtain ⟨more,hmore,hrest⟩ := h
    cases more with
    | nil =>
      rw [hmore,List.append_nil]
      exact hform
    | cons x more =>
      rw [← (List.cons.inj hrest).1] at hmore
      exact absurd (by rw [hmore]; simp) hnul

/-- The decoder takes a view exactly if it has the form: where the view has a NUL, exactly if what is
in front of this is not accepted, and otherwise exactly if what follows the view up to a NUL does not
spoil the form and its conversion. -/
theorem exact_acceptance_iff (str behind : Bytes) :
    ((∃ b, decodeBase58 str behind = .ok (some b)) ↔ Form str) ↔
      (0 ∈ str → ¬Accepted str behind) ∧ (0 ∉ str → Form str → Accepted str behind) := by
  rw [decodes_iff_accepted]
  by_cases hnul : 0 ∈ str
  · have hform : ¬Form str := fun h => h.nul_not_mem hnul
    tauto
  · have hform := fun h => form_of_accepted behind hnul h
    tauto

/-- The NUL ends "2" for the decoder, and what stands behind it is not looked at. -/
theorem behind_nul_ignored :
    ¬∀ str behind, (∃ b, decodeBase58 str behind = .ok (some b)) ↔ Form str := by
  intro h
  have hform := (h [50,0,33] [0]).mp ⟨[1],by decide +kernel⟩
  exact hform.nul_not_mem (by decide)

end Base58
end Tkeycoin
