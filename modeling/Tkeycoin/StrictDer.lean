import Tkeycoin.SignatureEncoding

/-! The grammar of signatures, and that `IsValidSignatureEncoding` recognises it. -/
namespace Tkeycoin
namespace SignatureEncoding

/-- The bytes of an integer: some, of a number that is not negative, and no zero in front that the sign
does not need. -/
def IsDerInteger : Bytes → Prop
  | [] => False
  | [first] => first &&& 0x80 = 0
  | first :: second :: _ => first &&& 0x80 = 0 ∧ (first = 0 → second &&& 0x80 ≠ 0)

instance : (content : Bytes) → Decidable (IsDerInteger content)
  | [] => inferInstanceAs (Decidable False)
  | [first] => inferInstanceAs (Decidable (first &&& 0x80 = 0))
  | first :: second :: _ =>
    inferInstanceAs (Decidable (first &&& 0x80 = 0 ∧ (first = 0 → second &&& 0x80 ≠ 0)))

/-- A content behind its tag and its length, which is one byte. -/
def tagged (tag : UInt8) (content : Bytes) : Bytes := tag :: UInt8.ofNat content.length :: content

/-- Two integers in a compound, and the hash type. -/
def signature (R S : Bytes) (hashType : UInt8) : Bytes :=
  tagged 0x30 (tagged 0x02 R ++ tagged 0x02 S) ++ [hashType]

/-- The strict grammar, with the sizes that it admits. -/
def IsStrictDer (sig : Bytes) : Prop :=
  9 ≤ sig.length ∧ sig.length ≤ 73 ∧
    ∃ R S hashType, sig = signature R S hashType ∧ IsDerInteger R ∧ IsDerInteger S

theorem signature_length (R S : Bytes) (hashType : UInt8) :
    (signature R S hashType).length = R.length + S.length + 7 := by
  simp [signature,tagged]
  omega

/-- The integer check, wherever its bytes stand. -/
theorem validInteger_eq (front content behind : Bytes) :
    validInteger (front ++ (content ++ behind)) content.length front.length =
      some (decide (IsDerInteger content)) := by
  have hfirst : (front ++ (content ++ behind))[front.length]? = (content ++ behind)[0]? := by
    rw [List.getElem?_append_right (le_refl _),Nat.sub_self]
  have hsecond : (front ++ (content ++ behind))[front.length + 1]? = (content ++ behind)[1]? := by
    rw [List.getElem?_append_right (Nat.le_add_right _ 1),Nat.add_sub_cancel_left]
  rw [validInteger,hfirst,hsecond]
  match content with
  | [] => rfl
  | [first] =>
    by_cases hsign : first &&& 0x80 = 0 <;> simp [IsDerInteger,hsign]
  | first :: second :: rest =>
    by_cases hsign : first &&& 0x80 = 0
    · by_cases hzero : first = 0 <;> simp [IsDerInteger,hsign,hzero,bne,beq_eq_decide]
    · simp [IsDerInteger,hsign]

section Cut

variable {R S : Bytes} {compound total tagR lenR tagS lenS hashType : UInt8}

/-- A string with an integer at either of its two places. -/
def cut (compound total tagR lenR : UInt8) (R : Bytes) (tagS lenS : UInt8) (S : Bytes) (hashType : UInt8) :
    Bytes :=
  compound :: total :: tagR :: lenR :: (R ++ tagS :: lenS :: (S ++ [hashType]))

theorem cut_length : (cut compound total tagR lenR R tagS lenS S hashType).length =
    R.length + S.length + 7 := by
  simp [cut]
  omega

theorem cut_tagS : (cut compound total tagR lenR R tagS lenS S hashType)[R.length + 4]? = some tagS := by
  simp [cut]

theorem cut_lenS : (cut compound total tagR lenR R tagS lenS S hashType)[5 + R.length]? = some lenS := by
  have h : 5 + R.length = R.length + 1 + 4 := by omega
  simp [cut,h]

theorem cut_validR : validInteger (cut compound total tagR lenR R tagS lenS S hashType) R.length 4 =
    some (decide (IsDerInteger R)) :=
  validInteger_eq [compound,total,tagR,lenR] R (tagS :: lenS :: (S ++ [hashType]))

theorem cut_validS :
    validInteger (cut compound total tagR lenR R tagS lenS S hashType) S.length (R.length + 6) =
      some (decide (IsDerInteger S)) := by
  have h := validInteger_eq (compound :: total :: tagR :: lenR :: (R ++ [tagS,lenS])) S [hashType]
  simpa [cut] using h

/-- The tests of a string whose lengths are right. -/
theorem isValidSignatureEncoding_cut (hR : lenR.toNat = R.length) (hS : lenS.toNat = S.length) :
    isValidSignatureEncoding (cut compound total tagR lenR R tagS lenS S hashType) =
      some (decide (2 ≤ R.length + S.length ∧ R.length + S.length ≤ 66 ∧ compound = 0x30 ∧
        total.toNat = R.length + S.length + 4 ∧ tagR = 0x02 ∧ IsDerInteger R ∧ tagS = 0x02 ∧
        IsDerInteger S)) := by
  have hlen : (cut compound total tagR lenR R tagS lenS S hashType).length = _ := cut_length
  have h₀ : (cut compound total tagR lenR R tagS lenS S hashType)[0]? = some compound := rfl
  have h₁ : (cut compound total tagR lenR R tagS lenS S hashType)[1]? = some total := rfl
  have h₂ : (cut compound total tagR lenR R tagS lenS S hashType)[2]? = some tagR := rfl
  have h₃ : (cut compound total tagR lenR R tagS lenS S hashType)[3]? = some lenR := rfl
  simp only [isValidSignatureEncoding,hlen,h₀,h₁,h₂,h₃,hR,hS,cut_lenS,cut_tagS,cut_validR,cut_validS,
    Option.bind_eq_bind,Option.bind_some]
  have hguard (p q : Prop) [Decidable p] [Decidable q] :
      (if p then some false else some (decide q)) = some (decide (¬ p ∧ q)) := by
    by_cases h : p <;> simp [h]
  simp only [hguard,ne_eq,not_not,Bool.not_eq_true',decide_eq_false_iff_not]
  congr 1
  rw [decide_eq_decide]
  constructor
  · rintro ⟨hmin,hmax,hcompound,htotal,-,-,htagR,hintR,htagS,hintS⟩
    exact ⟨by omega,by omega,hcompound,by omega,htagR,hintR,htagS,hintS⟩
  · rintro ⟨hmin,hmax,hcompound,htotal,htagR,hintR,htagS,hintS⟩
    have hinside : S.length ≠ 0 := by
      intro hnil
      rw [List.length_eq_zero_iff] at hnil
      subst hnil
      exact hintS
    exact ⟨by omega,by omega,hcompound,by omega,by omega,trivial,htagR,hintR,htagS,hintS⟩

/-- The length tests of a string that is accepted. -/
theorem lengths_of_valid {sig : Bytes} (h : isValidSignatureEncoding sig = some true) :
    9 ≤ sig.length ∧ ∃ lenR lenS, sig[3]? = some lenR ∧ sig[5 + lenR.toNat]? = some lenS ∧
      lenR.toNat + lenS.toNat + 7 = sig.length := by
  unfold isValidSignatureEncoding at h
  split_ifs at h with hmin hmax
  · simp at h
  · simp at h
  · obtain ⟨compound,-,h⟩ := Option.bind_eq_some_iff.mp h
    split_ifs at h
    · simp at h
    obtain ⟨total,-,h⟩ := Option.bind_eq_some_iff.mp h
    split_ifs at h
    · simp at h
    obtain ⟨lenR,hlenR,h⟩ := Option.bind_eq_some_iff.mp h
    split_ifs at h
    · simp at h
    obtain ⟨lenS,hlenS,h⟩ := Option.bind_eq_some_iff.mp h
    split_ifs at h with hsum
    · simp at h
    exact ⟨by omega,lenR,lenS,hlenR,hlenS,not_not.mp hsum⟩

/-- So it can be cut where they say. -/
theorem exists_cut {sig : Bytes} (h : isValidSignatureEncoding sig = some true) :
    ∃ compound total tagR lenR R tagS lenS S hashType,
      sig = cut compound total tagR lenR R tagS lenS S hashType ∧ lenR.toNat = R.length ∧
        lenS.toNat = S.length := by
  obtain ⟨hmin,lenR,lenS,hlenR,hlenS,hsum⟩ := lengths_of_valid h
  match sig,hmin with
  | compound :: total :: tagR :: third :: rest,_ =>
    obtain rfl : third = lenR := Option.some.inj hlenR
    simp only [List.length_cons] at hsum
    have hindex : 5 + third.toNat = third.toNat + 1 + 4 := by omega
    rw [hindex] at hlenS
    obtain ⟨hlt,hget⟩ := List.getElem?_eq_some_iff.mp (show rest[third.toNat + 1]? = some lenS from hlenS)
    have hR : (rest.take third.toNat).length = third.toNat := List.length_take_of_le (by omega)
    have htail : (rest.drop (third.toNat + 1 + 1)).length = lenS.toNat + 1 := by
      rw [List.length_drop]
      omega
    have hne : rest.drop (third.toNat + 1 + 1) ≠ [] := by
      intro hnil
      simp [hnil] at htail
    have hrest : rest = rest.take third.toNat ++ rest[third.toNat] :: rest[third.toNat + 1] ::
        rest.drop (third.toNat + 1 + 1) := by
      rw [← List.drop_eq_getElem_cons hlt,← List.drop_eq_getElem_cons (Nat.lt_of_succ_lt hlt),
        List.take_append_drop]
    refine ⟨compound,total,tagR,third,rest.take third.toNat,rest[third.toNat],lenS,
      (rest.drop (third.toNat + 1 + 1)).dropLast,(rest.drop (third.toNat + 1 + 1)).getLast hne,?_,hR.symm,?_⟩
    · rw [hget] at hrest
      rw [cut,List.dropLast_concat_getLast]
      exact congrArg (fun l => compound :: total :: tagR :: third :: l) hrest
    · rw [List.length_dropLast,htail,Nat.add_sub_cancel]

end Cut

theorem signature_eq_cut (R S : Bytes) (hashType : UInt8) :
    signature R S hashType =
      cut 0x30 (UInt8.ofNat (R.length + S.length + 4)) 0x02 (UInt8.ofNat R.length) R 0x02
        (UInt8.ofNat S.length) S hashType := by
  have htotal : (tagged 0x02 R ++ tagged 0x02 S).length = R.length + S.length + 4 := by
    simp [tagged]
    omega
  rw [signature,tagged,htotal]
  simp [tagged,cut]

/-- No string leads an index beyond its end, and those accepted are the strings of the grammar. -/
theorem isValidSignatureEncoding_iff (sig : Bytes) :
    ∃ valid, isValidSignatureEncoding sig = some valid ∧ (valid = true ↔ IsStrictDer sig) := by
  obtain ⟨valid,hvalid⟩ := Option.isSome_iff_exists.mp (isValidSignatureEncoding_isSome sig)
  refine ⟨valid,hvalid,?_,?_⟩
  · rintro rfl
    obtain ⟨compound,total,tagR,lenR,R,tagS,lenS,S,hashType,rfl,hR,hS⟩ := exists_cut hvalid
    rw [isValidSignatureEncoding_cut hR hS,Option.some.injEq,decide_eq_true_eq] at hvalid
    obtain ⟨hmin,hmax,rfl,htotal,rfl,hintR,rfl,hintS⟩ := hvalid
    refine ⟨by rw [cut_length]; omega,by rw [cut_length]; omega,R,S,hashType,?_,hintR,hintS⟩
    rw [signature_eq_cut,← htotal,← hR,← hS,UInt8.ofNat_toNat,UInt8.ofNat_toNat,UInt8.ofNat_toNat]
  · rintro ⟨hmin,hmax,R,S,hashType,rfl,hintR,hintS⟩
    rw [signature_length] at hmin hmax
    have hsize {n : ℕ} (hn : n ≤ 70) : (UInt8.ofNat n).toNat = n := by
      rw [UInt8.toNat_ofNat',Nat.mod_eq_of_lt (by omega)]
    rw [signature_eq_cut,isValidSignatureEncoding_cut (hsize (by omega)) (hsize (by omega)),
      Option.some.injEq] at hvalid
    rw [← hvalid,decide_eq_true_eq]
    exact ⟨by omega,by omega,rfl,hsize (by omega),rfl,hintR,rfl,hintS⟩

end SignatureEncoding
end Tkeycoin
