import Tkeycoin.ReadSizes

/-! The forms of a variable-length integer, and what is read where one of them begins a stream. -/
namespace Tkeycoin
namespace Unserialize

open Reader

/-- The bytes that stand for a number: itself, or a tag and as many bytes as it tells. -/
inductive Form (n : UInt64) : Bytes → Prop
  | byte (h : n.toNat < 253) : Form n [UInt8.ofNat n.toNat]
  | tagged (tag : UInt8) (width : ℕ) (htag : (tag,width) ∈ [(253,2),(254,4),(255,8)])
      (h : n.toNat < 256 ^ width) : Form n (tag :: leBytes width n.toNat)

theorem form_uintV (n : UInt64) : Form n (Serialization.uintV n) := by
  have hlt := n.toNat_lt
  rw [Serialization.uintV_eq]
  rcases Serialization.uintV_cases n with ⟨hn,htag,hrest⟩ | ⟨hn,htag,hrest⟩ | ⟨hn,htag,hrest⟩ | ⟨hn,htag,hrest⟩
  · have h : Serialization.uintVTag n = UInt8.ofNat n.toNat := by
      rw [← UInt8.toNat_inj,htag]
      simp
      omega
    rw [hrest,h]
    exact .byte hn
  · rw [hrest,(UInt8.toNat_inj (b := 253)).mp htag]
    exact .tagged 253 2 (by simp) hn.2
  · rw [hrest,(UInt8.toNat_inj (b := 254)).mp htag]
    exact .tagged 254 4 (by simp) hn.2
  · rw [hrest,(UInt8.toNat_inj (b := 255)).mp htag]
    exact .tagged 255 8 (by simp) hlt

theorem Form.eq_of_length {n : UInt64} {f g : Bytes} (hf : Form n f) (hg : Form n g)
    (h : f.length = g.length) : f = g := by
  cases hf with
  | byte _ =>
    cases hg with
    | byte _ => rfl
    | tagged tag width htag _ =>
      simp only [List.length_cons,List.length_nil,leBytes_length] at h
      simp only [List.mem_cons,Prod.mk.injEq,List.not_mem_nil,or_false] at htag
      omega
  | tagged tag width htag _ =>
    simp only [List.mem_cons,Prod.mk.injEq,List.not_mem_nil,or_false] at htag
    cases hg with
    | byte _ =>
      simp only [List.length_cons,List.length_nil,leBytes_length] at h
      omega
    | tagged tag' width' htag' _ =>
      simp only [List.length_cons,leBytes_length] at h
      simp only [List.mem_cons,Prod.mk.injEq,List.not_mem_nil,or_false] at htag'
      have hwidth : width = width' := by omega
      have hsame : tag = tag' := by
        rcases htag with ⟨rfl,rfl⟩ | ⟨rfl,rfl⟩ | ⟨rfl,rfl⟩ <;> grind
      rw [hwidth,hsame]

/-- What is written is the shortest form. -/
theorem uintV_shortest {n : UInt64} {form : Bytes} (h : Form n form) :
    (Serialization.uintV n).length ≤ form.length := by
  rw [uintV_length]
  cases h with
  | byte h => simp [h]
  | tagged tag width htag h =>
    simp only [List.mem_cons,Prod.mk.injEq,List.not_mem_nil,or_false] at htag
    simp only [List.length_cons,leBytes_length]
    rcases htag with ⟨-,rfl⟩ | ⟨-,rfl⟩ | ⟨-,rfl⟩ <;> split_ifs <;> omega

/-- A form is the one written exactly if no other is shorter. -/
theorem Form.eq_uintV_iff {n : UInt64} {form : Bytes} (h : Form n form) :
    form = Serialization.uintV n ↔ form.length = (Serialization.uintV n).length :=
  ⟨fun heq => by rw [heq],h.eq_of_length (form_uintV n)⟩

/-- What a stream that begins with a form of a number does. -/
inductive Decoded (l : Bytes) : Ending UInt64 → Prop
  | value (n : UInt64) (rest : Bytes) (h : l = Serialization.uintV n ++ rest) : Decoded l (.value n rest)
  | refused (n : UInt64) (form rest : Bytes) (hform : Form n form) (hlong : form ≠ Serialization.uintV n)
      (h : l = form ++ rest) : Decoded l .exception
  | short : Decoded l .short

/-- Behind a tag: as many bytes as it tells, which are refused where a shorter form would do. -/
theorem tagged_decoded {tag : UInt8} {width : ℕ} (htag : (tag,width) ∈ [(253,2),(254,4),(255,8)])
    (value : ℕ → UInt64) (refused : ℕ → Prop) [DecidablePred refused]
    (hvalue : ∀ v < 256 ^ width, (value v).toNat = v)
    (hrefused : ∀ v < 256 ^ width, refused v ↔ (Serialization.uintV (value v)).length ≠ 1+width)
    (rest : Bytes) : Decoded (tag :: rest) (scan (do
      let v ← number width
      if refused v then .throw else pure (value v)) rest) := by
  have hscan : scan (do
      let v ← number width
      if refused v then .throw else pure (value v)) rest =
      if width ≤ rest.length then scan (if refused (leValue (rest.take width)) then .throw
        else pure (value (leValue (rest.take width)))) (rest.drop width) else .short := rfl
  rw [hscan]
  by_cases hlen : width ≤ rest.length
  · have htake : (rest.take width).length = width := List.length_take_of_le hlen
    have hlt := leValue_lt (rest.take width)
    have hback := leBytes_leValue (rest.take width)
    rw [htake] at hlt hback
    have hform : Form (value (leValue (rest.take width))) (tag :: rest.take width) := by
      have h := Form.tagged (n := value (leValue (rest.take width))) tag width htag (by rwa [hvalue _ hlt])
      rwa [hvalue _ hlt,hback] at h
    have hsplit : tag :: rest = (tag :: rest.take width) ++ rest.drop width := by
      rw [List.cons_append,List.take_append_drop]
    have hwritten := hform.eq_uintV_iff
    rw [List.length_cons,htake] at hwritten
    have hcase := hrefused _ hlt
    rw [if_pos hlen]
    by_cases hr : refused (leValue (rest.take width))
    · rw [if_pos hr]
      refine .refused _ _ _ hform ?_ hsplit
      intro heq
      have := hwritten.mp heq
      exact hcase.mp hr (by omega)
    · rw [if_neg hr]
      have heq := hwritten.mpr (by have := not_not.mp (mt hcase.mpr hr); omega)
      exact .value _ _ (by rw [← heq]; exact hsplit)
  · rw [if_neg hlen]
    exact .short

theorem uintV_decoded (l : Bytes) : Decoded l (scan uintV l) := by
  cases l with
  | nil => exact .short
  | cons tag rest =>
    have hbyte : UInt8.ofNat (leValue [tag]) = tag := by simp [leValue]
    have hstart : scan uintV (tag :: rest) = scan (if tag < 253 then pure tag.toUInt64
        else if tag = 253 then do
          let value ← uint16
          if value < 253 then .throw else pure value.toUInt64
        else if tag = 254 then do
          let value ← uint32
          if value ≤ 0xffff then .throw else pure value.toUInt64
        else do
          let value ← uint64
          if value ≤ 0xffffffff then .throw else pure value) rest := by
      conv_rhs => rw [← hbyte]
      rfl
    have h16 : ∀ v < 256 ^ 2, (UInt16.ofNat v).toUInt64.toNat = v := by
      intro v hv
      rw [UInt16.toNat_toUInt64]
      exact UInt16.toNat_ofNat_of_lt' hv
    have h32 : ∀ v < 256 ^ 4, (UInt32.ofNat v).toUInt64.toNat = v := by
      intro v hv
      rw [UInt32.toNat_toUInt64]
      exact UInt32.toNat_ofNat_of_lt' hv
    have h64 : ∀ v < 256 ^ 8, (UInt64.ofNat v).toNat = v := fun v hv => UInt64.toNat_ofNat_of_lt' hv
    rw [hstart]
    by_cases h₁ : tag < 253
    · rw [if_pos h₁]
      have hlt : tag.toUInt64.toNat < 253 := by
        rw [UInt8.toNat_toUInt64]
        exact UInt8.lt_iff_toNat_lt.mp h₁
      have hform := Form.byte hlt
      rw [UInt8.toNat_toUInt64,UInt8.ofNat_toNat] at hform
      have hwritten := hform.eq_uintV_iff.mpr (by rw [uintV_length,if_pos hlt]; rfl)
      exact .value _ rest (by rw [← hwritten]; rfl)
    by_cases h₂ : tag = 253
    · rw [if_neg h₁,if_pos h₂,h₂]
      exact tagged_decoded (by simp) (fun v => (UInt16.ofNat v).toUInt64) (fun v => UInt16.ofNat v < 253) h16 (by
          intro v hv
          rw [uintV_length,h16 v hv,UInt16.lt_iff_toNat_lt,UInt16.toNat_ofNat_of_lt' hv]
          change v < 253 ↔ _
          split_ifs <;> omega) rest
    by_cases h₃ : tag = 254
    · rw [if_neg h₁,if_neg h₂,if_pos h₃,h₃]
      exact tagged_decoded (by simp) (fun v => (UInt32.ofNat v).toUInt64) (fun v => UInt32.ofNat v ≤ 0xffff) h32 (by
          intro v hv
          rw [uintV_length,h32 v hv,UInt32.le_iff_toNat_le,UInt32.toNat_ofNat_of_lt' hv]
          change v ≤ 65535 ↔ _
          split_ifs <;> omega) rest
    · have h255 : tag = 255 := by
        have hlt := tag.toNat_lt
        rw [UInt8.lt_iff_toNat_lt] at h₁
        rw [← UInt8.toNat_inj] at h₂ h₃ ⊢
        change ¬tag.toNat < 253 at h₁
        change ¬tag.toNat = 253 at h₂
        change ¬tag.toNat = 254 at h₃
        change tag.toNat = 255
        omega
      rw [if_neg h₁,if_neg h₂,if_neg h₃,h255]
      exact tagged_decoded (by simp) UInt64.ofNat (fun v => UInt64.ofNat v ≤ 0xffffffff) h64 (by
          intro v hv
          rw [uintV_length,h64 v hv,UInt64.le_iff_toNat_le,h64 v hv]
          change v ≤ 4294967295 ↔ _
          split_ifs <;> omega) rest

/-- The codec of variable-length integers. What is written is read back, whatever follows it, and is the
shortest form; its length goes by the width of the number. Every stream begins with what is written for
some number and gives this number, or it begins with a longer form and `std::ios_base::failure` is thrown,
or it is too short and its state says so unless the exception is thrown. -/
theorem uintV_codec (n : UInt64) (l : Bytes) (memory : ℕ → UInt8) (unset : ℕ) :
    (∀ rest, run memory uintV ⟨Serialization.uintV n ++ rest,false,unset⟩ = some (n,⟨rest,false,unset⟩)) ∧
    (Serialization.uintV n).length =
      (if n.toNat < 253 then 1 else if n.toNat ≤ 0xffff then 3 else if n.toNat ≤ 0xffffffff then 5 else 9) ∧
    (∀ form, Form n form → (Serialization.uintV n).length ≤ form.length ∧
      (form.length = (Serialization.uintV n).length → form = Serialization.uintV n)) ∧
    ((∃ m rest, l = Serialization.uintV m ++ rest ∧
        run memory uintV ⟨l,false,unset⟩ = some (m,⟨rest,false,unset⟩)) ∨
      (∃ m form rest, Form m form ∧ form ≠ Serialization.uintV m ∧ l = form ++ rest ∧
        run memory uintV ⟨l,false,unset⟩ = none) ∨
      ∀ m t, run memory uintV ⟨l,false,unset⟩ = some (m,t) → t.fail = true) := by
  refine ⟨fun rest => uintV_reads n memory rest unset,?_,
    fun form h => ⟨uintV_shortest h,h.eq_of_length (form_uintV n)⟩,?_⟩
  · rw [uintV_length]
    split_ifs <;> omega
  · have hrun := run_scan memory uintV l unset
    have hdecoded := uintV_decoded l
    generalize scan uintV l = ending at hrun hdecoded
    cases hdecoded with
    | value m rest h => exact .inl ⟨m,rest,h,hrun⟩
    | refused m form rest hform hlong h => exact .inr (.inl ⟨m,form,rest,hform,hlong,h,hrun⟩)
    | short => exact .inr (.inr hrun)

end Unserialize
end Tkeycoin
