import Tkeycoin.TransactionReading

/-! What is read of a stream is as long as what would be written for it. -/
namespace Tkeycoin
namespace Unserialize

open Reader

section Numbers

variable {memory : ℕ → UInt8} {s t : IStream}

theorem sizes_map {α β : Type} {p : Reader α} {code : α → Bytes} {code' : β → Bytes} (h : Sizes p code)
    (g : α → β) (hg : ∀ a, (code a).length = (code' (g a)).length) :
    Sizes (p >>= fun a => pure (g a)) code' := by
  intro memory s t b hb
  obtain ⟨a,s₁,ha,hpure⟩ := run_bind_some.mp hb
  obtain ⟨rfl,-⟩ := run_pure_some.mp hpure
  rw [cost_bind ha,h _ _ _ _ ha,hg]
  rfl

theorem number_sizes (width : ℕ) : Sizes (number width) (leBytes width) := by
  intro memory s t n h
  obtain ⟨b,s₁,hb,-⟩ := run_bind_some.mp h
  rw [number,cost_bind hb,leBytes_length]
  rfl

theorem uint8_sizes : Sizes uint8 Serialization.uint8 :=
  sizes_map (number_sizes 1) UInt8.ofNat fun _ => leBytes_length _ _

theorem uint16_sizes : Sizes uint16 Serialization.uint16 :=
  sizes_map (number_sizes 2) UInt16.ofNat fun _ => by rw [Serialization.uint16,leBytes_length,leBytes_length]

theorem uint32_sizes : Sizes uint32 Serialization.uint32 :=
  sizes_map (number_sizes 4) UInt32.ofNat fun _ => by rw [Serialization.uint32,leBytes_length,leBytes_length]

theorem uint64_sizes : Sizes uint64 Serialization.uint64 :=
  sizes_map (number_sizes 8) UInt64.ofNat fun _ => by rw [Serialization.uint64,leBytes_length,leBytes_length]

theorem int32_sizes : Sizes int32 Serialization.int32 :=
  sizes_map uint32_sizes UInt32.toInt32 fun _ => rfl

theorem int64_sizes : Sizes int64 Serialization.int64 :=
  sizes_map uint64_sizes UInt64.toInt64 fun _ => rfl

theorem blob_sizes (BITS : ℕ) : Sizes (blob BITS) Serialization.blob := by
  intro memory s t b h
  obtain ⟨l,s₁,hl,hpure⟩ := run_bind_some.mp h
  have hcost := Sizes.read _ _ _ _ _ hl
  split_ifs at hpure with hlen
  · obtain ⟨rfl,-⟩ := run_pure_some.mp hpure
    rw [blob,cost_bind hl,dif_pos hlen]
    exact hcost
  · contradiction

theorem uintV_length (n : UInt64) : (Serialization.uintV n).length =
    if n.toNat < 253 then 1 else if n.toNat < 256 ^ 2 then 3 else if n.toNat < 256 ^ 4 then 5 else 9 := by
  rw [Serialization.uintV_eq,List.length_cons]
  rcases Serialization.uintV_cases n with ⟨hn,-,hrest⟩ | ⟨hn,-,hrest⟩ | ⟨hn,-,hrest⟩ | ⟨hn,-,hrest⟩ <;>
    rw [hrest,leBytes_length] <;> split_ifs <;> omega

/-- A number behind its tag, which throws where a shorter form would do. -/
theorem tagged_sizes {α : Type} {p : Reader α} {code : α → Bytes} {refused : α → Prop}
    [DecidablePred refused] {value : α → UInt64} (h : Sizes p code)
    (hlen : ∀ a, ¬ refused a → 1 + (code a).length = (Serialization.uintV (value a)).length) {n : UInt64}
    (hn : run memory (p >>= fun a => if refused a then .throw else pure (value a)) s = some (n,t)) :
    1 + cost memory (p >>= fun a => if refused a then .throw else pure (value a)) s =
      (Serialization.uintV n).length := by
  obtain ⟨a,s₁,ha,hrest⟩ := run_bind_some.mp hn
  rw [cost_bind ha,h _ _ _ _ ha]
  by_cases hrefused : refused a
  · rw [if_pos hrefused] at hrest
    contradiction
  · rw [if_neg hrefused] at hrest ⊢
    obtain ⟨rfl,-⟩ := run_pure_some.mp hrest
    exact hlen a hrefused

theorem uintV_sizes : Sizes uintV Serialization.uintV := by
  intro memory s t n h
  obtain ⟨size,s₁,hsize,hrest⟩ := run_bind_some.mp h
  rw [uintV,cost_bind hsize,uint8_sizes _ _ _ _ hsize]
  change 1 + _ = _
  split_ifs at hrest ⊢ with h₁ h₂ h₃
  · obtain ⟨rfl,-⟩ := run_pure_some.mp hrest
    rw [UInt8.lt_iff_toNat_lt] at h₁
    change size.toNat < 253 at h₁
    rw [uintV_length,UInt8.toNat_toUInt64,if_pos h₁]
    rfl
  · refine tagged_sizes uint16_sizes (fun value hvalue => ?_) hrest
    have hlt := value.toNat_lt
    rw [UInt16.lt_iff_toNat_lt] at hvalue
    change ¬ value.toNat < 253 at hvalue
    rw [uintV_length,UInt16.toNat_toUInt64,if_neg hvalue,if_pos (by omega)]
    rfl
  · refine tagged_sizes uint32_sizes (fun value hvalue => ?_) hrest
    have hlt := value.toNat_lt
    rw [UInt32.le_iff_toNat_le] at hvalue
    change ¬ value.toNat ≤ 0xffff at hvalue
    rw [uintV_length,UInt32.toNat_toUInt64,if_neg (by omega),if_neg (by omega),if_pos (by omega)]
    rfl
  · refine tagged_sizes uint64_sizes (fun value hvalue => ?_) hrest
    rw [UInt64.le_iff_toNat_le] at hvalue
    change ¬ value.toNat ≤ 0xffffffff at hvalue
    rw [uintV_length,if_neg (by omega),if_neg (by omega),if_neg (by omega)]
    rfl

end Numbers

section Vectors

variable {fits : ℕ → Bool} {memory : ℕ → UInt8} {s t : IStream}

theorem allocate_run {size : UInt64} {count : ℕ}
    (h : run memory (allocate fits size) s = some (count,t)) :
    count = size.toNat ∧ fits count = true ∧ t = s ∧ cost memory (allocate fits size) s = 0 := by
  unfold allocate at h ⊢
  split_ifs at h ⊢ with hfits
  · obtain ⟨rfl,rfl⟩ := run_pure_some.mp h
    exact ⟨rfl,hfits,rfl,rfl⟩
  · contradiction

/-- A vector is as long as its size says, and there was room for it. -/
theorem sizeAnd_sized {α : Type} {p : Reader α} {l : List α}
    (h : run memory (sizeAnd fits p) s = some (l,t)) : Sized fits l.length := by
  obtain ⟨size,s₁,-,hcount⟩ := run_bind_some.mp h
  obtain ⟨count,s₂,hallocate,htimes⟩ := run_bind_some.mp hcount
  obtain ⟨rfl,hfits,-,-⟩ := allocate_run hallocate
  obtain ⟨hlen,-⟩ := forall_times (P := fun _ => True) (fun _ _ _ _ => trivial) htimes
  rw [hlen]
  exact ⟨size.toNat_lt,hfits⟩

theorem sizeAnd_sizes {α : Type} {p : Reader α} {code : α → Bytes} (h : Sizes p code) :
    Sizes (sizeAnd fits p) fun l => Serialization.uintV (UInt64.ofNat l.length) ++ l.flatMap code := by
  intro memory s t l hl
  obtain ⟨size,s₁,hsize,hcount⟩ := run_bind_some.mp hl
  obtain ⟨count,s₂,hallocate,htimes⟩ := run_bind_some.mp hcount
  obtain ⟨rfl,-,rfl,hzero⟩ := allocate_run hallocate
  obtain ⟨hlen,-⟩ := forall_times (P := fun _ => True) (fun _ _ _ _ => trivial) htimes
  rw [sizeAnd,cost_bind hsize,cost_bind hallocate,hzero,uintV_sizes _ _ _ _ hsize,
    Sizes.times h _ _ _ _ _ htimes]
  dsimp only
  rw [hlen,UInt64.ofNat_toNat,List.length_append,Nat.zero_add]

theorem sizeAndBytes_sizes : Sizes (sizeAndBytes fits) Serialization.sizeAnd := by
  intro memory s t b h
  obtain ⟨size,s₁,hsize,hcount⟩ := run_bind_some.mp h
  obtain ⟨count,s₂,hallocate,hbytes⟩ := run_bind_some.mp hcount
  obtain ⟨rfl,-,rfl,hzero⟩ := allocate_run hallocate
  obtain ⟨l,s₃,hl,hpure⟩ := run_bind_some.mp hbytes
  have hcost := Sizes.read _ _ _ _ _ hl
  have hlen : l.length = size.toNat := by
    rw [← hcost]
    rfl
  split_ifs at hpure with hlt
  · obtain ⟨rfl,-⟩ := run_pure_some.mp hpure
    rw [sizeAndBytes,cost_bind hsize,cost_bind hallocate,cost_bind hl,dif_pos hlt,hzero,
      uintV_sizes _ _ _ _ hsize,Serialization.sizeAnd,hlen,UInt64.ofNat_toNat,List.length_append,
      Nat.zero_add,← hcost]
    rfl
  · contradiction

theorem txOutPoint_sizes : Sizes txOutPoint TxOutPoint.serialize := by
  intro memory s t o h
  obtain ⟨hash,s₁,hhash,h₁⟩ := run_bind_some.mp h
  obtain ⟨index,s₂,hindex,hpure⟩ := run_bind_some.mp h₁
  obtain ⟨rfl,-⟩ := run_pure_some.mp hpure
  rw [txOutPoint,cost_bind hhash,cost_bind hindex,blob_sizes 256 _ _ _ _ hhash,uint32_sizes _ _ _ _ hindex,
    TxOutPoint.serialize,List.length_append]
  rfl

theorem txOut_sizes : Sizes (txOut fits) TxOut.serialize := by
  intro memory s t o h
  obtain ⟨value,s₁,hvalue,h₁⟩ := run_bind_some.mp h
  obtain ⟨script,s₂,hscript,hpure⟩ := run_bind_some.mp h₁
  obtain ⟨rfl,-⟩ := run_pure_some.mp hpure
  rw [txOut,cost_bind hvalue,cost_bind hscript,int64_sizes _ _ _ _ hvalue,sizeAndBytes_sizes _ _ _ _ hscript,
    TxOut.serialize,List.length_append]
  rfl

theorem txIn_sizes : Sizes (txIn fits) TxIn.serialize := by
  intro memory s t i h
  obtain ⟨prevOut,s₁,hprevOut,h₁⟩ := run_bind_some.mp h
  obtain ⟨script,s₂,hscript,h₂⟩ := run_bind_some.mp h₁
  obtain ⟨sequence,s₃,hsequence,hpure⟩ := run_bind_some.mp h₂
  obtain ⟨rfl,-⟩ := run_pure_some.mp hpure
  rw [txIn,cost_bind hprevOut,cost_bind hscript,cost_bind hsequence,txOutPoint_sizes _ _ _ _ hprevOut,
    sizeAndBytes_sizes _ _ _ _ hscript,uint32_sizes _ _ _ _ hsequence,TxIn.serialize,List.append_assoc,
    List.length_append,List.length_append]
  rfl

theorem txWitness_sizes : Sizes (txWitness fits) TxWitness.serialize := by
  intro memory s t w h
  have hempty := txWitness_empty h
  obtain ⟨l,s₁,hl,hpure⟩ := run_bind_some.mp h
  obtain ⟨rfl,-⟩ := run_pure_some.mp hpure
  have hnone : Sizes (do let _ ← bytes 0; pure ByteVector.empty) (Subtype.val : ByteVector → Bytes) := by
    intro memory s t e he
    obtain ⟨b,s₁,hb,hpure⟩ := run_bind_some.mp he
    obtain ⟨rfl,-⟩ := run_pure_some.mp hpure
    rw [cost_bind hb]
    rfl
  rw [txWitness,cost_bind hl,sizeAnd_sizes hnone _ _ _ _ hl]
  rfl

theorem witnesses_sizes (flag : Option UInt16) (ins : List TxIn) : Sizes (witnesses fits flag ins) fun l =>
    match flag with
    | some _ => l.flatMap fun txIn => txIn._scriptWitness.serialize
    | none => [] := by
  cases flag with
  | none =>
    intro memory s t l _
    rfl
  | some flag =>
    have heach (i : TxIn) : Sizes (do pure { i with _scriptWitness := (← txWitness fits) })
        (fun txIn : TxIn => txIn._scriptWitness.serialize) := sizes_map txWitness_sizes _ fun _ => rfl
    exact Sizes.forEach heach ins

/-- Witnesses change nothing else in the inputs. -/
theorem witnesses_bare {flag : Option UInt16} {ins ins' : List TxIn}
    (h : run memory (witnesses fits flag ins) s = some (ins',t)) : ins'.map bare = ins.map bare := by
  cases flag with
  | none =>
    obtain ⟨rfl,-⟩ := run_pure_some.mp h
    rfl
  | some flag =>
    have hall := forall_forEach (R := fun i i' : TxIn => bare i = bare i') (fun i s i' t hi => by
      obtain ⟨w,s₁,-,hpure⟩ := run_bind_some.mp hi
      obtain ⟨rfl,-⟩ := run_pure_some.mp hpure
      rfl) h
    have heq : List.Forall₂ Eq (ins.map bare) (ins'.map bare) :=
      List.forall₂_map_left_iff.mpr (List.forall₂_map_right_iff.mpr hall)
    rw [List.forall₂_eq_eq_eq] at heq
    exact heq.symm

theorem peekFlag_sizes : Sizes peekFlag fun flag => match flag with
    | some flag => Serialization.uint16 flag
    | none => [] := by
  intro memory s t flag h
  have hpeek : cost memory peekFlag s = cost memory
      (if s.peek = some 0 then do pure (some (← uint16)) else pure none : Reader (Option UInt16)) s := rfl
  change run memory (if s.peek = some 0 then do pure (some (← uint16)) else pure none) s = _ at h
  rw [hpeek]
  split_ifs at h ⊢
  · obtain ⟨value,s₁,hvalue,hpure⟩ := run_bind_some.mp h
    obtain ⟨rfl,-⟩ := run_pure_some.mp hpure
    rw [cost_bind hvalue,uint16_sizes _ _ _ _ hvalue]
    rfl
  · obtain ⟨rfl,-⟩ := run_pure_some.mp h
    rfl

theorem transaction_sizes : Sizes (transaction fits) Transaction.serialize := by
  intro memory s t tx h
  rw [transaction_eq] at h ⊢
  obtain ⟨version,s₁,hversion,h₁⟩ := run_bind_some.mp h
  obtain ⟨flag,s₂,hflag,h₂⟩ := run_bind_some.mp h₁
  obtain ⟨ins,s₃,hins,h₃⟩ := run_bind_some.mp h₂
  obtain ⟨outs,s₄,houts,h₄⟩ := run_bind_some.mp h₃
  obtain ⟨ins',s₅,hins',h₅⟩ := run_bind_some.mp h₄
  obtain ⟨src,s₆,hsrc,h₆⟩ := run_bind_some.mp h₅
  obtain ⟨dst,s₇,hdst,h₇⟩ := run_bind_some.mp h₆
  obtain ⟨lock,s₈,hlock,hpure⟩ := run_bind_some.mp h₇
  obtain ⟨rfl,-⟩ := run_pure_some.mp hpure
  rw [cost_bind hversion,cost_bind hflag,behindFlag,cost_bind hins,cost_bind houts,behindOutputs,
    cost_bind hins',cost_bind hsrc,cost_bind hdst,cost_bind hlock,int32_sizes _ _ _ _ hversion,
    peekFlag_sizes _ _ _ _ hflag,sizeAnd_sizes txIn_sizes _ _ _ _ hins,
    sizeAnd_sizes txOut_sizes _ _ _ _ houts,witnesses_sizes _ _ _ _ _ _ hins',
    uint32_sizes _ _ _ _ hsrc,uint32_sizes _ _ _ _ hdst,uint32_sizes _ _ _ _ hlock]
  have hbare := witnesses_bare hins'
  have hlen : ins'.length = ins.length := by simpa using congrArg List.length hbare
  have hflat : ins.flatMap TxIn.serialize = ins'.flatMap TxIn.serialize := by
    have hbytes := congrArg (List.flatMap TxIn.serialize) hbare.symm
    rwa [List.flatMap_map,List.flatMap_map] at hbytes
  dsimp only
  rw [hflat,← hlen]
  simp only [Transaction.serialize,List.length_append,Nat.add_assoc]
  rfl

end Vectors

section Served

variable {fits : ℕ → Bool} {memory : ℕ → UInt8} {s t : IStream}

/-- Bytes that are there are read from the front. -/
theorem number_served {width n : ℕ} (h : run memory (number width) s = some (n,t)) (hs : s.fail = false)
    (ht : t.fail = false) : ∃ l, l.length = width ∧ s.rest = l ++ t.rest ∧ n = leValue l := by
  obtain ⟨l,s₁,hl,hpure⟩ := run_bind_some.mp h
  obtain ⟨rfl,rfl⟩ := run_pure_some.mp hpure
  obtain ⟨rfl,rfl⟩ := Prod.mk.inj (Option.some.inj hl)
  have hnot : ¬ s.fail = true := by simp [hs]
  unfold IStream.read at ht ⊢
  rw [if_neg hnot] at ht ⊢
  split_ifs at ht ⊢ with hle
  · exact ⟨_,List.length_take_of_le hle,(List.take_append_drop _ _).symm,rfl⟩

theorem uint8_served {n : UInt8} (h : run memory uint8 s = some (n,t)) (hs : s.fail = false)
    (ht : t.fail = false) : s.peek = some n := by
  obtain ⟨value,s₁,hvalue,hpure⟩ := run_bind_some.mp h
  obtain ⟨rfl,rfl⟩ := run_pure_some.mp hpure
  obtain ⟨l,hlen,hrest,rfl⟩ := number_served hvalue hs ht
  obtain ⟨b,rfl⟩ := List.length_eq_one_iff.mp hlen
  rw [IStream.peek,hs,hrest]
  simp [leValue]

theorem uint16_served {n : UInt16} (h : run memory uint16 s = some (n,t)) (hs : s.fail = false)
    (ht : t.fail = false) : s.peek = some n.toUInt8 := by
  obtain ⟨value,s₁,hvalue,hpure⟩ := run_bind_some.mp h
  obtain ⟨rfl,rfl⟩ := run_pure_some.mp hpure
  obtain ⟨l,hlen,hrest,rfl⟩ := number_served hvalue hs ht
  obtain ⟨b,c,rfl⟩ := List.length_eq_two.mp hlen
  have hlow : (UInt16.ofNat (leValue [b,c])).toUInt8 = b := by
    have hb := b.toNat_lt
    rw [← UInt8.toNat_inj,UInt16.toNat_toUInt8,UInt16.toNat_ofNat']
    simp only [leValue]
    omega
  rw [IStream.peek,hs,hrest,hlow]
  rfl

/-- A zero does not come behind a tag. -/
theorem tagged_ne_zero {α : Type} {p : Reader α} {refused : α → Prop} [DecidablePred refused]
    {value : α → UInt64} (h : ∀ a, value a = 0 → refused a) :
    run memory (p >>= fun a => if refused a then .throw else pure (value a)) s ≠ some (0,t) := by
  intro hzero
  obtain ⟨a,s₁,ha,hrest⟩ := run_bind_some.mp hzero
  split_ifs at hrest with hrefused
  · contradiction
  · obtain ⟨heq,-⟩ := run_pure_some.mp hrest
    exact hrefused (h a heq)

/-- A zero is one byte. -/
theorem uintV_zero (h : run memory uintV s = some (0,t)) (hs : s.fail = false) (ht : t.fail = false) :
    s.peek = some 0 := by
  obtain ⟨size,s₁,hsize,hrest⟩ := run_bind_some.mp h
  split_ifs at hrest with h₁ h₂ h₃
  · obtain ⟨hzero,rfl⟩ := run_pure_some.mp hrest
    rw [uint8_served hsize hs ht]
    have hnat := congrArg UInt64.toNat hzero
    rw [UInt8.toNat_toUInt64] at hnat
    exact congrArg some (UInt8.toNat_inj.mp hnat)
  · refine absurd hrest (tagged_ne_zero fun value hvalue => ?_)
    have hnat := congrArg UInt64.toNat hvalue
    rw [UInt16.toNat_toUInt64] at hnat
    obtain rfl : value = 0 := UInt16.toNat_inj.mp hnat
    decide
  · refine absurd hrest (tagged_ne_zero fun value hvalue => ?_)
    have hnat := congrArg UInt64.toNat hvalue
    rw [UInt32.toNat_toUInt64] at hnat
    obtain rfl : value = 0 := UInt32.toNat_inj.mp hnat
    decide
  · refine absurd hrest (tagged_ne_zero fun value hvalue => ?_)
    rw [hvalue]
    decide

/-- The flag that was read, and whether there is an input. -/
theorem peekFlag_served {flag : Option UInt16} {ins : List TxIn} {u : IStream}
    (h : run memory peekFlag s = some (flag,t)) (hins : run memory (sizeAnd fits (txIn fits)) t = some (ins,u))
    (hs : s.fail = false) (hu : u.fail = false) : match flag with
      | some flag => flag.toUInt8 = 0
      | none => ins ≠ [] := by
  have ht := not_fail_of_run hins hu
  change run memory (if s.peek = some 0 then do pure (some (← uint16)) else pure none) s = _ at h
  split_ifs at h with hpeek
  · obtain ⟨value,s₁,hvalue,hpure⟩ := run_bind_some.mp h
    obtain ⟨rfl,rfl⟩ := run_pure_some.mp hpure
    have hlow := uint16_served hvalue hs ht
    rw [hpeek] at hlow
    exact (Option.some.inj hlow).symm
  · obtain ⟨rfl,rfl⟩ := run_pure_some.mp h
    rintro rfl
    obtain ⟨size,s₁,hsize,hcount⟩ := run_bind_some.mp hins
    obtain ⟨count,s₂,hallocate,htimes⟩ := run_bind_some.mp hcount
    obtain ⟨rfl,-,rfl,-⟩ := allocate_run hallocate
    obtain ⟨hlen,-⟩ := forall_times (P := fun _ => True) (fun _ _ _ _ => trivial) htimes
    obtain rfl : size = 0 := UInt64.toNat_inj.mp hlen.symm
    exact hpeek (uintV_zero hsize hs (not_fail_of_run htimes hu))

theorem sizeAndBytes_fits {b : ByteVector} (h : run memory (sizeAndBytes fits) s = some (b,t)) :
    fits b.1.length = true := by
  obtain ⟨size,s₁,-,hcount⟩ := run_bind_some.mp h
  obtain ⟨count,s₂,hallocate,hbytes⟩ := run_bind_some.mp hcount
  obtain ⟨rfl,hfits,-,-⟩ := allocate_run hallocate
  obtain ⟨l,s₃,hl,hpure⟩ := run_bind_some.mp hbytes
  split_ifs at hpure with hlt
  · obtain ⟨rfl,-⟩ := run_pure_some.mp hpure
    obtain ⟨rfl,-⟩ := Prod.mk.inj (Option.some.inj hl)
    rw [read_length]
    exact hfits
  · contradiction

theorem txIn_served {i : TxIn} (h : run memory (txIn fits) s = some (i,t)) :
    fits i._sigScript.1.length = true ∧ i._scriptWitness._stack = [] := by
  obtain ⟨prevOut,s₁,-,h₁⟩ := run_bind_some.mp h
  obtain ⟨script,s₂,hscript,h₂⟩ := run_bind_some.mp h₁
  obtain ⟨sequence,s₃,-,hpure⟩ := run_bind_some.mp h₂
  obtain ⟨rfl,-⟩ := run_pure_some.mp hpure
  exact ⟨sizeAndBytes_fits hscript,rfl⟩

theorem txOut_served {o : TxOut} (h : run memory (txOut fits) s = some (o,t)) :
    fits o._keyScript.1.length = true := by
  obtain ⟨value,s₁,-,h₁⟩ := run_bind_some.mp h
  obtain ⟨script,s₂,hscript,hpure⟩ := run_bind_some.mp h₁
  obtain ⟨rfl,-⟩ := run_pure_some.mp hpure
  exact sizeAndBytes_fits hscript

theorem witnesses_served {flag : Option UInt16} {ins ins' : List TxIn}
    (hins : ∀ i ∈ ins, i._scriptWitness._stack = [])
    (h : run memory (witnesses fits flag ins) s = some (ins',t)) : match flag with
      | some _ => ∀ i ∈ ins', ReadableWitness fits i._scriptWitness
      | none => ∀ i ∈ ins', i._scriptWitness._stack = [] := by
  cases flag with
  | none =>
    obtain ⟨rfl,-⟩ := run_pure_some.mp h
    exact hins
  | some flag =>
    have hall := forall_forEach (R := fun _ i' : TxIn => ReadableWitness fits i'._scriptWitness)
      (fun i s i' t hi => by
        obtain ⟨w,s₁,hw,hpure⟩ := run_bind_some.mp hi
        obtain ⟨rfl,-⟩ := run_pure_some.mp hpure
        refine ⟨txWitness_empty hw,?_⟩
        obtain ⟨l,s₂,hl,hpure'⟩ := run_bind_some.mp hw
        obtain ⟨rfl,-⟩ := run_pure_some.mp hpure'
        exact sizeAnd_sized hl) h
    intro i hi
    obtain ⟨k,hk,rfl⟩ := List.mem_iff_getElem.mp hi
    exact hall.get (by rw [hall.length_eq]; exact hk) hk

/-- Only what would be read back is read of a stream that is long enough. -/
theorem transaction_served {tx : Transaction} (h : run memory (transaction fits) s = some (tx,t))
    (_ : s.fail = false) (ht : t.fail = false) : Readable fits tx := by
  rw [transaction_eq] at h
  obtain ⟨version,s₁,hversion,h₁⟩ := run_bind_some.mp h
  obtain ⟨flag,s₂,hflag,h₂⟩ := run_bind_some.mp h₁
  obtain ⟨ins,s₃,hins,h₃⟩ := run_bind_some.mp h₂
  obtain ⟨outs,s₄,houts,h₄⟩ := run_bind_some.mp h₃
  obtain ⟨ins',s₅,hins',h₅⟩ := run_bind_some.mp h₄
  obtain ⟨src,s₆,hsrc,h₆⟩ := run_bind_some.mp h₅
  obtain ⟨dst,s₇,hdst,h₇⟩ := run_bind_some.mp h₆
  obtain ⟨lock,s₈,hlock,hpure⟩ := run_bind_some.mp h₇
  obtain ⟨rfl,-⟩ := run_pure_some.mp hpure
  have hs₄ := not_fail_of_run h₄ ht
  have hs₃ := not_fail_of_run houts hs₄
  have hs₁ := not_fail_of_run h₁ ht
  have hpeek := peekFlag_served hflag hins hs₁ hs₃
  have hread := forall_sizeAnd (fun _ _ _ hi => txIn_served hi) hins
  have hbare := witnesses_bare hins'
  have hlen : ins'.length = ins.length := by simpa using congrArg List.length hbare
  refine ⟨?_,⟨?_,?_,sizeAnd_sized houts,forall_sizeAnd (fun _ _ _ ho => txOut_served ho) houts⟩,?_⟩
  · cases flag with
    | some flag => exact hpeek
    | none =>
      rintro rfl
      exact hpeek (List.length_eq_zero_iff.mp hlen.symm)
  · rw [hlen]
    exact sizeAnd_sized hins
  · intro i hi
    have hmem : bare i ∈ ins.map bare := hbare ▸ List.mem_map_of_mem hi
    obtain ⟨j,hj,heq⟩ := List.mem_map.mp hmem
    have hscript : (bare j)._sigScript = (bare i)._sigScript := congrArg TxIn._sigScript heq
    change fits (bare i)._sigScript.1.length = true
    rw [← hscript]
    exact (hread j hj).1
  · have hwitness := witnesses_served (fun i hi => (hread i hi).2) hins'
    cases flag <;> exact hwitness

/-- A list of transactions in whatever order comes back of its bytes in the order it was written,
and only if each of its transactions is read back. -/
theorem transactions_served {l m : List Transaction} {unset : ℕ} (hperm : l.Perm m)
    (h : run memory ((transaction fits).times m.length) ⟨m.flatMap Transaction.serialize,false,unset⟩ =
      some (l,t)) : l = m ∧ ∀ tx ∈ m, Readable fits tx := by
  have hcost := Sizes.times transaction_sizes _ _ _ _ _ h
  have hlen : (l.flatMap Transaction.serialize).length = (m.flatMap Transaction.serialize).length :=
    (hperm.flatMap_right _).length_eq
  obtain ⟨ht,-⟩ := run_served h rfl (by rw [hcost,hlen])
  have hreadable (tx : Transaction) (htx : tx ∈ m) : Readable fits tx :=
    forall_times_served (fun _ _ _ => transaction_served) h rfl ht tx (hperm.mem_iff.mpr htx)
  have hreads := times_reads fun tx htx => transaction_reads (hreadable tx htx)
  have hback := hreads memory [] unset
  rw [List.append_nil,h,List.map_id'] at hback
  exact ⟨(Prod.mk.inj (Option.some.inj hback)).1,hreadable⟩

end Served

section RoundTrip

variable {fits : ℕ → Bool} {memory : ℕ → UInt8} {tx tx' : Transaction}

/-- All that was written of a transaction is read again, and as that transaction. -/
def RoundTrips (fits : ℕ → Bool) (memory : ℕ → UInt8) (tx : Transaction) : Prop :=
  ∃ t, run memory (transaction fits) (.ofBytes tx.serialize) = some (tx,t) ∧ t.rest = []

theorem Readable.roundTrips (h : Readable fits tx) : RoundTrips fits memory tx := by
  have hread := transaction_reads h memory [] 0
  rw [List.append_nil] at hread
  exact ⟨_,hread,rfl⟩

/-- As much is asked for as was written, so no read fails. -/
theorem RoundTrips.readable (h : RoundTrips fits memory tx) : Readable fits tx := by
  obtain ⟨t,hrun,-⟩ := h
  have hcost := transaction_sizes memory _ _ _ hrun
  obtain ⟨hfail,-⟩ := run_served hrun rfl (le_of_eq hcost)
  exact transaction_served hrun rfl hfail

theorem RoundTrips.eq (h : RoundTrips fits memory tx) (h' : RoundTrips fits memory tx')
    (hbytes : tx.serialize = tx'.serialize) : tx = tx' := by
  obtain ⟨t,hrun,-⟩ := h
  obtain ⟨t',hrun',-⟩ := h'
  rw [hbytes,hrun'] at hrun
  exact (Prod.mk.inj (Option.some.inj hrun)).1.symm

/-- One input for each witness. -/
def witnessed (witnesses : List TxWitness) : Transaction :=
  ⟨1,some 0x0100,witnesses.map fun w => ⟨⟨⟨List.replicate 32 0,rfl⟩,0⟩,ByteVector.empty,0,w⟩,[],0,0,0⟩

/-- A witness of one element with one byte. -/
def oneByte (byte : UInt8) : TxWitness := ⟨[⟨[byte],Nat.one_lt_two_pow (by decide)⟩]⟩

end RoundTrip

end Unserialize
end Tkeycoin
