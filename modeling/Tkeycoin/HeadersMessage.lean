import Tkeycoin.Message
import Tkeycoin.ReadSizes

/-! The message of headers: it is written without the numbers of transactions that are read behind them. -/
namespace Tkeycoin
namespace Headers

open Reader

/-- `Headers::Serialize`. -/
def serialize (_headers : List BlockHeader) : Bytes :=
  Serialization.uintV (UInt64.ofNat _headers.length) ++ _headers.flatMap BlockHeader.serialize

/-- One turn of the loop in `Headers::Unserialize`. -/
def element : Reader BlockHeader := do
  let header ← Unserialize.blockHeader
  let _txCount ← Unserialize.uintV
  pure header

theorem blockHeader_length (h : BlockHeader) : h.serialize.length = 84 := by
  simp [BlockHeader.serialize,Serialization.uint32,Serialization.blob]

section Reading

variable {fits : ℕ → Bool} {memory : ℕ → UInt8} {s t : IStream}

theorem blockHeader_sizes : Sizes Unserialize.blockHeader BlockHeader.serialize := by
  intro memory s t h hrun
  obtain ⟨version,s₁,hversion,h₁⟩ := run_bind_some.mp hrun
  obtain ⟨prev,s₂,hprev,h₂⟩ := run_bind_some.mp h₁
  obtain ⟨merkle,s₃,hmerkle,h₃⟩ := run_bind_some.mp h₂
  obtain ⟨timestamp,s₄,htimestamp,h₄⟩ := run_bind_some.mp h₃
  obtain ⟨bits,s₅,hbits,h₅⟩ := run_bind_some.mp h₄
  obtain ⟨nonce,s₆,hnonce,h₆⟩ := run_bind_some.mp h₅
  obtain ⟨chain,s₇,hchain,hpure⟩ := run_bind_some.mp h₆
  rw [blockHeader_length,Unserialize.blockHeader,cost_bind hversion,cost_bind hprev,cost_bind hmerkle,
    cost_bind htimestamp,cost_bind hbits,cost_bind hnonce,cost_bind hchain]
  have hfour (n : UInt32) : (Serialization.uint32 n).length = 4 := leBytes_length 4 _
  have hblob (b : uint256) : (Serialization.blob b).length = 32 := b.toList_length
  rw [Unserialize.uint32_sizes _ _ _ _ hversion,Unserialize.blob_sizes 256 _ _ _ _ hprev,
    Unserialize.blob_sizes 256 _ _ _ _ hmerkle,Unserialize.uint32_sizes _ _ _ _ htimestamp,
    Unserialize.uint32_sizes _ _ _ _ hbits,Unserialize.uint32_sizes _ _ _ _ hnonce,
    Unserialize.uint32_sizes _ _ _ _ hchain]
  simp only [hfour,hblob]
  rfl

/-- A header and a number of transactions are longer than a header. -/
theorem element_cost {h : BlockHeader} (hrun : run memory element s = some (h,t)) :
    85 ≤ cost memory element s := by
  obtain ⟨header,s₁,hheader,hrest⟩ := run_bind_some.mp hrun
  obtain ⟨txCount,s₂,hcount,-⟩ := run_bind_some.mp hrest
  have hone := Unserialize.uintV_length txCount
  rw [element,cost_bind hheader,cost_bind hcount,blockHeader_sizes _ _ _ _ hheader,
    blockHeader_length,Unserialize.uintV_sizes _ _ _ _ hcount,hone]
  split_ifs
  all_goals omega

/-- No run on what is written for headers comes to an end without asking for more than is there. -/
theorem times_fails {l : List BlockHeader} (hl : l ≠ []) {u : ℕ} {l' : List BlockHeader}
    (hrun : run memory (element.times l.length) ⟨l.flatMap BlockHeader.serialize,false,u⟩ = some (l',t)) :
    t.fail = true := by
  by_contra hfail
  have hserved := cost_of_served hrun (by simpa using hfail)
  have hcost := le_cost_times (fun _ _ _ => element_cost) hrun
  have hlength : (l.flatMap BlockHeader.serialize).length = l.length * 84 := by
    simp [List.length_flatMap,blockHeader_length]
  have hpos := List.length_pos_iff.mpr hl
  dsimp only at hserved
  omega

theorem read_one (memory : ℕ → UInt8) (h : s.fail = true ∨ s.rest = []) :
    (s.read memory 1).1 = [memory s.unset] ∧ (s.read memory 1).2.fail = true ∧
      (s.read memory 1).2.unset = s.unset + 1 := by
  obtain ⟨rest,fail,unset⟩ := s
  cases fail with
  | true => exact ⟨rfl,rfl,rfl⟩
  | false =>
    obtain rfl : rest = [] := h.resolve_left nofun
    exact ⟨rfl,rfl,rfl⟩

/-- A number that is not there is refused if the variables that are not set make a longer form than needed. -/
theorem uintV_unset (h : s.fail = true ∨ s.rest = []) (htag : memory s.unset = 253)
    (hlow : memory (s.unset + 1) = 0) (hhigh : memory (s.unset + 2) = 0) :
    run memory Unserialize.uintV s = none := by
  obtain ⟨hbyte,hfail,hunset⟩ := read_one memory h
  rw [htag] at hbyte
  have hvalue : ((s.read memory 1).2.read memory 2).1 = [0,0] := by
    rw [IStream.read,if_pos hfail,IStream.unsetBytes,hunset]
    simp [List.range_succ,hlow,hhigh]
  have hsize : run memory Unserialize.uint8 s = some (253,(s.read memory 1).2) := by
    change some (UInt8.ofNat (leValue (s.read memory 1).1),(s.read memory 1).2) = _
    rw [hbyte]
    rfl
  have hshort : run memory Unserialize.uint16 (s.read memory 1).2 =
      some (0,((s.read memory 1).2.read memory 2).2) := by
    change some (UInt16.ofNat (leValue ((s.read memory 1).2.read memory 2).1),_) = _
    rw [hvalue]
    rfl
  rw [Unserialize.uintV,run_bind,hsize]
  change run memory (Unserialize.uint16 >>= _) _ = none
  rw [run_bind,hshort]
  rfl

/-- In front of the last number of transactions there is nothing left. -/
theorem last_header {n u : ℕ} {b : Bytes} (hb : b.length = (n+1) * 84) {l : List BlockHeader}
    {header : BlockHeader} (hothers : run memory (element.times n) ⟨b,false,u⟩ = some (l,s))
    (hheader : run memory Unserialize.blockHeader s = some (header,t)) : t.fail = true ∨ t.rest = [] := by
  by_cases hfail : t.fail = true
  · exact .inl hfail
  · have hboth : run memory (element.times n >>= fun _ => Unserialize.blockHeader) ⟨b,false,u⟩ =
        some (header,t) := run_bind_some.mpr ⟨l,s,hothers,hheader⟩
    have hserved := cost_of_served hboth (by simpa using hfail)
    have hcost := le_cost_times (fun _ _ _ => element_cost) hothers
    rw [cost_bind hothers,blockHeader_sizes _ _ _ _ hheader,blockHeader_length] at hserved
    dsimp only at hserved
    exact .inr (List.length_eq_zero_iff.mp (by omega))

/-- Zeros, and at one place the tag of a longer form. -/
def tagAt (place : ℕ) : ℕ → UInt8 := fun i => if i = place then 253 else 0

/-- For some contents of the variables that are not set there is an exception. -/
theorem times_throws {n u : ℕ} {b : Bytes} (hb : b.length = (n+1) * 84) :
    ∃ memory, run memory (element.times (n+1)) ⟨b,false,u⟩ = none := by
  cases hzero : run (fun _ => 0) (element.times (n+1)) ⟨b,false,u⟩ with
  | none => exact ⟨_,hzero⟩
  | some result =>
    obtain ⟨l,u₁,a,hothers,hlast⟩ := run_times_succ hzero
    obtain ⟨header,s₂,hheader,hcount⟩ := run_bind_some.mp hlast
    have hsame : ∀ i < s₂.unset, (0 : UInt8) = tagAt s₂.unset i := by
      intro i hi
      exact (if_neg (by omega)).symm
    have hle := unset_le_of_run hheader
    have hothers' := run_congr hothers fun i hi => hsame i (by omega)
    have hheader' := run_congr hheader hsame
    have hthrows : run (tagAt s₂.unset) Unserialize.uintV s₂ = none :=
      uintV_unset (last_header hb hothers hheader) (if_pos rfl) (if_neg (by omega)) (if_neg (by omega))
    refine ⟨tagAt s₂.unset,Option.eq_none_iff_forall_ne_some.mpr ?_⟩
    rintro ⟨l',t'⟩ hrun
    obtain ⟨l₁,v,a',hothers₁,hlast₁⟩ := run_times_succ hrun
    rw [hothers'] at hothers₁
    obtain ⟨-,rfl⟩ := Prod.mk.inj (Option.some.inj hothers₁)
    obtain ⟨header₁,v₁,hheader₁,hcount₁⟩ := run_bind_some.mp hlast₁
    rw [hheader'] at hheader₁
    obtain ⟨-,rfl⟩ := Prod.mk.inj (Option.some.inj hheader₁)
    obtain ⟨txCount,v₂,htxCount,-⟩ := run_bind_some.mp hcount₁
    rw [hthrows] at htxCount
    contradiction

/-- Behind their number the headers are read. -/
theorem headers_run {l : List BlockHeader} (h : Unserialize.Sized fits l.length) :
    run memory (Unserialize.headers fits) (.ofBytes (serialize l)) =
      run memory (element.times l.length) ⟨l.flatMap BlockHeader.serialize,false,0⟩ :=
  Unserialize.sized_run h memory _ 0

end Reading

/-- The round trip of a message of headers, for the contents that the variables have which are not set,
and for all of them. -/
theorem headers_back_iff (fits : ℕ → Bool) (l : List BlockHeader) (hsized : Unserialize.Sized fits l.length) :
    (∀ memory, (∃ t, run memory (Unserialize.headers fits) (.ofBytes (serialize l)) = some (l,t) ∧
        t.rest = [] ∧ t.fail = false) ↔ l = []) ∧
    ((∀ memory, ∃ t, run memory (Unserialize.headers fits) (.ofBytes (serialize l)) = some (l,t)) ↔
      l = []) := by
  simp only [headers_run hsized]
  refine ⟨fun memory => ⟨?_,?_⟩,?_,?_⟩
  · rintro ⟨t,hrun,-,hfail⟩
    by_contra hl
    have := times_fails hl hrun
    rw [hfail] at this
    contradiction
  · rintro rfl
    exact ⟨_,rfl,rfl,rfl⟩
  · intro hall
    by_contra hl
    obtain ⟨n,hn⟩ := Nat.exists_eq_succ_of_ne_zero (mt List.length_eq_zero_iff.mp hl)
    have hlength : (l.flatMap BlockHeader.serialize).length = (n+1) * 84 := by
      simp [List.length_flatMap,blockHeader_length,hn]
    obtain ⟨memory,hthrows⟩ := times_throws (u := 0) hlength
    obtain ⟨t,hrun⟩ := hall memory
    rw [hn,Nat.succ_eq_add_one,hthrows] at hrun
    contradiction
  · rintro rfl memory
    exact ⟨_,rfl⟩

/-- A message without headers comes back. -/
theorem headers_back_nil : ∃ t, run (fun _ => 0) (Unserialize.headers fun _ => true) (.ofBytes (serialize [])) =
    some ([],t) ∧ t.rest = [] ∧ t.fail = false :=
  ((headers_back_iff (fun _ => true) [] ⟨by decide,rfl⟩).1 _).mpr rfl

/-- Of two headers the second is read from its second byte on. -/
theorem second_header_lost : ¬∀ l : List BlockHeader, ∀ memory, ∃ t,
    run memory (Unserialize.headers fun _ => true) (.ofBytes (serialize l)) = some (l,t) ∧
      t.rest = [] ∧ t.fail = false := by
  intro h
  let first : BlockHeader := ⟨1,.replicate 32 0,.replicate 32 0,0,0,0,0⟩
  let second : BlockHeader := ⟨0x0201,.replicate 32 0,.replicate 32 0,0,0,0,0⟩
  obtain ⟨t,hrun,-⟩ := h [first,second] fun _ => 0
  have hversions : (run (fun _ => 0) (Unserialize.headers fun _ => true) (.ofBytes (serialize [first,second]))).map
      (fun r => r.1.map BlockHeader._version) = some [1,0x0201] := by
    rw [hrun]
    rfl
  exact absurd hversions (by decide +kernel)

end Headers
end Tkeycoin
