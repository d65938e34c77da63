import Tkeycoin.HashStream
import Tkeycoin.Message

/-! The command in a header: the name that is made of the field, and the field that a name is put into. -/
namespace Tkeycoin

/-- The name of a message, which fits into the field. -/
abbrev CommandName := {name : Bytes // 0 ∉ name ∧ name.length ≤ 12}

namespace MessageHeader

/-- `MessageHeader::Serialize`. -/
def serialize (h : MessageHeader) : Bytes :=
  Serialization.uint32 h._magic ++ (h._command ++
    (Serialization.uint32 h._length ++ Serialization.uint32 h._checksum))

/-- A header is read as it was written. -/
theorem Unserialize_serialize {h : MessageHeader} (hcommand : h._command.length = 12) (rest : Bytes) :
    Unserialize ((h.serialize ++ rest).take HEADER_SIZE) = h := by
  have hback (n : UInt32) : UInt32.ofNat (leValue (leBytes 4 n.toNat)) = n := by
    have hlt : n.toNat < 256 ^ 4 := n.toNat_lt
    rw [leValue_leBytes,Nat.mod_eq_of_lt hlt,UInt32.ofNat_toNat]
  have hlength : h.serialize.length = HEADER_SIZE := by
    simp [serialize,Serialization.uint32,hcommand,HEADER_SIZE]
  have htake : (h.serialize ++ rest).take HEADER_SIZE = h.serialize := by
    rw [← hlength,List.take_left]
  obtain ⟨magic,command,length,checksum⟩ := h
  rw [htake]
  simp only [serialize,Serialization.uint32] at hcommand ⊢
  generalize hm : leBytes 4 magic.toNat = m
  generalize hl : leBytes 4 length.toNat = l
  generalize hc : leBytes 4 checksum.toNat = c
  have hm' : m.length = 4 := by rw [← hm,leBytes_length]
  have hl' : l.length = 4 := by rw [← hl,leBytes_length]
  have hc' : c.length = 4 := by rw [← hc,leBytes_length]
  have h16 : (m ++ (command ++ (l ++ c))).drop 16 = l ++ c := by
    rw [← List.append_assoc]
    exact List.drop_left' (by simp [hm',hcommand])
  have h20 : (m ++ (command ++ (l ++ c))).drop 20 = c := by
    rw [← List.append_assoc,← List.append_assoc]
    exact List.drop_left' (by simp [hm',hl',hcommand])
  simp only [Unserialize,List.take_left' hm',List.drop_left' hm',List.take_left' hcommand,h16,h20,
    List.take_left' hl',List.take_of_length_le (le_of_eq hc')]
  rw [← hm,← hl,← hc,hback,hback,hback]

/-- The name and behind it NULs. -/
def padded (name : CommandName) : Bytes := name.1 ++ List.replicate (12 - name.1.length) 0

/-- No NUL stands in front of another character. -/
def Trailing (field : Bytes) : Prop := field.Pairwise fun c d => c = 0 → d = 0

theorem filter_padded (name : CommandName) : (padded name).filter (· ≠ 0) = name.1 := by
  have hname : name.1.filter (· ≠ 0) = name.1 := by
    apply List.filter_eq_self.mpr
    intro c hc
    have hne : c ≠ 0 := fun h => name.2.1 (h ▸ hc)
    simpa using hne
  rw [padded,List.filter_append,hname]
  simp

theorem padded_trailing (name : CommandName) : Trailing (padded name) := by
  apply List.pairwise_append.mpr
  refine ⟨?_,?_,fun c hc d hd _ => List.eq_of_mem_replicate hd⟩
  · apply List.pairwise_of_forall_mem_list
    intro c hc d _ hnul
    exact absurd (hnul ▸ hc) name.2.1
  · apply List.pairwise_of_forall_mem_list
    intro c _ d hd _
    exact List.eq_of_mem_replicate hd

/-- Behind the first NUL there are only NULs. -/
theorem Trailing.eq {field : Bytes} (h : Trailing field) :
    field = field.filter (· ≠ 0) ++ List.replicate (field.length - (field.filter (· ≠ 0)).length) 0 := by
  induction field with
  | nil => rfl
  | cons c field ih =>
    obtain ⟨hc,hfield⟩ := List.pairwise_cons.mp h
    by_cases hnul : c = 0
    · have hall : ∀ d ∈ c :: field, d = 0 := List.forall_mem_cons.mpr ⟨hnul,fun d hd => hc d hd hnul⟩
      have hnone : (c :: field).filter (· ≠ 0) = [] := by
        apply List.filter_eq_nil_iff.mpr
        intro d hd
        simpa using hall d hd
      rw [hnone]
      exact List.eq_replicate_of_mem hall
    · have hstep : (c :: field).filter (· ≠ 0) = c :: field.filter (· ≠ 0) :=
        List.filter_cons_of_pos (by simpa using hnul)
      rw [hstep]
      simp only [List.length_cons,Nat.add_sub_add_right,List.cons_append]
      exact congrArg (c :: ·) (ih hfield)

/-- A header that was made carries the name it was made with. -/
theorem make_command (magic : UInt32) (name : CommandName) (length : UInt64) (checksum : UInt32) :
    (make magic name.1 length checksum).command = name.1 :=
  filter_padded name

/-- The name that is made of a field of this size. -/
def carried (h : MessageHeader) (hcommand : h._command.length = 12) : CommandName :=
  ⟨h.command,by simp [command],hcommand ▸ List.length_filter_le _ _⟩

/-- A field is the padded name for every name it is taken for exactly if no NUL stands within it. -/
theorem carries_iff {h : MessageHeader} (hcommand : h._command.length = 12) :
    (∀ name : CommandName, h.command = name.1 ↔ h._command = padded name) ↔ Trailing h._command := by
  constructor
  · intro hname
    have hfield := (hname (h.carried hcommand)).mp rfl
    rw [hfield]
    exact padded_trailing _
  · intro htrailing name
    constructor
    · intro hcarried
      have hfield := htrailing.eq
      rw [hcommand] at hfield
      change h._command = h.command ++ List.replicate (12 - h.command.length) 0 at hfield
      rwa [hcarried] at hfield
    · intro hfield
      rw [command,hfield]
      exact filter_padded name

theorem Unserialize_command (data : List.Vector UInt8 HEADER_SIZE) :
    (Unserialize data.toList)._command.length = 12 := by
  have hlength : data.toList.length = 24 := data.toList_length
  simp [Unserialize,hlength]

/-- The command of a header that was read, and of a header that was made. -/
theorem command_iff (data : List.Vector UInt8 HEADER_SIZE) :
    ((∀ name : CommandName, (Unserialize data.toList).command = name.1 ↔
        (Unserialize data.toList)._command = padded name) ↔ Trailing (Unserialize data.toList)._command) ∧
    ∀ (magic : UInt32) (name : CommandName) (length : UInt64) (checksum : UInt32),
      (make magic name.1 length checksum).command = name.1 :=
  ⟨carries_iff (Unserialize_command data),make_command⟩

/-- A NUL in front of `ping`. -/
theorem nul_in_front : ¬∀ (data : List.Vector UInt8 HEADER_SIZE) (name : CommandName),
    (Unserialize data.toList).command = name.1 ↔ (Unserialize data.toList)._command = padded name := by
  intro h
  let field : Bytes := [0,0x70,0x69,0x6e,0x67,0,0,0,0,0,0,0]
  have hping := h ⟨List.replicate 4 0 ++ field ++ List.replicate 8 0,rfl⟩ ⟨[0x70,0x69,0x6e,0x67],by decide⟩
  exact absurd (hping.mp (by decide)) (by decide)

end MessageHeader

/-- A message is created by its name, or by one of those behind it. -/
theorem MessageFactory.create_branch {α : Type} {command : String} {name : Bytes} {created : α}
    {behind : Option α} (hfits : 0 ∉ command.toList.map (fun c => UInt8.ofNat c.toNat) ∧
      (command.toList.map fun c => UInt8.ofNat c.toNat).length ≤ 12)
    (hbehind : behind.isSome → 0 ∉ name ∧ name.length ≤ 12) :
    (if isCommand name command then some created else behind).isSome → 0 ∉ name ∧ name.length ≤ 12 := by
  split_ifs with hname
  · rw [of_decide_eq_true hname]
    exact fun _ => hfits
  · exact hbehind

/-- The names that messages are created by fit into the field. -/
theorem MessageFactory.create_name (fits : ℕ → Bool) (name : Bytes) :
    (MessageFactory.create fits name).isSome → 0 ∉ name ∧ name.length ≤ 12 := by
  unfold MessageFactory.create
  iterate 20 refine create_branch (by decide) ?_
  nofun

end Tkeycoin
