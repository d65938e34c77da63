import Tkeycoin.MinimalPush

/-! Scripts written with `operator<<`, and when they are read back instruction by instruction. -/
namespace Tkeycoin
namespace Script

open Interpreter

/-- What is appended to a script: data that fits the push opcodes, numbers, and opcodes above these. -/
inductive Item
  | data (d : ScriptData) (fits : d.length < 2^32)
  | number (n : Int64)
  | opCode (code : OpCode) (above : OpCode.opPushData4 < code)

namespace Item

/-- The bytes that `operator<<` appends. -/
def bytes : Item → Bytes
  | data d _ => push d
  | number n => pushInt64 n
  | opCode code _ => [code]

/-- The opcode and the data an item stands for. -/
def read : Item → OpCode × ScriptData
  | data d _ => ((kindOf d).opCode d,d)
  | number n =>
    if n = 0 then (OpCode.op0,[])
    else if n = -1 then (OpCode.op1Negate,[])
    else if 1 ≤ n ∧ n ≤ 16 then (UInt8.ofNat (n.toInt + (OpCode.op1.toNat - 1)).toNat,[])
    else ((kindOf (ScriptNum.serialize n)).opCode (ScriptNum.serialize n),ScriptNum.serialize n)
  | opCode code _ => (code,[])

end Item

/-- A chain of `operator<<` on an empty script. -/
def ofItems (items : List Item) : Bytes := items.foldl (fun script item => script ++ item.bytes) []

/-- `while (script.GetOp(pc,opcode,data))`: what is read, and the position where reading fails. -/
def readAll (pc : Bytes) : List (OpCode × ScriptData) × Bytes :=
  match _h : getScriptOp pc with
  | (none,_) => ([],pc)
  | (some i,next) => (i :: (readAll next).1,(readAll next).2)
termination_by pc.length
decreasing_by all_goals exact getScriptOp_length _h

/-- Behind no push the bytes left wrap an `unsigned int` around to less than the data. -/
def Unwrapped : List Item → Prop
  | [] => True
  | item :: rest =>
    item.read.2.length ≤ (item.read.2.length + (ofItems rest).length) % 2^32 ∧ Unwrapped rest

instance decidableUnwrapped : (items : List Item) → Decidable (Unwrapped items)
  | [] => .isTrue trivial
  | _ :: rest =>
    let _ := decidableUnwrapped rest
    inferInstanceAs (Decidable (_ ∧ _))

theorem ofItems_cons (item : Item) (rest : List Item) : ofItems (item :: rest) = item.bytes ++ ofItems rest := by
  simp only [ofItems,← List.flatMap_eq_foldl,List.flatMap_cons]

section Scan

variable {pc next q : Bytes} {i : OpCode × ScriptData}

theorem readAll_none (h : getScriptOp pc = (none,q)) : readAll pc = ([],pc) := by
  rw [readAll]
  split
  · rfl
  · rename_i hread
    rw [h] at hread
    cases hread

theorem readAll_some (h : getScriptOp pc = (some i,next)) :
    readAll pc = (i :: (readAll next).1,(readAll next).2) := by
  rw [readAll]
  split
  · rename_i hread
    rw [h] at hread
    cases hread
  · rename_i hread
    rw [h] at hread
    cases hread
    rfl

/-- A scan ends at a position behind what it has read, at least one byte for each instruction. -/
theorem readAll_forward (pc : Bytes) :
    ∃ c, pc = c ++ (readAll pc).2 ∧ (readAll pc).1.length ≤ c.length ∧
      (getScriptOp (readAll pc).2).1 = none := by
  induction hlen : pc.length using Nat.strong_induction_on generalizing pc with
  | _ n ih =>
    rcases hread : getScriptOp pc with ⟨_ | i,next⟩
    · rw [readAll_none hread]
      exact ⟨[],rfl,le_rfl,congrArg Prod.fst hread⟩
    · obtain ⟨c,hpc,hne,-⟩ := getScriptOp_local hread
      obtain ⟨c',hnext,hcount,hend⟩ := ih next.length (hlen ▸ getScriptOp_length hread) next rfl
      have hpos := List.length_pos_iff.mpr hne
      rw [readAll_some hread]
      refine ⟨c ++ c',?_,?_,hend⟩
      · rw [List.append_assoc,← hnext,← hpc]
      · simp only [List.length_cons,List.length_append]
        omega

end Scan

section Written

/-- The reader goes by the low 32 bits of the number of bytes left. -/
theorem PushKind.getScriptOp_encode_mod {k : PushKind} {d : ScriptData} (h : k.Fits d) (post : Bytes) :
    getScriptOp (k.encode d ++ post) =
      if (d.length + post.length) % 2^32 < d.length then (none,d ++ post)
      else (some (k.opCode d,d),post) := by
  rw [PushKind.encode,List.cons_append,List.append_assoc]
  simp only [getScriptOp,if_pos (PushKind.opCode_le h),PushKind.operandSize_encode h,List.length_append,
    List.take_left,List.drop_left]

theorem kindOf_fits {d : ScriptData} (h : d.length < 2^32) : (kindOf d).Fits d := by
  unfold kindOf
  split_ifs with hdirect hone htwo
  · exact hdirect
  · change d.length < 256 ^ 1
    omega
  · change d.length < 256 ^ 2
    omega
  · change d.length < 256 ^ 4
    omega

theorem getScriptOp_push {d : ScriptData} (h : d.length < 2^32) (post : Bytes) :
    getScriptOp (push d ++ post) =
      if (d.length + post.length) % 2^32 < d.length then (none,d ++ post)
      else (some ((kindOf d).opCode d,d),post) := by
  rw [push_eq]
  exact PushKind.getScriptOp_encode_mod (kindOf_fits h) post

theorem getScriptOp_above {opCode : OpCode} (h : OpCode.opPushData4 < opCode) (post : Bytes) :
    getScriptOp (opCode :: post) = (some (opCode,[]),post) := by
  simp only [getScriptOp,if_neg (UInt8.not_le.mpr h)]

/-- The opcodes of the small numbers are above the push opcodes. -/
theorem small_above {n : Int64} (h : 1 ≤ n ∧ n ≤ 16) :
    OpCode.opPushData4 < UInt8.ofNat (n.toInt + (OpCode.op1.toNat - 1)).toNat := by
  have hlow : 1 ≤ n.toInt := by simpa [Int64.le_iff_toInt_le] using h.1
  have hhigh : n.toInt ≤ 16 := by simpa [Int64.le_iff_toInt_le] using h.2
  have hop : ((OpCode.op1.toNat - 1 : ℕ) : ℤ) = 80 := rfl
  have h4 : OpCode.opPushData4.toNat = 78 := rfl
  have h1 : OpCode.op1.toNat = 81 := rfl
  rw [UInt8.lt_iff_toNat_lt,UInt8.toNat_ofNat',h4,h1]
  omega

theorem serialize_short (n : Int64) : (ScriptNum.serialize n).length < 2^32 := by
  have hfuel : ∀ fuel a, (ScriptNum.absBytes fuel a).length ≤ fuel := by
    intro fuel
    induction fuel with
    | zero => exact fun _ => le_rfl
    | succ fuel ih =>
      intro a
      rw [ScriptNum.absBytes]
      split_ifs with h0
      · exact Nat.zero_le _
      · exact Nat.succ_le_succ (ih _)
  have hsign : ∀ neg bytes, (ScriptNum.putSign neg bytes).length ≤ bytes.length + 1 := by
    intro neg bytes
    induction bytes using ScriptNum.putSign.induct neg with
    | case1 => simp [ScriptNum.putSign]
    | case2 back h80 => simp [ScriptNum.putSign,h80]
    | case3 back h80 hneg => simp [ScriptNum.putSign,h80,hneg]
    | case4 back h80 hneg => simp [ScriptNum.putSign,h80,hneg]
    | case5 byte rest hne ih =>
      rw [ScriptNum.putSign_cons neg byte hne]
      simpa using ih
  rw [ScriptNum.serialize]
  split_ifs with h0
  · exact Nat.two_pow_pos 32
  · have h₁ := hsign (decide (n < 0)) (ScriptNum.absBytes 8 n.toInt.natAbs)
    have h₂ := hfuel 8 n.toInt.natAbs
    omega

/-- An item is a push of data or an opcode above the pushes. -/
theorem Item.push_or_above (item : Item) :
    (∃ d : ScriptData, d.length < 2^32 ∧ item.bytes = push d ∧ item.read = ((kindOf d).opCode d,d)) ∨
      ∃ code, OpCode.opPushData4 < code ∧ item.bytes = [code] ∧ item.read = (code,[]) := by
  cases item with
  | data d fits => exact .inl ⟨d,fits,rfl,rfl⟩
  | opCode code above => exact .inr ⟨code,above,rfl,rfl⟩
  | number n =>
    simp only [Item.bytes,Item.read,pushInt64]
    split_ifs with hzero hminus hsmall
    · exact .inl ⟨[],Nat.two_pow_pos 32,rfl,rfl⟩
    · exact .inr ⟨OpCode.op1Negate,by decide,rfl,rfl⟩
    · exact .inr ⟨_,small_above hsmall,rfl,rfl⟩
    · exact .inl ⟨ScriptNum.serialize n,serialize_short n,rfl,rfl⟩

/-- Every item is read as what it stands for, unless the bytes left wrap around. -/
theorem getScriptOp_item (item : Item) (post : Bytes) :
    getScriptOp (item.bytes ++ post) =
      if (item.read.2.length + post.length) % 2^32 < item.read.2.length then (none,item.read.2 ++ post)
      else (some item.read,post) := by
  rcases item.push_or_above with ⟨d,hd,hbytes,hread⟩ | ⟨code,habove,hbytes,hread⟩
  · rw [hbytes,hread]
    exact getScriptOp_push hd post
  · rw [hbytes,hread]
    exact getScriptOp_above habove post

theorem Item.read_length (item : Item) : item.read.2.length ≤ item.bytes.length := by
  rcases item.push_or_above with ⟨d,-,hbytes,hread⟩ | ⟨code,-,hbytes,hread⟩
  · rw [hbytes,hread,push,List.length_append]
    exact Nat.le_add_left _ _
  · rw [hread]
    exact Nat.zero_le _

/-- A script is read back as the items it was written from exactly if no push wraps around. -/
theorem readAll_eq_iff (items : List Item) :
    readAll (ofItems items) = (items.map Item.read,[]) ↔ Unwrapped items := by
  induction items with
  | nil => exact iff_of_true (readAll_none rfl) trivial
  | cons item rest ih =>
    have hread := getScriptOp_item item (ofItems rest)
    rw [← ofItems_cons] at hread
    by_cases hwrap : (item.read.2.length + (ofItems rest).length) % 2^32 < item.read.2.length
    · rw [if_pos hwrap] at hread
      rw [readAll_none hread,Unwrapped]
      apply iff_of_false
      · simp
      · intro h
        exact absurd h.1 (by omega)
    · rw [if_neg hwrap] at hread
      rw [readAll_some hread,Unwrapped,and_iff_right (by omega),← ih]
      simp [Prod.ext_iff]

end Written

/-- Scripts below four gigabytes are read back. -/
theorem unwrapped_of_short {items : List Item} (h : (ofItems items).length < 2^32) : Unwrapped items := by
  induction items with
  | nil => trivial
  | cons item rest ih =>
    rw [ofItems_cons,List.length_append] at h
    have hdata := item.read_length
    refine ⟨?_,ih (by omega)⟩
    rw [Nat.mod_eq_of_lt (by omega)]
    exact Nat.le_add_right _ _

/-- A written script is read back, to its end, exactly if no push wraps around; any byte string is read
forward and to a last instruction. -/
theorem written_read (items : List Item) (pc : Bytes) :
    (readAll (ofItems items) = (items.map Item.read,[]) ↔ Unwrapped items) ∧
      (∀ i next, getScriptOp pc = (some i,next) → ∃ c, c ≠ [] ∧ pc = c ++ next) ∧
      ∃ c, pc = c ++ (readAll pc).2 ∧ (readAll pc).1.length ≤ c.length ∧
        (getScriptOp (readAll pc).2).1 = none := by
  refine ⟨readAll_eq_iff items,?_,readAll_forward pc⟩
  intro i next h
  obtain ⟨c,hpc,hne,-⟩ := getScriptOp_local h
  exact ⟨c,hne,hpc⟩

/-- A push of two bytes and an opcode. -/
theorem written_read_two :
    readAll (ofItems [.data [7,8] (by decide),.opCode OpCode.opNop (by decide)]) =
        ([(2,[7,8]),(OpCode.opNop,[])],[]) ∧
      ∃ c, c ≠ [] ∧ [2,7,8,OpCode.opNop] = c ++ [OpCode.opNop] :=
  ⟨(written_read [.data [7,8] (by decide),.opCode OpCode.opNop (by decide)] []).1.mpr (by decide),
    (written_read [] [2,7,8,OpCode.opNop]).2.1 (2,[7,8]) _ (by decide)⟩

/-- The longest push there is, with an opcode behind it. -/
def longest (d : ScriptData) (h : d.length = 2^32-1) : List Item :=
  [.data d (by omega),.opCode OpCode.opNop (by decide)]

theorem longest_not_read (d : ScriptData) (h : d.length = 2^32-1) :
    readAll (ofItems (longest d h)) ≠ ((longest d h).map Item.read,[]) := by
  intro hread
  have hfits := ((readAll_eq_iff (longest d h)).mp hread).1
  have hrest : (ofItems [.opCode OpCode.opNop (by decide)]).length = 1 := rfl
  simp only [Item.read,hrest,h] at hfits
  omega

/-- So many zeros pushed, and an opcode behind them, are not read back. -/
theorem zeros_not_read :
    readAll (ofItems (longest (List.replicate (2^32-1) 0) List.length_replicate)) ≠
        ((longest (List.replicate (2^32-1) 0) List.length_replicate).map Item.read,[]) ∧
      ¬ ∀ items, readAll (ofItems items) = (items.map Item.read,[]) :=
  have hnot := longest_not_read (List.replicate (2^32-1) 0) List.length_replicate
  ⟨hnot,fun h => hnot (h _)⟩

end Script
end Tkeycoin
