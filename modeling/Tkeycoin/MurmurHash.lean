import Tkeycoin.LittleEndian

/-! `MurmurHash2` in its variants: with aligned reads, without words, and for keys that come in pieces. -/
namespace Tkeycoin
namespace MurmurHash

def m : UInt32 := 0x5bd1e995

/-- The little-endian number of these bytes; for four of them `*(uint32_t*)data`. -/
def word (data : Bytes) : UInt32 := UInt32.ofNat (leValue data)

/-- `mmix(h,k)` and `MIX(h,k,m)`. -/
def mmix (h k : UInt32) : UInt32 :=
  let k := k * m
  let k := k ^^^ (k >>> 24)
  let k := k * m
  let h := h * m
  h ^^^ k

/-- `while(len >= 4)`: the hash behind the words, and the bytes that are left. -/
def mixWords : UInt32 → Bytes → UInt32 × Bytes
  | h, b0 :: b1 :: b2 :: b3 :: data => mixWords (mmix h (word [b0,b1,b2,b3])) data
  | h, data => (h,data)

/-- `switch(len)` behind the words, whose cases fall through. -/
def mixRest (h : UInt32) : Bytes → UInt32
  | [d0,d1,d2] => (((h ^^^ (d2.toUInt32 <<< 16)) ^^^ (d1.toUInt32 <<< 8)) ^^^ d0.toUInt32) * m
  | [d0,d1] => ((h ^^^ (d1.toUInt32 <<< 8)) ^^^ d0.toUInt32) * m
  | [d0] => (h ^^^ d0.toUInt32) * m
  | _ => h

/-- The final mixes. -/
def finish (h : UInt32) : UInt32 :=
  let h := h ^^^ (h >>> 13)
  let h := h * m
  h ^^^ (h >>> 15)

def MurmurHash2 (key : Bytes) (seed : UInt32) : UInt32 :=
  let h := seed ^^^ UInt32.ofNat key.length
  let (h,data) := mixWords h key
  finish (mixRest h data)

/-- The loop of `MurmurHashNeutral2`, which puts its words together. -/
def mixNeutral : UInt32 → Bytes → UInt32 × Bytes
  | h, b0 :: b1 :: b2 :: b3 :: data =>
    let k := b0.toUInt32
    let k := k ||| (b1.toUInt32 <<< 8)
    let k := k ||| (b2.toUInt32 <<< 16)
    let k := k ||| (b3.toUInt32 <<< 24)
    mixNeutral (mmix h k) data
  | h, data => (h,data)

def MurmurHashNeutral2 (key : Bytes) (seed : UInt32) : UInt32 :=
  let h := seed ^^^ UInt32.ofNat key.length
  let (h,data) := mixNeutral h key
  finish (mixRest h data)

/-- `switch(..)` on so many bytes, from the last to the first: `d |= data[2] << 16`, and so on. -/
def orBytes : Bytes → UInt32
  | [d0,d1,d2] => (((0 : UInt32) ||| (d2.toUInt32 <<< 16)) ||| (d1.toUInt32 <<< 8)) ||| d0.toUInt32
  | [d0,d1] => ((0 : UInt32) ||| (d1.toUInt32 <<< 8)) ||| d0.toUInt32
  | [d0] => (0 : UInt32) ||| d0.toUInt32
  | _ => 0

/-- The loop over aligned words, with the hash and the word before. -/
def mixAligned (sr sl : UInt32) : UInt32 → UInt32 → Bytes → UInt32 × UInt32 × Bytes
  | h, t, b0 :: b1 :: b2 :: b3 :: data =>
    let d := word [b0,b1,b2,b3]
    let t := (t >>> sr) ||| (d <<< sl)
    let k := t
    mixAligned sr sl (mmix h k) d data
  | h, t, data => (h,t,data)

/-- `MurmurHashAligned2` of a key at an address. -/
def MurmurHashAligned2 (address : UInt64) (key : Bytes) (seed : UInt32) : UInt32 :=
  let h := seed ^^^ UInt32.ofNat key.length
  let align := (address &&& 3).toNat
  if align ≠ 0 ∧ key.length ≥ 4 then
    let t := orBytes (key.take (4 - align))
    let t := t <<< UInt32.ofNat (8 * align)
    let data := key.drop (4 - align)
    let sl := UInt32.ofNat (8 * (4 - align))
    let sr := UInt32.ofNat (8 * align)
    let (h,t,data) := mixAligned sr sl h t data
    if data.length ≥ align then
      let d := orBytes (data.take align)
      let k := (t >>> sr) ||| (d <<< sl)
      finish (mixRest (mmix h k) (data.drop align))
    else
      let d := orBytes data
      finish ((h ^^^ ((t >>> sr) ||| (d <<< sl))) * m)
  else
    let (h,data) := mixWords h key
    finish (mixRest h data)

/-- `switch(len)` of `MurmurHash2A`. -/
def xorBytes : Bytes → UInt32
  | [d0,d1,d2] => (((0 : UInt32) ^^^ (d2.toUInt32 <<< 16)) ^^^ (d1.toUInt32 <<< 8)) ^^^ d0.toUInt32
  | [d0,d1] => ((0 : UInt32) ^^^ (d1.toUInt32 <<< 8)) ^^^ d0.toUInt32
  | [d0] => (0 : UInt32) ^^^ d0.toUInt32
  | _ => 0

def MurmurHash2A (key : Bytes) (seed : UInt32) : UInt32 :=
  let l := UInt32.ofNat key.length
  let (h,data) := mixWords seed key
  let t := xorBytes data
  finish (mmix (mmix h t) l)

structure CMurmurHash2A where
  m_hash : UInt32
  m_tail : UInt32
  m_count : UInt32
  m_size : UInt32
  deriving DecidableEq

namespace CMurmurHash2A

def Begin (seed : UInt32) : CMurmurHash2A := ⟨seed,0,0,0⟩

/-- Bytes are taken one by one, up to the end of a word or of less than four. What it leaves goes on. -/
def MixTail (c : CMurmurHash2A) : Bytes → CMurmurHash2A × Bytes
  | [] => (c,[])
  | b :: data =>
    if data.length + 1 < 4 ∨ c.m_count ≠ 0 then
      let m_tail := c.m_tail ||| (b.toUInt32 <<< (c.m_count * 8))
      let m_count := c.m_count + 1
      if m_count = 4 then MixTail ⟨mmix c.m_hash m_tail,0,0,c.m_size⟩ data
      else MixTail ⟨c.m_hash,m_tail,m_count,c.m_size⟩ data
    else (c,b :: data)

def Add (c : CMurmurHash2A) (data : Bytes) : CMurmurHash2A :=
  let c := { c with m_size := c.m_size + UInt32.ofNat data.length }
  let (c,data) := c.MixTail data
  let (m_hash,data) := mixWords c.m_hash data
  ({ c with m_hash }.MixTail data).1

def End (c : CMurmurHash2A) : UInt32 := finish (mmix (mmix c.m_hash c.m_tail) c.m_size)

end CMurmurHash2A

section Words

theorem word_toNat (data : Bytes) : (word data).toNat = leValue data % 2^32 := UInt32.toNat_ofNat'

theorem leValue_split (l : Bytes) {n : ℕ} (h : n ≤ l.length) :
    leValue l = leValue (l.take n) + 256 ^ n * leValue (l.drop n) := by
  have hall := leValue_append (l.take n) (l.drop n)
  rwa [List.take_append_drop,List.length_take,Nat.min_eq_left h] at hall

/-- A number goes no further than its four bytes. -/
theorem word_take (data : Bytes) : word (data.take 4) = word data := by
  rcases Nat.le_total 4 data.length with h | h
  · have hsplit := leValue_split data h
    rw [← UInt32.toNat_inj,word_toNat,word_toNat]
    omega
  · rw [List.take_of_length_le h]

/-- The bytes that are shifted out are the first. -/
theorem word_shift_right {l : Bytes} (h : l.length = 4) {n : ℕ} (hn : n < 4) :
    word l >>> UInt32.ofNat (8 * n) = word (l.drop n) := by
  have hsplit := leValue_split l (n := n) (by omega)
  have hlow := leValue_lt (l.take n)
  have hlt := leValue_lt l
  have hhigh := leValue_lt (l.drop n)
  rw [List.length_take,h,Nat.min_eq_left (by omega)] at hlow
  rw [List.length_drop,h] at hhigh
  rw [h] at hlt
  rw [← UInt32.toNat_inj,UInt32.toNat_shiftRight,word_toNat,word_toNat,Nat.shiftRight_eq_div_pow]
  have hcases : n = 0 ∨ n = 1 ∨ n = 2 ∨ n = 3 := by omega
  rcases hcases with rfl | rfl | rfl | rfl <;> norm_num [UInt32.toNat_ofNat'] at * <;> omega

theorem two_pow_eight (k : ℕ) : 256 ^ k = 2 ^ (8 * k) := by
  rw [pow_mul]
  rfl

theorem whole_word {k : ℕ} (h : k < 4) : 2^32 = 2 ^ (8 * k) * 2 ^ (32 - 8 * k) := by
  rw [← pow_add]
  congr 1
  omega

/-- What a word keeps of bytes that are put further back. -/
theorem word_shift_left (high : Bytes) {k : ℕ} (h : k < 4) :
    (word high <<< UInt32.ofNat (8 * k)).toNat = 2 ^ (8 * k) * (leValue high % 2 ^ (32 - 8 * k)) := by
  have hshift : (UInt32.ofNat (8 * k)).toNat % 32 = 8 * k := by
    rw [UInt32.toNat_ofNat']
    omega
  have hdvd : 2 ^ (32 - 8 * k) ∣ 2^32 := pow_dvd_pow 2 (Nat.sub_le _ _)
  rw [UInt32.toNat_shiftLeft,word_toNat,Nat.shiftLeft_eq,hshift,Nat.mul_comm]
  conv_lhs => rw [whole_word h]
  rw [Nat.mul_mod_mul_left,← whole_word h,Nat.mod_mod_of_dvd _ hdvd]

theorem word_append_toNat (low high : Bytes) (h : low.length < 4) :
    (word (low ++ high)).toNat =
      2 ^ (8 * low.length) * (leValue high % 2 ^ (32 - 8 * low.length)) + leValue low := by
  have hlow := leValue_lt low
  rw [two_pow_eight] at hlow
  rw [word_toNat,leValue_append,two_pow_eight]
  conv_lhs => rw [whole_word h]
  rw [Nat.mod_mul,Nat.add_mul_mod_self_left,Nat.mod_eq_of_lt hlow,
    Nat.add_mul_div_left _ _ (Nat.two_pow_pos (8 * low.length)),Nat.div_eq_of_lt hlow,Nat.zero_add,Nat.add_comm]

theorem word_short {low : Bytes} (h : low.length < 4) : (word low).toNat = leValue low := by
  have hlow := leValue_lt low
  have hpow : 256 ^ low.length ≤ 256 ^ 4 := Nat.pow_le_pow_right (by decide) (by omega)
  rw [word_toNat]
  omega

/-- Where no bit stands in both, it does not matter how they are put together. -/
theorem two_pow_mul_xor {i b : ℕ} (h : b < 2 ^ i) (a : ℕ) : 2 ^ i * a ^^^ b = 2 ^ i * a ||| b := by
  apply Nat.eq_of_testBit_eq
  intro j
  rw [Nat.testBit_xor,Nat.testBit_or,Nat.testBit_two_pow_mul]
  by_cases hj : i ≤ j
  · have hlow : b.testBit j = false := Nat.testBit_lt_two_pow (lt_of_lt_of_le h (Nat.pow_le_pow_right (by decide) hj))
    simp [hlow]
  · simp [hj]

/-- Bytes behind others, in one word. -/
theorem word_append (low high : Bytes) (h : low.length < 4) :
    word low ||| (word high <<< UInt32.ofNat (8 * low.length)) = word (low ++ high) := by
  have hlow := leValue_lt low
  rw [two_pow_eight] at hlow
  rw [← UInt32.toNat_inj,UInt32.toNat_or,word_shift_left high h,word_append_toNat low high h,word_short h,
    Nat.or_comm,← Nat.two_pow_add_eq_or_of_lt hlow]

theorem word_append_xor (low high : Bytes) (h : low.length < 4) :
    word low ^^^ (word high <<< UInt32.ofNat (8 * low.length)) = word (low ++ high) := by
  have hlow := leValue_lt low
  rw [two_pow_eight] at hlow
  rw [← word_append low high h,← UInt32.toNat_inj,UInt32.toNat_or,UInt32.toNat_xor,word_shift_left high h,
    word_short h,Nat.xor_comm,two_pow_mul_xor hlow,Nat.or_comm]

theorem word_byte (b : UInt8) : b.toUInt32 = word [b] := by
  have hlt := b.toNat_lt
  rw [← UInt32.toNat_inj,word_toNat,UInt8.toNat_toUInt32]
  simp only [leValue]
  omega

theorem orBytes_eq {l : Bytes} (h : l.length < 4) : orBytes l = word l := by
  match l, h with
  | [], _ => rfl
  | [d0], _ => rw [orBytes,word_byte,UInt32.zero_or]
  | [d0,d1], _ =>
    rw [orBytes,word_byte,word_byte,UInt32.zero_or,UInt32.or_comm]
    exact word_append [d0] [d1] (by decide : 1 < 4)
  | [d0,d1,d2], _ =>
    have hlow : word [d0] ||| (word [d1] <<< 8) = word [d0,d1] := word_append [d0] [d1] (by decide : 1 < 4)
    have hall : word [d0,d1] ||| (word [d2] <<< 16) = word [d0,d1,d2] :=
      word_append [d0,d1] [d2] (by decide : 2 < 4)
    rw [← hlow] at hall
    rw [orBytes,word_byte,word_byte,word_byte,UInt32.zero_or,UInt32.or_comm,UInt32.or_comm (word [d2] <<< 16),
      ← UInt32.or_assoc]
    exact hall
  | _ :: _ :: _ :: _ :: _, h =>
    simp only [List.length_cons] at h
    omega

theorem xorBytes_eq {l : Bytes} (h : l.length < 4) : xorBytes l = word l := by
  match l, h with
  | [], _ => rfl
  | [d0], _ => rw [xorBytes,word_byte,UInt32.zero_xor]
  | [d0,d1], _ =>
    rw [xorBytes,word_byte,word_byte,UInt32.zero_xor,UInt32.xor_comm]
    exact word_append_xor [d0] [d1] (by decide : 1 < 4)
  | [d0,d1,d2], _ =>
    have hlow : word [d0] ^^^ (word [d1] <<< 8) = word [d0,d1] := word_append_xor [d0] [d1] (by decide : 1 < 4)
    have hall : word [d0,d1] ^^^ (word [d2] <<< 16) = word [d0,d1,d2] :=
      word_append_xor [d0,d1] [d2] (by decide : 2 < 4)
    rw [← hlow] at hall
    rw [xorBytes,word_byte,word_byte,word_byte,UInt32.zero_xor,UInt32.xor_comm,UInt32.xor_comm (word [d2] <<< 16),
      ← UInt32.xor_assoc]
    exact hall
  | _ :: _ :: _ :: _ :: _, h =>
    simp only [List.length_cons] at h
    omega

/-- Bytes that are left are mixed in as one word. -/
theorem mixRest_eq (h : UInt32) {l : Bytes} (hpos : l ≠ []) (hl : l.length < 4) : mixRest h l = (h ^^^ word l) * m := by
  rw [← xorBytes_eq hl]
  match l, hpos, hl with
  | [], hpos, _ => exact absurd rfl hpos
  | [d0], _, _ => rw [mixRest,xorBytes,UInt32.zero_xor]
  | [d0,d1], _, _ => rw [mixRest,xorBytes,UInt32.zero_xor,UInt32.xor_assoc]
  | [d0,d1,d2], _, _ =>
    rw [mixRest,xorBytes,UInt32.zero_xor]
    simp only [UInt32.xor_assoc]
  | _ :: _ :: _ :: _ :: _, _, hl =>
    simp only [List.length_cons] at hl
    omega

end Words

section Aligned

theorem mixWords_short {h : UInt32} {l : Bytes} (hl : l.length < 4) : mixWords h l = (h,l) := by
  match l, hl with
  | [], _ => rfl
  | [_], _ => rfl
  | [_,_], _ => rfl
  | [_,_,_], _ => rfl
  | _ :: _ :: _ :: _ :: _, hl =>
    simp only [List.length_cons] at hl
    omega

theorem mixWords_word {h : UInt32} {l : Bytes} (hl : 4 ≤ l.length) :
    mixWords h l = mixWords (mmix h (word l)) (l.drop 4) := by
  match l, hl with
  | b0 :: b1 :: b2 :: b3 :: data, _ =>
    rw [← word_take]
    rfl

theorem mixWords_whole (h : UInt32) {w : Bytes} (hw : w.length = 4) (data : Bytes) :
    mixWords h (w ++ data) = mixWords (mmix h (word w)) data := by
  rw [mixWords_word (by rw [List.length_append,hw]; omega),← word_take,List.take_append_of_le_length (by omega),
    List.take_of_length_le (by omega),← hw,List.drop_left]

/-- Words that are put together byte by byte are the words that are read. -/
theorem word_bytes (b0 b1 b2 b3 : UInt8) :
    (((b0.toUInt32 ||| (b1.toUInt32 <<< 8)) ||| (b2.toUInt32 <<< 16)) ||| (b3.toUInt32 <<< 24)) =
      word [b0,b1,b2,b3] := by
  have hone : word [b0] ||| (word [b1] <<< 8) = word [b0,b1] := word_append [b0] [b1] (by decide : 1 < 4)
  have htwo : word [b0,b1] ||| (word [b2] <<< 16) = word [b0,b1,b2] := word_append [b0,b1] [b2] (by decide : 2 < 4)
  have hthree : word [b0,b1,b2] ||| (word [b3] <<< 24) = word [b0,b1,b2,b3] :=
    word_append [b0,b1,b2] [b3] (by decide : 3 < 4)
  rw [word_byte,word_byte,word_byte,word_byte,hone,htwo,hthree]

theorem mixNeutral_eq (h : UInt32) (data : Bytes) : mixNeutral h data = mixWords h data := by
  induction h, data using mixWords.induct with
  | case1 h b0 b1 b2 b3 data ih =>
    rw [mixNeutral,mixWords,word_bytes]
    exact ih
  | case2 h data hshort =>
    rw [mixNeutral,mixWords]
    · exact hshort
    · exact hshort

/-- A whole word behind bytes that were left: four of them are mixed in, and as many are left as before. -/
theorem mixWords_behind {align : ℕ} (hlt : align < 4) (h : UInt32) {p w : Bytes} (hp : p.length = 4 - align)
    (hw : w.length = 4) (data : Bytes) :
    mixWords h (p ++ (w ++ data)) = mixWords (mmix h (word (p ++ w))) (w.drop align ++ data) := by
  have hdrop : (p ++ (w ++ data)).drop 4 = w.drop align ++ data := by
    have hfour : 4 = p.length + align := by omega
    conv_lhs => rw [hfour]
    rw [List.drop_length_add_append,List.drop_append_of_le_length (by omega)]
  have hword : word (p ++ (w ++ data)) = word (p ++ w) := by
    rw [← word_take,← word_take (p ++ w),← List.append_assoc]
    rw [List.take_append_of_le_length (by simp [hw])]
  rw [mixWords_word (by simp [hw]; omega),hword,hdrop]

/-- The bytes of the word before that were not mixed in yet stand in front of those that are left. -/
theorem mixAligned_eq {align : ℕ} (hpos : 0 < align) (hlt : align < 4) :
    ∀ (data : Bytes) (h t : UInt32) {p : Bytes}, p.length = 4 - align → t >>> UInt32.ofNat (8 * align) = word p →
      ∃ h' t' data' p', mixAligned (UInt32.ofNat (8 * align)) (UInt32.ofNat (8 * (4 - align))) h t data = (h',t',data') ∧
        data'.length < 4 ∧ p'.length = 4 - align ∧ t' >>> UInt32.ofNat (8 * align) = word p' ∧
        mixWords h (p ++ data) = mixWords h' (p' ++ data')
  | b0 :: b1 :: b2 :: b3 :: data, h, t, p, hp, ht => by
    have hrest : ([b0,b1,b2,b3].drop align).length = 4 - align := List.length_drop
    have hnext := word_shift_right (l := [b0,b1,b2,b3]) rfl hlt
    obtain ⟨h',t',data',p',hrun,hgoal⟩ := mixAligned_eq hpos hlt data (mmix h (word (p ++ [b0,b1,b2,b3])))
      (word [b0,b1,b2,b3]) hrest hnext
    have hone : (word p) ||| (word [b0,b1,b2,b3] <<< UInt32.ofNat (8 * (4 - align))) = word (p ++ [b0,b1,b2,b3]) := by
      rw [← hp]
      exact word_append p [b0,b1,b2,b3] (by omega)
    refine ⟨h',t',data',p',?_,?_⟩
    · rw [mixAligned,ht,hone]
      exact hrun
    · rw [← mixWords_behind hlt h hp rfl data] at hgoal
      exact hgoal
  | [], h, t, p, hp, ht => ⟨h,t,[],p,rfl,by decide,hp,ht,rfl⟩
  | [d0], h, t, p, hp, ht => ⟨h,t,[d0],p,rfl,by simp,hp,ht,rfl⟩
  | [d0,d1], h, t, p, hp, ht => ⟨h,t,[d0,d1],p,rfl,by simp,hp,ht,rfl⟩
  | [d0,d1,d2], h, t, p, hp, ht => ⟨h,t,[d0,d1,d2],p,rfl,by simp,hp,ht,rfl⟩

/-- What is loaded first is the rest of a word, at its upper end. -/
theorem preload {align : ℕ} (hpos : 0 < align) (hlt : align < 4) {p : Bytes} (hp : p.length = 4 - align) :
    (orBytes p <<< UInt32.ofNat (8 * align)) >>> UInt32.ofNat (8 * align) = word p := by
  have hshort : p.length < 4 := by omega
  have hlow := leValue_lt p
  have hbits : 8 * p.length = 32 - 8 * align := by omega
  have hshift : (UInt32.ofNat (8 * align)).toNat % 32 = 8 * align := by
    rw [UInt32.toNat_ofNat']
    omega
  rw [two_pow_eight,hbits] at hlow
  rw [orBytes_eq hshort,← UInt32.toNat_inj,UInt32.toNat_shiftRight,word_shift_left p hlt,hshift,word_short hshort,
    Nat.mod_eq_of_lt hlow,Nat.shiftRight_eq_div_pow,Nat.mul_div_cancel_left _ (Nat.two_pow_pos _)]

/-- Behind the words: less than one is left, with what was not mixed in yet. -/
theorem mixAligned_rest {align : ℕ} (hpos : 0 < align) (hlt : align < 4) (h t : UInt32) {data p : Bytes}
    (hdata : data.length < 4) (hp : p.length = 4 - align) (ht : t >>> UInt32.ofNat (8 * align) = word p) :
    (if data.length ≥ align then
      let d := orBytes (data.take align)
      let k := (t >>> UInt32.ofNat (8 * align)) ||| (d <<< UInt32.ofNat (8 * (4 - align)))
      finish (mixRest (mmix h k) (data.drop align))
    else
      let d := orBytes data
      finish ((h ^^^ ((t >>> UInt32.ofNat (8 * align)) ||| (d <<< UInt32.ofNat (8 * (4 - align))))) * m)) =
      finish (mixRest (mixWords h (p ++ data)).1 (mixWords h (p ++ data)).2) := by
  have hput (l : Bytes) (hl : l.length < 4) :
      (t >>> UInt32.ofNat (8 * align)) ||| (orBytes l <<< UInt32.ofNat (8 * (4 - align))) = word (p ++ l) := by
    rw [ht,orBytes_eq hl,← hp]
    exact word_append p l (by omega)
  by_cases hwhole : data.length ≥ align
  · have htake : (data.take align).length = align := List.length_take_of_le hwhole
    have hall : p ++ data = (p ++ data.take align) ++ data.drop align := by
      rw [List.append_assoc,List.take_append_drop]
    have hword : (p ++ data.take align).length = 4 := by
      rw [List.length_append,htake,hp]
      omega
    have hmix : mixWords h (p ++ data) = (mmix h (word (p ++ data.take align)),data.drop align) := by
      rw [hall,mixWords_whole h hword]
      exact mixWords_short (by rw [List.length_drop]; omega)
    rw [if_pos hwhole,hmix]
    simp only [hput _ (lt_of_eq_of_lt htake hlt)]
  · have hshort : (p ++ data).length < 4 := by
      rw [List.length_append,hp]
      omega
    have hpending : p ++ data ≠ [] := by
      apply List.ne_nil_of_length_pos
      rw [List.length_append,hp]
      omega
    rw [if_neg hwhole,mixWords_short hshort]
    simp only [hput data hdata,mixRest_eq h hpending hshort]

theorem MurmurHashAligned2_eq (address : UInt64) (key : Bytes) (seed : UInt32) :
    MurmurHashAligned2 address key seed = MurmurHash2 key seed := by
  have hlt : (address &&& 3).toNat < 4 := by
    rw [UInt64.toNat_and]
    exact lt_of_le_of_lt Nat.and_le_right (by decide)
  by_cases halign : (address &&& 3).toNat ≠ 0 ∧ key.length ≥ 4
  · obtain ⟨hpos,hlen⟩ := halign
    have hp : (key.take (4 - (address &&& 3).toNat)).length = 4 - (address &&& 3).toNat :=
      List.length_take_of_le (by omega)
    obtain ⟨h,t,data,p,hrun,hdata,hrest,ht,hmix⟩ := mixAligned_eq (Nat.pos_of_ne_zero hpos) hlt
      (key.drop (4 - (address &&& 3).toNat)) (seed ^^^ UInt32.ofNat key.length) _ hp
      (preload (Nat.pos_of_ne_zero hpos) hlt hp)
    have hlast := mixAligned_rest (Nat.pos_of_ne_zero hpos) hlt h t hdata hrest ht
    rw [List.take_append_drop] at hmix
    rw [← hmix] at hlast
    simp only [MurmurHashAligned2,if_pos (And.intro hpos hlen),hrun]
    exact hlast
  · rw [MurmurHashAligned2,if_neg halign]
    rfl

theorem MurmurHashNeutral2_eq (key : Bytes) (seed : UInt32) : MurmurHashNeutral2 key seed = MurmurHash2 key seed := by
  rw [MurmurHashNeutral2,MurmurHash2,mixNeutral_eq]

/-- Where a key stands, and how its words are read, makes no difference to its hash. -/
theorem variants_agree (address : UInt64) (key : Bytes) (seed : UInt32) :
    MurmurHashAligned2 address key seed = MurmurHash2 key seed ∧
      MurmurHashNeutral2 key seed = MurmurHash2 key seed :=
  ⟨MurmurHashAligned2_eq address key seed,MurmurHashNeutral2_eq key seed⟩

end Aligned

section Pieces

/-- Words are mixed in one by one, whatever comes behind them. -/
theorem mixWords_append (h : UInt32) (data next : Bytes) :
    mixWords h (data ++ next) = mixWords (mixWords h data).1 ((mixWords h data).2 ++ next) := by
  induction h, data using mixWords.induct with
  | case1 h b0 b1 b2 b3 data ih => exact ih
  | case2 h data hshort =>
    have hrest : mixWords h data = (h,data) := mixWords.eq_2 h data hshort
    rw [hrest]

theorem mixWords_rest_length (h : UInt32) (data : Bytes) : (mixWords h data).2.length < 4 := by
  induction h, data using mixWords.induct with
  | case1 h b0 b1 b2 b3 data ih => exact ih
  | case2 h data hshort =>
    rw [mixWords.eq_2 h data hshort]
    match data, hshort with
    | [], _ => simp
    | [_], _ => simp
    | [_,_], _ => simp
    | [_,_,_], _ => simp
    | b0 :: b1 :: b2 :: b3 :: data, hshort => exact absurd rfl (hshort b0 b1 b2 b3 data)

/-- The bytes that wait for the end of their word. -/
structure Pending (c : CMurmurHash2A) (p : Bytes) : Prop where
  short : p.length < 4
  tail : c.m_tail = word p
  count : c.m_count = UInt32.ofNat p.length

theorem shift_count (n : ℕ) : UInt32.ofNat n * 8 = UInt32.ofNat (8 * n) := by
  rw [Nat.mul_comm,UInt32.ofNat_mul]
  rfl

theorem Pending.push {c : CMurmurHash2A} {p : Bytes} (hp : Pending c p) (b : UInt8) :
    c.m_tail ||| (b.toUInt32 <<< (c.m_count * 8)) = word (p ++ [b]) := by
  rw [hp.tail,hp.count,shift_count,word_byte]
  exact word_append p [b] hp.short

theorem Pending.counted {c : CMurmurHash2A} {p : Bytes} (hp : Pending c p) (b : UInt8) :
    c.m_count + 1 = UInt32.ofNat (p ++ [b]).length := by
  rw [hp.count,List.length_append,UInt32.ofNat_add]
  rfl

theorem ofNat_count {n : ℕ} (h : n ≤ 4) {k : ℕ} (hk : k ≤ 4) : UInt32.ofNat n = UInt32.ofNat k ↔ n = k := by
  rw [← UInt32.toNat_inj,UInt32.toNat_ofNat',UInt32.toNat_ofNat']
  omega

/-- Bytes that are taken one by one come behind those that wait; it stops where nothing is left, or at a word. -/
theorem MixTail_takes : ∀ (data : Bytes) (c : CMurmurHash2A) {p : Bytes}, Pending c p →
    ∃ c' data' p', c.MixTail data = (c',data') ∧ Pending c' p' ∧ c'.m_size = c.m_size ∧
      data'.length ≤ data.length ∧ (data' = [] ∨ p' = []) ∧
      mixWords c.m_hash (p ++ data) = mixWords c'.m_hash (p' ++ data') ∧ (data.length < 4 → data' = [])
  | [], c, p, hp => ⟨c,[],p,rfl,hp,rfl,le_refl _,Or.inl rfl,rfl,fun _ => rfl⟩
  | b :: data, c, p, hp => by
    have hlength : (p ++ [b]).length = p.length + 1 := List.length_append
    have hshort := hp.short
    by_cases hgo : data.length + 1 < 4 ∨ c.m_count ≠ 0
    · by_cases hfull : c.m_count + 1 = 4
      · have hfour : (p ++ [b]).length = 4 := by
          rw [hp.counted b] at hfull
          exact (ofNat_count (by omega) (le_refl 4)).mp hfull
        obtain ⟨c',data',p',hrun,hp',hsize,hle,hend,hmix,hall⟩ := MixTail_takes data
          ⟨mmix c.m_hash (c.m_tail ||| (b.toUInt32 <<< (c.m_count * 8))),0,0,c.m_size⟩ (p := []) ⟨by decide,rfl,rfl⟩
        refine ⟨c',data',p',?_,hp',hsize,Nat.le_succ_of_le hle,hend,?_,fun hlt => hall (Nat.lt_of_succ_lt hlt)⟩
        · rw [CMurmurHash2A.MixTail,if_pos hgo]
          simp only [if_pos hfull]
          exact hrun
        · rw [← hmix,hp.push b,List.append_cons,mixWords_whole _ hfour]
          rfl
      · have hcount := hp.counted b
        have hlt : (p ++ [b]).length < 4 := by
          have hne : (p ++ [b]).length ≠ 4 := by
            intro hfour
            rw [hcount,hfour] at hfull
            exact hfull rfl
          omega
        obtain ⟨c',data',p',hrun,hp',hsize,hle,hend,hmix,hall⟩ := MixTail_takes data
          ⟨c.m_hash,c.m_tail ||| (b.toUInt32 <<< (c.m_count * 8)),c.m_count + 1,c.m_size⟩ (p := p ++ [b])
          ⟨hlt,hp.push b,hcount⟩
        refine ⟨c',data',p',?_,hp',hsize,Nat.le_succ_of_le hle,hend,?_,fun hlt => hall (Nat.lt_of_succ_lt hlt)⟩
        · rw [CMurmurHash2A.MixTail,if_pos hgo]
          simp only [if_neg hfull]
          exact hrun
        · rw [← hmix,List.append_cons]
    · have hzero : c.m_count = 0 := by
        by_contra hne
        exact hgo (Or.inr hne)
      have hempty : p = [] := by
        rw [hp.count] at hzero
        exact List.eq_nil_of_length_eq_zero ((ofNat_count hshort.le (Nat.zero_le 4)).mp hzero)
      refine ⟨c,b :: data,p,?_,hp,rfl,le_refl _,Or.inr hempty,rfl,fun hlt => absurd (Or.inl hlt) hgo⟩
      rw [CMurmurHash2A.MixTail,if_neg hgo]

/-- A hash that is under way has taken these bytes. -/
def Taken (seed : UInt32) (c : CMurmurHash2A) (all : Bytes) : Prop :=
  ∃ p, Pending c p ∧ mixWords seed all = (c.m_hash,p) ∧ c.m_size = UInt32.ofNat all.length

theorem begin_taken (seed : UInt32) : Taken seed (CMurmurHash2A.Begin seed) [] :=
  ⟨[],⟨by decide,rfl,rfl⟩,rfl,rfl⟩

theorem add_taken {seed : UInt32} {c : CMurmurHash2A} {all : Bytes} (h : Taken seed c all) (data : Bytes) :
    Taken seed (c.Add data) (all ++ data) := by
  obtain ⟨p,hp,hall,hsize⟩ := h
  obtain ⟨c₁,data₁,p₁,hfirst,hp₁,hsize₁,-,hend,hmix₁,-⟩ :=
    MixTail_takes data { c with m_size := c.m_size + UInt32.ofNat data.length } (p := p) ⟨hp.short,hp.tail,hp.count⟩
  have hwords : mixWords seed (all ++ data) = mixWords c₁.m_hash (p₁ ++ data₁) := by
    rw [mixWords_append,hall]
    exact hmix₁
  obtain ⟨c₂,data₂,p₂,hlast,hp₂,hsize₂,-,-,hmix₂,hdone⟩ :=
    MixTail_takes (mixWords c₁.m_hash data₁).2 { c₁ with m_hash := (mixWords c₁.m_hash data₁).1 } (p := p₁)
      ⟨hp₁.short,hp₁.tail,hp₁.count⟩
  have hnone := hdone (mixWords_rest_length c₁.m_hash data₁)
  have hmid : mixWords c₁.m_hash (p₁ ++ data₁) =
      mixWords (mixWords c₁.m_hash data₁).1 (p₁ ++ (mixWords c₁.m_hash data₁).2) := by
    rcases hend with hnil | hnil
    · subst hnil
      rfl
    · subst hnil
      have hrest := mixWords_append c₁.m_hash data₁ []
      rwa [List.append_nil,List.append_nil] at hrest
  have hadd : c.Add data = c₂ := by
    rw [CMurmurHash2A.Add]
    simp only [hfirst]
    rw [hlast]
  rw [hadd]
  refine ⟨p₂,hp₂,?_,?_⟩
  · rw [hwords,hmid]
    refine Eq.trans hmix₂ ?_
    rw [hnone,List.append_nil,mixWords_short hp₂.short]
  · rw [hsize₂]
    refine Eq.trans hsize₁ ?_
    rw [List.length_append,UInt32.ofNat_add,← hsize]

/-- Whatever pieces its bytes come in. -/
theorem pieces_taken {seed : UInt32} (chunks : List Bytes) :
    ∀ {c : CMurmurHash2A} {all : Bytes}, Taken seed c all →
      Taken seed (chunks.foldl CMurmurHash2A.Add c) (all ++ chunks.flatten) := by
  induction chunks with
  | nil =>
    intro c all h
    rw [List.flatten_nil,List.append_nil]
    exact h
  | cons data chunks ih =>
    intro c all h
    rw [List.flatten_cons,← List.append_assoc]
    exact ih (add_taken h data)

theorem end_taken {seed : UInt32} {c : CMurmurHash2A} {all : Bytes} (h : Taken seed c all) :
    c.End = MurmurHash2A all seed := by
  obtain ⟨p,hp,hall,hsize⟩ := h
  rw [CMurmurHash2A.End,hp.tail,hsize,← xorBytes_eq hp.short,MurmurHash2A,hall]

/-- The hash of a key is that of its pieces, one after the other. -/
theorem pieces_hashed (seed : UInt32) (chunks : List Bytes) :
    (chunks.foldl CMurmurHash2A.Add (CMurmurHash2A.Begin seed)).End = MurmurHash2A chunks.flatten seed :=
  end_taken (pieces_taken chunks (begin_taken seed))

end Pieces

end MurmurHash
end Tkeycoin
