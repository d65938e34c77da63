import Mathlib.Tactic
import Tkeycoin.LittleEndian

/-! `Buffer`: bytes put in at one end and taken out at the other. -/
namespace Tkeycoin

/-- The bytes not taken out yet stand between the two positions. -/
structure Buffer where
  _data : Bytes
  _getPosition : ℕ
  _putPosition : ℕ
  get_le : _getPosition ≤ _putPosition
  put_le : _putPosition ≤ _data.length

namespace Buffer

def empty : Buffer := ⟨[],0,0,le_rfl,le_rfl⟩

/-- What `dataPtr` points at, as far as `dataLen` goes. -/
def unread (b : Buffer) : Bytes := (b._data.take b._putPosition).drop b._getPosition

def dataLen (b : Buffer) : ℕ := b._putPosition - b._getPosition

@[simp] theorem length_unread (b : Buffer) : b.unread.length = b.dataLen := by
  simp [unread,dataLen,b.put_le]

@[simp] theorem unread_empty : empty.unread = [] := rfl

/-- `skip` does nothing where fewer bytes are there. -/
def skip (b : Buffer) (length : ℕ) : Buffer :=
  if h : b._putPosition - b._getPosition < length then b
  else ⟨b._data,b._getPosition + length,b._putPosition,by have := b.get_le; omega,b.put_le⟩

theorem unread_skip {b : Buffer} {length : ℕ} (h : length ≤ b.unread.length) :
    (b.skip length).unread = b.unread.drop length := by
  have hle : ¬ b._putPosition - b._getPosition < length := by
    rw [length_unread,dataLen] at h
    omega
  simp only [skip,hle,dite_false,unread,List.drop_drop]

/-- The bytes not taken out move to the front. Those behind them stay. -/
def shift (b : Buffer) : Buffer where
  _data := b.unread ++ b._data.drop b.dataLen
  _getPosition := 0
  _putPosition := b.dataLen
  get_le := Nat.zero_le _
  put_le := by simp

@[simp] theorem unread_shift (b : Buffer) : b.shift.unread = b.unread := by
  simp [unread,shift,dataLen,b.put_le]

/-- `_data.resize(..)` to whole pages, with zeros. -/
def grow (b : Buffer) (length : ℕ) : Buffer where
  _data := b._data ++
    List.replicate (((b._putPosition + length) / 2 ^ 12 + 1) * 2 ^ 12 - b._data.length) 0
  _getPosition := b._getPosition
  _putPosition := b._putPosition
  get_le := b.get_le
  put_le := by
    have := b.put_le
    simp only [List.length_append]
    omega

@[simp] theorem unread_grow (b : Buffer) (length : ℕ) : (b.grow length).unread = b.unread := by
  simp [unread,grow,List.take_append_of_le_length b.put_le]

theorem le_length_grow (b : Buffer) (length : ℕ) :
    b._putPosition + length ≤ (b.grow length)._data.length := by
  simp only [grow,List.length_append,List.length_replicate]
  omega

/-- Room for some more bytes. -/
def prepare (b : Buffer) (length : ℕ) : Buffer :=
  if length = 0 then b
  else
    let b := if b._putPosition + length > b._data.length ∧ b._getPosition > 0 then b.shift else b
    if b._putPosition + length > b._data.length then b.grow length else b

@[simp] theorem unread_prepare (b : Buffer) (length : ℕ) : (b.prepare length).unread = b.unread := by
  simp only [prepare]
  split_ifs <;> simp

theorem le_length_prepare (b : Buffer) (length : ℕ) :
    (b.prepare length)._putPosition + length ≤ (b.prepare length)._data.length := by
  have hb := b.put_le
  by_cases hzero : length = 0
  · simp [prepare,hzero,hb]
  · simp only [prepare,hzero,if_false]
    split_ifs with hshift hgrow hgrow
    · exact le_length_grow b.shift length
    · exact not_lt.mp hgrow
    · exact le_length_grow b length
    · exact not_lt.mp hgrow

/-- `write`: the bytes are put in behind the others. -/
def write (b : Buffer) (data : Bytes) : Buffer where
  _data := (b.prepare data.length)._data.take (b.prepare data.length)._putPosition ++ data ++
    (b.prepare data.length)._data.drop ((b.prepare data.length)._putPosition + data.length)
  _getPosition := (b.prepare data.length)._getPosition
  _putPosition := (b.prepare data.length)._putPosition + data.length
  get_le := (b.prepare data.length).get_le.trans (Nat.le_add_right _ _)
  put_le := by
    have := le_length_prepare b data.length
    simp only [List.length_append,List.length_take,List.length_drop]
    omega

@[simp] theorem unread_write (b : Buffer) (data : Bytes) : (b.write data).unread = b.unread ++ data := by
  have hput := (b.prepare data.length).put_le
  have hget := (b.prepare data.length).get_le
  have htake : ((b.write data)._data.take (b.write data)._putPosition) =
      (b.prepare data.length)._data.take (b.prepare data.length)._putPosition ++ data := by
    simp only [write]
    apply List.take_left'
    simp [hput]
  rw [unread,htake]
  simp only [write]
  rw [List.drop_append_of_le_length (by simpa [hput] using hget)]
  exact congrArg (· ++ data) (unread_prepare b data.length)

/-- Where nothing has been taken out, writing takes nothing out. -/
theorem getPosition_write {b : Buffer} (h : b._getPosition = 0) (data : Bytes) :
    (b.write data)._getPosition = 0 := by
  simp only [write,prepare]
  split_ifs <;> simp [grow,shift,h]

end Buffer
end Tkeycoin
