import Tkeycoin.StackFrame

/-! Form checks on public keys and signatures, before any cryptography. -/
namespace Tkeycoin
namespace SignatureEncoding

def COMPRESSED_PUBLIC_KEY_SIZE : ℕ := 33
def PUBLIC_KEY_SIZE : ℕ := 65

def isCompressedOrUncompressedPubKey (pubKey : ScriptData) : Bool :=
  if pubKey.length < COMPRESSED_PUBLIC_KEY_SIZE then false
  else if pubKey.head? = some 0x04 then pubKey.length == PUBLIC_KEY_SIZE
  else if pubKey.head? = some 0x02 ∨ pubKey.head? = some 0x03 then
    pubKey.length == COMPRESSED_PUBLIC_KEY_SIZE
  else false

def isCompressedPubKey (pubKey : ScriptData) : Bool :=
  if pubKey.length ≠ COMPRESSED_PUBLIC_KEY_SIZE then false
  else pubKey.head? == some 0x02 || pubKey.head? == some 0x03

/-- One integer of the signature: `len` bytes from `start`, neither empty
nor negative nor with a zero byte in front that the sign does not need. -/
def validInteger (sig : Bytes) (len start : ℕ) : Option Bool := do
  if len = 0 then some false
  else
    let first ← sig[start]?
    if first &&& 0x80 ≠ 0 then some false
    else if len > 1 ∧ first = 0 then
      let second ← sig[start+1]?
      some (second &&& 0x80 != 0)
    else some true

/-- `0x30 [total-length] 0x02 [R-length] [R] 0x02 [S-length] [S] [sighash]`. No
result stands for an index beyond the end. -/
def isValidSignatureEncoding (sig : Bytes) : Option Bool := do
  if sig.length < 9 then some false
  else if sig.length > 73 then some false
  else
    let compound ← sig[0]?
    if compound ≠ 0x30 then some false
    else
      let total ← sig[1]?
      if total.toNat ≠ sig.length - 3 then some false
      else
        let lenR ← sig[3]?
        if 5 + lenR.toNat ≥ sig.length then some false
        else
          let lenS ← sig[5 + lenR.toNat]?
          if lenR.toNat + lenS.toNat + 7 ≠ sig.length then some false
          else
            let tagR ← sig[2]?
            if tagR ≠ 0x02 then some false
            else
              let validR ← validInteger sig lenR.toNat 4
              if !validR then some false
              else
                let tagS ← sig[lenR.toNat + 4]?
                if tagS ≠ 0x02 then some false
                else validInteger sig lenS.toNat (lenR.toNat + 6)

theorem validInteger_isSome {sig : Bytes} {len start : ℕ} (h : start + len ≤ sig.length) :
    (validInteger sig len start).isSome := by
  unfold validInteger
  by_cases hl : len = 0
  · simp [hl]
  · have h₁ : start < sig.length := by omega
    by_cases hlen : len > 1
    · have h₂ : start + 1 < sig.length := by omega
      simp only [hl,if_false,List.getElem?_eq_getElem h₁,List.getElem?_eq_getElem h₂,Option.bind_eq_bind,
        Option.bind_some]
      split_ifs <;> simp
    · simp only [hl,hlen,if_false,List.getElem?_eq_getElem h₁,Option.bind_eq_bind,Option.bind_some,
        false_and]
      split_ifs <;> simp

/-- The length tests come early enough for every index to be inside. -/
theorem isValidSignatureEncoding_isSome (sig : Bytes) : (isValidSignatureEncoding sig).isSome := by
  unfold isValidSignatureEncoding
  by_cases h9 : sig.length < 9
  · simp [h9]
  have h₀ : 0 < sig.length := by omega
  have h₁ : 1 < sig.length := by omega
  have h₂ : 2 < sig.length := by omega
  have h₃ : 3 < sig.length := by omega
  simp only [h9,if_false,List.getElem?_eq_getElem h₀,List.getElem?_eq_getElem h₁,
    List.getElem?_eq_getElem h₂,List.getElem?_eq_getElem h₃,Option.bind_eq_bind,Option.bind_some]
  by_cases hR : 5 + sig[3].toNat ≥ sig.length
  · simp only [hR,if_true]
    split_ifs <;> simp
  have h₅ : 5 + sig[3].toNat < sig.length := by omega
  have h₄ : sig[3].toNat + 4 < sig.length := by omega
  simp only [hR,if_false,List.getElem?_eq_getElem h₅,List.getElem?_eq_getElem h₄,Option.bind_some]
  by_cases hS : sig[3].toNat + sig[5 + sig[3].toNat].toNat + 7 = sig.length
  · have hr : (validInteger sig sig[3].toNat 4).isSome := validInteger_isSome (by omega)
    have hs : (validInteger sig sig[5 + sig[3].toNat].toNat (sig[3].toNat + 6)).isSome :=
      validInteger_isSome (by omega)
    obtain ⟨validR,hr⟩ := Option.isSome_iff_exists.mp hr
    simp only [hr,Option.bind_some]
    split_ifs <;> simp [hs]
  · simp only [ne_eq,hS,not_false_eq_true,if_true]
    split_ifs <;> simp

def isDefinedHashtypeSignature : StackFrame → Bool
  | .number _ => false
  | .data sigData =>
    match sigData.getLast? with
    | none => false
    | some back =>
      let nHashType := back &&& ~~~0x80
      !(nHashType < 1 || nHashType > 3)

end SignatureEncoding
end Tkeycoin
