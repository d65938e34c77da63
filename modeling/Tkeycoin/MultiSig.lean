import Tkeycoin.OrderedMatching
import Tkeycoin.StackEffects

/-! Which signatures `op_CheckMultiSig` finds keys for. -/
namespace Tkeycoin

open ActionLogic OrderedMatching

namespace Interpreter

variable (env : Env)

/-- What `checkSignature` answers. `none` where an encoding check or the checker stops it. -/
def answer (scriptCode : Bytes) (sig pubKey : ScriptData) : Option Bool :=
  match checkSignatureEncoding env (.data sig),checkPubKeyEncoding env pubKey,
    env.checker.checkSig sig pubKey scriptCode env.sigversion with
  | .ok _,.ok _,.ok isValid => some isValid
  | _,_,_ => none

/-- `while (fSuccess && sigsCount > 0)` with the indexes and the counts as the source keeps them. -/
def signatureLoop (scriptCode : Bytes) (sigs keys : List ScriptData) :
    ℕ → ℕ → ℕ → ℤ → ℤ → Action Bool
  | 0, _, _, _, _ => pure true
  | fuel+1, sigIndex, keyIndex, sigsCount, keysCount =>
    if sigsCount > 0 then
      match sigs[sigIndex]?,keys[keyIndex]? with
      | some sig,some pubKey => do
        let fOk ← checkSignature env sig pubKey scriptCode
        let sigsLeft := if fOk then sigsCount - 1 else sigsCount
        if sigsLeft > keysCount - 1 then pure false
        else
          signatureLoop scriptCode sigs keys fuel (if fOk then sigIndex + 1 else sigIndex)
            (keyIndex + 1) sigsLeft (keysCount - 1)
      | _,_ => abort .outOfRange
    else pure true

section Answers

variable {env} {scriptCode : Bytes} {sig pubKey : ScriptData} {sigs keys : List ScriptData}

theorem checkSignature_some {isValid : Bool} (h : answer env scriptCode sig pubKey = some isValid)
    (s : Interpreter) : (checkSignature env sig pubKey scriptCode).run s = .ok isValid s := by
  cases hsig : checkSignatureEncoding env (.data sig) <;>
    cases hkey : checkPubKeyEncoding env pubKey <;>
      cases hcheck : env.checker.checkSig sig pubKey scriptCode env.sigversion <;>
        simp [answer,hsig,hkey,hcheck] at h
  simp only [checkSignature,hsig,hkey,hcheck,h]
  rfl

theorem checkSignature_none (h : answer env scriptCode sig pubKey = none) (s : Interpreter) :
    ∃ e, (checkSignature env sig pubKey scriptCode).run s = .error e s := by
  simp only [checkSignature]
  cases hsig : checkSignatureEncoding env (.data sig) with
  | error e => exact ⟨e,rfl⟩
  | ok _ =>
    cases hkey : checkPubKeyEncoding env pubKey with
    | error e => exact ⟨e,rfl⟩
    | ok _ =>
      cases hcheck : env.checker.checkSig sig pubKey scriptCode env.sigversion with
      | error e => exact ⟨e.toStop,rfl⟩
      | ok isValid => simp [answer,hsig,hkey,hcheck] at h

theorem checkSignatures_nil (s : Interpreter) :
    (checkSignatures env scriptCode [] keys).run s = .ok true s := by
  cases keys <;> rfl

/-- One round of the loop, when it is not the last one. -/
theorem checkSignatures_cons {fOk : Bool} (h : answer env scriptCode sig pubKey = some fOk)
    (s : Interpreter) :
    (checkSignatures env scriptCode (sig :: sigs) (pubKey :: keys)).run s =
      if (if fOk then sigs else sig :: sigs).length > keys.length then .ok false s
      else (checkSignatures env scriptCode (if fOk then sigs else sig :: sigs) keys).run s := by
  rw [checkSignatures,run_bind_ok (checkSignature_some h s)]
  dsimp only
  split_ifs <;> rfl

/-- The loop gives up where no assignment is left, with signatures for no more than the keys. -/
theorem checkSignatures_false_iff (h : sigs.length ≤ keys.length) (s : Interpreter) :
    (checkSignatures env scriptCode sigs keys).run s = .ok false s ↔
      GivesUp (answer env scriptCode) sigs keys := by
  induction keys generalizing sigs with
  | nil =>
    obtain rfl : sigs = [] := List.eq_nil_of_length_eq_zero (by simpa using h)
    simp [checkSignatures_nil,not_givesUp_nil]
  | cons pubKey keys ih =>
    cases sigs with
    | nil => simp [checkSignatures_nil,not_givesUp_nil]
    | cons sig sigs =>
      have hle : sigs.length ≤ keys.length := by simpa using h
      rw [givesUp_cons_iff hle]
      cases hanswer : answer env scriptCode sig pubKey with
      | none =>
        obtain ⟨e,he⟩ := checkSignature_none hanswer s
        rw [checkSignatures,run_bind_error he]
        simp
      | some fOk =>
        rw [checkSignatures_cons hanswer]
        cases fOk with
        | true =>
          simp only [if_true,if_neg (not_lt.mpr hle)]
          rw [ih hle]
          simp
        | false =>
          simp only [Bool.false_eq_true,if_false]
          split_ifs with hshort
          · have hgives : GivesUp (answer env scriptCode) (sig :: sigs) keys := .short hshort
            simp [hgives]
          · rw [ih (not_lt.mp hshort)]
            simp

/-- Where every pair has an answer, the loop ends with one and leaves the state alone. -/
theorem checkSignatures_ends (h : sigs.length ≤ keys.length)
    (hanswers : ∀ sig ∈ sigs, ∀ pubKey ∈ keys, (answer env scriptCode sig pubKey).isSome)
    (s : Interpreter) : ∃ fSuccess, (checkSignatures env scriptCode sigs keys).run s = .ok fSuccess s := by
  induction keys generalizing sigs with
  | nil =>
    obtain rfl : sigs = [] := List.eq_nil_of_length_eq_zero (by simpa using h)
    exact ⟨true,checkSignatures_nil s⟩
  | cons pubKey keys ih =>
    cases sigs with
    | nil => exact ⟨true,checkSignatures_nil s⟩
    | cons sig sigs =>
      obtain ⟨fOk,hanswer⟩ := Option.isSome_iff_exists.mp (hanswers sig (by simp) pubKey (by simp))
      have hle : sigs.length ≤ keys.length := by simpa using h
      rw [checkSignatures_cons hanswer]
      cases fOk with
      | true =>
        simp only [if_true,if_neg (not_lt.mpr hle)]
        exact ih hle fun i hi p hp => hanswers i (by simp [hi]) p (by simp [hp])
      | false =>
        simp only [Bool.false_eq_true,if_false]
        split_ifs with hshort
        · exact ⟨false,rfl⟩
        · exact ih (not_lt.mp hshort) fun i hi p hp => hanswers i hi p (by simp [hp])

/-- The loop over indexes goes through the signatures and keys that are left, and never beyond
either vector. -/
theorem signatureLoop_eq (fuel : ℕ) {sigIndex keyIndex : ℕ} (hsig : sigIndex ≤ sigs.length)
    (hkey : keyIndex ≤ keys.length)
    (hcount : (sigs.drop sigIndex).length ≤ (keys.drop keyIndex).length)
    (hfuel : (keys.drop keyIndex).length < fuel) :
    signatureLoop env scriptCode sigs keys fuel sigIndex keyIndex (sigs.length - sigIndex)
        (keys.length - keyIndex) =
      checkSignatures env scriptCode (sigs.drop sigIndex) (keys.drop keyIndex) := by
  induction fuel generalizing sigIndex keyIndex with
  | zero => omega
  | succ fuel ih =>
    simp only [List.length_drop] at hcount hfuel
    cases hsigs : sigs.drop sigIndex with
    | nil =>
      have hnone : ¬ ((sigs.length : ℤ) - sigIndex > 0) := by
        have := List.drop_eq_nil_iff.mp hsigs
        omega
      rw [signatureLoop,if_neg hnone]
      cases keys.drop keyIndex <;> rfl
    | cons sig sigsLeft =>
      have hlt : sigIndex < sigs.length := by
        by_contra hge
        simp [List.drop_eq_nil_of_le (not_lt.mp hge)] at hsigs
      have hlt' : keyIndex < keys.length := by omega
      obtain ⟨hget,hrest⟩ := List.cons.inj ((List.drop_eq_getElem_cons hlt).symm.trans hsigs)
      have hsome : (sigs.length : ℤ) - sigIndex > 0 := by omega
      rw [List.drop_eq_getElem_cons hlt',signatureLoop,if_pos hsome,checkSignatures]
      simp only [List.getElem?_eq_getElem hlt,List.getElem?_eq_getElem hlt',hget]
      apply bind_congr
      intro fOk
      have hkeysLeft : (keys.length : ℤ) - keyIndex - 1 = keys.length - (keyIndex + 1 : ℕ) := by
        push_cast
        ring
      have hsigsLeft : (sigs.length : ℤ) - sigIndex - 1 = sigs.length - (sigIndex + 1 : ℕ) := by
        push_cast
        ring
      have hlength := congrArg List.length hsigs
      simp only [List.length_drop,List.length_cons] at hlength
      -- one key fewer is left, for the same signatures or for one fewer
      have hround (index : ℕ) (hindex : index ≤ sigs.length)
          (hle : sigs.length - index ≤ keys.length - keyIndex) :
          (if (sigs.length : ℤ) - index > keys.length - (keyIndex + 1 : ℕ) then pure false
            else signatureLoop env scriptCode sigs keys fuel index (keyIndex + 1) (sigs.length - index)
              (keys.length - (keyIndex + 1 : ℕ))) =
            if (sigs.drop index).length > (keys.drop (keyIndex + 1)).length then pure false
            else checkSignatures env scriptCode (sigs.drop index) (keys.drop (keyIndex + 1)) := by
        simp only [List.length_drop]
        split_ifs with h₁ h₂ h₂
        · rfl
        · omega
        · omega
        · exact ih hindex (by omega) (by simp only [List.length_drop]; omega)
            (by simp only [List.length_drop]; omega)
      cases fOk with
      | true =>
        simp only [if_true,hkeysLeft,hsigsLeft,← hrest]
        exact hround (sigIndex + 1) hlt (by omega)
      | false =>
        simp only [Bool.false_eq_true,if_false,hkeysLeft,← hsigs]
        exact hround sigIndex hsig (by omega)

end Answers

section Assignment

variable (scriptCode : Bytes) (sigs keys : List ScriptData) (verifies : ScriptData → ScriptData → Bool)

/-- With no more signatures than keys and no error raised, the pass reads within both vectors and
succeeds exactly if the signatures can be assigned to keys in order. -/
theorem checkSignatures_assigns (hcount : sigs.length ≤ keys.length)
    (hsigs : ∀ sig ∈ sigs, ∃ ok, checkSignatureEncoding env (.data sig) = .ok ok)
    (hkeys : ∀ pubKey ∈ keys, ∃ ok, checkPubKeyEncoding env pubKey = .ok ok)
    (hchecker : ∀ sig ∈ sigs, ∀ pubKey ∈ keys,
      env.checker.checkSig sig pubKey scriptCode env.sigversion = .ok (verifies sig pubKey))
    (s : Interpreter) :
    signatureLoop env scriptCode sigs keys (keys.length + 1) 0 0 sigs.length keys.length =
        checkSignatures env scriptCode sigs keys ∧
      ∃ fSuccess, (checkSignatures env scriptCode sigs keys).run s = .ok fSuccess s ∧
        (fSuccess = true ↔
          Assignable (fun sig pubKey => verifies sig pubKey = true) sigs keys) := by
  have hanswer : ∀ sig ∈ sigs, ∀ pubKey ∈ keys,
      answer env scriptCode sig pubKey = some (verifies sig pubKey) := by
    intro sig hsig pubKey hkey
    obtain ⟨_,h₁⟩ := hsigs sig hsig
    obtain ⟨_,h₂⟩ := hkeys pubKey hkey
    simp [answer,h₁,h₂,hchecker sig hsig pubKey hkey]
  have hanswers : ∀ sig ∈ sigs, ∀ pubKey ∈ keys, (answer env scriptCode sig pubKey).isSome := by
    intro sig hsig pubKey hkey
    simp [hanswer sig hsig pubKey hkey]
  constructor
  · have hloop : _ = checkSignatures env scriptCode (sigs.drop 0) (keys.drop 0) :=
      signatureLoop_eq (keys.length + 1) (Nat.zero_le _) (Nat.zero_le _) (by simpa using hcount) (by simp)
    simpa using hloop
  · obtain ⟨fSuccess,hrun⟩ := checkSignatures_ends hcount hanswers s
    refine ⟨fSuccess,hrun,?_⟩
    have hassign : Assignable (fun sig pubKey => verifies sig pubKey = true) sigs keys ↔
        Assignable (Accepts (answer env scriptCode)) sigs keys := by
      apply assignable_congr
      intro sig hsig pubKey hkey
      simp [Accepts,hanswer sig hsig pubKey hkey]
    have hfalse : _ ↔ GivesUp (answer env scriptCode) sigs keys := checkSignatures_false_iff hcount s
    rw [givesUp_iff hanswers,hrun] at hfalse
    rw [hassign]
    cases fSuccess <;> simpa using hfalse

/-- A checker for which a signature verifies under the key of the same bytes, for examples. -/
def comparing : SignatureChecker :=
  ⟨fun sig pubKey _ _ => .ok (sig == pubKey),fun _ => .ok false,fun _ => .ok false⟩

/-- Two signatures for the last two of three keys. -/
theorem checkSignatures_assigns_comparing :
    signatureLoop (.ofFlags .empty comparing .base ⟨id,id,id⟩) [] [[2],[3]] [[1],[2],[3]] 4 0 0 2 3 =
        checkSignatures (.ofFlags .empty comparing .base ⟨id,id,id⟩) [] [[2],[3]] [[1],[2],[3]] ∧
      ∃ fSuccess, (checkSignatures (.ofFlags .empty comparing .base ⟨id,id,id⟩) [] [[2],[3]]
          [[1],[2],[3]]).run fresh = .ok fSuccess fresh ∧
        (fSuccess = true ↔ Assignable (fun sig pubKey : ScriptData => (sig == pubKey) = true) [[2],[3]]
          [[1],[2],[3]]) := by
  refine checkSignatures_assigns (.ofFlags .empty comparing .base ⟨id,id,id⟩) [] [[2],[3]] [[1],[2],[3]]
    (fun sig pubKey => sig == pubKey) (by decide) (fun sig _ => ?_) (fun _ _ => ⟨true,rfl⟩)
    (fun _ _ _ _ => rfl) fresh
  cases sig <;> exact ⟨true,rfl⟩

end Assignment
end Interpreter
end Tkeycoin
