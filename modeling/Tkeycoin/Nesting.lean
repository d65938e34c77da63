import Tkeycoin.ActionLogic

/-! Conditionals in a list of instructions: the machine that keeps a flag for each open one, and the
evaluation of the nested conditionals that the list stands for. -/
namespace Tkeycoin
namespace Nesting

variable {ι ε σ : Type}

/-- An instruction, by its part in the conditionals around it. -/
inductive Token (ι : Type)
  | plain (i : ι)
  | opening (i : ι)
  | middle (i : ι)
  | closing (i : ι)

mutual

/-- Instructions in which every conditional is closed. -/
inductive Block (ι : Type)
  | nil
  | plain (i : ι) (rest : Block ι)
  | conditional (i : ι) (branches : Branches ι) (rest : Block ι)

/-- What stands behind the opening of a conditional, up to its closing. -/
inductive Branches (ι : Type)
  | last (body : Block ι) (i : ι)
  | next (body : Block ι) (i : ι) (more : Branches ι)

end

mutual

/-- The end of the list, with conditionals that are left open. -/
inductive Tail (ι : Type)
  | ended
  | unclosed (i : ι) (branches : OpenBranches ι)

/-- What stands behind an opening without a closing. -/
inductive OpenBranches (ι : Type)
  | last (body : Block ι) (tail : Tail ι)
  | next (body : Block ι) (i : ι) (more : OpenBranches ι)

end

/-- What any list of instructions stands for. -/
inductive Form (ι : Type)
  | tailed (body : Block ι) (tail : Tail ι)
  | strayMiddle (body : Block ι) (i : ι) (rest : Form ι)
  | strayClosing (body : Block ι) (i : ι) (rest : Form ι)

/-- Every conditional is closed, and nothing else lies outside of them. -/
def Form.Complete (form : Form ι) : Prop := ∃ body, form = .tailed body .ended

section Tokens

mutual

def Block.tokens : Block ι → List (Token ι)
  | .nil => []
  | .plain i rest => .plain i :: rest.tokens
  | .conditional i branches rest => .opening i :: (branches.tokens ++ rest.tokens)

def Branches.tokens : Branches ι → List (Token ι)
  | .last body i => body.tokens ++ [.closing i]
  | .next body i more => body.tokens ++ .middle i :: more.tokens

end

mutual

def Tail.tokens : Tail ι → List (Token ι)
  | .ended => []
  | .unclosed i branches => .opening i :: branches.tokens

def OpenBranches.tokens : OpenBranches ι → List (Token ι)
  | .last body tail => body.tokens ++ tail.tokens
  | .next body i more => body.tokens ++ .middle i :: more.tokens

end

def Form.tokens : Form ι → List (Token ι)
  | .tailed body tail => body.tokens ++ tail.tokens
  | .strayMiddle body i rest => body.tokens ++ .middle i :: rest.tokens
  | .strayClosing body i rest => body.tokens ++ .closing i :: rest.tokens

end Tokens

section Parse

/-- The branches of an opening put before the form, and what is behind its closing, if there is one. -/
def Form.close : Form ι → (Branches ι × Form ι) ⊕ OpenBranches ι
  | .tailed body tail => .inr (.last body tail)
  | .strayMiddle body i rest =>
    match rest.close with
    | .inl (branches,rest) => .inl (.next body i branches,rest)
    | .inr branches => .inr (.next body i branches)
  | .strayClosing body i rest => .inl (.last body i,rest)

def Form.mapBody (f : Block ι → Block ι) : Form ι → Form ι
  | .tailed body tail => .tailed (f body) tail
  | .strayMiddle body i rest => .strayMiddle (f body) i rest
  | .strayClosing body i rest => .strayClosing (f body) i rest

/-- A form with one more instruction before it. -/
def Form.cons : Token ι → Form ι → Form ι
  | .plain i, form => form.mapBody (.plain i)
  | .opening i, form =>
    match form.close with
    | .inl (branches,rest) => rest.mapBody (.conditional i branches)
    | .inr branches => .tailed .nil (.unclosed i branches)
  | .middle i, form => .strayMiddle .nil i form
  | .closing i, form => .strayClosing .nil i form

def parse : List (Token ι) → Form ι
  | [] => .tailed .nil .ended
  | token :: tokens => (parse tokens).cons token

/-- The parts of a closed form are its instructions. -/
theorem Form.close_tokens (form : Form ι) :
    match form.close with
    | .inl (branches,rest) => branches.tokens ++ rest.tokens = form.tokens
    | .inr branches => branches.tokens = form.tokens := by
  induction form with
  | tailed body tail => rfl
  | strayMiddle body i rest ih =>
    rw [Form.close]
    cases hclose : rest.close with
    | inl parts =>
      rw [hclose] at ih
      simp only [Branches.tokens,Form.tokens,List.append_assoc,List.cons_append,ih]
    | inr branches =>
      rw [hclose] at ih
      simp only [OpenBranches.tokens,Form.tokens,ih]
  | strayClosing body i rest =>
    simp [Form.close,Branches.tokens,Form.tokens]

theorem Form.mapBody_tokens {f : Block ι → Block ι} {front : List (Token ι)}
    (h : ∀ body, (f body).tokens = front ++ body.tokens) (form : Form ι) :
    (form.mapBody f).tokens = front ++ form.tokens := by
  cases form <;> simp [Form.mapBody,Form.tokens,h]

theorem Form.cons_tokens (token : Token ι) (form : Form ι) :
    (form.cons token).tokens = token :: form.tokens := by
  cases token with
  | plain i =>
    have hbody (body : Block ι) : (Block.plain i body).tokens = [.plain i] ++ body.tokens := rfl
    exact Form.mapBody_tokens hbody form
  | opening i =>
    have hclose := form.close_tokens
    rw [Form.cons]
    rcases hparts : form.close with ⟨branches,rest⟩ | branches
    · rw [hparts] at hclose
      have hbody (body : Block ι) :
          (Block.conditional i branches body).tokens = (.opening i :: branches.tokens) ++ body.tokens := rfl
      have hrest := Form.mapBody_tokens hbody rest
      rw [hrest,List.cons_append]
      exact congrArg _ hclose
    · rw [hparts] at hclose
      simp only [Form.tokens,Tail.tokens,Block.tokens,List.nil_append]
      exact congrArg _ hclose
  | middle i => rfl
  | closing i => rfl

/-- Every list is the one its form stands for. -/
theorem parse_tokens (tokens : List (Token ι)) : (parse tokens).tokens = tokens := by
  induction tokens with
  | nil => rfl
  | cons token tokens ih => rw [parse,Form.cons_tokens,ih]

end Parse

/-- What instructions do: one that takes effect, one that has no effect of its own, one that opens a
conditional and selects its first branch or not, and what is done of one that is out of place, before
the failure. `finish` is what is done at the end of the list. -/
structure Machine (ι ε σ : Type) where
  exec : ι → EStateM ε σ Unit
  pass : ι → EStateM ε σ Unit
  enter : ι → EStateM ε σ Bool
  misplaced : ι → EStateM ε σ Unit
  finish : EStateM ε σ Unit
  unbalanced : ε

namespace Machine

variable (M : Machine ι ε σ)

def act (active : Bool) (i : ι) : EStateM ε σ Unit := if active then M.exec i else M.pass i

/-- In a branch that is not taken no branch is selected. -/
def choose (active : Bool) (i : ι) : EStateM ε σ Bool :=
  if active then M.enter i
  else do
    M.pass i
    pure false

/-- The flags list the innermost conditional first. -/
def step : Token ι → List Bool → EStateM ε σ (List Bool)
  | .plain i, flags => do
    M.act (flags.all id) i
    pure flags
  | .opening i, flags => do
    let flag ← M.choose (flags.all id) i
    pure (flag :: flags)
  | .middle i, [] => do
    M.misplaced i
    throw M.unbalanced
  | .middle i, flag :: flags => do
    M.pass i
    pure ((!flag) :: flags)
  | .closing i, [] => do
    M.misplaced i
    throw M.unbalanced
  | .closing i, _ :: flags => do
    M.pass i
    pure flags

def steps : List (Token ι) → List Bool → EStateM ε σ (List Bool)
  | [], flags => pure flags
  | token :: tokens, flags => do
    let flags ← M.step token flags
    steps tokens flags

/-- What is done when the list is over. -/
def balance (flags : List Bool) : EStateM ε σ Unit := do
  M.finish
  if flags = [] then pure () else throw M.unbalanced

def run (tokens : List (Token ι)) (flags : List Bool) : EStateM ε σ Unit := do
  let flags ← M.steps tokens flags
  M.balance flags

end Machine

section Evaluation

mutual

/-- An instruction takes effect if the block is active. -/
def Block.eval (M : Machine ι ε σ) (active : Bool) : Block ι → EStateM ε σ Unit
  | .nil => pure ()
  | .plain i rest => do
    M.act active i
    rest.eval M active
  | .conditional i branches rest => do
    let chosen ← M.choose active i
    branches.eval M active chosen
    rest.eval M active

/-- A branch is active if the conditional is and the branch is the one chosen; every other branch is. -/
def Branches.eval (M : Machine ι ε σ) (active chosen : Bool) : Branches ι → EStateM ε σ Unit
  | .last body i => do
    body.eval M (chosen && active)
    M.pass i
  | .next body i more => do
    body.eval M (chosen && active)
    M.pass i
    more.eval M active (!chosen)

end

mutual

def Tail.eval (M : Machine ι ε σ) (active : Bool) : Tail ι → EStateM ε σ Unit
  | .ended => M.finish
  | .unclosed i branches => do
    let chosen ← M.choose active i
    branches.eval M active chosen

def OpenBranches.eval (M : Machine ι ε σ) (active chosen : Bool) : OpenBranches ι → EStateM ε σ Unit
  | .last body tail => do
    body.eval M (chosen && active)
    tail.eval M (chosen && active)
  | .next body i more => do
    body.eval M (chosen && active)
    M.pass i
    more.eval M active (!chosen)

end

/-- What is left open is a failure at the end of the list, and what is out of place where it stands. -/
def Form.eval (M : Machine ι ε σ) : Form ι → EStateM ε σ Unit
  | .tailed body .ended => do
    body.eval M true
    M.finish
  | .tailed body (.unclosed i branches) => do
    body.eval M true
    (Tail.unclosed i branches).eval M true
    throw M.unbalanced
  | .strayMiddle body i _ => do
    body.eval M true
    M.misplaced i
    throw M.unbalanced
  | .strayClosing body i _ => do
    body.eval M true
    M.misplaced i
    throw M.unbalanced

end Evaluation

section Agreement

variable (M : Machine ι ε σ)

theorem throw_bind {α β : Type} (e : ε) (f : α → EStateM ε σ β) :
    (throw e : EStateM ε σ α) >>= f = throw e := rfl

theorem Machine.steps_append (tokens tokens' : List (Token ι)) (flags : List Bool) :
    M.steps (tokens ++ tokens') flags = M.steps tokens flags >>= M.steps tokens' := by
  induction tokens generalizing flags with
  | nil => simp [steps]
  | cons token tokens ih => simp [steps,ih]

mutual

/-- The flags come back behind a block, and in it all of them must be set. -/
theorem Block.steps_tokens (flags : List Bool) : (block : Block ι) →
    M.steps block.tokens flags = (do block.eval M (flags.all id); pure flags)
  | .nil => by simp [Block.tokens,Machine.steps,Block.eval]
  | .plain i rest => by
    have ih := Block.steps_tokens flags rest
    simp [Block.tokens,Machine.steps,Machine.step,Block.eval,ih]
  | .conditional i branches rest => by
    have ih := Block.steps_tokens flags rest
    have hbranches := fun chosen => Branches.steps_tokens flags chosen branches
    simp [Block.tokens,Machine.steps,Machine.step,Machine.steps_append,Block.eval,ih,hbranches]

/-- The flag on top is gone behind the closing. -/
theorem Branches.steps_tokens (flags : List Bool) (chosen : Bool) : (branches : Branches ι) →
    M.steps branches.tokens (chosen :: flags) = (do branches.eval M (flags.all id) chosen; pure flags)
  | .last body i => by
    have ih := Block.steps_tokens (chosen :: flags) body
    simp [Branches.tokens,Machine.steps,Machine.step,Machine.steps_append,Branches.eval,ih]
  | .next body i more => by
    have ih := Block.steps_tokens (chosen :: flags) body
    have hmore := Branches.steps_tokens flags (!chosen) more
    simp [Branches.tokens,Machine.steps,Machine.step,Machine.steps_append,Branches.eval,ih,hmore]

end

mutual

theorem Tail.run_tokens (flags : List Bool) (hflags : flags ≠ []) : (tail : Tail ι) →
    M.run tail.tokens flags = (do tail.eval M (flags.all id); throw M.unbalanced)
  | .ended => by simp [Tail.tokens,Machine.run,Machine.steps,Machine.balance,Tail.eval,hflags]
  | .unclosed i branches => by
    have hbranches := fun chosen => OpenBranches.run_tokens flags chosen branches
    simp only [Machine.run] at hbranches
    simp [Tail.tokens,Machine.run,Machine.steps,Machine.step,Tail.eval,hbranches]

theorem OpenBranches.run_tokens (flags : List Bool) (chosen : Bool) : (branches : OpenBranches ι) →
    M.run branches.tokens (chosen :: flags) =
      (do branches.eval M (flags.all id) chosen; throw M.unbalanced)
  | .last body tail => by
    have hbody := Block.steps_tokens M (chosen :: flags) body
    have ih := Tail.run_tokens (chosen :: flags) (by simp) tail
    simp only [Machine.run] at ih
    simp [OpenBranches.tokens,Machine.run,Machine.steps_append,OpenBranches.eval,hbody,ih]
  | .next body i more => by
    have hbody := Block.steps_tokens M (chosen :: flags) body
    have ih := OpenBranches.run_tokens flags (!chosen) more
    simp only [Machine.run] at ih
    simp [OpenBranches.tokens,Machine.run,Machine.steps,Machine.step,Machine.steps_append,
      OpenBranches.eval,hbody,ih]

end

theorem Form.run_tokens (form : Form ι) : M.run form.tokens [] = form.eval M := by
  cases form with
  | tailed body tail =>
    have hbody := Block.steps_tokens M [] body
    cases tail with
    | ended =>
      simp [Form.tokens,Tail.tokens,Machine.run,Machine.balance,Form.eval,hbody]
    | unclosed i branches =>
      have hbranches := fun chosen => OpenBranches.run_tokens M [] chosen branches
      simp only [Machine.run] at hbranches
      simp [Form.tokens,Tail.tokens,Machine.run,Machine.steps,Machine.step,Machine.steps_append,Form.eval,
        Tail.eval,hbody,hbranches]
  | strayMiddle body i rest =>
    have hbody := Block.steps_tokens M [] body
    simp [Form.tokens,Machine.run,Machine.steps,Machine.step,Machine.steps_append,Form.eval,hbody,throw_bind]
  | strayClosing body i rest =>
    have hbody := Block.steps_tokens M [] body
    simp [Form.tokens,Machine.run,Machine.steps,Machine.step,Machine.steps_append,Form.eval,hbody,throw_bind]

/-- The machine with flags evaluates the nested conditionals. -/
theorem run_eq_eval (tokens : List (Token ι)) : M.run tokens [] = (parse tokens).eval M := by
  rw [← Form.run_tokens,parse_tokens]

variable {M}

/-- What ends with a failure does not succeed. -/
theorem throw_last {α β : Type} {x : EStateM ε σ α} {e : ε} {b : β} {s t : σ} :
    (x >>= fun _ => throw e).run s ≠ .ok b t := by
  rw [EStateM.run_bind]
  cases x.run s with
  | ok a u => exact nofun
  | error e u => exact nofun

/-- An evaluation that succeeds is of a complete form, and comes to its end. -/
theorem Form.eval_ok {form : Form ι} {s t : σ} (h : (form.eval M).run s = .ok () t) :
    form.Complete ∧ ∃ u, M.finish.run u = .ok () t := by
  cases form with
  | tailed body tail =>
    cases tail with
    | ended =>
      rw [Form.eval,EStateM.run_bind] at h
      split at h
      · exact ⟨⟨body,rfl⟩,_,h⟩
      · cases h
    | unclosed i branches =>
      rw [Form.eval,← bind_assoc] at h
      exact absurd h throw_last
  | strayMiddle body i rest =>
    rw [Form.eval,← bind_assoc] at h
    exact absurd h throw_last
  | strayClosing body i rest =>
    rw [Form.eval,← bind_assoc] at h
    exact absurd h throw_last

end Agreement
end Nesting
end Tkeycoin
