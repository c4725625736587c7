import CgSql.Flow

/-!
# Runs of flow calls

A run is any sequence of calls of the flow functions in which every pushed context is popped again: the calls semantic analysis
makes for a piece of a program. What holds across every nesting of contexts is stated over runs.
-/

namespace CgSql

/-- What a run is held to: the keys it may set, and the states in which it may pop a branch group. -/
structure Rules where
  typed : Key → Prop
  group : Flow → Prop

/-- The rules that allow everything. -/
def Rules.free : Rules := ⟨fun _ => True, fun _ => True⟩

/-- `Run R s s'`: a run of flow calls takes `s` to `s'`, within the same context, none of its assertions failing. -/
inductive Run (R : Rules) : Flow → Flow → Prop
  | refl {s : Flow} : Run R s s
  | set {s t t' : Flow} {k : Key} : Run R s t → R.typed k → t.setFlag k = .ok t' → Run R s t'
  | unset {s t t' : Flow} {k : Key} : Run R s t → t.unsetFlag k = .ok t' → Run R s t'
  | coversAllCases {s t t' : Flow} {covers : Bool} : Run R s t → t.setCoversAllCases covers = .ok t' → Run R s t'
  | emptyBranch {s t t' : Flow} : Run R s t → t.addEmptyBranch = .ok t' → Run R s t'
  | alwaysJumps {s t t' : Flow} {jumps : Bool} : Run R s t → t.setAlwaysJumps jumps = .ok t' → Run R s t'
  | normal {s t t₁ t' : Flow} : Run R s t → Run R t.pushNormal t₁ → t₁.popNormal = .ok t' → Run R s t'
  | branchGroup {s t t₁ t' : Flow} :
      Run R s t → Run R t.pushBranchGroup t₁ → R.group t₁ → t₁.popBranchGroup = .ok t' → Run R s t'
  | branch {s t t₀ t₁ t' : Flow} :
      Run R s t → t.pushBranch = .ok t₀ → Run R t₀ t₁ → t₁.popBranch = .ok t' → Run R s t'
  | jump {s t t₁ t' : Flow} : Run R s t → Run R t.pushJump t₁ → t₁.popJump = .ok t' → Run R s t'

variable {R : Rules}

/-- Runs compose. -/
theorem Run.trans {s t u : Flow} (h₁ : Run R s t) (h₂ : Run R t u) : Run R s u := by
  induction h₂ with
  | refl => exact h₁
  | set _ hk he ih => exact .set (ih h₁) hk he
  | unset _ he ih => exact .unset (ih h₁) he
  | coversAllCases _ he ih => exact .coversAllCases (ih h₁) he
  | emptyBranch _ he ih => exact .emptyBranch (ih h₁) he
  | alwaysJumps _ he ih => exact .alwaysJumps (ih h₁) he
  | normal _ hr he ih _ => exact .normal (ih h₁) hr he
  | branchGroup _ hr hg he ih _ => exact .branchGroup (ih h₁) hr hg he
  | branch _ hp hr he ih _ => exact .branch (ih h₁) hp hr he
  | jump _ hr he ih _ => exact .jump (ih h₁) hr he

/-- A run held to rules keeps any weaker rules. -/
theorem Run.mono {R' : Rules} (ht : ∀ k, R.typed k → R'.typed k) (hg : ∀ s, R.group s → R'.group s) {s t : Flow}
    (h : Run R s t) : Run R' s t := by
  induction h with
  | refl => exact .refl
  | set _ hk he ih => exact .set ih (ht _ hk) he
  | unset _ he ih => exact .unset ih he
  | coversAllCases _ he ih => exact .coversAllCases ih he
  | emptyBranch _ he ih => exact .emptyBranch ih he
  | alwaysJumps _ he ih => exact .alwaysJumps ih he
  | normal _ _ he ih ihb => exact .normal ih ihb he
  | branchGroup _ _ hgr he ih ihb => exact .branchGroup ih ihb (hg _ hgr) he
  | branch _ hp _ he ih ihb => exact .branch ih hp ihb he
  | jump _ _ he ih ihb => exact .jump ih ihb he

/-- `Calm R s s'`: a run that leaves the kind and the branches of the current context alone. It only sets and un-sets flags there,
and pushes and pops contexts that are no branches of it. -/
inductive Calm (R : Rules) : Flow → Flow → Prop
  | refl {s : Flow} : Calm R s s
  | set {s t t' : Flow} {k : Key} : Calm R s t → R.typed k → t.setFlag k = .ok t' → Calm R s t'
  | unset {s t t' : Flow} {k : Key} : Calm R s t → t.unsetFlag k = .ok t' → Calm R s t'
  | normal {s t t₁ t' : Flow} : Calm R s t → Run R t.pushNormal t₁ → t₁.popNormal = .ok t' → Calm R s t'
  | branchGroup {s t t₁ t' : Flow} :
      Calm R s t → Run R t.pushBranchGroup t₁ → R.group t₁ → t₁.popBranchGroup = .ok t' → Calm R s t'
  | jump {s t t₁ t' : Flow} : Calm R s t → Run R t.pushJump t₁ → t₁.popJump = .ok t' → Calm R s t'

/-- A calm run is a run. -/
theorem Calm.run {s t : Flow} (h : Calm R s t) : Run R s t := by
  induction h with
  | refl => exact .refl
  | set _ hk he ih => exact .set ih hk he
  | unset _ he ih => exact .unset ih he
  | normal _ hr he ih => exact .normal ih hr he
  | branchGroup _ hr hg he ih => exact .branchGroup ih hr hg he
  | jump _ hr he ih => exact .jump ih hr he

/-- Calm runs compose. -/
theorem Calm.trans {s t u : Flow} (h₁ : Calm R s t) (h₂ : Calm R t u) : Calm R s u := by
  induction h₂ with
  | refl => exact h₁
  | set _ hk he ih => exact .set ih hk he
  | unset _ he ih => exact .unset ih he
  | normal _ hr he ih => exact .normal ih hr he
  | branchGroup _ hr hg he ih => exact .branchGroup ih hr hg he
  | jump _ hr he ih => exact .jump ih hr he

/-- A calm run held to rules keeps any weaker rules. -/
theorem Calm.mono {R' : Rules} (ht : ∀ k, R.typed k → R'.typed k) (hg : ∀ s, R.group s → R'.group s) {s t : Flow}
    (h : Calm R s t) : Calm R' s t := by
  induction h with
  | refl => exact .refl
  | set _ hk he ih => exact .set ih (ht _ hk) he
  | unset _ he ih => exact .unset ih he
  | normal _ hr he ih => exact .normal ih (hr.mono ht hg) he
  | branchGroup _ hr hgr he ih => exact .branchGroup ih (hr.mono ht hg) (hg _ hgr) he
  | jump _ hr he ih => exact .jump ih (hr.mono ht hg) he

end CgSql
