import CgSql.Exec
import CgSql.Lemmas.SemTracks

/-!
# What evaluation changes and tells

An expression changes globals only, and those only when it calls a procedure. A condition that was evaluated tells which of the names
it tests are not null: those are still not null when its value is known, unless they are globals and a later operand makes a call.
-/

namespace CgSql

open Exits Exits.Prog

variable {rt rt' : Rt} {v : Option Int}

variable {rt rt' : Rt} {x : Option Int}

/-! ## What improvements stand for

The facts at run time that the improvements of a flow state stand for. Flags are flags of type words, so what a flag says is said of
every name with that type word. -/

/-- The fact at run time that an improvement of a name stands for. -/
def Rt.holds (Γ : Env) (rt : Rt) : Loc → SemFlag → Prop
  | l, .initComplete => rt.assigned l = true
  | .cursor c, .hasRow => (rt.val (.cursor c)).isSome
  | _, .hasRow => True
  | .cursor _, .inferredNotnull => True
  | l, .inferredNotnull => (rt.read Γ l).isSome

/-- No two names share a type word. Cursors declared LIKE one another, or LIKE one shape, share those of their fields. -/
def Env.Distinct (Γ : Env) : Prop := Function.Injective Γ.addr

/-- No other name shares the type word of this one. -/
def Env.Alone (Γ : Env) (l : Loc) : Prop := ∀ l', Γ.addr l' = Γ.addr l → l' = l

theorem Env.Distinct.alone {Γ : Env} (hΓ : Γ.Distinct) (l : Loc) : Γ.Alone l := fun _ h => hΓ h

variable {Γ : Env} {W : World}

/-! ## Frames -/

/-- Two states agree, as far as an evaluation with or without calls goes: on all names, or on those that are not global. -/
def Rt.Agree (Γ : Env) (calls : Bool) (rt rt' : Rt) : Prop :=
  ∀ l, Γ.isGlobal l = false ∨ calls = false → rt'.val l = rt.val l

namespace Rt.Agree

variable {rt rt₁ rt₂ : Rt} {c' : Bool}

theorem refl (rt : Rt) : Rt.Agree Γ c rt rt := fun _ _ => rfl

theorem trans (h₁ : Rt.Agree Γ c rt rt₁) (h₂ : Rt.Agree Γ c' rt₁ rt₂) : Rt.Agree Γ (c || c') rt rt₂ := by
  intro l hl
  rw [Bool.or_eq_false_iff] at hl
  rw [h₂ l (hl.imp_right And.right), h₁ l (hl.imp_right And.left)]

theorem left (h : Rt.Agree Γ c rt rt₁) : Rt.Agree Γ (c || c') rt rt₁ := by
  intro l hl
  rw [Bool.or_eq_false_iff] at hl
  exact h l (hl.imp_right And.left)

theorem right (h : Rt.Agree Γ c' rt rt₁) : Rt.Agree Γ (c || c') rt rt₁ := by
  intro l hl
  rw [Bool.or_eq_false_iff] at hl
  exact h l (hl.imp_right And.right)

end Rt.Agree

theorem execUse_done {l : Loc} {ty : UseType} {v : Option Int} (h : execUse Γ l ty rt = .done v rt') : v = rt.read Γ l ∧ rt' = rt := by
  obtain ⟨_, _, hs, h⟩ := bind_done.mp h
  obtain ⟨rfl, rfl⟩ := state_done.mp hs
  split at h
  · cases h
  · obtain ⟨rfl, rfl⟩ := pure_done.mp h
    exact ⟨rfl, rfl⟩

theorem execAnswer_done {written : Loc → Bool} {a : Answer} (h : execAnswer W written rt = .done a rt') :
    a = W rt.tick ∧ rt' = { rt.absorb written a.effect with tick := rt.tick + 1 } := by
  obtain ⟨_, _, hs, h⟩ := bind_done.mp h
  obtain ⟨rfl, rfl⟩ := state_done.mp hs
  obtain ⟨_, _, hu, h⟩ := bind_done.mp h
  obtain rfl := update_done.mp hu
  split at h
  · cases h
  · obtain ⟨rfl, rfl⟩ := pure_done.mp h
    exact ⟨rfl, rfl⟩

variable {op : LogicOp} {c : Bool}

/-- AND and OR: the right operand was not needed, or was evaluated. -/
theorem execLogical_done {l r : Exec (Option Int)} (h : execLogical op l r rt = .done x rt') :
    ∃ v, (op.decidedBy v = true ∧ x = ofBool (op = .or) ∧ l rt = .done v rt') ∨
      ∃ rt₁ w, op.decidedBy v = false ∧ x = op.combine v w ∧ l rt = .done v rt₁ ∧ r rt₁ = .done w rt' := by
  obtain ⟨v, rt₁, h₁, h⟩ := bind_done.mp h
  refine ⟨v, ?_⟩
  cases hd : op.decidedBy v with
  | true =>
    rw [hd] at h
    obtain ⟨rfl, rfl⟩ := pure_done.mp h
    exact .inl ⟨rfl, rfl, h₁⟩
  | false =>
    rw [hd] at h
    obtain ⟨w, rt₂, h₂, h⟩ := bind_done.mp h
    obtain ⟨rfl, rfl⟩ := pure_done.mp h
    exact .inr ⟨rt₁, w, rfl, rfl, h₁, h₂⟩

theorem execLogical_agree {l r : Exec (Option Int)} {c' : Bool}
    (hl : ∀ {rt rt' v}, l rt = .done v rt' → Rt.Agree Γ c rt rt') (hr : ∀ {rt rt' v}, r rt = .done v rt' → Rt.Agree Γ c' rt rt')
    (h : execLogical op l r rt = .done x rt') : Rt.Agree Γ (c || c') rt rt' := by
  obtain ⟨v, ⟨-, -, h₁⟩ | ⟨rt₁, w, -, -, h₁, h₂⟩⟩ := execLogical_done h
  · exact (hl h₁).left
  · exact (hl h₁).trans (hr h₂)

/-- A comparison of a value with that of an expression, as BETWEEN makes it. -/
theorem compare_agree {m : Exec (Option Int)} {f : Option Int → Option Int} (hm : ∀ {rt rt' v}, m rt = .done v rt' → Rt.Agree Γ c rt rt')
    (h : (do return f (← m) : Exec (Option Int)) rt = .done x rt') : Rt.Agree Γ c rt rt' := by
  obtain ⟨v, rt₁, h₁, h⟩ := bind_done.mp h
  obtain ⟨-, rfl⟩ := pure_done.mp h
  exact hm h₁

mutual

theorem eval_agree : ∀ (e : Expr) {rt rt' : Rt} {v : Option Int}, eval Γ W e rt = .done v rt' → Rt.Agree Γ e.hasCall rt rt'
  | .null, rt, rt', v, h => by
    unfold eval at h
    obtain ⟨-, rfl⟩ := pure_done.mp h
    exact .refl _
  | .num n, rt, rt', v, h => by
    unfold eval at h
    obtain ⟨-, rfl⟩ := pure_done.mp h
    exact .refl _
  | .name l ty, rt, rt', v, h => by
    unfold eval at h
    obtain ⟨-, rfl⟩ := execUse_done h
    exact .refl _
  | .cursor c, rt, rt', v, h => by
    unfold eval at h
    obtain ⟨_, _, hs, h⟩ := bind_done.mp h
    obtain ⟨rfl, rfl⟩ := state_done.mp hs
    obtain ⟨-, rfl⟩ := pure_done.mp h
    exact .refl _
  | .not e, rt, rt', v, h => by
    unfold eval at h
    exact compare_agree (fun h => eval_agree e h) h
  | .binary op l r, rt, rt', v, h => by
    unfold eval at h
    obtain ⟨x, rt₁, h₁, h⟩ := bind_done.mp h
    exact (eval_agree l h₁).trans (compare_agree (fun h => eval_agree r h) h)
  | .logical op l r, rt, rt', v, h => by
    unfold eval at h
    exact execLogical_agree (fun h => eval_agree l h) (fun h => eval_agree r h) h
  | .isOp negated l r, rt, rt', v, h => by
    unfold eval at h
    obtain ⟨x, rt₁, h₁, h⟩ := bind_done.mp h
    exact (eval_agree l h₁).trans (compare_agree (fun h => eval_agree r h) h)
  | .call p args, rt, rt', v, h => by
    unfold eval at h
    obtain ⟨_, rt₁, h₁, h⟩ := bind_done.mp h
    obtain ⟨a, rt₂, h₂, h⟩ := bind_done.mp h
    obtain ⟨-, rfl⟩ := pure_done.mp h
    obtain ⟨rfl, rfl⟩ := execAnswer_done h₂
    intro l hl
    have hg : Γ.isGlobal l = false := hl.resolve_right (by simp [Expr.hasCall])
    simp [Rt.absorb, hg, evalList_agree args h₁ l hg]
  | .caseWhen list, rt, rt', v, h => by
    unfold eval at h
    exact evalCase_agree list h
  | .caseMatch e list, rt, rt', v, h => by
    unfold eval at h
    obtain ⟨x, rt₁, h₁, h⟩ := bind_done.mp h
    exact (eval_agree e h₁).trans (evalCase_agree list h)
  | .between negated rewritten e lo hi, rt, rt', v, h => by
    unfold eval at h
    obtain ⟨x, rt₁, h₁, h⟩ := bind_done.mp h
    refine (eval_agree e h₁).trans ?_
    cases negated <;> exact execLogical_agree (fun h => compare_agree (fun h => eval_agree lo h) h)
        (fun h => compare_agree (fun h => eval_agree hi h) h) h

theorem evalList_agree : ∀ (es : ExprList) {rt rt' : Rt} {x : Unit}, evalList Γ W es rt = .done x rt' →
    ∀ l, Γ.isGlobal l = false → rt'.val l = rt.val l
  | .nil, rt, rt', x, h => by
    unfold evalList at h
    obtain ⟨-, rfl⟩ := pure_done.mp h
    exact fun _ _ => rfl
  | .cons e rest, rt, rt', x, h => by
    unfold evalList at h
    obtain ⟨v, rt₁, h₁, h⟩ := bind_done.mp h
    intro l hl
    rw [evalList_agree rest h l hl, eval_agree e h₁ l (.inl hl)]

theorem evalCase_agree : ∀ (list : CaseList) {subject : Option (Option Int)} {rt rt' : Rt} {v : Option Int},
    evalCase Γ W subject list rt = .done v rt' → Rt.Agree Γ (Expr.caseHasCall list) rt rt'
  | .done, subject, rt, rt', v, h => by
    unfold evalCase at h
    obtain ⟨-, rfl⟩ := pure_done.mp h
    exact .refl _
  | .orElse e, subject, rt, rt', v, h => by
    unfold evalCase at h
    exact eval_agree e h
  | .when w t rest, subject, rt, rt', v, h => by
    unfold evalCase at h
    obtain ⟨x, rt₁, h₁, h⟩ := bind_done.mp h
    refine (eval_agree w h₁).trans ?_
    split at h
    · exact (eval_agree t h).left
    · exact (evalCase_agree rest h).right

end

/-! ## Conditions -/

/-- A test of a name for null tells whether the name is null. -/
theorem eval_isNull {negated : Bool} {l : Loc} {ty : UseType} (h : eval Γ W (.isOp negated (.name l ty) .null) rt = .done v rt') :
    v = ofBool ((rt'.read Γ l).isNone != negated) := by
  unfold eval at h
  obtain ⟨x, rt₁, h₁, h⟩ := bind_done.mp h
  unfold eval at h₁
  obtain ⟨rfl, rfl⟩ := execUse_done h₁
  obtain ⟨y, rt₂, h₂, h⟩ := bind_done.mp h
  unfold eval at h₂
  obtain ⟨rfl, rfl⟩ := pure_done.mp h₂
  obtain ⟨rfl, rfl⟩ := pure_done.mp h
  cases Rt.read Γ rt₁ l <;> rfl

theorem read_of_agree {l : Loc} (h : rt'.val l = rt.val l) : rt'.read Γ l = rt.read Γ l := by
  simp only [Rt.read, h]

/-- What the left operand of AND or OR tells is still so after the right one. -/
theorem read_of_operands {ls ls' : List Loc} (ha : Rt.Agree Γ c rt rt')
    (hl : ∀ l ∈ ls, (rt.read Γ l).isSome) (hr : ∀ l ∈ ls', (rt'.read Γ l).isSome) :
    ∀ l ∈ (if c then ls.filter (!Γ.isGlobal ·) else ls) ++ ls', (rt'.read Γ l).isSome := by
  intro l hmem
  rcases List.mem_append.mp hmem with hmem | hmem
  · cases c with
    | false => rw [read_of_agree (ha l (.inr rfl))]; exact hl l hmem
    | true =>
      obtain ⟨hmem, hg⟩ := List.mem_filter.mp hmem
      rw [read_of_agree (ha l (.inl (by simpa using hg)))]
      exact hl l hmem
  · exact hr l hmem

theorem LogicOp.combine_of_decided {w : Option Int} (h : op.decidedBy w = true) : op.combine v w = ofBool (op = .or) := by
  unfold LogicOp.combine
  rw [if_pos h]

/-- A condition that is not false tells what it would improve when it is true. -/
theorem eval_validIfTrue (e : Expr) (h : eval Γ W e rt = .done v rt')
    (hv : isFalse v = false) : ∀ l ∈ e.validIfTrue Γ, (rt'.read Γ l).isSome := by
  fun_induction Expr.validIfTrue Γ e generalizing rt rt' v with
  | case1 l r ihl ihr =>
    unfold eval at h
    obtain ⟨x, ⟨-, rfl, -⟩ | ⟨rt₁, y, hx, rfl, h₁, h₂⟩⟩ := execLogical_done h
    · cases hv
    · have hy : LogicOp.and.decidedBy y = false := by
        by_contra hy
        rw [LogicOp.combine_of_decided (by simpa using hy)] at hv
        cases hv
      exact read_of_operands (eval_agree r h₂) (ihl h₁ hx) (ihr h₂ hy)
  | case2 c =>
    unfold eval at h
    obtain ⟨_, _, hs, h⟩ := bind_done.mp h
    obtain ⟨rfl, rfl⟩ := state_done.mp hs
    obtain ⟨rfl, rfl⟩ := pure_done.mp h
    intro l hl
    obtain rfl := List.mem_singleton.mp hl
    cases hc : rt.val (.cursor c) <;> simp_all [ofBool, isFalse, Rt.read]
  | case3 l ty =>
    obtain rfl := eval_isNull h
    intro l' hl
    obtain rfl := List.mem_singleton.mp hl
    cases hr : rt'.read Γ l' <;> simp_all [ofBool, isFalse]
  | case4 e => simp

/-- A condition that is not true tells what it improves then. -/
theorem eval_validIfFalse (e : Expr) (h : eval Γ W e rt = .done v rt')
    (hv : isTrue v = false) : ∀ l ∈ e.validIfFalse Γ, (rt'.read Γ l).isSome := by
  fun_induction Expr.validIfFalse Γ e generalizing rt rt' v with
  | case1 l r ihl ihr =>
    unfold eval at h
    obtain ⟨x, ⟨-, rfl, -⟩ | ⟨rt₁, y, hx, rfl, h₁, h₂⟩⟩ := execLogical_done h
    · cases hv
    · have hy : LogicOp.or.decidedBy y = false := by
        by_contra hy
        rw [LogicOp.combine_of_decided (by simpa using hy)] at hv
        cases hv
      exact read_of_operands (eval_agree r h₂) (ihl h₁ hx) (ihr h₂ hy)
  | case2 c =>
    unfold eval at h
    obtain ⟨x, rt₁, h₁, h⟩ := bind_done.mp h
    obtain ⟨rfl, rfl⟩ := pure_done.mp h
    unfold eval at h₁
    obtain ⟨_, _, hs, h₁⟩ := bind_done.mp h₁
    obtain ⟨rfl, rfl⟩ := state_done.mp hs
    obtain ⟨rfl, rfl⟩ := pure_done.mp h₁
    intro l hl
    obtain rfl := List.mem_singleton.mp hl
    cases hc : rt.val (.cursor c) <;> simp_all [ofBool, isTrue, Rt.read]
  | case3 l ty =>
    obtain rfl := eval_isNull h
    intro l' hl
    obtain rfl := List.mem_singleton.mp hl
    cases hr : rt'.read Γ l' <;> simp_all [ofBool, isTrue]
  | case4 e => simp

end CgSql
