import CgSql.CRun
import CgSql.Lemmas.CodeShape
import CgSql.Lib.Faults

/-!
# Lemmas about running generated code

Runs of code whose texts C reads as they were put together, and a rule for every text and statement.
-/

namespace CgSql.CodeGen

open Nullability Precedence RenderingAux Faults

namespace RunAux

variable {V : Type} {rt : Runtime V} {Z : Prop} {σ : Store V} {b an a : Bool} {t : Text V} {P : Option V → Prop}

/-- A bind that succeeds. -/
theorem of_bind_ok {α β : Type} {x : Except Fault α} {f : α → Except Fault β} {b : β} (h : (x >>= f) = .ok b) : ∃ a, x = .ok a ∧ f a = .ok b := by
  cases x with
  | error e => cases h
  | ok a => exact ⟨a, rfl, h⟩

/-- C reads a text that fits as it was put together. -/
theorem evalText_of_fits (h : Fits t) : evalText rt σ t = evalTree rt σ t.tree := by
  rw [evalText, Text.read_of_fits h]

/-! ## Runs over trees -/

/-- `anyTrue` of texts as they were put together. -/
def anyTrueTree (rt : Runtime V) (σ : Store V) : List (Text V) → Except Fault Bool
  | [] => .ok false
  | t :: ts => do if rt.isTrue (← evalTree rt σ t.tree) then return true else anyTrueTree rt σ ts

/-- A run of a statement with its texts as they were put together. -/
def runTree (rt : Runtime V) : Code V → Store V → Except Fault (End × Store V)
  | .skip, σ => .ok (.normal, σ)
  | .seq a b, σ => do
    match ← runTree rt a σ with
    | (.normal, τ) => runTree rt b τ
    | r => .ok r
  | .setNull x, σ => .ok (.normal, σ.set x ⟨true, rt.bit false⟩)
  | .setNullable x isNull value, σ => do
    if ← anyTrueTree rt σ isNull then return (.normal, σ.set x ⟨true, rt.bit false⟩)
    else return (.normal, σ.set x ⟨false, ← evalTree rt σ value.tree⟩)
  | .copy x value, σ => do return (.normal, σ.set x ⟨(σ x).isNull, ← evalTree rt σ value.tree⟩)
  | .ite cond a b, σ => do
    if rt.isTrue (← evalTree rt σ cond.tree) then runTree rt a σ else runTree rt b σ
  | .block a, σ => do
    match ← runTree rt a σ with
    | (.break, τ) => .ok (.normal, τ)
    | r => .ok r
  | .break, σ => .ok (.break, σ)
  | .caseElse a, σ => do
    match ← runTree rt a σ with
    | (.gotoElse, τ) => .ok (.normal, τ)
    | r => .ok r
  | .gotoElse, σ => .ok (.gotoElse, σ)

/-- Several texts too. -/
theorem anyTrue_eq : ∀ {ts : List (Text V)}, AllFit ts → anyTrue rt σ ts = anyTrueTree rt σ ts
  | [], _ => rfl
  | t :: ts, h => by
    have h := allFit_cons.mp h
    rw [anyTrue, anyTrueTree, evalText_of_fits h.1, anyTrue_eq h.2]

/-- Where all texts fit, C runs the trees. -/
theorem run_eq : ∀ {k : Code V} {σ : Store V}, AllFit k.texts → k.run rt σ = runTree rt k σ
  | .skip, σ, _ => rfl
  | .seq a b, σ, h => by
    have h := allFit_append.mp h
    rw [Code.run, runTree, run_eq h.1]
    congr 1
    funext r
    obtain ⟨e, τ⟩ := r
    cases e with
    | normal => exact run_eq h.2
    | _ => rfl
  | .setNull x, σ, _ => rfl
  | .setNullable x isNull value, σ, h => by
    have h := allFit_append.mp h
    rw [Code.run, runTree, anyTrue_eq h.1, evalText_of_fits (h.2 value (.head _))]
  | .copy x value, σ, h => by
    rw [Code.run, runTree, evalText_of_fits (h value (.head _))]
  | .ite cond a b, σ, h => by
    have hc := allFit_cons.mp h
    have h := allFit_append.mp hc.2
    rw [Code.run, runTree, evalText_of_fits hc.1, run_eq h.1, run_eq h.2]
  | .block a, σ, h => by
    have ih : a.run rt σ = runTree rt a σ := run_eq h
    exact congrArg (· >>= _) ih
  | .break, σ, _ => rfl
  | .caseElse a, σ, h => by
    have ih : a.run rt σ = runTree rt a σ := run_eq h
    exact congrArg (· >>= _) ih
  | .gotoElse, σ, _ => rfl

/-! ## Rules for texts -/

@[simp] theorem isTrue_bit (b : Bool) : rt.isTrue (rt.bit b) = b := rt.truth_ofBool b

@[simp] theorem isTrue_some (v : V) : rt.isTrue (some v) = rt.truth v := rfl

theorem bit_inj (h : rt.bit a = rt.bit b) : a = b := by
  rw [← @isTrue_bit V rt a, h, isTrue_bit]

/-- The only fault that can happen is a division by zero, and only if `Z`. -/
abbrev Allowed (Z : Prop) (f : Fault) : Prop := f = .divideByZero ∧ Z

/-- The value of a text, if it does not divide by zero. -/
def Evals (Z : Prop) (rt : Runtime V) (σ : Store V) (t : Text V) (P : Option V → Prop) : Prop :=
  Gives (Allowed Z) (evalTree rt σ t.tree) P

theorem Evals.mono {Q : Option V → Prop} (h : Evals Z rt σ t P) (hPQ : ∀ v, P v → Q v) : Evals Z rt σ t Q :=
  Gives.mono h hPQ

/-- A text with a value is a condition. -/
theorem Evals.isTrue {v : Option V} (h : Evals Z rt σ t (· = v)) : Evals Z rt σ t (fun w => rt.isTrue w = rt.isTrue v) :=
  h.mono fun _ hw => congrArg rt.isTrue hw

@[simp] theorem evals_atom {a : Atom V} {P : Option V → Prop} : Evals Z rt σ (.atom a) P ↔ P (atomValue rt σ a) := Iff.rfl

@[simp] theorem evals_paren {t : Text V} {P : Option V → Prop} : Evals Z rt σ (.paren t) P ↔ Evals Z rt σ t P := Iff.rfl

@[simp] theorem evals_parenIf {b : Bool} {t : Text V} {P : Option V → Prop} : Evals Z rt σ (parenIf b t) P ↔ Evals Z rt σ t P := by
  cases b <;> rfl

theorem evals_bit (b : Bool) : Evals Z rt σ (.atom (.bool b)) (· = rt.bit b) := rfl

theorem evals_zero : Evals Z rt σ zero (· = rt.bit false) := rfl

theorem evals_one : Evals Z rt σ one (· = rt.bit true) := rfl

/-- Prefix operators. -/
theorem evals_unary {op : Prefix} {v : Option V} (h : Evals Z rt σ t (· = v))
    (hP : Gives (Allowed Z) (applyPrefix rt op v) P) : Evals Z rt σ (.unary op t) P :=
  Gives.bind h fun w hw => by
    cases hw
    exact hP

/-- Negation. -/
theorem evals_not (h : Evals Z rt σ t (fun v => rt.isTrue v = b)) : Evals Z rt σ (notText t) (· = rt.bit !b) :=
  Gives.bind h fun v hv => by
    cases hv
    rfl

/-- Binary operators. -/
theorem evals_binary {op : Binary} {l r : Text V} {a b : Option V} (hop : op ≠ .lor ∧ op ≠ .land)
    (hl : Evals Z rt σ l (· = a)) (hr : Evals Z rt σ r (· = b)) (hP : Gives (Allowed Z) (applyBinary rt op a b) P) :
    Evals Z rt σ (.binary op l r) P := by
  have hboth : Gives (Allowed Z) (do applyBinary rt op (← evalTree rt σ l.tree) (← evalTree rt σ r.tree)) P :=
    Gives.bind hl fun v hv => Gives.bind hr fun w hw => by
      cases hv
      cases hw
      exact hP
  cases op with
  | lor => exact absurd rfl hop.1
  | land => exact absurd rfl hop.2
  | _ => exact hboth

/-- The right operand of `OR` runs where the left one is false. -/
theorem evals_lor {l r : Text V} (hl : Evals Z rt σ l (fun v => rt.isTrue v = a))
    (hr : a = false → Evals Z rt σ r (fun v => rt.isTrue v = b)) : Evals Z rt σ (.binary .lor l r) (· = rt.bit (a || b)) :=
  Gives.bind hl fun v hv => by
    cases a with
    | true =>
      rw [if_pos hv]
      rfl
    | false =>
      rw [if_neg (by simp [hv])]
      exact Gives.bind (hr rfl) fun w hw => by
        cases hw
        rfl

/-- That of `&&` runs where it is true. -/
theorem evals_land {l r : Text V} (hl : Evals Z rt σ l (fun v => rt.isTrue v = a))
    (hr : a = true → Evals Z rt σ r (fun v => rt.isTrue v = b)) : Evals Z rt σ (.binary .land l r) (· = rt.bit (a && b)) :=
  Gives.bind hl fun v hv => by
    cases a with
    | true =>
      rw [if_pos hv]
      exact Gives.bind (hr rfl) fun w hw => by
        cases hw
        rfl
    | false =>
      rw [if_neg (by simp [hv])]
      rfl

/-- Calls of the runtime. -/
theorem evals_call {f : Function} {l r : Text V} {a b : Option V}
    (hf : f ≠ .isNullableTrue ∧ f ≠ .isNullableFalse) (hl : Evals Z rt σ l (· = a)) (hr : Evals Z rt σ r (· = b))
    (hP : Gives (Allowed Z) (applyCall rt f a b) P) : Evals Z rt σ (.call f l r) P := by
  have hboth : Gives (Allowed Z) (do applyCall rt f (← evalTree rt σ l.tree) (← evalTree rt σ r.tree)) P :=
    Gives.bind hl fun v hv => Gives.bind hr fun w hw => by
      cases hv
      cases hw
      exact hP
  cases f with
  | isNullableTrue => exact absurd rfl hf.1
  | isNullableFalse => exact absurd rfl hf.2
  | _ => exact hboth

/-- The value is looked at where there is one. -/
theorem evals_isNullableTrue {n v : Text V} (hn : Evals Z rt σ n (· = rt.bit an))
    (hv : an = false → Evals Z rt σ v (fun w => rt.isTrue w = b)) : Evals Z rt σ (.call .isNullableTrue n v) (· = rt.bit (!an && b)) :=
  Gives.bind hn fun w hw => by
    subst hw
    cases an with
    | true =>
      rw [if_pos (isTrue_bit true)]
      rfl
    | false =>
      rw [if_neg (by simp)]
      exact Gives.bind (hv rfl) fun w hw => by
        cases hw
        rfl

/-- Here too. -/
theorem evals_isNullableFalse {n v : Text V} (hn : Evals Z rt σ n (· = rt.bit an)) (hv : an = false → Evals Z rt σ v (fun w => rt.isTrue w = b)) :
    Evals Z rt σ (.call .isNullableFalse n v) (· = rt.bit (!an && !b)) :=
  Gives.bind hn fun w hw => by
    subst hw
    cases an with
    | true =>
      rw [if_pos (isTrue_bit true)]
      rfl
    | false =>
      rw [if_neg (by simp)]
      exact Gives.bind (hv rfl) fun w hw => by
        cases hw
        rfl

/-- The text `0` is false. -/
theorem isZero_bit (ht : isZero t = true) (h : Evals Z rt σ t (· = rt.bit b)) : b = false := by
  cases t with
  | atom a =>
    cases a with
    | bool c =>
      cases c with
      | false => exact (@bit_inj V rt _ _ h).symm
      | true => cases ht
    | _ => cases ht
  | _ => cases ht

/-- The text `1` is true. -/
theorem isOne_bit (ht : isOne t = true) (h : Evals Z rt σ t (· = rt.bit b)) : b = true := by
  cases t with
  | atom a =>
    cases a with
    | bool c =>
      cases c with
      | true => exact (@bit_inj V rt _ _ h).symm
      | false => cases ht
    | _ => cases ht
  | _ => cases ht

/-! ## Rules for statements -/

/-- How a statement ends and where, if it does not divide by zero. -/
def Runs (Z : Prop) (rt : Runtime V) (k : Code V) (σ : Store V) (P : End → Store V → Prop) : Prop :=
  Gives (Allowed Z) (runTree rt k σ) fun r => P r.1 r.2

variable {P Q : End → Store V → Prop} {a b : Code V} {x : Var}

theorem Runs.mono (h : Runs Z rt a σ P) (hPQ : ∀ e τ, P e τ → Q e τ) : Runs Z rt a σ Q := Gives.mono h fun _ => hPQ _ _

theorem runs_skip (h : P .normal σ) : Runs Z rt .skip σ P := h

theorem runs_break (h : P .break σ) : Runs Z rt .break σ P := h

theorem runs_gotoElse (h : P .gotoElse σ) : Runs Z rt .gotoElse σ P := h

theorem runs_setNull (h : P .normal (σ.set x ⟨true, rt.bit false⟩)) : Runs Z rt (.setNull x) σ P := h

/-- What follows a statement: the next one if it ends normally. -/
abbrev Next (Z : Prop) (rt : Runtime V) (b : Code V) (P : End → Store V → Prop) : End → Store V → Prop
  | .normal, τ => Runs Z rt b τ P
  | e, τ => P e τ

/-- A sequence. -/
theorem runs_seq (h : Runs Z rt a σ (Next Z rt b P)) : Runs Z rt (.seq a b) σ P :=
  Gives.bind h fun r hr => by
    obtain ⟨e, τ⟩ := r
    cases e with
    | normal => exact hr
    | _ => exact hr

/-- A sequence without empty parts. -/
theorem runs_andThen (h : Runs Z rt a σ (Next Z rt b P)) : Runs Z rt (a.andThen b) σ P := by
  unfold Code.andThen
  split
  · exact h
  · refine h.mono fun e τ hn => ?_
    cases e <;> exact hn
  · exact runs_seq h

/-- A statement that ends normally, and one after it. -/
theorem runs_then {R : Store V → Prop} (ha : Runs Z rt a σ fun e τ => e = .normal ∧ R τ) (hb : ∀ τ, R τ → Runs Z rt b τ P) :
    Runs Z rt (a.andThen b) σ P :=
  runs_andThen (ha.mono fun e τ h => by
    obtain ⟨rfl, hR⟩ := h
    exact hb τ hR)

/-- A branch. -/
theorem runs_ite {cond : Text V} {c : Bool} (hc : Evals Z rt σ cond fun v => rt.isTrue v = c)
    (h : Runs Z rt (if c then a else b) σ P) : Runs Z rt (.ite cond a b) σ P :=
  Gives.bind hc fun v hv => by
    rw [hv]
    cases c <;> exact h

/-- A copy. -/
theorem runs_copy {v : Text V} {o : Option V} (hv : Evals Z rt σ v (· = o))
    (h : P .normal (σ.set x ⟨(σ x).isNull, o⟩)) : Runs Z rt (.copy x v) σ P :=
  Gives.bind hv fun w hw => by
    cases hw
    exact h

/-- A block ends a break. -/
theorem runs_block (h : Runs Z rt a σ fun e τ => P (if e = .break then .normal else e) τ) : Runs Z rt (.block a) σ P :=
  Gives.bind h fun r hr => by
    obtain ⟨e, τ⟩ := r
    cases e <;> exact hr

/-- The ELSE label ends a jump to it. -/
theorem runs_caseElse (h : Runs Z rt a σ fun e τ => P (if e = .gotoElse then .normal else e) τ) : Runs Z rt (.caseElse a) σ P :=
  Gives.bind h fun r hr => by
    obtain ⟨e, τ⟩ := r
    cases e <;> exact hr

/-- The texts that tell whether two operands are null, without those that are `0`. -/
theorem gives_anyTrue {l r : Text V} {bn : Bool} (hl : Evals Z rt σ l (· = rt.bit an)) (hr : Evals Z rt σ r (· = rt.bit bn)) :
    Gives (Allowed Z) (anyTrueTree rt σ ([l, r].filter fun t => !isZero t)) (· = (an || bn)) := by
  have htail : Gives (Allowed Z) (anyTrueTree rt σ ([r].filter fun t => !isZero t)) (· = bn) := by
    by_cases hz : isZero r = true
    · rw [isZero_bit hz hr, List.filter_cons_of_neg (by simp [hz])]
      rfl
    · rw [List.filter_cons_of_pos (by simp [hz])]
      refine Gives.bind hr fun v hv => ?_
      subst hv
      rw [isTrue_bit]
      cases bn <;> rfl
  by_cases hz : isZero l = true
  · rw [isZero_bit hz hl, List.filter_cons_of_neg (by simp [hz]), Bool.false_or]
    exact htail
  · rw [List.filter_cons_of_pos (by simp [hz])]
    refine Gives.bind hl fun v hv => ?_
    subst hv
    rw [isTrue_bit]
    cases an with
    | true => rfl
    | false => exact htail

/-- A store of a nullable value that is null if one of two operands is. -/
theorem runs_combineNullables {l r v : Text V} {bn : Bool} {o : Option V} (hl : Evals Z rt σ l (· = rt.bit an))
    (hr : Evals Z rt σ r (· = rt.bit bn)) (ho : o.isNone = (an || bn)) (hv : ∀ w, o = some w → Evals Z rt σ v (· = some w))
    (h : ∀ c : Cell V, c.isNull = o.isNone → (∀ w, o = some w → c.value = some w) → P .normal (σ.set x c)) :
    Runs Z rt (combineNullables x l r v) σ P := by
  have hnull : (an || bn) = true → P .normal (σ.set x ⟨true, rt.bit false⟩) := fun hn =>
    h ⟨true, rt.bit false⟩ (ho.trans hn).symm fun w hw => by
      rw [hw, hn] at ho
      cases ho
  unfold combineNullables
  split
  · rename_i hone
    refine runs_setNull (hnull ?_)
    rcases (Bool.or_eq_true _ _).mp hone with hone | hone
    · rw [isOne_bit hone hl]
      rfl
    · rw [isOne_bit hone hr, Bool.or_true]
  · refine Gives.bind (gives_anyTrue hl hr) fun c hc => ?_
    subst hc
    split
    · rename_i hn
      exact hnull hn
    · rename_i hn
      obtain ⟨w, hw⟩ : ∃ w, o = some w := by
        rw [eq_false_of_ne_true hn] at ho
        exact Option.isSome_iff_exists.mp (by simpa using ho)
      refine Gives.bind (hv w hw) fun u hu => ?_
      subst hu
      exact h ⟨false, some w⟩ (ho.trans (eq_false_of_ne_true hn)).symm fun u hu => hw.symm.trans hu

end RunAux

end CgSql.CodeGen
