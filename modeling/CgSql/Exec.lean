import CgSql.Sem
import CgSql.Lib.Exits

/-!
# Execution

What the generated code does with an analysed expression, as far as nulls are concerned: the order of evaluation and the short circuits of
`cg_c.c`. What a called procedure does is unknown: a world answers each call as it likes. An execution faults where a use has a type that its
value does not have.
-/

namespace CgSql

open Exits

/-- The state of an execution: the values of variables, fields and `_has_row_`s, none where there is a null or no row; which
variables were assigned; and how many answers the world gave. -/
structure Rt where
  val : Loc → Option Int
  assigned : Loc → Bool
  tick : Nat

/-- An answer of the world: whether the call throws, what it returns, and what it leaves in the places it may write to. -/
structure Answer where
  throws : Bool
  result : Option Int
  effect : Loc → Option Int

/-- The answers of the world, in order. -/
abbrev World := Nat → Answer

/-- Programs over the state of an execution. -/
abbrev Exec (α : Type) := Prog Rt Control α

namespace Rt

/-- Leave in some places what the answer says. -/
def absorb (written : Loc → Bool) (effect : Loc → Option Int) (rt : Rt) : Rt :=
  { rt with val := fun l => if written l then effect l else rt.val l }

end Rt

variable (Γ : Env) (W : World)

/-- The value of a name whose declared type is NOT NULL is never null: it has a default, or is not read before it is set. -/
def Rt.read (rt : Rt) (l : Loc) : Option Int :=
  if Γ.notNull .none l then some ((rt.val l).getD 0) else rt.val l

/-- A name of a nonnull reference type has a value only once it was assigned, a field only while its cursor has a row; of a field this is
no error of the analysis without `strict_cursor_has_row`. -/
def Rt.isReady (rt : Rt) (l : Loc) : Bool :=
  !Γ.requiresInit l ||
    match l with
    | .field c _ => !Γ.strictCursorHasRow || (rt.val (.cursor c)).isSome
    | _ => rt.assigned l

namespace UseType

/-- The use has a NOT NULL type. -/
def isNotNull : UseType → Bool
  | .notnull | .optimistic | .inferred => true
  | _ => false

end UseType

/-- Read a name where it is used. -/
def execUse (l : Loc) (ty : UseType) : Exec (Option Int) := do
  let rt ← Prog.state
  if !rt.isReady Γ l || (ty.isNotNull && (rt.read Γ l).isNone) then Prog.fault else return rt.read Γ l

/-- Ask the world, which leaves its answer in some places. -/
def execAnswer (written : Loc → Bool) : Exec Answer := do
  let rt ← Prog.state
  let answer := W rt.tick
  Prog.update fun rt => { rt.absorb written answer.effect with tick := rt.tick + 1 }
  if answer.throws then Prog.leave .throw else return answer

/-! ## Expressions -/

/-- The value of a comparison or a truth value. -/
def ofBool (b : Bool) : Option Int := some (if b then 1 else 0)

/-- Is a value true: neither null nor zero. -/
def isTrue : Option Int → Bool
  | some n => n != 0
  | none => false

/-- Is a value false: zero and not null. -/
def isFalse : Option Int → Bool
  | some n => n == 0
  | none => false

namespace BinOp

/-- An operator on values that are not null. -/
def apply : BinOp → Int → Int → Int
  | .add, a, b => a + b
  | .sub, a, b => a - b
  | .mul, a, b => a * b
  | .eq, a, b => if a = b then 1 else 0
  | .ne, a, b => if a = b then 0 else 1
  | .lt, a, b => if a < b then 1 else 0
  | .le, a, b => if a ≤ b then 1 else 0
  | .gt, a, b => if a > b then 1 else 0
  | .ge, a, b => if a ≥ b then 1 else 0

/-- An operator yields null when an operand is null. -/
def applyNullable (op : BinOp) : Option Int → Option Int → Option Int
  | some a, some b => some (op.apply a b)
  | _, _ => none

end BinOp

namespace LogicOp

/-- The left operand that decides the result: false for AND, true for OR. -/
def decidedBy : LogicOp → Option Int → Bool
  | .and => isFalse
  | .or => isTrue

/-- The result when the left operand does not decide it. -/
def combine (op : LogicOp) (v w : Option Int) : Option Int :=
  if op.decidedBy w then ofBool (op = .or)
  else if v.isNone || w.isNone then none
  else ofBool (op = .and)

end LogicOp

/-- `cg_expr_and` and `cg_expr_or`: the right operand is evaluated when the left one does not decide the result. -/
def execLogical (op : LogicOp) (l r : Exec (Option Int)) : Exec (Option Int) := do
  let v ← l
  if op.decidedBy v then return ofBool (op = .or)
  return op.combine v (← r)

/-- A WHEN is taken when it is true, or equals the value to match if there is one. -/
def isTaken : Option (Option Int) → Option Int → Bool
  | none, v => isTrue v
  | some u, v => isTrue (BinOp.eq.applyNullable u v)

mutual

/-- Evaluate an expression. -/
def eval : Expr → Exec (Option Int)
  | .null => pure none
  | .num n => pure (some n)
  | .name l ty => execUse Γ l ty
  | .cursor c => do return ofBool ((← Prog.state).val (.cursor c)).isSome
  | .not e => do return (← eval e).map fun n => if n = 0 then 1 else 0
  | .binary op l r => do
    let v ← eval l
    return op.applyNullable v (← eval r)
  | .logical op l r => execLogical op (eval l) (eval r)
  | .isOp negated l r => do
    let v ← eval l
    return ofBool ((v == (← eval r)) != negated)
  | .call p args => do
    evalList args
    let answer ← execAnswer W Γ.isGlobal
    return if Γ.resultNotNull p then some (answer.result.getD 0) else answer.result
  | .caseWhen list => evalCase none list
  | .caseMatch e list => do
    let v ← eval e
    evalCase (some v) list
  | .between negated _ e lo hi => do
    let v ← eval e
    if negated then
      execLogical .or (do return BinOp.lt.applyNullable v (← eval lo)) (do return BinOp.gt.applyNullable v (← eval hi))
    else
      execLogical .and (do return BinOp.ge.applyNullable v (← eval lo)) (do return BinOp.le.applyNullable v (← eval hi))

/-- Evaluate the arguments of a call. -/
def evalList : ExprList → Exec Unit
  | .nil => pure ()
  | .cons e rest => do
    let _ ← eval e
    evalList rest

/-- Evaluate a case list, with the value to match if there is one. -/
def evalCase (subject : Option (Option Int)) : CaseList → Exec (Option Int)
  | .done => pure none
  | .orElse e => eval e
  | .when w t rest => do
    let v ← eval w
    if isTaken subject v then eval t else evalCase subject rest

end

end CgSql
