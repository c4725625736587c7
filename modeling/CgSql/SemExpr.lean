import CgSql.Sem

/-!
# Analysis of expressions

`sem_expr` for the modelled forms. BETWEEN analyses its operands twice, the second time as they were left by the first, so the
analysis is defined with its own second visit as a parameter; a second visit meets no BETWEEN that was not rewritten.
-/

namespace CgSql

open Flow M

namespace BinOp

/-- The operators of `sem_binary_eq_or_ne`. -/
def isEquality : BinOp → Bool
  | .eq | .ne => true
  | _ => false

end BinOp

variable (Γ : Env)

/-- `sem_resolve_id_expr`: the type of a use of a name. A name that was rewritten as a call of `cql_inferred_notnull` is not expanded
again. -/
def semResolveIdExpr (l : Loc) (ty : UseType) : M UseType := do
  let s ← get
  require (Γ.resolves l)
  -- CQL0460 and CQL0438
  require ((Γ.requiredKeys l).all s.flow.flags)
  match ty with
  | .inferred => if s.flow.flags (Γ.notnullKey l) then pure .inferred else stop .invariant
  | _ =>
    if Γ.notNull s.loop l then pure .notnull
    else if s.flow.flags (Γ.notnullKey l) then pure (if s.loop = .analyze then .optimistic else .inferred)
    else pure .nullable

/-- `sem_binary_logical`, with and without `strict_and_or_not_null_check`: with it the right operand is analysed where the left one
is known to be true, or not true, and both are a branch. The improvements are made by `improve`. -/
def semBinaryLogical (l : M Expr) (improve : Option Expr → M Unit) (r : M Expr) : M (Expr × Expr) :=
  if Γ.strictAndOr then inBranchGroup (inBranch (bothWith l fun l => do
    improve l
    r)) else both l r

/-- The improvements made between the operands of AND and OR. -/
def improveLeft (op : LogicOp) (l : Expr) : M Unit :=
  match op with
  | .and => semSetImprovementsForTrueCondition Γ l
  | .or => semSetImprovementsForFalseCondition Γ l

/-- The improvements of a WHEN for its THEN. -/
def improveThen (hasExpressionToMatch : Bool) (w : Expr) : M Unit :=
  if hasExpressionToMatch then pure () else semSetImprovementsForTrueCondition Γ w

mutual

/-- `sem_expr`, with the analysis of a tree analysed before; `none` where the tree itself was analysed before. -/
def semExprWith (again : Option (Expr → M Expr)) : Expr → M Expr
  | .null => pure .null
  | .num n => pure (.num n)
  | .name l ty => do return .name l (← semResolveIdExpr Γ l ty)
  | .cursor c => do
    -- `sem_cursor_as_expression`
    require (Γ.isCursor c)
    return .cursor c
  | .not e => do return .not (← semExprWith again e)
  | .binary op l r => do
    let (l, r) ← both (semExprWith again l) (semExprWith again r)
    -- CQL0373
    require !(op.isEquality && (l.isNull || r.isNull))
    return .binary op l r
  | .logical op l r => do
    let (l, r) ← semBinaryLogical Γ (semExprWith again l) (fun l' => improveLeft Γ op (l'.getD l)) (semExprWith again r)
    return .logical op l r
  | .isOp negated l r => do
    let (l, r) ← both (semExprWith again l) (semExprWith again r)
    -- CQL0409
    require !(r.isNull && l.isNotNull Γ)
    return .isOp negated l r
  | .call p args => do
    -- `sem_proc_as_func`
    return .call p (← finally' (semExprList again args) (semAfterCall true))
  | .caseWhen list => do return .caseWhen (← inBranchGroup (semCaseList again false true list))
  | .caseMatch e list => do
    let e ← semExprWith again e
    return .caseMatch e (← inBranchGroup (semCaseList again true true list))
  | .between negated rewritten e lo hi =>
    match again, rewritten with
    | some again', false => do
      let (e, lo, hi) ← both (semExprWith again e) (both (semExprWith again lo) (semExprWith again hi))
      let (lo, hi) ← semBinaryLogical Γ (again' lo) (fun _ => pure ()) (again' hi)
      return .between negated true e lo hi
    | _, _ => do
      -- `sem_expr_between_rewrite`
      return .between negated rewritten e lo hi

/-- `sem_arg_list`. -/
def semExprList (again : Option (Expr → M Expr)) : ExprList → M ExprList
  | .nil => pure .nil
  | .cons e rest => do
    let e ← semExprWith again e
    return .cons e (← semExprList again rest)

/-- The ELSE of `sem_case`, reached over WHENs that are not analysed. -/
def semElse (again : Option (Expr → M Expr)) : CaseList → M CaseList
  | .done => pure .done
  | .orElse e => do
    flow (setCoversAllCases true)
    return .orElse (← inBranch (semExprWith again e))
  | .when w t rest => do return .when w t (← semElse again rest)

/-- `sem_case_list` and the ELSE of `sem_case`. A WHEN NULL is an error of the list where it is `first`. Behind that one only its own
item is marked: the list keeps its type, and the ELSE is analysed. -/
def semCaseList (again : Option (Expr → M Expr)) (hasExpressionToMatch first : Bool) : CaseList → M CaseList
  | .done => pure .done
  | .orElse e => do
    flow (setCoversAllCases true)
    return .orElse (← inBranch (semExprWith again e))
  | .when w t rest => do
    let w ← semExprWith again w
    -- CQL0501
    if w.isNull then
      require !first
      return .when w t (← semElse again rest)
    let t ← inBranch do
      improveThen Γ hasExpressionToMatch w
      semExprWith again t
    -- whether or not there is an expression to match, which justifies no improvement
    semSetImprovementsForFalseCondition Γ w
    return .when w t (← semCaseList again hasExpressionToMatch false rest)

end

/-- `sem_expr`. -/
def semExpr : Expr → M Expr := semExprWith Γ (some (semExprWith Γ none))

end CgSql
