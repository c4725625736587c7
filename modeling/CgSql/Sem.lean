import CgSql.Ast

/-!
# Semantic analysis

The part of `sem.c` that drives flow analysis: how each expression and each statement sets and un-sets improvements, opens and
closes flow contexts and reads improvements back as types. Analysis rewrites the tree it is given: the uses of names get their
types, and BETWEEN is turned into its short-circuit form.
-/

namespace CgSql

open Flow

/-! ## Uses -/

namespace Env

/-- The keys a use of a name needs whatever its type: that of its initialization, or of its cursor's row, which is asked for only with
`strict_cursor_has_row`. -/
def requiredKeys (Γ : Env) (l : Loc) : List Key :=
  if Γ.requiresInit l then
    match l with
    | .field c _ => if Γ.strictCursorHasRow then [Γ.rowKey c] else []
    | _ => [Γ.initKey l]
  else []

/-- The key an improvement by a condition sets: the row of a cursor, or the nullability of a name. -/
def improvedKey (Γ : Env) : Loc → Key
  | .cursor c => Γ.rowKey c
  | l => Γ.notnullKey l

/-- The field is a nullable reference. -/
def isNullableRef (Γ : Env) (l : Loc) : Bool := Γ.word (Γ.addr l) == .data false true

end Env

namespace Expr

mutual

/-- Does the expression call a procedure. -/
def hasCall : Expr → Bool
  | .null | .num _ | .cursor _ | .name .. => false
  | .not e => e.hasCall
  | .binary _ l r | .logical _ l r | .isOp _ l r => l.hasCall || r.hasCall
  | .call .. => true
  | .caseWhen list => caseHasCall list
  | .caseMatch e list => e.hasCall || caseHasCall list
  | .between _ _ e lo hi => e.hasCall || (lo.hasCall || hi.hasCall)

def caseHasCall : CaseList → Bool
  | .done => false
  | .orElse e => e.hasCall
  | .when w t rest => w.hasCall || (t.hasCall || caseHasCall rest)

end

/-- Is the expression the literal NULL. -/
def isNull : Expr → Bool
  | .null => true
  | _ => false

/-- What `sem_set_improvements_for_true_condition` improves, in order. -/
def improvedIfTrue : Expr → List Loc
  | .logical .and l r => l.improvedIfTrue ++ r.improvedIfTrue
  | .cursor c => [.cursor c]
  | .isOp true (.name l _) .null => [l]
  | _ => []

/-- What `sem_set_improvements_for_false_condition` improves, in order. -/
def improvedIfFalse : Expr → List Loc
  | .logical .or l r => l.improvedIfFalse ++ r.improvedIfFalse
  | .not (.cursor c) => [.cursor c]
  | .isOp false (.name l _) .null => [l]
  | _ => []

end Expr

namespace ExprList

/-- The expressions of a list. -/
def toList : ExprList → List Expr
  | .nil => []
  | .cons e rest => e :: rest.toList

end ExprList

namespace Args

/-- The OUT and INOUT arguments. -/
def outs : Args → List Loc
  | .nil => []
  | .input _ rest => rest.outs
  | .output l _ rest => l :: rest.outs

/-- The names passed as arguments, not as part of an expression: the OUT and INOUT arguments and the bare names among the IN
arguments. -/
def names : Args → List Loc
  | .nil => []
  | .input (.name l _) rest => l :: rest.names
  | .input _ rest => rest.names
  | .output l _ rest => l :: rest.names

/-- `sem_validate_out_args_are_unique`. -/
def outsUnique (args : Args) : Bool := args.outs.all fun l => args.names.count l == 1

end Args

/-- `is_control_stmt`. -/
def Stmt.isControl : Stmt → Bool
  | .control _ => true
  | _ => false

namespace Stmts

/-- Is there no statement list. -/
def isNil : Stmts → Bool
  | .nil => true
  | _ => false

/-- `stmt_list_contains_control_stmt`: a shallow search. -/
def containsControl : Stmts → Bool
  | .nil => false
  | .cons t rest => t.isControl || rest.containsControl

end Stmts

namespace IfAlt

/-- Does nothing follow the first branch of the IF. -/
def isDone : IfAlt → Bool
  | .done => true
  | _ => false

end IfAlt

namespace SwitchCase

/-- The values of all WHENs. -/
def values : SwitchCase → List Int
  | .when vs _ rest => vs ++ rest.values
  | _ => []

/-- Is there an ELSE. -/
def hasElse : SwitchCase → Bool
  | .done => false
  | .orElse _ => true
  | .when _ _ rest => rest.hasElse

/-- Is there a branch with statements. -/
def hasStatements : SwitchCase → Bool
  | .done => false
  | .orElse body => !body.isNil
  | .when _ body rest => !body.isNil || rest.hasStatements

end SwitchCase

/-! ## The state of analysis -/

/-- The state of semantic analysis: the flow state, `global_notnull_improvements`, `current_loop_analysis_state`, `loop_depth` and
`in_switch`. The last field is bookkeeping of the model, which no function reads: the flow states in which branch groups were
popped so far. -/
structure Sem where
  flow : Flow
  globals : List SemPtr
  loop : LoopState
  loopDepth : Nat
  inSwitch : Bool
  groups : List Flow

/-- Why the analysis of a tree ends without a result: a failed assertion of `flow.c`; a failed `Invariant` of `sem.c`, that an
improved name resolves or that a name once wrapped in `cql_inferred_notnull` is still improved; or an error in the program, after
which analysis goes on where it can. -/
inductive Stop
  | assertion (a : FlowAssertion)
  | invariant
  | error
  deriving DecidableEq

/-- A step of semantic analysis. -/
def M (α : Type) : Type := Sem → Except Stop α × Sem

namespace M

variable {α β : Type}

def andThen (m : M α) (f : α → M β) : M β := fun s =>
  match m s with
  | (.ok a, t) => f a t
  | (.error e, t) => (.error e, t)

instance : Monad M where
  pure a := fun s => (.ok a, s)
  bind := andThen

def get : M Sem := fun s => (.ok s, s)

def stop (e : Stop) : M α := fun s => (.error e, s)

/-- Report an error unless the condition holds. -/
def require (b : Bool) : M Unit := if b then pure () else stop .error

/-- A call of a flow function. -/
def flow (f : Flow → Except FlowAssertion Flow) : M Unit := fun s =>
  match f s.flow with
  | .ok t => (.ok (), { s with flow := t })
  | .error a => (.error (.assertion a), s)

/-- Analyse one tree and then another, which may depend on the result of the first; an error in the first does not keep the second
from being analysed. -/
def bothWith (m : M α) (f : Option α → M β) : M (α × β) := fun s =>
  match m s with
  | (.ok a, t) =>
    match f (some a) t with
    | (.ok b, u) => (.ok (a, b), u)
    | (.error e, u) => (.error e, u)
  | (.error .error, t) =>
    match f none t with
    | (.ok _, u) => (.error .error, u)
    | (.error e, u) => (.error e, u)
  | (.error e, t) => (.error e, t)

/-- Analyse one tree and then another. -/
def both (m : M α) (m' : M β) : M (α × β) := bothWith m fun _ => m'

/-- Run `after` when `m` has ended, with an error in the program or without. -/
def finally' (m : M α) (after : M Unit) : M α := andThen (both m after) fun r => pure r.1

/-! ## Flow contexts and saved state -/

/-- `FLOW_PUSH_CONTEXT_NORMAL` to `FLOW_POP_CONTEXT_NORMAL`. -/
def inNormal (m : M α) : M α := andThen (flow fun s => .ok s.pushNormal) fun _ => finally' m (flow popNormal)

/-- `FLOW_PUSH_CONTEXT_JUMP` to `FLOW_POP_CONTEXT_JUMP`. -/
def inJump (m : M α) : M α := andThen (flow fun s => .ok s.pushJump) fun _ => finally' m (flow popJump)

/-- `FLOW_PUSH_CONTEXT_BRANCH` to `FLOW_POP_CONTEXT_BRANCH`. -/
def inBranch (m : M α) : M α := andThen (flow pushBranch) fun _ => finally' m (flow popBranch)

/-- Pop the branch group. -/
def popGroup : M Unit := fun s => flow popBranchGroup { s with groups := s.flow :: s.groups }

/-- `FLOW_PUSH_CONTEXT_BRANCH_GROUP` to `FLOW_POP_CONTEXT_BRANCH_GROUP`. -/
def inBranchGroup (m : M α) : M α := andThen (flow fun s => .ok s.pushBranchGroup) fun _ => finally' m popGroup

/-- Analyse with `current_loop_analysis_state` set to a value, and restore it. -/
def withLoop (l : LoopState) (m : M α) : M α := fun s =>
  let (r, t) := m { s with loop := l }
  (r, { t with loop := s.loop })

/-- Analyse with `loop_depth` increased. -/
def deeper (m : M α) : M α := fun s =>
  let (r, t) := m { s with loopDepth := s.loopDepth + 1 }
  (r, { t with loopDepth := s.loopDepth })

/-- Analyse with `in_switch` set. -/
def withinSwitch (m : M α) : M α := fun s =>
  let (r, t) := m { s with inSwitch := true }
  (r, { t with inSwitch := s.inSwitch })

end M

open M

/-! ## Improvements -/

/-- Set a flag that may be set already. -/
def raise (k : Key) : M Unit := do
  if (← get).flow.flags k then pure () else flow (setFlag k)

/-- Un-set a flag that may be unset already. -/
def lower (k : Key) : M Unit := do
  if (← get).flow.flags k then flow (unsetFlag k) else pure ()

/-- Lower each of the keys. -/
def lowerAll : List Key → M Unit
  | [] => pure ()
  | k :: ks => do
    lower k
    lowerAll ks

variable (Γ : Env)

/-- `sem_set_notnull_improved`. -/
def semSetNotnullImproved (l : Loc) : M Unit := do
  let s ← get
  if !Γ.resolves l then stop .invariant
  else if Γ.notNull s.loop l || s.flow.flags (Γ.notnullKey l) then pure ()
  else
    if Γ.isGlobal l then fun s => (.ok (), { s with globals := Γ.addr l :: s.globals })
    flow (setFlag (Γ.notnullKey l))

/-- `sem_unset_notnull_improved`. -/
def semUnsetNotnullImproved (l : Loc) : M Unit := lower (Γ.notnullKey l)

/-- `sem_unset_global_notnull_improvements`. -/
def semUnsetGlobalNotnullImprovements : M Unit := do
  lowerAll ((← get).globals.map fun p => (p, .inferredNotnull))

/-- What follows the analysis of a call: the improvements of globals end, unless the procedure was declared with NO CHECK. -/
def semAfterCall (checked : Bool) : M Unit :=
  if checked then semUnsetGlobalNotnullImprovements else pure ()

/-- `sem_set_initialization_improved`. -/
def semSetInitializationImproved (l : Loc) : M Unit :=
  if Γ.requiresInit l then raise (Γ.initKey l) else pure ()

/-- `sem_set_has_row_improved`. -/
def semSetHasRowImproved (c : Nat) : M Unit := raise (Γ.rowKey c)

/-- `sem_unset_has_row_improved`. -/
def semUnsetHasRowImproved (c : Nat) : M Unit := lower (Γ.rowKey c)

/-- Un-improve the fields of a cursor. -/
def semUnsetFields (c : Nat) : M Unit :=
  lowerAll ((List.range (Γ.fieldCount c)).map fun i => Γ.notnullKey (.field c i))

/-- `sem_set_improvements_for_true_condition`. -/
def semSetImprovementsForTrueCondition : Expr → M Unit
  | .logical .and l r => do
    semSetImprovementsForTrueCondition l
    semSetImprovementsForTrueCondition r
  | .cursor c => if Γ.isCursor c then semSetHasRowImproved Γ c else pure ()
  | .isOp true (.name l _) .null => semSetNotnullImproved Γ l
  | _ => pure ()

/-- `sem_set_improvements_for_false_condition`. -/
def semSetImprovementsForFalseCondition : Expr → M Unit
  | .logical .or l r => do
    semSetImprovementsForFalseCondition l
    semSetImprovementsForFalseCondition r
  | .not (.cursor c) => if Γ.isCursor c then semSetHasRowImproved Γ c else pure ()
  | .isOp false (.name l _) .null => semSetNotnullImproved Γ l
  | _ => pure ()

/-- The improvements of `improvedIfTrue` that hold once the whole condition was evaluated and is true: those of globals do not
survive a call in a later operand. -/
def Expr.validIfTrue : Expr → List Loc
  | .logical .and l r => (if r.hasCall then l.validIfTrue.filter (!Γ.isGlobal ·) else l.validIfTrue) ++ r.validIfTrue
  | .cursor c => [.cursor c]
  | .isOp true (.name l _) .null => [l]
  | _ => []

/-- The improvements of `improvedIfFalse` that hold once the whole condition was evaluated and is not true. -/
def Expr.validIfFalse : Expr → List Loc
  | .logical .or l r => (if r.hasCall then l.validIfFalse.filter (!Γ.isGlobal ·) else l.validIfFalse) ++ r.validIfFalse
  | .not (.cursor c) => [.cursor c]
  | .isOp false (.name l _) .null => [l]
  | _ => []

end CgSql
