import CgSql.SemExpr

/-!
# Analysis of statements

`sem_one_stmt` for the modelled forms. A loop outside of loops has its body analysed twice, the second time as it was left by the
first, so the analysis is defined with its own second visit as a parameter; a second visit never analyses twice.
-/

namespace CgSql

open Flow M

variable (Γ : Env)

/-! ## Statements that write -/

/-- The arguments of a CALL (`sem_validate_args_vs_formals`). -/
def semArgs : Args → M Args
  | .nil => pure .nil
  | .input e rest => do
    let e ← semExpr Γ e
    return .input e (← semArgs rest)
  | .output l inout rest => do
    -- `sem_arg_for_out_param`
    require (Γ.resolves l)
    let s ← get
    require (!inout || !Γ.requiresInit l || s.flow.flags (Γ.initKey l))
    semUnsetNotnullImproved Γ l
    semSetInitializationImproved Γ l
    return .output l inout (← semArgs rest)

/-- `sem_call_stmt_opt_cursor`. A procedure declared with NO CHECK has no OUT arguments. -/
def semCallStmt (p : Nat) (args : Args) : M Args :=
  finally' (do
    let args ← semArgs Γ args
    -- CQL0426
    require (args.outsUnique && (Γ.checked p || args.outs.isEmpty))
    return args) (semAfterCall (Γ.checked p))

/-- The variables of FETCH INTO, the first of them for the given column. -/
def semFetchInto (c : Nat) : Nat → List Nat → M Unit
  | _, [] => pure ()
  | icol, v :: vs => do
    -- `sem_verify_assignment`
    require (!Γ.notNull (← get).loop (.var v) || Γ.notNull (← get).loop (.field c icol))
    semUnsetNotnullImproved Γ (.var v)
    semSetInitializationImproved Γ (.var v)
    semFetchInto c (icol + 1) vs

/-- What SET improves, or un-improves. -/
def semAssigned (v : Nat) (notNull : Bool) : M Unit :=
  (if notNull then semSetNotnullImproved Γ (.var v) else semUnsetNotnullImproved Γ (.var v)) >>= fun _ =>
    semSetInitializationImproved Γ (.var v)

/-- The analysis of a statement that writes. -/
def semWrite : Write → M Write
  | .set v e => do
    -- `sem_assign`
    require (Γ.resolves (.var v))
    let e ← semExpr Γ e
    let pass := (← get).loop
    let _ ← both (require (!Γ.notNull pass (.var v) || e.isNotNull Γ)) (semAssigned Γ v (e.isNotNull Γ))
    return .set v e
  | .letVar v e => do
    -- `sem_let_stmt`: the type word is new, so nothing is improved yet, and has the nullability of the expression
    let e ← semExpr Γ e
    let s ← get
    require (Γ.resolves (.var v) && Γ.notNull s.loop (.var v) == e.isNotNull Γ && !Γ.requiresInit (.var v) &&
      !s.flow.flags (Γ.notnullKey (.var v)))
    return .letVar v e
  | .fetch c => do
    -- `sem_fetch_stmt`
    require (Γ.isCursor c)
    semUnsetFields Γ c
    semUnsetHasRowImproved Γ c
    return .fetch c
  | .fetchInto c vs => do
    require (vs.all (fun v => Γ.resolves (.var v)) && decide vs.Nodup)
    semFetchInto Γ c 0 vs
    -- CQL0217
    require (vs.length == Γ.fieldCount c)
    return .fetchInto c vs
  | .fetchCall c p args => do
    -- `sem_fetch_call_stmt`
    let args ← semCallStmt Γ p args
    require (Γ.isCursor c)
    semUnsetHasRowImproved Γ c
    return .fetchCall c p args
  | .fetchValues c es => do
    -- `sem_fetch_values_stmt`
    require (Γ.isCursor c)
    let es ← semExprList Γ (some (semExprWith Γ none)) es
    let pass := (← get).loop
    require (es.toList.length == Γ.fieldCount c && es.toList.zipIdx.all fun (e, i) => !Γ.notNull pass (.field c i) || e.isNotNull Γ)
    semUnsetFields Γ c
    semSetHasRowImproved Γ c
    return .fetchValues c es
  | .updateCursor c fields es => do
    -- `sem_update_cursor_stmt`
    let es ← semExprList Γ (some (semExprWith Γ none)) es
    let pass := (← get).loop
    require (es.toList.length == fields.length && fields.all (· < Γ.fieldCount c) &&
      (fields.zip es.toList).all fun (i, e) => !Γ.notNull pass (.field c i) || e.isNotNull Γ)
    return .updateCursor c fields es
  | .close c => pure (.close c)
  | .call p args => do return .call p (← semCallStmt Γ p args)
  | .cursorFromBlob c blob => do
    -- a checked call with the cursor and the blob as arguments, then `sem_proc_call_post_check`
    require (Γ.isCursor c)
    let blob ← finally' (semExpr Γ blob) (semAfterCall true)
    semSetHasRowImproved Γ c
    return .cursorFromBlob c blob

/-! ## Loops -/

/-- One analysis of the body of a loop, in a jump context and under the improvements of the condition. -/
def semLoopPass (improve : M Unit) (body : M Stmts) : M Stmts := inJump do
  improve
  body

/-- `sem_stmt_list_within_loop`: a loop outside of loops is analysed twice. -/
def semStmtListWithinLoop (improve : M Unit) (body : M Stmts) (again : Stmts → M Stmts) : M Stmts := do
  if (← get).loop = .none then
    let body ← withLoop .analyze (semLoopPass improve body)
    withLoop .reanalyze (semLoopPass improve (again body))
  else semLoopPass improve body

/-- The body of a loop; there is nothing to analyse where the loop has no statement list. -/
def semBodyOfLoop (isNil : Bool) (improve : M Unit) (body : M Stmts) (again : Stmts → M Stmts) : M Stmts :=
  if isNil then pure .nil else deeper (semStmtListWithinLoop improve body again)

/-! ## Statements and statement lists -/

/-- The statements that have to be the last of their list, and where they may stand. -/
def semControl (k : Control) (isLast : Bool) : M Unit := do
  let s ← get
  match k with
  -- CQL0219
  | .leave => require (decide (s.loopDepth ≠ 0) || s.inSwitch)
  -- CQL0218
  | .continue => require (decide (s.loopDepth ≠ 0))
  | _ => pure ()
  -- CQL0308
  require (k == .throw || isLast)

/-- The checks of a SWITCH and the coverage of its branches, once they were analysed. -/
def semSwitchCoverage (allValues : Option (List Int)) (cases : SwitchCase) : M Unit := do
  -- CQL0384 and CQL0385
  require (cases.hasStatements && decide cases.values.Nodup)
  match allValues with
  | some vs =>
    -- CQL0387 and CQL0388
    require (vs.all (· ∈ cases.values) && cases.values.all (· ∈ vs))
    flow (setCoversAllCases true)
  | none => flow (setCoversAllCases cases.hasElse)

/-- The guard pattern: after an IF with one branch, which holds a control statement, the condition is not true. -/
def semGuard (c : Expr) (body : Stmts) (alt : IfAlt) : M Unit :=
  if alt.isDone && body.containsControl then semSetImprovementsForFalseCondition Γ c else pure ()

mutual

/-- `sem_one_stmt`, with the analysis of a statement list analysed before. -/
def semOneStmtWith (again : Stmts → M Stmts) (isLast : Bool) : Stmt → M Stmt
  | .expr e => do return .expr (← semExpr Γ e)
  | .write w => do return .write (← semWrite Γ w)
  | .ifStmt c body alt => do
    -- `sem_if_stmt`
    let (c, body, alt) ← inBranchGroup do
      -- `sem_cond_action`
      let c ← semExpr Γ c
      let body ← semBranchWith again (semSetImprovementsForTrueCondition Γ c) body
      semSetImprovementsForFalseCondition Γ c
      return (c, body, ← semIfAltWith again alt)
    semGuard Γ c body alt
    return .ifStmt c body alt
  | .switchStmt allValues e cases => withinSwitch do
    -- `sem_switch_stmt`
    let e ← semExpr Γ e
    -- CQL0381
    require (e.isNotNull Γ)
    let cases ← inBranchGroup do
      let cases ← semSwitchCasesWith again allValues.isSome cases
      semSwitchCoverage allValues cases
      return cases
    return .switchStmt allValues e cases
  | .whileStmt c body => do
    -- `sem_while_stmt`
    let c ← semExpr Γ c
    return .whileStmt c (← semBodyOfLoop body.isNil (semSetImprovementsForTrueCondition Γ c) (semStmtListWith again body) again)
  | .forStmt c update body => do
    -- `sem_for_stmt`
    let c ← semExpr Γ c
    let body ← semBodyOfLoop body.isNil (semSetImprovementsForTrueCondition Γ c) (semStmtListWith again body) again
    return .forStmt c (← inNormal (semStmtListWith again update)) body
  | .loopStmt c into body => do
    -- `sem_loop_stmt`
    let _ ← semWrite Γ (match into with | none => .fetch c | some vs => .fetchInto c vs)
    let improve := match into with | none => semSetImprovementsForTrueCondition Γ (.cursor c) | some _ => pure ()
    return .loopStmt c into (← semBodyOfLoop body.isNil improve (semStmtListWith again body) again)
  | .tryCatch body handler => do
    -- `sem_trycatch_stmt`
    let body ← inJump (semStmtListWith again body)
    if handler.isNil then return .tryCatch body handler
    return .tryCatch body (← inNormal (semStmtListWith again handler))
  | .control k => do
    let _ ← both (semControl k isLast) (flow (setAlwaysJumps true))
    return .control k

/-- `sem_stmt_list_in_current_flow_context`. -/
def semStmtListWith (again : Stmts → M Stmts) : Stmts → M Stmts
  | .nil => pure .nil
  | .cons t rest => do
    let (t, rest) ← both (semOneStmtWith again rest.isNil t) (semStmtListWith again rest)
    return .cons t rest

/-- A branch of an IF: its statement list under the improvements of its condition, or an empty branch. -/
def semBranchWith (again : Stmts → M Stmts) (improve : M Unit) : Stmts → M Stmts
  | .nil => do
    flow addEmptyBranch
    return .nil
  | .cons t rest => inBranch do
    improve
    let (t, rest) ← both (semOneStmtWith again rest.isNil t) (semStmtListWith again rest)
    return .cons t rest

/-- `sem_elseif_list` and the ELSE of `sem_if_stmt`. -/
def semIfAltWith (again : Stmts → M Stmts) : IfAlt → M IfAlt
  | .done => pure .done
  | .orElse body => do
    flow (setCoversAllCases true)
    return .orElse (← semBranchWith again (pure ()) body)
  | .elseIf c body rest => do
    let c ← semExpr Γ c
    let body ← semBranchWith again (semSetImprovementsForTrueCondition Γ c) body
    semSetImprovementsForFalseCondition Γ c
    return .elseIf c body (← semIfAltWith again rest)

/-- `sem_switch_cases`. -/
def semSwitchCasesWith (again : Stmts → M Stmts) (allValues : Bool) : SwitchCase → M SwitchCase
  | .done => pure .done
  | .orElse body => do
    return .orElse (← inBranch do
      -- CQL0383
      require !allValues
      semStmtListWith again body)
  | .when values body rest => do
    let body ← inBranch (semStmtListWith again body)
    return .when values body (← semSwitchCasesWith again allValues rest)

end

/-- `sem_stmt_list_in_current_flow_context`, of a list analysed for the first time. -/
def semStmtList : Stmts → M Stmts := semStmtListWith Γ (semStmtListWith Γ pure)

/-- The body of a procedure (`sem_create_proc_stmt`). -/
def semProc (body : Stmts) : M Stmts := inNormal (semStmtList Γ body)

/-- A statement at top level: one that declares a procedure, or one that is run. -/
inductive TopStmt
  | createProc (body : Stmts)
  | stmt (t : Stmt)

/-- A statement at top level, the last one or not. -/
def semTopStmt (isLast : Bool) : TopStmt → M TopStmt
  | .createProc body => do return .createProc (← semProc Γ body)
  | .stmt t => do return .stmt (← semOneStmtWith Γ (semStmtListWith Γ pure) isLast t)

/-- The statements at top level, in order: a procedure starts with the improvements made before it. -/
def semTopStmts : List TopStmt → M (List TopStmt)
  | [] => pure []
  | t :: rest => do
    let (t, rest) ← both (semTopStmt Γ rest.isEmpty t) (semTopStmts rest)
    return t :: rest

/-- A program (`sem_main`). -/
def semProgram (program : List TopStmt) : M (List TopStmt) := inNormal (semTopStmts Γ program)

/-- The state in which the analysis of a program starts: nothing is improved, and no branch group was popped. -/
def Sem.initial : Sem where
  flow := { flags := fun _ => false, contexts := [{ kind := .normal, entry := fun _ => false, entryUnsets := fun _ => 0 }], unsets := fun _ => 0 }
  globals := []
  loop := .none
  loopDepth := 0
  inSwitch := false
  groups := []

end CgSql
