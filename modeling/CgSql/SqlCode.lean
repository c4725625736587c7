import CgSql.Ast
import CgSql.Lib.Exits

/-!
# Generated code for SQL

What the code `cg_c.c` generates for a procedure that uses the database does with `_rc_`, with its temporary statements and with its
error targets. Values are left out: the world says which branches are taken and what each call of SQLite or of a procedure returns.
An execution can be watched, and then faults where it fails: the code with which control reaches an error target, the code with
which a CATCH starts, and the temporary statement that is bound or first stepped.
-/

namespace CgSql.SqlCode

open Exits

/-! ## Programs -/

mutual

/-- Expressions. `both` evaluates its operands in order; `maybe` evaluates the second one or not. A SELECT comes with what its shared
fragments evaluate before it is prepared; `conditional` says that these have conditions, `vars` that variables are bound. `select` is
also the form with IF NOTHING THROW. -/
inductive Ex
  | plain
  | both (l r : Ex)
  | maybe (l r : Ex)
  | ifnullThrow (e : Ex)
  | call (args : Ex)
  | select (conditional vars : Bool) (frags : Ex)
  | selectIfNothing (conditional vars : Bool) (frags default : Ex)
  | selectIfNothingOrNull (conditional vars : Bool) (frags default : Ex)
  | selectIfNothingOrNullThrow (conditional vars : Bool) (frags : Ex)

end

mutual

/-- Statements. `sql` is a statement that is run, `rollback` says that it is a ROLLBACK; `open` prepares the statement of a cursor.
`ifStmt` has the code after an IF's first branch as its second list, `switchStmt` the lists of its cases. -/
inductive Stmt
  | eval (e : Ex)
  | sql (conditional vars rollback : Bool) (frags : Ex)
  | open (vars : Bool) (frags : Ex)
  | fetch
  | call (args : Ex)
  | control (k : Control)
  | ifStmt (c : Ex) (t e : Stmts)
  | switchStmt (e : Ex) (cases : Cases)
  | whileStmt (c : Ex) (body : Stmts)
  | forStmt (c : Ex) (update body : Stmts)
  | loopStmt (body : Stmts)
  | tryCatch (body handler : Stmts)

inductive Stmts
  | nil
  | cons (t : Stmt) (rest : Stmts)

inductive Cases
  | nil
  | cons (body : Stmts) (rest : Cases)

end

/-! ## Codes -/

/-- A `cql_code`. -/
abbrev Code := Int

def sqliteOk : Code := 0

def sqliteError : Code := 1

def sqliteRow : Code := 100

def sqliteDone : Code := 101

/-- A code that reports an error. -/
def isError (rc : Code) : Bool := rc ≠ sqliteOk ∧ rc ≠ sqliteRow ∧ rc ≠ sqliteDone

/-- `cql_best_error`. -/
def cqlBestError (rc : Code) : Code := if isError rc then rc else sqliteError

/-! ## States -/

/-- A temporary statement: a null pointer, prepared or reset, or stepped since. -/
inductive Temp
  | null
  | ready
  | stepped
  deriving DecidableEq

/-- `_rc_`, the temporary statements and how many answers the world gave. `_temp_stmt` is statement 0. -/
structure State where
  rc : Code
  temps : Nat → Temp
  tick : Nat

/-- The codes that the calls of SQLite and of procedures return, and which way a test goes. -/
structure Answer where
  /-- Of preparing, binding or executing a statement. -/
  status : Code
  /-- Of stepping a statement for a row. -/
  step : Code
  /-- Of stepping a statement that returns no rows. -/
  run : Code
  /-- Of a procedure. -/
  call : Code
  test : Bool

/-- Which codes SQLite returns from what. -/
structure Answer.Documented (a : Answer) : Prop where
  status_eq : a.status = sqliteOk ∨ isError a.status = true
  step_ne : a.step ≠ sqliteOk
  run_eq : a.run = sqliteDone ∨ isError a.run = true

/-- The answers in the order in which they are asked for. -/
structure World where
  answer : Nat → Answer
  documented : ∀ t, (answer t).Documented

abbrev Exec (α : Type) := Prog State Control α

/-- Why control goes to an error target. -/
inductive Cause
  /-- A call of SQLite failed. -/
  | failed
  /-- A SELECT expression, also one with IF NOTHING THROW or IF NOTHING OR NULL THROW, did not find a row. -/
  | noRow
  /-- One with IF NOTHING OR NULL THROW found a null. -/
  | foundNull
  /-- A function that throws its own error. -/
  | builtin
  /-- A THROW. -/
  | thrown
  /-- A procedure returned a code. -/
  | called
  deriving DecidableEq

/-- What an execution is watched for. It is cut off at the jumps that `jump` excludes, where it is told whether a kept statement is
between its step and its reset and the target is a CATCH in a loop. -/
structure Watch where
  jump : Bool → Bool
  code : Cause → Code → Bool
  handler : Code → Bool
  temp : Temp → Bool

/-- Where code is generated: in a loop or not (`cg_in_loop`), with an error target that is a CATCH in the same loop or one around it,
and the code that `@rc` and THROW read (`rcthrown_current`). -/
structure Place where
  inLoop : Bool
  caught : Bool
  thrown : Code
  caught_inLoop : caught = true → inLoop = true

namespace Place

/-- The body of a procedure. -/
def proc : Place := ⟨false, false, sqliteOk, fun h => h⟩

/-- The body of a loop. -/
def loop (p : Place) : Place := { p with inLoop := true, caught_inLoop := fun _ => rfl }

/-- The body of a TRY. -/
def tryBody (p : Place) : Place := { p with caught := p.inLoop, caught_inLoop := id }

/-- The body of a CATCH, which has the code of the throw in `_rc_thrown_n`. -/
def handler (p : Place) (rc : Code) : Place := { p with thrown := rc }

end Place

/-! ## Statement numbers -/

/-- `reusing_statement`: the statement is kept for the next iteration. -/
def reuses (inLoop conditional : Bool) : Bool := inLoop && !conditional

mutual

/-- How many temporary statements are numbered for an expression (`c_prepared_statement_index`). -/
def Ex.temps (inLoop : Bool) : Ex → Nat
  | .plain => 0
  | .both l r | .maybe l r => l.temps inLoop + r.temps inLoop
  | .ifnullThrow e | .call e => e.temps inLoop
  | .select conditional _ frags | .selectIfNothingOrNullThrow conditional _ frags =>
    frags.temps inLoop + (reuses inLoop conditional).toNat
  | .selectIfNothing conditional _ frags default | .selectIfNothingOrNull conditional _ frags default =>
    frags.temps inLoop + ((reuses inLoop conditional).toNat + default.temps inLoop)

end

mutual

def Stmt.temps (inLoop : Bool) : Stmt → Nat
  | .eval e | .call e | .open _ e => e.temps inLoop
  | .sql conditional vars _ frags => frags.temps inLoop + (vars && reuses inLoop conditional).toNat
  | .fetch | .control _ => 0
  | .ifStmt c t e => c.temps inLoop + (t.temps inLoop + e.temps inLoop)
  | .switchStmt e cases => e.temps inLoop + cases.temps inLoop
  | .whileStmt c body => c.temps inLoop + body.temps true
  | .forStmt c update body => c.temps inLoop + (body.temps true + update.temps true)
  | .loopStmt body => body.temps true
  | .tryCatch body handler => body.temps inLoop + handler.temps inLoop

/-- How many temporary statements are numbered for a statement list. -/
def Stmts.temps (inLoop : Bool) : Stmts → Nat
  | .nil => 0
  | .cons t rest => t.temps inLoop + rest.temps inLoop

def Cases.temps (inLoop : Bool) : Cases → Nat
  | .nil => 0
  | .cons body rest => body.temps inLoop + rest.temps inLoop

end

/-! ## Execution -/

variable (W : World) (w : Watch)

/-- Ask the world. -/
def ask : Exec Answer := do
  let s ← Prog.state
  Prog.update fun s => { s with tick := s.tick + 1 }
  return W.answer s.tick

/-- Store a code in `_rc_`. -/
def setRc (rc : Code) : Exec Unit := Prog.update fun s => { s with rc }

/-- Store the code of a call in `_rc_`. -/
def callRc (code : Answer → Code) : Exec Unit := do setRc (code (← ask W))

/-- Control goes to the error target, while a kept statement is between its step and its reset or not. -/
def throwNow {α : Type} (p : Place) (busy : Bool) (c : Cause) : Exec α := do
  if !w.jump (busy && p.caught) then Prog.cutOff
  else if w.code c (← Prog.state).rc then Prog.leave .throw
  else Prog.fault

/-- `cg_error_on_expr`. -/
def errorOn (p : Place) (busy : Bool) (c : Cause) (test : Code → Bool) : Exec Unit := do
  if test (← Prog.state).rc then throwNow w p busy c

/-- Change a temporary statement. -/
def setTemp (k : Nat) (t : Temp) : Exec Unit := Prog.update fun s => { s with temps := Function.update s.temps k t }

/-- `cql_prepare`, which finalizes first. -/
def prepare (k : Nat) : Exec Unit := do
  callRc W Answer.status
  setTemp k (if (← Prog.state).rc = sqliteOk then .ready else .null)

/-- The code that prepares a temporary statement, or finds it prepared. -/
def prepareTemp (reused : Bool) (k : Nat) : Exec Unit := do
  if reused then
    if (← Prog.state).temps k = .null then prepare W k else setRc sqliteOk
  else prepare W k

/-- `cql_multibind`, which finalizes the statement if it fails. -/
def multibind (k : Nat) : Exec Unit := do
  if (← Prog.state).rc = sqliteOk then
    if w.temp ((← Prog.state).temps k) then
      callRc W Answer.status
      if (← Prog.state).rc ≠ sqliteOk then setTemp k .null
    else Prog.fault

/-- `sqlite3_step`. -/
def step (code : Answer → Code) (k : Nat) : Exec Unit := do
  if w.temp ((← Prog.state).temps k) then
    callRc W code
    setTemp k .stepped
  else Prog.fault

/-- `cg_temp_stmt_cleanup`. -/
def cleanup (reused : Bool) (k : Nat) : Exec Unit := setTemp k (if reused then .ready else .null)

/-- `cg_bound_sql_statement` for a temporary statement: prepare it, bind it and check. -/
def boundTemp (p : Place) (busy rollback reused vars : Bool) (k : Nat) : Exec Unit := do
  prepareTemp W reused k
  if vars then multibind W w k
  if !rollback then errorOn w p busy .failed (· ≠ sqliteOk)

/-- `cg_bound_sql_statement` for other statements: the statement of a cursor, or one that is just executed. -/
def boundOther (p : Place) (vars rollback : Bool) : Exec Unit := do
  callRc W Answer.status
  if vars then
    if (← Prog.state).rc = sqliteOk then callRc W Answer.status
  if !rollback then errorOn w p false .failed (· ≠ sqliteOk)

/-- The number of a temporary statement: the next one where it is reused, 0 elsewhere. -/
def tempIndex (reused : Bool) (n : Nat) : Nat := if reused then n + 1 else 0

/-- A code other than the two of a step that succeeded. -/
def notStepped (rc : Code) : Bool := rc ≠ sqliteRow ∧ rc ≠ sqliteDone

/-- The code that prepares, binds and first steps the statement of an expression. -/
def selectStep (p : Place) (busy reused vars : Bool) (k : Nat) : Exec Unit := do
  boundTemp W w p busy false reused vars k
  step W w Answer.step k

/-- Evaluate an expression; `n` temporary statements were numbered before it. -/
def execEx (p : Place) : Bool → Nat → Ex → Exec Unit
  | _, _, .plain => pure ()
  | busy, n, .both l r => do
    execEx p busy n l
    execEx p busy (n + l.temps p.inLoop) r
  | busy, n, .maybe l r => do
    execEx p busy n l
    if (← ask W).test then execEx p busy (n + l.temps p.inLoop) r
  | busy, n, .ifnullThrow e => do
    execEx p busy n e
    if (← ask W).test then
      setRc sqliteError
      throwNow w p busy .builtin
  | busy, n, .call args => do
    execEx p busy n args
    callRc W Answer.call
    errorOn w p busy .called (· ≠ sqliteOk)
  | busy, n, .select conditional vars frags => do
    -- `cg_expr_select`
    execEx p busy n frags
    let reused := reuses p.inLoop conditional
    let k := tempIndex reused (n + frags.temps p.inLoop)
    selectStep W w p busy reused vars k
    errorOn w p (busy || reused) .noRow (· ≠ sqliteRow)
    cleanup reused k
  | busy, n, .selectIfNothing conditional vars frags default => do
    execEx p busy n frags
    let reused := reuses p.inLoop conditional
    let k := tempIndex reused (n + frags.temps p.inLoop)
    selectStep W w p busy reused vars k
    errorOn w p (busy || reused) .failed notStepped
    if (← Prog.state).rc ≠ sqliteRow then
      execEx p (busy || reused) (n + frags.temps p.inLoop + reused.toNat) default
    cleanup reused k
  | busy, n, .selectIfNothingOrNull conditional vars frags default => do
    execEx p busy n frags
    let reused := reuses p.inLoop conditional
    let k := tempIndex reused (n + frags.temps p.inLoop)
    selectStep W w p busy reused vars k
    errorOn w p (busy || reused) .failed notStepped
    let isNull := (← ask W).test
    if (← Prog.state).rc = sqliteDone || isNull then
      execEx p (busy || reused) (n + frags.temps p.inLoop + reused.toNat) default
    setRc sqliteOk
    cleanup reused k
  | busy, n, .selectIfNothingOrNullThrow conditional vars frags => do
    execEx p busy n frags
    let reused := reuses p.inLoop conditional
    let k := tempIndex reused (n + frags.temps p.inLoop)
    selectStep W w p busy reused vars k
    errorOn w p (busy || reused) .failed notStepped
    let isNull := (← ask W).test
    let s ← Prog.state
    if s.rc = sqliteDone || isNull then throwNow w p (busy || reused) (if s.rc = sqliteDone then .noRow else .foundNull)
    setRc sqliteOk
    cleanup reused k

/-- The handlers of a round of a loop: LEAVE ends the loop, CONTINUE goes on. -/
def roundHandler : Control → Option (Exec Bool)
  | .leave => some (pure false)
  | .continue => some (pure true)
  | _ => none

/-- The handler of a SWITCH. -/
def switchHandler : Control → Option (Exec Unit)
  | .leave => some (pure ())
  | _ => none

/-- The handler of a TRY, which is given the code of the throw. -/
def tryHandler (handler : Code → Exec Unit) : Control → Option (Exec Unit)
  | .throw => some do
    let rc := (← Prog.state).rc
    if w.handler rc then handler rc else Prog.fault
  | _ => none

/-- One round of a loop: the test, then the body, then the update. -/
def execRound (test : Exec Bool) (body update : Exec Unit) : Exec Bool := do
  if ← test then
    if ← (do body; return true).handle roundHandler then
      update
      return true
    else return false
  else return false

mutual

/-- Execute a statement, every loop for at most `fuel` rounds. -/
def execStmt (fuel : Nat) (p : Place) : Nat → Stmt → Exec Unit
  | n, .eval e => execEx W w p false n e
  | n, .sql conditional vars rollback frags => do
    execEx W w p false n frags
    if vars then
      let reused := reuses p.inLoop conditional
      let k := tempIndex reused (n + frags.temps p.inLoop)
      boundTemp W w p false rollback reused true k
      step W w Answer.run k
      errorOn w p reused .failed (· ≠ sqliteDone)
      cleanup reused k
    else boundOther W w p false rollback
  | n, .open vars frags => do
    execEx W w p false n frags
    boundOther W w p vars false
  | _, .fetch => do
    callRc W Answer.step
    errorOn w p false .failed notStepped
  | n, .call args => do
    execEx W w p false n args
    callRc W Answer.call
    errorOn w p false .called (· ≠ sqliteOk)
  | _, .control .throw => do
    -- `cg_throw_stmt`
    setRc (cqlBestError p.thrown)
    throwNow w p false .thrown
  | _, .control .return => do
    setRc sqliteOk
    Prog.leave .return
  | _, .control k => Prog.leave k
  | n, .ifStmt c t e => do
    execEx W w p false n c
    if (← ask W).test then execStmts fuel p (n + c.temps p.inLoop) t
    else execStmts fuel p (n + c.temps p.inLoop + t.temps p.inLoop) e
  | n, .switchStmt e cases => do
    execEx W w p false n e
    (execCases fuel p (n + e.temps p.inLoop) cases).handle switchHandler
  | n, .whileStmt c body =>
    -- the test is generated before `cg_in_loop` is set
    Prog.loop fuel (execRound (do execEx W w p false n c; return (← ask W).test)
      (execStmts fuel p.loop (n + c.temps p.inLoop) body) (pure ()))
  | n, .forStmt c update body =>
    Prog.loop fuel (execRound (do execEx W w p false n c; return (← ask W).test)
      (execStmts fuel p.loop (n + c.temps p.inLoop) body)
      (execStmts fuel p.loop (n + c.temps p.inLoop + body.temps true) update))
  | n, .loopStmt body =>
    Prog.loop fuel (execRound (do
      callRc W Answer.step
      errorOn w p false .failed notStepped
      return (← Prog.state).rc = sqliteRow) (execStmts fuel p.loop n body) (pure ()))
  | n, .tryCatch body handler =>
    (execStmts fuel p.tryBody n body).handle (tryHandler w fun rc => execStmts fuel (p.handler rc) (n + body.temps p.inLoop) handler)

/-- Execute a statement list. -/
def execStmts (fuel : Nat) (p : Place) : Nat → Stmts → Exec Unit
  | _, .nil => pure ()
  | n, .cons t rest => do
    execStmt fuel p n t
    execStmts fuel p (n + t.temps p.inLoop) rest

/-- Execute one of the cases of a SWITCH, or none. -/
def execCases (fuel : Nat) (p : Place) : Nat → Cases → Exec Unit
  | _, .nil => pure ()
  | n, .cons body rest => do
    if (← ask W).test then execStmts fuel p n body else execCases fuel p (n + body.temps p.inLoop) rest

end

/-- Run the code of a procedure up to its cleanup: `_rc_` is what it returns, unless the cleanup finds an error of its own. -/
def execProc (fuel : Nat) (body : Stmts) : Exec Unit := do
  execStmts W w fuel .proc 0 body
  setRc sqliteOk

/-- The state in which a procedure starts. -/
def State.initial : State := ⟨sqliteOk, fun _ => .null, 0⟩

end CgSql.SqlCode
