import CgSql.SqlCode
import CgSql.Lib.Jumps

/-!
# Control flow of the generated code

What `cg_c.c` and `cg_lua.c` make of IF, SWITCH, loops, TRY and of the statements that jump. The code of expressions and of all other statements is
left as actions: they may read `@rc`, and they may check for an error. Lua gets what C gets, but for loops, SWITCH and CONTINUE.
-/

namespace CgSql.ControlCode

open Jumps SqlCode

/-! ## Programs -/

/-- Generated code without labels. -/
structure Act (A : Type) where
  code : A
  /-- `@rc` is in it. -/
  readsRc : Bool
  /-- A jump to the error target is in it. -/
  checked : Bool

mutual

/-- Statements. A condition comes with what is done before it is tested; the fetch of a LOOP is such an action. ELSE IF is an IF in an ELSE. -/
inductive Stmt (A T E : Type)
  | act (a : Act A)
  | control (k : Control)
  | ifStmt (prep : Act A) (t : T) (body alt : Stmts A T E)
  | switchStmt (prep : Act A) (e : E) (cases : Cases A T E)
  | whileStmt (prep : Act A) (t : T) (body : Stmts A T E)
  | forStmt (prep : Act A) (t : T) (update body : Stmts A T E)
  | trycatchStmt (body handler : Stmts A T E)

inductive Stmts (A T E : Type)
  | nil
  | cons (stmt : Stmt A T E) (rest : Stmts A T E)

/-- The cases of a SWITCH. A list without statements is NOTHING. -/
inductive Cases (A T E : Type)
  | nil
  | when (values : List Int) (body : Stmts A T E) (rest : Cases A T E)
  | otherwise (body : Stmts A T E)

end

variable {σ A T E : Type}

def Stmts.isNil : Stmts A T E → Bool
  | .nil => true
  | .cons _ _ => false

/-- All values of the cases. -/
def Cases.values : Cases A T E → List Int
  | .when values _ rest => values ++ rest.values
  | _ => []

/-- There is an ELSE. -/
def Cases.hasDefault : Cases A T E → Bool
  | .nil => false
  | .when _ _ rest => rest.hasDefault
  | .otherwise _ => true

mutual

/-- Where LEAVE and CONTINUE stand, and that the values of a SWITCH are different. The updates of a FOR have neither for a loop around it. -/
def Stmt.accepted (leaves continues : Bool) : Stmt A T E → Bool
  | .act _ => true
  | .control .leave => leaves
  | .control .continue => continues
  | .control _ => true
  | .ifStmt _ _ body alt => body.accepted leaves continues && alt.accepted leaves continues
  | .switchStmt _ _ cases => decide cases.values.Nodup && cases.accepted continues
  | .whileStmt _ _ body => body.accepted true true
  | .forStmt _ _ update body => update.accepted false false && body.accepted true true
  | .trycatchStmt body handler => body.accepted leaves continues && handler.accepted leaves continues

def Stmts.accepted (leaves continues : Bool) : Stmts A T E → Bool
  | .nil => true
  | .cons stmt rest => stmt.accepted leaves continues && rest.accepted leaves continues

def Cases.accepted (continues : Bool) : Cases A T E → Bool
  | .nil => true
  | .when _ body rest => body.accepted true continues && rest.accepted continues
  | .otherwise body => body.accepted true continues

end

/-! ## What statements do -/

/-- What actions and tests do. Actions are given the value of `@rc`. -/
structure World (σ A T E : Type) where
  act : A → Code → σ → σ
  failed : A → σ → Bool
  test : T → σ → Bool
  value : E → σ → Int
  rc : σ → Code
  setRc : Code → σ → σ

/-- The ways out of a TRY and of a procedure. -/
inductive Exit
  | throw
  | return
  deriving DecidableEq

variable (W : World σ A T E) (dml : Bool) (fuel : Nat)

def World.exec (a : Act A) (thrown : Code) (s : σ) : After Exit × σ :=
  let s' := W.act a.code (if a.readsRc then thrown else sqliteOk) s
  (if a.checked && W.failed a.code s' then .goto .throw else .next, s')

/-- `_rc_ = SQLITE_OK`, in procedures that use the database. -/
def World.clear (s : σ) : σ := if dml then W.setRc sqliteOk s else s

mutual

/-- Execute a statement in a CATCH that has this code, every loop for at most `fuel` rounds. -/
def execStmt (thrown : Code) : Stmt A T E → σ → After Exit × σ
  | .act a, s => W.exec a thrown s
  | .control .leave, s => (.leave, s)
  | .control .continue, s => (.continue, s)
  | .control .return, s => (.goto .return, W.clear dml s)
  | .control .throw, s => (.goto .throw, W.setRc (cqlBestError thrown) s)
  | .ifStmt prep t body alt, s =>
    andThen (W.exec prep thrown s) fun s => if W.test t s then execStmts thrown body s else execStmts thrown alt s
  | .switchStmt prep e cases, s => andThen (W.exec prep thrown s) fun s => exit (execCases thrown (W.value e s) cases s)
  | .whileStmt prep t body, s =>
    rounds (fun s => andThen (W.exec prep thrown s) fun s => if W.test t s then execStmts thrown body s else (.leave, s)) fuel s
  | .forStmt prep t update body, s =>
    rounds (fun s => andThen (W.exec prep thrown s) fun s =>
      if W.test t s then
        andThen (settle (execStmts thrown body s)) fun s => execStmts thrown update s
      else (.leave, s)) fuel s
  | .trycatchStmt body handler, s =>
    match execStmts thrown body s with
    | (.goto .throw, s) => execStmts (W.rc s) handler s
    | r => r

def execStmts (thrown : Code) : Stmts A T E → σ → After Exit × σ
  | .nil, s => (.next, s)
  | .cons stmt rest, s => andThen (execStmt thrown stmt s) fun s => execStmts thrown rest s

/-- Execute the case of a value. -/
def execCases (thrown : Code) (v : Int) : Cases A T E → σ → After Exit × σ
  | .nil, s => (.next, s)
  | .when values body rest, s => if v ∈ values then execStmts thrown body s else execCases thrown v rest s
  | .otherwise body, s => execStmts thrown body s

end

/-- Execute a procedure, up to its cleanup. -/
def execProc (body : Stmts A T E) (s : σ) : After Exit × σ :=
  match execStmts W dml fuel sqliteOk body s with
  | (.next, s) => (.next, W.clear dml s)
  | (.goto _, s) => (.next, s)
  | r => r

/-! ## Generated code -/

inductive Label
  | cleanup
  | catchStart (n : Nat)
  | catchEnd (n : Nat)
  | forContinue (n : Nat)
  | loopContinue (n : Nat)
  | case (v : Int)
  | default
  deriving DecidableEq

/-- Statements without control flow. `rcthrown` is a variable, or `SQLITE_OK` itself. -/
inductive Simple (A E : Type)
  | act (a : Act A) (rcthrown : Option Nat) (errorTarget : Label)
  /-- `_rc_ = cql_best_error(...)` -/
  | bestError (rcthrown : Option Nat)
  /-- `_rc_ = SQLITE_OK` -/
  | clear
  /-- `_rc_thrown_n = _rc_` -/
  | saveRc (n : Nat)
  /-- The value of a SWITCH in Lua, in a variable that others share. -/
  | keep (e : E)

inductive Test (T : Type)
  | expr (t : T)
  | among (values : List Int)

abbrev Text (A T E : Type) := Prog (Simple A E) (Test T) E Label

/-- The state of generated code. -/
structure Env (σ : Type) where
  state : σ
  thrown : Nat → Code
  val : Int

/-- What `@rc` is. -/
def Env.rcthrown (s : Env σ) : Option Nat → Code
  | none => sqliteOk
  | some n => s.thrown n

/-- The simple statements of generated code. -/
def Simple.run : Simple A E → Env σ → After Label × Env σ
  | .act a rcthrown errorTarget, s =>
    let state := W.act a.code (if a.readsRc then s.rcthrown rcthrown else sqliteOk) s.state
    (if a.checked && W.failed a.code state then .goto errorTarget else .next, { s with state })
  | .bestError rcthrown, s => (.next, { s with state := W.setRc (cqlBestError (s.rcthrown rcthrown)) s.state })
  | .clear, s => (.next, { s with state := W.setRc sqliteOk s.state })
  | .saveRc n, s => (.next, { s with thrown := Function.update s.thrown n (W.rc s.state) })
  | .keep e, s => (.next, { s with val := W.value e s.state })

def machine : Machine (Env σ) (Simple A E) (Test T) E Label where
  act := Simple.run W
  test
    | .expr t, s => W.test t s.state
    | .among values, s => decide (s.val ∈ values)
  select e s := [.case (W.value e s.state), .default]

/-! ## Generators -/

inductive Backend
  | c
  | lua
  deriving DecidableEq

/-- `error_target`, `rcthrown_current`, and for CONTINUE whether the loop is a FOR, in C, and the number of the FOR or of the label in Lua. -/
structure Ctx where
  errorTarget : Label
  rcthrown : Option Nat
  inFor : Bool
  loop : Nat

/-- The counts and the flags. -/
structure Gen where
  catchBlockCount : Nat
  /-- `for_loop_count`, and `lua_continue_label_next` -/
  loopCount : Nat
  rcthrownIndex : Nat
  errorTargetUsed : Bool
  rcthrownUsed : Bool
  returnUsed : Bool
  continueNeeded : Bool

variable (b : Backend)

/-- The flags that code sets. -/
def Gen.use (a : Act A) (g : Gen) : Gen :=
  { g with errorTargetUsed := g.errorTargetUsed || a.checked, rcthrownUsed := g.rcthrownUsed || a.readsRc }

/-- The number of the next loop, which has no CONTINUE so far. -/
def Gen.enter (g : Gen) : Gen := { g with loopCount := g.loopCount + 1, continueNeeded := false }

/-- The number of the next TRY, and no use of its label so far. -/
def Gen.enterTry (g : Gen) : Gen := { g with catchBlockCount := g.catchBlockCount + 1, errorTargetUsed := false }

/-- The number of the next CATCH, with the flag of the code around it. -/
def Gen.enterCatch (g : Gen) (errorTargetUsed : Bool) : Gen := { g with rcthrownIndex := g.rcthrownIndex + 1, errorTargetUsed, rcthrownUsed := false }

def cgAct (ctx : Ctx) (a : Act A) : Text A T E := .act (.act a ctx.rcthrown ctx.errorTarget)

/-- `_rc_ = SQLITE_OK`, or nothing. -/
def cgClear : Text A T E := if dml then .act .clear else .skip

/-- `cg_leave_stmt`, `cg_continue_stmt`, `cg_return_stmt` and `cg_throw_stmt`. -/
def cgControl (ctx : Ctx) : Control → Gen → Text A T E × Gen
  | .leave, g => (.leave, g)
  | .continue, g =>
    match b with
    | .c => (if ctx.inFor then .goto (.forContinue ctx.loop) else .continue, g)
    | .lua => (.goto (.loopContinue ctx.loop), { g with continueNeeded := true })
  | .return, g => (.seq (cgClear dml) (.goto .cleanup), { g with returnUsed := true })
  | .throw, g =>
    (.seq (.act (.bestError ctx.rcthrown)) (.goto ctx.errorTarget), { g with errorTargetUsed := true, rcthrownUsed := true })

/-- The labels before the statements of a WHEN. -/
def caseLabels : List Int → Text A T E
  | [] => .skip
  | v :: values => .seq (.label (.case v)) (caseLabels values)

/-- A loop, with what stands behind the test. -/
def cgLoop (prep : Text A T E) (t : T) (rest : Text A T E) : Text A T E :=
  .loop (.seq prep (.seq (.branch (.expr t) .skip .leave) rest))

/-- The label of a CONTINUE in Lua. -/
def continueLabel (needed : Bool) (n : Nat) : Text A T E := if needed then .label (.loopContinue n) else .skip

/-- A SWITCH with the code of its cases. Lua keeps the value, and goes through the cases once. -/
def cgSwitch (e : E) (cases : Text A T E) : Text A T E :=
  match b with
  | .c => .switch e cases
  | .lua => .seq (.act (.keep e)) (.once cases)

/-- A WHEN. -/
def cgWhen (values : List Int) (body : Text A T E) : Text A T E :=
  match b with
  | .c => .seq (caseLabels values) (.seq body .leave)
  | .lua => .branch (.among values) (.seq body .leave) .skip

/-- The ELSE of a SWITCH. -/
def cgDefault (body : Text A T E) : Text A T E :=
  match b with
  | .c => .seq (.label .default) (.seq body .leave)
  | .lua => body

/-- `cg_trycatch_helper`, when the statements are generated. -/
def cgTrycatchHelper (n k : Nat) (errorTargetUsed rcthrownUsed : Bool) (body handler : Text A T E) : Text A T E :=
  .seq (match b with | .c => .block (.seq body (.goto (.catchEnd n))) | .lua => .seq body (.goto (.catchEnd n)))
    (.seq (if errorTargetUsed then .label (.catchStart n) else .skip)
      (.seq (.block (.seq (if rcthrownUsed then .act (.saveRc k) else .skip) handler)) (.label (.catchEnd n))))

mutual

def cgStmt (ctx : Ctx) : Stmt A T E → Gen → Text A T E × Gen
  | .act a, g => (cgAct ctx a, g.use a)
  | .control k, g => cgControl dml b ctx k g
  | .ifStmt prep t body alt, g =>
    let c := cgStmtList ctx body (g.use prep)
    let d := cgStmtList ctx alt c.2
    (.seq (cgAct ctx prep) (.branch (.expr t) c.1 d.1), d.2)
  | .switchStmt prep e cases, g =>
    let c := cgCases ctx cases.hasDefault cases (g.use prep)
    (.seq (cgAct ctx prep) (cgSwitch b e c.1), c.2)
  | .whileStmt prep t body, g =>
    let g := g.use prep
    match b with
    | .c =>
      let c := cgStmtList { ctx with inFor := false } body g
      (cgLoop (cgAct ctx prep) t c.1, c.2)
    | .lua =>
      let n := g.loopCount + 1
      let c := cgStmtList { ctx with loop := n } body g.enter
      (cgLoop (cgAct ctx prep) t (.seq c.1 (continueLabel c.2.continueNeeded n)), { c.2 with continueNeeded := g.continueNeeded })
  | .forStmt prep t update body, g =>
    let g := g.use prep
    let n := g.loopCount + 1
    let c := cgStmtList { ctx with inFor := true, loop := n } body g.enter
    let u := cgStmtList { ctx with inFor := true, loop := n } update c.2
    let label := match b with | .c => .label (.forContinue n) | .lua => continueLabel c.2.continueNeeded n
    (cgLoop (cgAct ctx prep) t (.seq c.1 (.seq label u.1)), { u.2 with continueNeeded := g.continueNeeded })
  | .trycatchStmt body handler, g =>
    let n := g.catchBlockCount + 1
    let c := cgStmtList { ctx with errorTarget := .catchStart n } body g.enterTry
    let k := c.2.rcthrownIndex + 1
    let d := cgStmtList { ctx with rcthrown := some k } handler (c.2.enterCatch g.errorTargetUsed)
    (cgTrycatchHelper b n k c.2.errorTargetUsed d.2.rcthrownUsed c.1 d.1, { d.2 with rcthrownUsed := c.2.rcthrownUsed })

def cgStmtList (ctx : Ctx) : Stmts A T E → Gen → Text A T E × Gen
  | .nil, g => (.skip, g)
  | .cons stmt rest, g =>
    let c := cgStmt ctx stmt g
    let d := cgStmtList ctx rest c.2
    (.seq c.1 d.1, d.2)

/-- The cases in `cg_switch_stmt`. One without statements is left out where there is no ELSE. -/
def cgCases (ctx : Ctx) (hasDefault : Bool) : Cases A T E → Gen → Text A T E × Gen
  | .nil, g => (.skip, g)
  | .when values body rest, g =>
    if body.isNil && !hasDefault then cgCases ctx hasDefault rest g
    else
      let c := cgStmtList ctx body g
      let d := cgCases ctx hasDefault rest c.2
      (.seq (cgWhen b values c.1) d.1, d.2)
  | .otherwise body, g =>
    let c := cgStmtList ctx body g
    (cgDefault b c.1, c.2)

end

/-- `cg_create_proc_stmt`, up to the cleanup, with the counts of the file so far. -/
def cgProc (catchBlockCount loopCount : Nat) (body : Stmts A T E) : Text A T E :=
  let c := cgStmtList dml b ⟨.cleanup, none, false, 0⟩ body ⟨catchBlockCount, loopCount, 0, false, false, false, false⟩
  .seq c.1 (.seq (cgClear dml) (if c.2.errorTargetUsed || c.2.returnUsed then .label .cleanup else .skip))

end CgSql.ControlCode
