import CgSql.Lemmas.SqlCode

/-!
# Error codes and kept statements

Control reaches no error target with `SQLITE_OK`, but a SELECT expression without a row leaves `SQLITE_DONE`, as documented, and so
not every code it is reached with is that of an error. A kept statement is reset only where nothing fails: after an error between its
step and its reset that is caught in the loop, the next round binds a statement that is still stepped.
-/

namespace CgSql.SqlCode

open Exits

namespace SqlCodeAux

/-- Every call succeeds, no SELECT finds a row, and every test is passed. -/
def noRows : World := ⟨fun _ => ⟨sqliteOk, sqliteDone, sqliteDone, sqliteOk, true⟩, fun _ => ⟨.inl rfl, by decide, .inl rfl⟩⟩

/-- `x := (SELECT ... WHERE id = y)`. -/
def selectOne : Stmt := .eval (.select false true .plain)

end SqlCodeAux

open SqlCodeAux

/-- From the start of a procedure, whatever passes the watch also meets the postconditions. -/
theorem execProc_keeps {w : Watch} {t : Bool} (hw : w.Fits t) (W : World) (fuel : Nat) (body : Stmts) :
    Triple (· = State.initial) (execProc W w fuel body) (fun _ s => s.rc = sqliteOk)
      (fun c s => (c = .throw → s.rc ≠ sqliteOk) ∧ (c = .return → s.rc = sqliteOk)) := by
  have hS : Covers {k | 0 < k} 0 (body.temps Place.proc.inLoop) := ⟨fun k h _ => h, by simp⟩
  have hbody := execStmts_keeps (W := W) hw fuel body (R := fun _ => True) hS
  refine .bind ((hbody.weakenExit fun _ _ h => ⟨h.2.1, h.1⟩).strengthenPre ?_) fun _ => .update fun _ _ => rfl
  rintro _ rfl
  exact ⟨trivial, fun _ _ _ => nofun⟩

/-! ## Codes -/

/-- Asks for an error code wherever control reaches an error target, and wherever a CATCH starts. -/
def Watch.errorCodes : Watch := ⟨fun _ => true, fun _ => isError, isError, fun _ => true⟩

/-- Asks for a code other than `SQLITE_OK`, and for an error code except from the SELECT expressions and from calls. No row may be `SQLITE_DONE`. -/
def Watch.leftCodes : Watch := ⟨fun _ => true, Cause.leaves, (· ≠ sqliteOk), fun _ => true⟩

/-- Control reaches every error target with an error code. -/
def ThrowsErrors : Prop := ∀ W fuel body, execProc W .errorCodes fuel body .initial ≠ .fault

/-- A SELECT expression without a row throws `SQLITE_DONE`. -/
theorem throwsErrors_false : ¬ ThrowsErrors :=
  fun h => h noRows 0 (.cons selectOne .nil) rfl

/-- Control reaches no error target with `SQLITE_OK`: the code is that of an error, unless a SELECT expression did not find a row
(`SQLITE_DONE`), IF NOTHING OR NULL THROW found a null or a procedure returned it. No CATCH starts with `SQLITE_OK`, and the procedure
returns another code exactly where it throws. -/
theorem throws_left_codes (W : World) (fuel : Nat) (body : Stmts) :
    Triple (· = State.initial) (execProc W .leftCodes fuel body) (fun _ s => s.rc = sqliteOk)
      (fun c s => (c = .throw → s.rc ≠ sqliteOk) ∧ (c = .return → s.rc = sqliteOk)) :=
  execProc_keeps (t := false) ⟨nofun, fun _ _ => id, fun _ h => by simpa [Watch.leftCodes] using h, fun _ _ => rfl⟩ W fuel body

/-! ## Kept statements -/

/-- Asks for a statement that is not stepped wherever one is bound or first stepped. -/
def Watch.ready : Watch := ⟨fun _ => true, fun _ _ => true, fun _ => true, (· ≠ .stepped)⟩

/-- The same, in executions in which no error is caught in a loop from between the step and the reset of a kept statement. -/
def Watch.readyUncaught : Watch := ⟨(! ·), fun _ _ => true, fun _ => true, (· ≠ .stepped)⟩

/-- Statements are ready when they are bound. -/
def BindsReady : Prop := ∀ W fuel body, execProc W .ready fuel body .initial ≠ .fault

/-- The second round binds the statement that the first one stepped without finding a row. -/
theorem bindsReady_false : ¬ BindsReady :=
  fun h => h noRows 2 (.cons (.whileStmt .plain (.cons (.tryCatch (.cons selectOne .nil) .nil) .nil)) .nil) rfl

/-- Statements are ready when they are bound, where no error is caught in a loop from between the step and the reset of a kept
statement. -/
theorem binds_ready_of_uncaught (W : World) (fuel : Nat) (body : Stmts) : execProc W .readyUncaught fuel body .initial ≠ .fault := by
  have hw : Watch.readyUncaught.Fits true :=
    ⟨fun _ => rfl, fun _ _ _ => rfl, fun _ _ => rfl, fun x h => by simpa [Watch.readyUncaught] using h rfl⟩
  intro h
  have hs := execProc_keeps hw W fuel body State.initial rfl
  rw [h] at hs
  exact hs

end CgSql.SqlCode
