import CgSql.Lib.Blocks
import Mathlib.Logic.Function.Basic

/-!
# Cursors

What the code `cg_c.c` generates for a cursor with storage does with its `_has_row_` flag and its columns: FETCH, FETCH FROM VALUES,
FETCH FROM CALL and from a blob, UPDATE CURSOR, CLOSE and OUT, with any other statements between them, in a procedure with a cursor of
its own or in a program whose procedures share a global one. Every column remembers the row it was fetched with.
-/

namespace CgSql.Cursor

open Exits Blocks

/-! ## Cursors -/

/-- The columns of a cursor: how many, and which are references or NOT NULL. -/
structure Shape where
  count : Nat
  isRef : Nat → Bool
  isNotNull : Nat → Bool

/-- `_refs_count_` is not zero. -/
def Shape.hasRefs (sh : Shape) : Bool := (List.range sh.count).any sh.isRef

/-- A column: its value or null, and the row it belongs to, if any. -/
structure Column where
  value : Option Int
  row : Option Nat

/-- The row structure of a cursor. -/
structure Row where
  hasRow : Bool
  columns : Nat → Column

/-- The columns are those of one row, and no NOT NULL reference is null. -/
def Row.Whole (sh : Shape) (r : Row) : Prop :=
  ∀ i < sh.count, (r.columns i).row ≠ none ∧ (r.columns i).row = (r.columns 0).row ∧
    (sh.isRef i = true → sh.isNotNull i = true → (r.columns i).value ≠ none)

instance (sh : Shape) (r : Row) : Decidable (r.Whole sh) := inferInstanceAs (Decidable (∀ i < sh.count, _))

/-- Where the flag says that there is a row, there is a whole one. -/
def Row.Sound (sh : Shape) (r : Row) : Prop := r.hasRow = true → r.Whole sh

instance (sh : Shape) (r : Row) : Decidable (r.Sound sh) := inferInstanceAs (Decidable (_ → _))

/-- No row: cleared memory, or what FETCH puts there. -/
def Row.empty : Row := ⟨false, fun _ => ⟨none, none⟩⟩

/-- The row that is fetched with the given values. -/
def Row.fetched (values : Nat → Option Int) (n : Nat) : Row := ⟨true, fun i => ⟨values i, some n⟩⟩

/-- `cql_teardown_row`, which releases the references of the row. -/
def Row.teardown (sh : Shape) (r : Row) : Row :=
  { r with columns := fun i => if sh.isRef i then ⟨none, none⟩ else r.columns i }

/-! ## Statements -/

/-- The procedures that an expression may call, in order. -/
abbrev Calls := List Nat

/-- The statements that touch the cursor, and the others, with the calls in their expressions. FETCH FROM VALUES lists every column, in
some order, each with its value. A condition with calls is another statement in front of its test. -/
inductive Action (sh : Shape)
  | other (calls : Calls)
  | fetch
  | fetchRows
  | fetchValues (seed : Option Calls) (values : List (Nat × Calls)) (all : ∀ i < sh.count, i ∈ values.map Prod.fst)
  | fetchCall (args : Calls) (p : Nat)
  | fromBlob (calls : Calls)
  | updateCursor (values : List (Nat × Calls))
  | close
  | out
  | outOther

/-- Where a cursor is declared, and the procedures of the program. What is called does not see the cursor of a procedure. -/
structure Program (sh : Shape) where
  isGlobal : Bool
  procs : Nat → Block (Action sh)

/-- An answer of the world: yes or no, whether there is an error, and values for the columns, not null for those that are NOT NULL. -/
structure Answer (sh : Shape) where
  yes : Bool
  throws : Bool
  values : Nat → Option Int
  notNull : ∀ i, sh.isNotNull i = true → values i ≠ none

/-- The answers in the order in which they are asked for. -/
abbrev World (sh : Shape) := Nat → Answer sh

/-- The cursor, the row that OUT fills (`_result_`), how many rows were fetched and how many answers the world gave. -/
structure State where
  cursor : Row
  result : Row
  rows : Nat
  tick : Nat

abbrev Exec (α : Type) := Prog State Jump α

variable {sh : Shape} (W : World sh)

/-- Ask the world. -/
def ask : Exec (Answer sh) := do
  let s ← Prog.state
  Prog.update fun s => { s with tick := s.tick + 1 }
  return W s.tick

/-- Call a procedure, or not. With `cut`, executions are cut off at the call. -/
def makeCall (call : Nat → Exec Unit) (cut made : Bool) (p : Nat) : Exec Unit :=
  if made then (if cut then Prog.cutOff else call p) else pure ()

/-- Evaluate an expression: which of its calls are made, and its answer, are up to the world. -/
def evaluate (call : Nat → Exec Unit) (cut : Bool) : Calls → Exec (Answer sh)
  | [] => ask W
  | p :: calls => do
    let a ← ask W
    makeCall call cut a.yes p
    evaluate call cut calls

/-- Code that does not touch the cursor, but for the procedures it calls, and can fail. -/
def otherCode (call : Nat → Exec Unit) (calls : Calls) : Exec Unit := do
  if (← evaluate W call false calls).throws then Prog.leave .throw

/-- Number a row. -/
def newRow : Exec Nat := do
  Prog.update fun s => { s with rows := s.rows + 1 }
  return (← Prog.state).rows

/-- Change the cursor. -/
def setCursor (f : Row → Row) : Exec Unit := Prog.update fun s => { s with cursor := f s.cursor }

/-- All columns at once, and the flag: a row, or none. -/
def setFetched (a : Answer sh) : Exec Unit := do
  let n ← newRow
  setCursor fun _ => if a.yes then .fetched a.values n else .empty

/-- A store to a column. -/
def setColumn (i : Nat) (c : Column) : Exec Unit :=
  setCursor fun r => { r with columns := Function.update r.columns i c }

variable (P : Program sh)

/-- The stores of FETCH FROM VALUES for row `n`; `same` says that the columns and the flag are those of one row still. With `assumed`,
executions are cut off where an error is caught that leaves them apart, and where a procedure is called that may see them so. -/
def storeValues (call : Nat → Exec Unit) (assumed caught : Bool) (n : Nat) : Bool → List (Nat × Calls) → Exec Unit
  | _, [] => pure ()
  | same, (i, calls) :: values => do
    let a ← evaluate W call (assumed && P.isGlobal && !same) calls
    if a.throws then
      if assumed && caught && !same then Prog.cutOff else Prog.leave .throw
    else
      setColumn i ⟨a.values i, some n⟩
      storeValues call assumed caught n false values

/-- The stores of UPDATE CURSOR. The columns stay part of the row. -/
def updateValues (call : Nat → Exec Unit) : List (Nat × Calls) → Exec Unit
  | [] => pure ()
  | (i, calls) :: values => do
    let a ← evaluate W call false calls
    if a.throws then Prog.leave .throw
    else
      setColumn i ⟨a.values i, ((← Prog.state).cursor.columns i).row⟩
      updateValues call values

/-- A procedure whose `_result_` is the cursor. It clears the row first; one that does not see the cursor then copies a row to it, or
not, and may fail. -/
def callForRow (call : Nat → Exec Unit) (p : Nat) : Exec Unit := do
  setCursor fun _ => .empty
  if P.isGlobal then call p
  else
    let a ← ask W
    setFetched a
    if a.throws then Prog.leave .throw

/-- Execute a statement. With `assumed`, executions are also cut off at a CLOSE of a cursor that has a row with references. -/
def Action.exec (call : Bool → Nat → Exec Unit) (assumed caught : Bool) : Action sh → Exec Unit
  | .other calls => otherCode W (call caught) calls
  | .fetch => do
    -- `cg_fetch_stmt` for a statement, with `cql_multifetch`
    let a ← ask W
    setFetched a
    if !a.yes && a.throws then Prog.leave .throw
  | .fetchRows => do
    -- for a result set, with `cql_copyoutrow`
    let a ← ask W
    setFetched a
  | .fetchValues seed values _ => do
    -- `cg_fetch_values_stmt`
    match seed with
    | some calls => otherCode W (call caught) calls
    | none => pure ()
    let hadRow := (← Prog.state).cursor.hasRow
    setCursor fun r => { r with hasRow := true }
    storeValues W P (call caught) assumed caught (← newRow) hadRow values
  | .fetchCall args p => do
    -- `cg_call_stmt_with_cursor`
    otherCode W (call caught) args
    setCursor (.teardown sh)
    callForRow W P (call caught) p
  | .fromBlob calls => do
    -- `cql_cursor_from_blob`
    otherCode W (call caught) calls
    setCursor fun _ => .empty
    let a ← ask W
    if a.yes then setFetched a else Prog.leave .throw
  | .updateCursor values => do
    -- `cg_update_cursor_stmt`
    if (← Prog.state).cursor.hasRow then updateValues W (call caught) values
  | .close => do
    -- `cg_close_stmt`
    if assumed && (← Prog.state).cursor.hasRow && sh.hasRefs then Prog.cutOff
    else if sh.hasRefs then setCursor (.teardown sh)
  | .out => Prog.update fun s => { s with result := s.cursor }
  | .outOther => do
    -- OUT of another cursor, in a procedure whose `_result_` is this one
    let a ← ask W
    setFetched a

/-- A test that does not touch the cursor and can fail. -/
def testCode : Exec Bool := do
  let a ← ask W
  if a.throws then Prog.leave .throw
  return a.yes

/-- The generated code, watched for rows that are not whole. -/
def machine (assumed : Bool) (call : Bool → Nat → Exec Unit) : Machine State (Action sh) :=
  ⟨fun caught a => a.exec W P call assumed caught, fun _ => testCode W, fun s => s.cursor.Sound sh ∧ s.result.Sound sh⟩

/-- A call, of a procedure that shares the cursor or of one that does not see it. -/
def calls (assumed : Bool) (fuel depth : Nat) (caught : Bool) (p : Nat) : Exec Unit :=
  if P.isGlobal then callProc (machine W P assumed) P.procs fuel depth caught p else pure ()

/-- Run a procedure that has the cursor, or whoever calls the procedures of a program; one who goes on after an error catches it. -/
def run (assumed : Bool) (fuel depth : Nat) (body : Block (Action sh)) : Exec Unit :=
  body.exec (machine W P assumed (calls W P assumed fuel depth)) fuel false

/-- The state in which a procedure starts. -/
def State.initial : State := ⟨.empty, .empty, 0, 0⟩

end CgSql.Cursor
