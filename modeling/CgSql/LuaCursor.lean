import Mathlib.Data.List.Basic

/-!
# Cursors and result sets of the Lua backend

What the statements of `cg_lua.c` on cursors do at run time: `cg_lua_fetch_stmt`, `cg_lua_fetch_values_stmt`,
`cg_lua_update_cursor_stmt`, `cg_lua_close_stmt`, `cg_lua_out_stmt`, `cg_lua_out_union_stmt`, the variables and returns of
`cg_lua_create_proc_stmt`, the captures of `cg_lua_call_stmt_with_cursor`, and the result sets that `cg_lua_user_func` assigns. The
machine is one definition over a memory of rows: with `luaMemory` a row is a table and a cursor holds a reference to it, with
`copyMemory` it is a value, which is what the C code does with its row structures.
-/

namespace CgSql.LuaCursor

/-! ## Rows -/

/-- A row table: the flag `_has_row_` and the columns, where a column that is absent is `nil`. -/
structure Row (V : Type) where
  hasRow : Bool
  fields : String → Option V

/-- The table `{ _has_row_ = false }`. -/
def Row.noRow {V : Type} : Row V := { hasRow := false, fields := fun _ => none }

/-- The assignments `C.f = v`, in order. -/
def setFields {V : Type} (fields : String → Option V) (vals : List (String × Option V)) : String → Option V :=
  vals.foldl (fun fs p => Function.update fs p.1 p.2) fields

/-- The statements that assign the fields of the row table a cursor holds. -/
inductive Write (V : Type) where
  | fetchValues (vals : List (String × Option V))
  | multifetch (data : Option (List (String × Option V))) (empty : List (String × Option V))
  | updateCursor (vals : List (String × Option V))

/-- What they make of the row: `FETCH … FROM VALUES` sets the flag, `cql_multifetch` stores the columns of the statement's row
or, without one, the values of `cql_empty_cursor`, and `UPDATE CURSOR` is ignored when the cursor has no row. -/
def Write.apply {V : Type} : Write V → Row V → Row V
  | .fetchValues vals, r => { hasRow := true, fields := setFields r.fields vals }
  | .multifetch (some data) _, r => { hasRow := true, fields := setFields r.fields data }
  | .multifetch none empty, r => { hasRow := false, fields := setFields r.fields empty }
  | .updateCursor vals, r => if r.hasRow then { r with fields := setFields r.fields vals } else r

/-! ## Memories -/

/-- How rows are kept: `alloc` makes a new row, `store` assigns the fields of one and says which reference its holder has
afterwards. -/
structure Memory (V M R : Type) where
  alloc : M → Row V → R × M
  load : M → R → Row V
  store : M → R → Row V → R × M

/-- Lua: a row is a table on the heap, a reference its address, and an assignment changes the table in place. -/
def luaMemory (V : Type) : Memory V (List (Row V)) Nat where
  alloc h r := (h.length, h ++ [r])
  load h a := h.getD a Row.noRow
  store h a r := (a, h.set a r)

/-- C: a row is a structure, copied into whoever holds it. -/
def copyMemory (V : Type) : Memory V Unit (Row V) where
  alloc _ r := (r, ())
  load _ r := r
  store _ _ r := (r, ())

/-- `n` new tables `{ _has_row_ = false }`: the declarations of a procedure's cursors. -/
def Memory.allocs {V M R : Type} (K : Memory V M R) (m : M) : Nat → List R × M
  | 0 => ([], m)
  | n + 1 =>
    let rest := K.allocs m n
    let new := K.alloc rest.2 Row.noRow
    (rest.1 ++ [new.1], new.2)

/-! ## Frames -/

/-- The variables of one cursor: `C`, `C_result_set_`, `C_row_num_` and `C_row_count_`. A `C` that is `none` is `nil`. -/
structure Cursor (R : Type) where
  row : Option R
  resultSet : List R
  rowNum : Nat
  rowCount : Nat

/-- The declaration of a cursor. -/
def Cursor.declare {R : Type} (fresh : R) : Cursor R := { row := some fresh, resultSet := [], rowNum := 0, rowCount := 0 }

/-- `C = r`. -/
def Cursor.setRow {R : Type} (r : Option R) (c : Cursor R) : Cursor R := { c with row := r }

/-- `FETCH C` of an `OUT UNION` cursor: the row of the result set itself, or a new table when there is none. -/
def Cursor.fetch {R : Type} (fresh : R) (c : Cursor R) : Cursor R :=
  { c with
    rowNum := c.rowNum + 1
    row := if c.rowNum + 1 ≤ c.rowCount then c.resultSet[c.rowNum]? else some fresh }

/-- The cursor put at the start of a result set: `DECLARE C CURSOR FOR` a result set, and a call that is captured. -/
def Cursor.over {R : Type} (set : List R) (c : Cursor R) : Cursor R :=
  { c with resultSet := set, rowNum := 0, rowCount := set.length }

/-- The capture of a result set: the assignment is done by the call, the counters only after its error check. -/
def Cursor.capture {R : Type} (failed : Bool) (set : List R) (c : Cursor R) : Cursor R :=
  if failed then { c with resultSet := set } else c.over set

/-- The locals of a running procedure; the first frame holds the globals. -/
structure Frame (R : Type) where
  cursors : List (Cursor R)
  /-- The object variables that hold a result set, or nothing. -/
  objects : List (Option (List R))
  /-- `_result_`. -/
  result : Option R
  /-- `_rows_`. -/
  rows : List R
  /-- `_result_set_`. -/
  resultSet : List R
  /-- Whether the procedure calls an `OUT UNION` procedure without a cursor, and so returns `_result_set_`. -/
  callsOutUnion : Bool

/-- The locals when the procedure starts. -/
def Frame.start {R : Type} (rows : List R) (objects : Nat) (callsOutUnion : Bool) : Frame R where
  cursors := rows.map Cursor.declare
  objects := List.replicate objects none
  result := none
  rows := []
  resultSet := []
  callsOutUnion := callsOutUnion

/-- The result set the procedure returns. -/
def Frame.returned {R : Type} (f : Frame R) : List R := if f.callsOutUnion then f.resultSet else f.rows

/-- A variable: the frame it is in, and its place among the cursors (or the objects) declared there. -/
structure Var where
  frame : Nat
  index : Nat
  deriving DecidableEq, Repr

/-- Assign the variables of one cursor. -/
def modifyCursor {R : Type} (frames : List (Frame R)) (c : Var) (g : Cursor R → Cursor R) : List (Frame R) :=
  frames.modify c.frame fun f => { f with cursors := f.cursors.modify c.index g }

/-- Assign one object variable. -/
def setObject {R : Type} (frames : List (Frame R)) (o : Var) (set : Option (List R)) : List (Frame R) :=
  frames.modify o.frame fun f => { f with objects := f.objects.modify o.index fun _ => set }

/-- Assign locals of the running procedure. -/
def modifyLast {R : Type} (frames : List (Frame R)) (g : Frame R → Frame R) : List (Frame R) :=
  frames.modify (frames.length - 1) g

/-- The variables of a cursor. -/
def cursor? {R : Type} (frames : List (Frame R)) (c : Var) : Option (Cursor R) :=
  frames[c.frame]?.bind (·.cursors[c.index]?)

/-- The result set an object variable holds. -/
def object {R : Type} (frames : List (Frame R)) (o : Var) : Option (List R) :=
  (frames[o.frame]?.bind (·.objects[o.index]?)).join

/-! ## Statements -/

/-- What the caller does with what a call returns: nothing, a row into a cursor, a result set into a cursor or, with the call as an expression, into
an object variable, or its own result set when no cursor is named. -/
inductive Capture where
  | discard
  | row (c : Var)
  | set (c : Var)
  | object (o : Var)
  | loose

/-- One step of a run. `enter` is a call reaching the callee's body, `ret` its return with or without an error, and `read` any
use of a cursor's fields. `assign` is also how an object is handed to a parameter and back. -/
inductive Stmt (V : Type) where
  | enter (cursors objects : Nat) (callsOutUnion : Bool)
  | fetch (c : Var)
  | store (c : Var) (w : Write V)
  | close (c : Var)
  | out (c : Var)
  | outUnion (c : Var)
  | cursorFor (c o : Var)
  | assign (o from_ : Var)
  | read (c : Var)
  | ret (capture : Capture) (failed : Bool)

/-- The state of a run, with the rows read so far. -/
structure State (V M R : Type) where
  mem : M
  frames : List (Frame R)
  reads : List (Row V)

/-- The frames of the caller after the callee's return values are assigned. -/
def captured {R : Type} (frames : List (Frame R)) (callee : Frame R) (failed : Bool) : Capture → List (Frame R)
  | .discard => frames
  | .row c => modifyCursor frames c (·.setRow callee.result)
  | .set c => modifyCursor frames c (·.capture failed callee.returned)
  | .object o => if failed then frames else setObject frames o (some callee.returned)
  | .loose => modifyLast frames fun f => { f with resultSet := callee.returned }

variable {V M R : Type}

/-- A statement that indexes the row table of a cursor, which is an error when the cursor is `nil`. A variable that is not
declared is not in any program, and nothing is done for it. -/
def State.withRow (s : State V M R) (c : Var) (k : R → State V M R) : Option (State V M R) :=
  match cursor? s.frames c with
  | none => some s
  | some cur => cur.row.map k

/-- One statement. -/
def step (K : Memory V M R) (s : State V M R) : Stmt V → Option (State V M R)
  | .enter cursors objects callsOutUnion =>
    let new := K.allocs s.mem cursors
    some { s with mem := new.2, frames := s.frames ++ [Frame.start new.1 objects callsOutUnion] }
  | .fetch c =>
    let new := K.alloc s.mem Row.noRow
    some { s with mem := new.2, frames := modifyCursor s.frames c (·.fetch new.1) }
  | .store c w =>
    s.withRow c fun r =>
      let new := K.store s.mem r (w.apply (K.load s.mem r))
      { s with mem := new.2, frames := modifyCursor s.frames c (·.setRow (some new.1)) }
  | .close c =>
    let new := K.alloc s.mem Row.noRow
    some { s with mem := new.2, frames := modifyCursor s.frames c (·.setRow (some new.1)) }
  | .out c =>
    s.withRow c fun r =>
      let new := K.alloc s.mem (K.load s.mem r)
      { s with mem := new.2, frames := modifyLast s.frames fun f => { f with result := some new.1 } }
  | .outUnion c =>
    s.withRow c fun r =>
      if (K.load s.mem r).hasRow then
        let new := K.alloc s.mem (K.load s.mem r)
        { s with mem := new.2, frames := modifyLast s.frames fun f => { f with rows := f.rows ++ [new.1] } }
      else s
  | .cursorFor c o => (object s.frames o).map fun set => { s with frames := modifyCursor s.frames c (·.over set) }
  | .assign o from_ => some { s with frames := setObject s.frames o (object s.frames from_) }
  | .read c => s.withRow c fun r => { s with reads := s.reads ++ [K.load s.mem r] }
  | .ret capture failed =>
    match s.frames.getLast? with
    | none => some s
    | some callee => some { s with frames := captured s.frames.dropLast callee failed capture }

/-- A run of statements, which stops at an error. -/
def run (K : Memory V M R) (s : State V M R) : List (Stmt V) → Option (State V M R)
  | [] => some s
  | st :: stmts => (step K s st).bind fun s' => run K s' stmts

/-- Before the first statement. -/
def State.init (m : M) : State V M R := { mem := m, frames := [], reads := [] }

/-- The run of the generated Lua code. -/
def luaRun (V : Type) (stmts : List (Stmt V)) : Option (State V (List (Row V)) Nat) :=
  run (luaMemory V) (State.init []) stmts

/-- The run of the same statements where every holder of a row has its own copy. -/
def copyRun (V : Type) (stmts : List (Stmt V)) : Option (State V Unit (Row V)) :=
  run (copyMemory V) (State.init ()) stmts

/-! ## What is held -/

/-- The rows of the result sets a cursor's variables hold, and the row it holds itself. -/
def Cursor.refs (c : Cursor R) : List R := c.row.toList ++ c.resultSet

/-- The rows held by the variables of a procedure. -/
def Frame.refs (f : Frame R) : List R :=
  f.cursors.flatMap Cursor.refs ++ (f.objects.flatMap (·.getD []) ++ (f.result.toList ++ (f.rows ++ f.resultSet)))

/-- The rows held by any variable. -/
def refs (frames : List (Frame R)) : List R := frames.flatMap Frame.refs

/-- The rows of the result sets that a procedure's variables hold. -/
def Frame.setRows (f : Frame R) : List R :=
  f.cursors.flatMap (·.resultSet) ++ (f.objects.flatMap (·.getD []) ++ (f.rows ++ f.resultSet))

/-- The rows of the result sets produced so far. -/
def setRows (frames : List (Frame R)) : List R := frames.flatMap Frame.setRows

/-- What a Lua state shows, each reference replaced by the row it leads to. -/
def Cursor.map {S : Type} (f : R → S) (c : Cursor R) : Cursor S :=
  { row := c.row.map f, resultSet := c.resultSet.map f, rowNum := c.rowNum, rowCount := c.rowCount }

/-- The same for the variables of a procedure. -/
def Frame.map {S : Type} (g : R → S) (f : Frame R) : Frame S where
  cursors := f.cursors.map (·.map g)
  objects := f.objects.map (·.map (·.map g))
  result := f.result.map g
  rows := f.rows.map g
  resultSet := f.resultSet.map g
  callsOutUnion := f.callsOutUnion

/-- The state of the copying machine that a Lua state stands for. -/
def State.view (s : State V (List (Row V)) Nat) : State V Unit (Row V) where
  mem := ()
  frames := s.frames.map (·.map ((luaMemory V).load s.mem))
  reads := s.reads

/-! ## Integrity -/

/-- No cursor variable is `nil`. -/
def NeverNil (frames : List (Frame R)) : Prop := ∀ f ∈ frames, ∀ c ∈ f.cursors, c.row ≠ none

/-- What a statement keeps: after it no cursor is `nil`, and the rows of every result set produced before it are as they
were. -/
def Keeps (s s' : State V (List (Row V)) Nat) : Prop :=
  NeverNil s'.frames ∧ ∀ a ∈ setRows s.frames, (luaMemory V).load s'.mem a = (luaMemory V).load s.mem a

/-- Every statement of a run has the property in the state before it. -/
def Along (P : State V (List (Row V)) Nat → Stmt V → Prop) (stmts : List (Stmt V)) : Prop :=
  ∀ before st after, stmts = before ++ st :: after → ∀ s ∈ luaRun V before, P s st

/-- A cursor is put over an object that is not null. With a null one both backends stop. -/
def Holds (s : State V (List (Row V)) Nat) : Stmt V → Prop
  | .cursorFor _ o => object s.frames o ≠ none
  | _ => True

/-- The integrity of a run that no null object ends: at each of its statements the Lua code goes on without an error, keeps the cursors and the result
sets, and has read the rows that are read when `FETCH` copies the row. -/
def Integrity (stmts : List (Stmt V)) : Prop :=
  Along Holds stmts → ∀ before st after, stmts = before ++ st :: after →
    ∃ s s', luaRun V before = some s ∧ step (luaMemory V) s st = some s' ∧ Keeps s s' ∧ copyRun V (before ++ [st]) = some s'.view

/-! ## The condition -/

/-- When a statement is harmless in a state: a row is changed only through a cursor that is its only holder, a row is
captured only from a callee that executed `OUT`, and a failed call leaves no stale counters beyond the captured result set. -/
def Safe (s : State V (List (Row V)) Nat) : Stmt V → Prop
  | .store c w => ∀ cur ∈ cursor? s.frames c, ∀ a ∈ cur.row,
      w.apply ((luaMemory V).load s.mem a) ≠ (luaMemory V).load s.mem a → (refs s.frames).count a = 1
  | .ret (.row _) _ => ∀ callee ∈ s.frames.getLast?, callee.result ≠ none
  | .ret (.set c) true => ∀ callee ∈ s.frames.getLast?, ∀ cur ∈ cursor? s.frames.dropLast c,
      cur.rowNum < cur.rowCount → cur.rowCount ≤ callee.returned.length
  | _ => True

/-- Every statement of a run is harmless in the state before it. -/
def SafeRun (stmts : List (Stmt V)) : Prop := Along Safe stmts

end CgSql.LuaCursor
