import CgSql.Eval
import CgSql.SelectExists

/-!
# Selects that must return a row

`sem_select_expr_must_return_a_row` and its use in `sem_expr_select`: whether a nested select is sure to give a row, and so keeps a NOT NULL
type, and needs no IF NOTHING where that is strict. Values are null or not.
-/

namespace CgSql.SelectExists

open Nullability (sameName)

/-! ## Selects -/

/-- A call. An aggregate belongs to this select if its arguments or its FILTER use a column of it, or no column at all; else it belongs to one
around it. -/
structure Call where
  name : String
  argCount : Nat
  belongs : Bool

/-- An expression of a select list: the call that it is, if it is one, and whether aggregates of this select are below that. -/
structure SelectItem (D R W : Type) where
  call : Option Call
  aggregateBelow : Bool
  eval : D → List R → Option W

/-- GROUP BY and HAVING. A HAVING without GROUP BY is an error. -/
structure Grouping (D R W : Type) where
  items : List (GroupbyItem D R (Option W))
  having : Option (Having D R)

/-- `select_expr_list_con`: the select list, FROM (`query_parts`), WHERE, and what follows. Without FROM there is one row. -/
structure SelectExprListCon (D R W : Type) where
  distinct : Bool
  item : SelectItem D R W
  more : List (SelectItem D R W)
  queryParts : Option (D → List R)
  noFrom : R
  optWhere : Option (D → R → Bool)
  grouping : Option (Grouping D R W)

/-- `select_core`: a SELECT or VALUES. -/
inductive NestedCore (D R W : Type)
  | select (con : SelectExprListCon D R W)
  | values (rows : List (List (D → Option W)))

/-- A LIMIT: the expression, which is no error of the analysis, and the integer that SQLite takes it for. There is none for a null, a fraction or a
text that is no number: the statement fails then. -/
structure Limit (D F : Type) where
  expr : Eval.Expr F
  accepted : (Eval.semExpr expr).1.isSome
  value : D → Option Int

/-- `select_stmt`. -/
structure NestedStmt (D R W F : Type) where
  core : NestedCore D R W
  compound : List (CompoundOperator × NestedCore D R W)
  limit : Option (Limit D F)
  offset : Option (D → Option Int)

/-- A nested select. One that is no `select_stmt` is known by its rows. -/
inductive NestedSelect (D R W F : Type)
  | stmt (s : NestedStmt D R W F)
  | other (rows : D → List (List (Option W)))

variable {D R W F : Type}

/-! ## The test -/

/-- The names and numbers of arguments of the aggregates that are looked for. -/
def Call.isBuiltinAggregate (call : Call) : Bool :=
  (["avg", "count", "group_concat", "sum", "total"].any fun n => sameName n call.name) ||
    (["max", "min"].any fun n => sameName n call.name) && call.argCount = 1

/-- Whether a LIMIT is a positive constant, if `eval` has a result. -/
def Limit.isPositive (E : Eval.Doubles F) (limit : Limit D F) : Option Bool := do
  let result ← Eval.eval E (Eval.semExpr limit.expr).2
  if result.isError || result.isNull then return false
  else return 1 ≤ (← Eval.evalCastTo E result .long).toInt

/-- `sem_check_aggregate_select_expr_must_return_a_row`. -/
def semCheckAggregateSelectExprMustReturnARow (E : Eval.Doubles F) (s : NestedStmt D R W F) (con : SelectExprListCon D R W) : Option Bool :=
  if s.offset.isSome || con.grouping.isSome then some false
  else match s.limit with
    | none => some true
    | some limit => limit.isPositive E

/-- `sem_select_expr_must_return_a_row`. It fails a contract for VALUES, and for more than one expression where it looks at them. -/
def semSelectExprMustReturnARow (E : Eval.Doubles F) : NestedSelect D R W F → Option Bool
  | .other _ => some false
  | .stmt s => match s.core with
    | .values _ => none
    | .select con =>
      if s.compound.isEmpty = false then some false
      else if con.queryParts.isNone && con.optWhere.isNone then some true
      else if con.more.isEmpty = false then none
      else match con.item.call with
        | none => some false
        | some call => if call.isBuiltinAggregate then semCheckAggregateSelectExprMustReturnARow E s con else some false

/-- `current_expr_context`. -/
inductive ExprContext
  | none
  | constraint
  | sql
  deriving DecidableEq

/-- Where a nested select stands: its context, `enforcement.strict_if_nothing`, and its place in an IF NOTHING. -/
structure Place where
  context : ExprContext
  strictIfNothing : Bool
  inSelectIfNothing : Bool
  isLeft : Bool

/-- The type of a column: that of the literal NULL, or another that is NOT NULL or not. -/
inductive ColumnType
  | null
  | value (notNull : Bool)
  deriving DecidableEq

/-- What `sem_expr_select` makes of a nested select: an error, or a type that is NOT NULL or not. -/
inductive NestedType
  | error (text : String)
  | value (notNull : Bool)
  deriving DecidableEq

/-- `sem_expr_select`, for a select that has columns of these types. -/
def semExprSelect (E : Eval.Doubles F) (place : Place) (s : NestedSelect D R W F) (columns : List ColumnType) : Option NestedType := do
  if place.inSelectIfNothing && place.context ≠ .none then
    return .error "CQL0369: (SELECT ... IF NOTHING) construct is for use in top level expressions, not inside of other DML"
  if place.context = .constraint then
    return .error "CQL0394: nested select expressions may not appear inside of a constraint expression"
  let invalidSelect ←
    if place.strictIfNothing && place.context = .none && !(place.inSelectIfNothing && place.isLeft) then
      (semSelectExprMustReturnARow E s).map not
    else some false
  if invalidSelect then
    return .error "CQL0368: strict select if nothing requires that all (select ...) expressions include 'if nothing'"
  match columns with
  | [column] =>
    let removeNotnull ← if place.context = .none then some false else (semSelectExprMustReturnARow E s).map not
    match column with
    | .null => return .error "CQL0374: SELECT expression is equivalent to NULL"
    | .value notNull => return .value (notNull && !removeNotnull)
  | _ => return .error "CQL0232: nested select expression must return exactly one column"

/-! ## Rows -/

/-- Aggregates of this select are in the expression. -/
def SelectItem.isAggregate (item : SelectItem D R W) : Bool :=
  item.call.any (fun call => call.isBuiltinAggregate && call.belongs) || item.aggregateBelow

namespace SelectExprListCon

/-- The rows of FROM and WHERE. -/
def fromRows (con : SelectExprListCon D R W) (db : D) : List R :=
  let rows := con.queryParts.elim [con.noFrom] fun queryParts => queryParts db
  con.optWhere.elim rows fun optWhere => rows.filter (optWhere db)

def having (con : SelectExprListCon D R W) : Option (Having D R) := con.grouping.bind Grouping.having

/-- The core with its rows. The names are left out that only matter for ORDER BY. -/
def toCore (con : SelectExprListCon D R W) : SelectCore D R (Option W) where
  distinct := con.distinct
  selectExprList := (con.item :: con.more).map fun item => ⟨item.isAggregate, none, item.eval⟩
  hasFrom := con.queryParts.isSome
  fromColumns := []
  rows := con.fromRows
  groupBy := con.grouping.map Grouping.items
  having := con.having

end SelectExprListCon

variable [DecidableEq W]

def NestedCore.result (core : NestedCore D R W) (db : D) : List (List (Option W)) :=
  match core with
  | .select con => con.toCore.result db
  | .values rows => rows.map fun row => row.map fun v => v db

namespace NestedStmt

/-- The rows of all the cores: the operators apply from the left. -/
def allRows (s : NestedStmt D R W F) (db : D) : List (List (Option W)) :=
  s.compound.foldl (fun rows p => p.1.apply rows (p.2.result db)) (s.core.result db)

/-- The rows within a LIMIT: one below zero is none. -/
def limited (s : NestedStmt D R W F) (db : D) (rows : List (List (Option W))) : List (List (Option W)) :=
  match s.limit with
  | none => rows
  | some limit => match limit.value db with
    | none => []
    | some n => if n < 0 then rows else rows.take n.toNat

/-- The rows within OFFSET and LIMIT, if these are integers. -/
def rows (s : NestedStmt D R W F) (db : D) : List (List (Option W)) :=
  match s.offset with
  | none => s.limited db (s.allRows db)
  | some offset => match offset db with
    | none => []
    | some n => s.limited db ((s.allRows db).drop n.toNat)

end NestedStmt

namespace NestedSelect

def rows (s : NestedSelect D R W F) (db : D) : List (List (Option W)) :=
  match s with
  | .stmt s => s.rows db
  | .other rows => rows db

/-- The value: that of the first row, null if there is none. -/
def value (s : NestedSelect D R W F) (db : D) : Option W := (s.rows db).head?.bind fun row => row.head?.join

/-- No column that is NOT NULL has a null. -/
def Fits (s : NestedSelect D R W F) (columns : List ColumnType) : Prop :=
  ∀ db, ∀ row ∈ s.rows db, List.Forall₂ (fun column v => column = .value true → v ≠ none) columns row

end NestedSelect

/-! ## Soundness -/

/-- The test is sound for a select: it ends, a yes is right, and so are the NOT NULL types and the strict IF NOTHING rule that rest on it. -/
structure NestedSelect.Sound (E : Eval.Doubles F) (s : NestedSelect D R W F) (columns : List ColumnType) : Prop where
  ends : ∀ place, semExprSelect E place s columns ≠ none
  yes : semSelectExprMustReturnARow E s = some true → ∀ db, s.rows db ≠ []
  notNull : s.Fits columns → ∀ place, place.context ≠ .none → semExprSelect E place s columns = some (.value true) → ∀ db, s.value db ≠ none
  strict : ∀ place, place.strictIfNothing = true → place.context = .none → (place.inSelectIfNothing && place.isLeft) = false →
    ∀ t, semExprSelect E place s columns = some (.value t) → ∀ db, s.rows db ≠ []

/-- The LIMIT is an integer other than zero. -/
def NestedStmt.KeptByLimit (s : NestedStmt D R W F) (db : D) : Prop :=
  ∀ limit, s.limit = some limit → ∃ n, limit.value db = some n ∧ n ≠ 0

/-- LIMIT, OFFSET and HAVING leave the one row of a select without FROM and WHERE. -/
structure KeepsTheRow (s : NestedStmt D R W F) (con : SelectExprListCon D R W) (db : D) : Prop where
  limit : s.KeptByLimit db
  offset : ∀ offset, s.offset = some offset → ∃ n, offset db = some n ∧ n ≤ 0
  having : ∀ having, con.having = some having → having.test db [con.noFrom] = true

/-- An aggregate has one row: it belongs to this select or there is a row to begin with, and LIMIT keeps it. -/
structure KeepsAnAggregate (s : NestedStmt D R W F) (con : SelectExprListCon D R W) (db : D) : Prop where
  limit : s.KeptByLimit db
  aggregate : con.item.isAggregate = true ∨ con.fromRows db ≠ []

/-- No VALUES in front; without FROM and WHERE a row that is kept; else one expression, and where that is an aggregate without GROUP BY and OFFSET,
and with a positive constant for a LIMIT, a row that is kept. -/
def NestedStmt.Regular (E : Eval.Doubles F) (s : NestedStmt D R W F) : Prop :=
  ∃ con, s.core = .select con ∧ (s.compound = [] → (con.queryParts = none ∧ con.optWhere = none → ∀ db, KeepsTheRow s con db) ∧
    (¬(con.queryParts = none ∧ con.optWhere = none) → con.more = [] ∧
      ∀ call, con.item.call = some call → call.isBuiltinAggregate = true → s.offset = none → con.grouping = none →
        (∀ limit, s.limit = some limit → limit.isPositive E ≠ none) ∧
        ((∀ limit, s.limit = some limit → limit.isPositive E = some true) → ∀ db, KeepsAnAggregate s con db)))

def NestedSelect.Regular (E : Eval.Doubles F) : NestedSelect D R W F → Prop
  | .stmt s => s.Regular E
  | .other _ => True

end CgSql.SelectExists
