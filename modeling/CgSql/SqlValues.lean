import CgSql.Nullability
import Mathlib.Data.List.Pairwise

/-!
# Values in SQL

What expressions and selects evaluate to, over any state of the database. The rules of SQL for IN, for rowids and for CASE can be
replaced by those that `sem.c` has in mind. The result of an expression is missing where a divisor is zero.
-/

namespace CgSql.Nullability

/-! ## Values of expressions -/

/-- SQL's operations on values other than null. `math` has no result where a divisor is zero. -/
structure Sql (V : Type) where
  ofBool : Bool → V
  truth : V → Bool
  unaryMath : UnaryOp → V → V
  math : MathOp → V → V → Option V
  compare : CompareOp → V → V → Bool
  equal : V → V → Bool
  like : V → V → Bool
  concat : V → V → V
  cast : CoreType → V → V

/-- How IN treats a needle and items, any of which may be null, what the rowid of a row is, if it is asked for at all, and whether a CASE
with an operand may go on behind a WHEN that improves a name which is null. -/
structure Rules (V : Type) where
  isIn : (V → V → Bool) → Option V → List (Option V) → Option Bool
  rowid : TableRow V → Option (Option V)
  improvesNull : Bool

/-- IN in SQL: null if nothing is equal and something is null. -/
def sqlIn {V : Type} (equal : V → V → Bool) (needle : Option V) (items : List (Option V)) : Option Bool :=
  if items = [] then some false
  else match needle with
    | none => none
    | some v =>
      if items.any fun o => o.any (equal v) then some true
      else if items.any Option.isNone then none else some false

/-- IN as a series of equality tests. -/
def cqlIn {V : Type} (equal : V → V → Bool) (needle : Option V) (items : List (Option V)) : Option Bool :=
  needle.map fun v => items.any fun o => o.any (equal v)

/-- The rules of SQL: a row that an outer join made up has no rowid. -/
def Rules.sql (V : Type) : Rules V := ⟨sqlIn, fun r => some r.rowid, true⟩

/-- The documented rule for IN, rowids of rows of tables only, and no value where a CASE with an operand improves a null. -/
def Rules.documented (V : Type) : Rules V := ⟨cqlIn, fun r => r.rowid.map some, false⟩

/-- The variables and their values, those of a NOT NULL type not null, with SQL's operations, and whether AND and OR improve names. -/
structure World (V : Type) where
  sql : Sql V
  truth_ofBool : ∀ b, sql.truth (sql.ofBool b) = b
  strictAndOr : Bool
  types : String → Option SemType
  values : String → Option V
  notNull : ∀ x t, types x = some t → t.notNull = true → values x ≠ none

variable {V : Type} (W : World V) (rules : Rules V)

/-- The value of what a name stands for. -/
def Referent.value (row : JoinRow V) : Referent → Option (Option V)
  | .column i j => do (← row[i]?).columns[j]?
  | .rowid i => do rules.rowid (← row[i]?)
  | .var name => some (W.values name)

/-- A value of a BOOL. -/
def ofBool (W : World V) (b : Bool) : Option V := some (W.sql.ofBool b)

/-- The truth of a value. -/
def truth (W : World V) (v : Option V) : Option Bool := v.map W.sql.truth

/-- An operator on two values that is null if either is. -/
def strict (f : V → V → V) : Option V → Option V → Option V
  | some a, some b => some (f a b)
  | _, _ => none

/-- AND and OR of truth values. -/
def logical (op : LogicalOp) (a b : Option Bool) : Option Bool :=
  match op with
  | .and => if a = some false ∨ b = some false then some false else if a = none ∨ b = none then none else some true
  | .or => if a = some true ∨ b = some true then some true else if a = none ∨ b = none then none else some false

/-- The value that a WHEN tests: its own, or that of its comparison with the operand. -/
def whenTest (W : World V) (operand : Option (Option V)) (c : Option V) : Option V :=
  match operand with
  | none => c
  | some o => strict (fun a b => W.sql.ofBool (W.sql.equal a b)) o c

variable (S : Option Join) (row : JoinRow V)

/-- A name is null. -/
def isNullName (n : Option String × String) : Bool :=
  match (resolve W.types S n.1 n.2).bind (Referent.value W rules row) with
  | some none => true
  | _ => false

mutual

/-- The value of an expression, if it has one. -/
def eval : Expr V → Option (Option V)
  | .null => some none
  | .literal _ v => some (some v)
  | .ident scope name => do (← resolve W.types S scope name).value W rules row
  | .unaryMath op e => do return (← eval e).map (W.sql.unaryMath op)
  | .unaryLogical e => do return (truth W (← eval e)).map fun b => W.sql.ofBool !b
  | .binaryMath op l r => do
    let a ← eval l
    let b ← eval r
    match a, b with
    | some a, some b => (W.sql.math op a b).map some
    | _, _ => some none
  | .binaryLogical op l r => do
    let a := truth W (← eval l)
    if a = some (decide (op = .or)) then return ofBool W (op = .or)
    let b := truth W (← eval r)
    return (logical op a b).map W.sql.ofBool
  | .binaryCompare op l r => do return strict (fun a b => W.sql.ofBool (W.sql.compare op a b)) (← eval l) (← eval r)
  | .eqOrNe negated l r => do return strict (fun a b => W.sql.ofBool (W.sql.equal a b ^^ negated)) (← eval l) (← eval r)
  | .like negated l r => do return strict (fun a b => W.sql.ofBool (W.sql.like a b ^^ negated)) (← eval l) (← eval r)
  | .concat l r => do return strict W.sql.concat (← eval l) (← eval r)
  | .isOrIsNot negated l r => do
    let same := match ← eval l, ← eval r with
      | some a, some b => W.sql.equal a b
      | none, none => true
      | _, _ => false
    return ofBool W (same ^^ negated)
  | .isTrueOrFalse negated value e => do return ofBool W ((truth W (← eval e) = some value) ^^ negated)
  | .between negated e lo hi => do
    let a ← eval e
    let b := truth W (strict (fun a b => W.sql.ofBool (W.sql.compare .ge a b)) a (← eval lo))
    let c := truth W (strict (fun a b => W.sql.ofBool (W.sql.compare .le a b)) a (← eval hi))
    return (logical .and b c).map fun x => W.sql.ofBool (x ^^ negated)
  | .inList negated needle items => do
    let found := rules.isIn W.sql.equal (← eval needle) (← evalList items)
    return found.map fun b => W.sql.ofBool (b ^^ negated)
  | .inSelect negated needle _ rows => do
    let found := rules.isIn W.sql.equal (← eval needle) (rows row)
    return found.map fun b => W.sql.ofBool (b ^^ negated)
  | .caseExpr expr whens orElse => do
    let operand ← evalOperand expr
    match ← evalWhens operand whens with
    | some v => some v
    | none => evalElse orElse
  | .coalesce args => evalCoalesce args
  | .cast e core => do return (← eval e).map (W.sql.cast core)
  | .typeCheck e _ => eval e

/-- The values of a list of expressions. -/
def evalList : Exprs V → Option (List (Option V))
  | .nil => some []
  | .cons e rest => do return (← eval e) :: (← evalList rest)

/-- The operand of a CASE, if there is one. -/
def evalOperand : OptExpr V → Option (Option (Option V))
  | .none => some none
  | .some e => do return some (← eval e)

/-- The first THEN expression whose WHEN expression is true, or equal to the operand. -/
def evalWhens (operand : Option (Option V)) : Whens V → Option (Option (Option V))
  | .nil => some none
  | .cons cond value rest => do
    let c ← eval cond
    if truth W (whenTest W operand c) = some true then return some (← eval value)
    else if operand.isSome && !rules.improvesNull && cond.improvedIfFalse.any (isNullName W rules S row) then none
    else evalWhens operand rest

def evalElse : OptExpr V → Option (Option V)
  | .none => some none
  | .some e => eval e

/-- The first argument that is not null. -/
def evalCoalesce : Exprs V → Option (Option V)
  | .nil => some none
  | .cons e rest => do
    match ← eval e with
    | some v => some (some v)
    | none => evalCoalesce rest

end

/-! ## Selects -/

/-- The joins of `join_tables`. CROSS joins are inner joins. -/
inductive JoinType
  | inner
  | left
  | right
  deriving DecidableEq

mutual

/-- Selects, and compound selects of those. -/
inductive Select (V : Type)
  | core (columns : List (String × Expr V)) (source : OptSource V) (filter : OptExpr V)
  | union (all : Bool) (l r : Select V)

inductive OptSource (V : Type)
  | none
  | some (s : Source V)

/-- What a select reads: tables and subselects by their names, and joins of them. -/
inductive Source (V : Type)
  | table (name asName : String)
  | subselect (s : Select V) (asName : String)
  | join (type : JoinType) (l r : Source V) (on : OptExpr V)

end

/-- A row of a table has values for its columns, not null for those that are NOT NULL. -/
def FitsTable (columns : Columns) (r : TableRow V) : Prop :=
  List.Forall₂ (fun (c : String × SemType) v => c.2.notNull = true → v ≠ none) columns r.columns

/-- A table of the database: its columns, and rows of them. -/
structure Table (V : Type) where
  columns : Columns
  rows : List (TableRow V)
  fits : ∀ r ∈ rows, FitsTable columns r

/-- A state of the database. -/
abbrev Database (V : Type) := String → Option (Table V)

/-- `sem_clone_struct_strip_flags`. -/
def strip (columns : Columns) : Columns := columns.map fun c => (c.1, ⟨c.2.core, false⟩)

/-- The tables of a join that an outer join can make up rows for. -/
def stripAll (stripped : Bool) (S : Join) : Join := if stripped then S.map fun p => (p.1, strip p.2) else S

/-- `join_tables`. -/
def joinTables (type : JoinType) (S T : Join) : Option Join :=
  if S.any fun p => T.any fun q => sameName p.1 q.1 then none
  else some (stripAll (type = .right) S ++ stripAll (type = .left) T)

/-- The columns of `sem_unify_compatible_columns`. -/
def semUnifyColumns : Columns → Columns → Option Columns
  | [], [] => some []
  | (n, t) :: cs, (m, u) :: ds => do
    if n = m ∧ semVerifyCompat t.core u.core = true then return (n, semCombineTypes t u) :: (← semUnifyColumns cs ds) else none
  | _, _ => none

variable (D : Database V)

/-- A condition has a type that can be a condition. -/
def semCondition (S : Option Join) : OptExpr V → Option Unit
  | .none => some ()
  | .some e => do
    let t ← semExpr W.types W.strictAndOr S [] e
    if t.core.isNumericCompat then return () else none

/-- The columns of a select list, where some names are improved. -/
def semColumns (S : Option Join) (I : List Referent) : List (String × Expr V) → Option Columns
  | [] => some []
  | (name, e) :: rest => do return (name, ← semExpr W.types W.strictAndOr S I e) :: (← semColumns S I rest)

mutual

/-- The columns of a select. -/
def semSelect : Select V → Option Columns
  | .core columns source filter => do
    let S ← semOptSource source
    semCondition W S filter
    semColumns W S (improve W.types S [] filter.improvedIfTrue) columns
  | .union _ l r => do semUnifyColumns (← semSelect l) (← semSelect r)

def semOptSource : OptSource V → Option (Option Join)
  | .none => some none
  | .some s => do return some (← semSource s)

/-- The tables of a source (`sem_table_or_subquery`, `sem_join_target`). -/
def semSource : Source V → Option Join
  | .table name asName => do return [(asName, (← D name).columns)]
  | .subselect s asName => do return [(asName, ← semSelect s)]
  | .join type l r on => do
    let J ← joinTables type (← semSource l) (← semSource r)
    semCondition W (some J) on
    return J

end

/-- A row that an outer join makes up. -/
def nullRow (S : Join) : JoinRow V := S.map fun p => ⟨none, p.2.map fun _ => none⟩

/-- Whether a condition holds for a row. -/
def holds (S : Option Join) (cond : OptExpr V) (row : JoinRow V) : Bool :=
  match cond with
  | .none => true
  | .some e => (eval W rules S row e).any fun v => truth W v = some true

/-- The rows of a join. -/
def joinRows (type : JoinType) (S T : Join) (matches? : JoinRow V → Bool) (ls rs : List (JoinRow V)) : List (JoinRow V) :=
  let pairs := ls.flatMap fun l => (rs.map fun r => l ++ r).filter matches?
  match type with
  | .inner => pairs
  | .left => pairs ++ (ls.filter fun l => !rs.any fun r => matches? (l ++ r)).map fun l => l ++ nullRow T
  | .right => pairs ++ (rs.filter fun r => !ls.any fun l => matches? (l ++ r)).map fun r => nullRow S ++ r

/-- The values of a select list. -/
def evalColumns (S : Option Join) (row : JoinRow V) : List (String × Expr V) → Option (List (Option V))
  | [] => some []
  | (_, e) :: rest => do return (← eval W rules S row e) :: (← evalColumns S row rest)

/-- The rows of a select list, if all have values. -/
def evalRows (S : Option Join) (columns : List (String × Expr V)) : List (JoinRow V) → Option (List (List (Option V)))
  | [] => some []
  | row :: rest => do return (← evalColumns W rules S row columns) :: (← evalRows S columns rest)

/-- Rows that UNION takes for the same. -/
def sameRow (a b : List (Option V)) : Bool :=
  (a.zip b).all fun p => match p with
    | (some x, some y) => W.sql.equal x y
    | (none, none) => true
    | _ => false

mutual

/-- The rows of a select, if it has a type and all values exist. -/
def selectRows : Select V → Option (List (List (Option V)))
  | .core columns source filter => do
    let S ← semOptSource W D source
    evalRows W rules S columns ((← optSourceRows source).filter (holds W rules S filter))
  | .union all l r => do
    let rows := (← selectRows l) ++ (← selectRows r)
    return if all then rows else rows.pwFilter fun a b => ¬sameRow W a b

def optSourceRows : OptSource V → Option (List (JoinRow V))
  | .none => some [[]]
  | .some s => sourceRows s

/-- The rows of a source. -/
def sourceRows : Source V → Option (List (JoinRow V))
  | .table name _ => do return (← D name).rows.map fun r => [r]
  | .subselect s _ => do return (← selectRows s).map fun vs => [⟨none, vs⟩]
  | .join type l r on => do
    let S ← semSource W D l
    let T ← semSource W D r
    let J ← joinTables type S T
    return joinRows type S T (holds W rules (some J) on) (← sourceRows l) (← sourceRows r)

end

end CgSql.Nullability
