import CgSql.Nullability

/-!
# Selects under EXISTS

What a select gives, as far as it matters whether it gives a row, over any database states, rows and values, and the rewrite of the
select lists under EXISTS to the literal 1.
-/

namespace CgSql.SelectExists

open Nullability (sameName)

/-- An expression of a select list, over the rows of a group, with the name of its column. -/
structure SelectExpr (D R V : Type) where
  isAggregate : Bool
  name : Option String
  eval : D → List R → V

/-- The test of a HAVING clause, over the rows of a group. -/
structure Having (D R : Type) where
  isAggregate : Bool
  test : D → List R → Bool

/-- A term of GROUP BY: the place of an expression of the select list, which SQLite puts there, or an expression. -/
inductive GroupbyItem (D R V : Type)
  | num (place : Nat)
  | expr (eval : D → R → V)

/-- A core: what its FROM and WHERE give, and what is made of it. -/
structure SelectCore (D R V : Type) where
  distinct : Bool
  selectExprList : List (SelectExpr D R V)
  hasFrom : Bool
  fromColumns : List String
  rows : D → List R
  groupBy : Option (List (GroupbyItem D R V))
  having : Option (Having D R)

/-- The operators of compound selects. -/
inductive CompoundOperator
  | union
  | unionAll
  | intersect
  | except
  deriving DecidableEq

/-- A term of ORDER BY: the place of a result column, a name, or an expression with the names it uses. -/
inductive OrderbyItem
  | num (place : Nat)
  | id (name : String)
  | expr (names : List String)

/-- A select statement. -/
structure SelectStmt (D R V : Type) where
  core : SelectCore D R V
  compound : List (CompoundOperator × SelectCore D R V)
  orderby : List OrderbyItem
  limit : Option (D → Int)
  offset : Option (D → Int)

variable {D R V : Type}

/-! ## Rows -/

/-- Another row, in the group that has its key or in a group of its own. -/
def insertRow {K : Type} [DecidableEq K] (key : R → K) (r : R) : List (List R) → List (List R)
  | [] => [[r]]
  | g :: gs => if g.head?.map key = some (key r) then (r :: g) :: gs else g :: insertRow key r gs

namespace SelectCore

/-- The expression at a place, which counts from one. -/
def at? (c : SelectCore D R V) (place : Nat) : Option (SelectExpr D R V) := if place = 0 then none else c.selectExprList[place - 1]?

/-- What a term of GROUP BY is for a row. -/
def groupKey (c : SelectCore D R V) (db : D) (r : R) : GroupbyItem D R V → Option V
  | .num place => (c.at? place).map fun e => e.eval db [r]
  | .expr eval => some (eval db r)

/-- Without GROUP BY, all the rows are one group if there is an aggregate. -/
def isAggregate (c : SelectCore D R V) : Bool :=
  c.groupBy.isNone && (c.selectExprList.any SelectExpr.isAggregate || c.having.any Having.isAggregate)

variable [DecidableEq V]

/-- The groups that make a row each. -/
def groups (c : SelectCore D R V) (db : D) : List (List R) :=
  let all := match c.groupBy with
    | some items => (c.rows db).foldr (insertRow fun r => items.map (c.groupKey db r)) []
    | none => if c.isAggregate then [c.rows db] else (c.rows db).map fun r => [r]
  match c.having with
  | some having => all.filter (having.test db)
  | none => all

/-- The rows of a core. -/
def result (c : SelectCore D R V) (db : D) : List (List V) :=
  let tuples := (c.groups db).map fun g => c.selectExprList.map fun e => e.eval db g
  if c.distinct then tuples.dedup else tuples

end SelectCore

/-- What an operator makes of the rows on its two sides. -/
def CompoundOperator.apply [DecidableEq V] (op : CompoundOperator) (left right : List (List V)) : List (List V) :=
  match op with
  | .union => (left ++ right).dedup
  | .unionAll => left ++ right
  | .intersect => (left.filter fun t => t ∈ right).dedup
  | .except => (left.filter fun t => t ∉ right).dedup

namespace SelectStmt

/-- The cores. -/
def cores (s : SelectStmt D R V) : List (SelectCore D R V) := s.core :: s.compound.map Prod.snd

/-- The rows to skip. -/
def skipped (s : SelectStmt D R V) (db : D) : Nat := (s.offset.elim 0 fun o => o db).toNat

variable [DecidableEq V]

/-- The rows of all the cores: the operators apply from the left. -/
def allRows (s : SelectStmt D R V) (db : D) : List (List V) :=
  s.compound.foldl (fun rows p => p.1.apply rows (p.2.result db)) (s.core.result db)

/-- The rows within OFFSET and LIMIT, in some order: a limit below zero is none. -/
def rows (s : SelectStmt D R V) (db : D) : List (List V) :=
  let left := (s.allRows db).drop (s.skipped db)
  match s.limit with
  | some limit => if limit db < 0 then left else left.take (limit db).toNat
  | none => left

/-- EXISTS. -/
def existsRow (s : SelectStmt D R V) (db : D) : Bool := !(s.rows db).isEmpty

end SelectStmt

/-! ## What is accepted -/

/-- The names of the columns of a core. -/
def SelectCore.names (c : SelectCore D R V) : List String := c.selectExprList.filterMap SelectExpr.name

/-- The name is one of these, in any case. -/
def resolves (names : List String) (name : String) : Prop := ∃ n ∈ names, sameName name n = true

/-- A term of ORDER BY is resolved among the columns of the select list and, if the select is not a compound one, of FROM. -/
def SelectStmt.OrderbyOk (s : SelectStmt D R V) : OrderbyItem → Prop
  | .num place => 1 ≤ place ∧ place ≤ s.core.selectExprList.length
  | .id name => resolves (if s.compound.isEmpty then s.core.names ++ s.core.fromColumns else s.core.names) name
  | .expr names => s.compound.isEmpty = true ∧ ∀ name ∈ names, resolves (s.core.names ++ s.core.fromColumns) name

/-- A place in GROUP BY is that of an expression that is no aggregate. -/
def SelectCore.GroupbyOk (c : SelectCore D R V) : GroupbyItem D R V → Prop
  | .num place => ∃ e, c.at? place = some e ∧ e.isAggregate = false
  | .expr _ => True

/-- What semantic analysis and SQLite accept: cores with the same number of columns, HAVING in aggregate queries only, and terms of
GROUP BY and ORDER BY that are resolved. -/
structure SelectStmt.Accepted (s : SelectStmt D R V) : Prop where
  columns : ∀ c ∈ s.cores, c.selectExprList.length = s.core.selectExprList.length
  notEmpty : s.core.selectExprList ≠ []
  having : ∀ c ∈ s.cores, c.having.isSome → c.groupBy.isSome ∨ c.isAggregate
  grouped : ∀ c ∈ s.cores, ∀ item ∈ c.groupBy.getD [], c.GroupbyOk item
  ordered : ∀ term ∈ s.orderby, s.OrderbyOk term

/-! ## The rewrite -/

/-- The literal 1. -/
def literalOne (one : V) : SelectExpr D R V := ⟨false, none, fun _ _ => one⟩

/-- `rewrite_star_and_table_star_as_columns_calc` under EXISTS: the select list of a core with a FROM clause becomes the literal 1. -/
def SelectCore.rewriteExists (one : V) (c : SelectCore D R V) : SelectCore D R V :=
  if c.hasFrom then { c with selectExprList := [literalOne one] } else c

/-- The select under EXISTS after the rewrite, which meets every core. -/
def SelectStmt.rewriteExists (one : V) (s : SelectStmt D R V) : SelectStmt D R V :=
  { s with
    core := s.core.rewriteExists one
    compound := s.compound.map fun p => (p.1, p.2.rewriteExists one) }

/-- The rewrite changes neither the truth value nor that the statement is accepted. -/
def SelectStmt.Preserved [DecidableEq V] (s : SelectStmt D R V) (one : V) (db : D) : Prop :=
  (s.rewriteExists one).existsRow db = s.existsRow db ∧ (s.Accepted → (s.rewriteExists one).Accepted)

/-- The select list alone makes all the rows one group. -/
def SelectCore.collapses (c : SelectCore D R V) : Bool :=
  c.groupBy.isNone && c.selectExprList.any SelectExpr.isAggregate && !c.having.any Having.isAggregate

/-- The term of ORDER BY does not need the select list. -/
def SelectStmt.OrderbyFree (s : SelectStmt D R V) : OrderbyItem → Prop
  | .num place => place = 1
  | .id name => s.compound.isEmpty = true ∧ resolves s.core.fromColumns name
  | .expr names => s.compound.isEmpty = true ∧ ∀ name ∈ names, resolves s.core.fromColumns name

/-- The select list does not matter: an aggregate without GROUP BY has rows to aggregate and stands alone, a place in GROUP BY is the first and no
groups are filtered or counted, only UNION and UNION ALL combine cores, rows are not counted by OFFSET where equal rows are removed, and ORDER BY does
not need the list. -/
structure SelectStmt.ListIrrelevant (s : SelectStmt D R V) (db : D) : Prop where
  collapsing : ∀ c ∈ s.cores, c.collapses = true → c.having = none ∧ c.rows db ≠ [] ∧ s.skipped db = 0
  grouped : ∀ c ∈ s.cores, ∀ place, .num place ∈ c.groupBy.getD [] → place = 1 ∧ c.having = none ∧ s.skipped db = 0
  unions : ∀ p ∈ s.compound, p.1 = .union ∨ p.1 = .unionAll
  counted : s.skipped db ≠ 0 → (∀ c ∈ s.cores, c.distinct = false) ∧ ∀ p ∈ s.compound, p.1 = .unionAll
  ordered : ∀ term ∈ s.orderby, s.OrderbyFree term

end CgSql.SelectExists
