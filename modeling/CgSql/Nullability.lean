import Mathlib.Algebra.Order.Ring.Int
import Mathlib.Data.BitVec

/-!
# Types and values of expressions

The types that `sem.c` gives to expressions, columns and selects, nullability included, over any domain of values: AND, OR, CASE and
WHERE improve names for what is evaluated where they are known not to be null. Names are compared as `StrCaseCmp` does.
-/

namespace CgSql.Nullability

/-! ## Types -/

/-- The core types of values. -/
inductive CoreType
  | null
  | bool
  | integer
  | longInteger
  | real
  | object
  | text
  | blob
  deriving DecidableEq

/-- A type: its core type and `SEM_TYPE_NOTNULL`. -/
structure SemType where
  core : CoreType
  notNull : Bool
  deriving DecidableEq

namespace CoreType

def isNumeric : CoreType → Bool
  | .bool | .integer | .longInteger | .real => true
  | _ => false

def isNumericCompat (t : CoreType) : Bool := t = .null || t.isNumeric

def isStringCompat (t : CoreType) : Bool := t = .text || t = .null

end CoreType

/-- `sem_verify_compat`. -/
def semVerifyCompat (needed found : CoreType) : Bool :=
  match needed with
  | .text | .object | .blob => found = needed || found = .null
  | .bool | .integer | .longInteger | .real => found.isNumericCompat
  | .null => true

/-- The core type of `sem_combine_types`. -/
def semCombineCore (t u : CoreType) : CoreType :=
  if t = u then t
  else match t with
    | .text => .text
    | .blob => .blob
    | .object => .object
    | .real => .real
    | .longInteger => if u = .real then .real else .longInteger
    | .integer => if u = .real ∨ u = .longInteger then u else .integer
    | .bool => if u = .null then .bool else u
    | .null => u

/-- `sem_combine_types`, with the flags of `combine_flags`. -/
def semCombineTypes (t u : SemType) : SemType := ⟨semCombineCore t.core u.core, t.notNull && u.notNull⟩

/-! ## Expressions -/

inductive UnaryOp
  | neg
  | complement
  deriving DecidableEq

inductive MathOp
  | add
  | sub
  | mul
  | div
  | mod
  | bitAnd
  | bitOr
  | lshift
  | rshift
  deriving DecidableEq

/-- The operators of `sem_binary_integer_math`. -/
def MathOp.isInteger : MathOp → Bool
  | .mod | .bitAnd | .bitOr | .lshift | .rshift => true
  | _ => false

inductive LogicalOp
  | and
  | or
  deriving DecidableEq

inductive CompareOp
  | lt
  | gt
  | le
  | ge
  deriving DecidableEq

/-- A row of a table: its rowid, if it has one, and its columns. -/
structure TableRow (V : Type) where
  rowid : Option V
  columns : List (Option V)
  deriving DecidableEq

/-- The rows of the tables of a join. -/
abbrev JoinRow (V : Type) := List (TableRow V)

mutual

/-- Expressions over the values `V`. A select in an IN predicate is given by its core type and what it returns. -/
inductive Expr (V : Type)
  | null
  | literal (core : CoreType) (v : V)
  | ident (scope : Option String) (name : String)
  | unaryMath (op : UnaryOp) (e : Expr V)
  | unaryLogical (e : Expr V)
  | binaryMath (op : MathOp) (l r : Expr V)
  | binaryLogical (op : LogicalOp) (l r : Expr V)
  | binaryCompare (op : CompareOp) (l r : Expr V)
  | eqOrNe (negated : Bool) (l r : Expr V)
  | like (negated : Bool) (l r : Expr V)
  | concat (l r : Expr V)
  | isOrIsNot (negated : Bool) (l r : Expr V)
  | isTrueOrFalse (negated value : Bool) (e : Expr V)
  | between (negated : Bool) (e lo hi : Expr V)
  | inList (negated : Bool) (needle : Expr V) (items : Exprs V)
  | inSelect (negated : Bool) (needle : Expr V) (core : CoreType) (rows : JoinRow V → List (Option V))
  | caseExpr (expr : OptExpr V) (whens : Whens V) (orElse : OptExpr V)
  | coalesce (args : Exprs V)
  | cast (e : Expr V) (core : CoreType)
  | typeCheck (e : Expr V) (t : SemType)

inductive OptExpr (V : Type)
  | none
  | some (e : Expr V)

inductive Exprs (V : Type)
  | nil
  | cons (e : Expr V) (rest : Exprs V)

inductive Whens (V : Type)
  | nil
  | cons (cond value : Expr V) (rest : Whens V)

end

/-! ## Names -/

/-- The columns of a table, by name. -/
abbrev Columns := List (String × SemType)

/-- The tables of a join, by name (`sem_join`). -/
abbrev Join := List (String × Columns)

/-- `StrCaseCmp`. -/
def sameName (a b : String) : Bool := a.toLower = b.toLower

/-- What a name stands for. -/
inductive Referent
  | column (i j : Nat)
  | rowid (i : Nat)
  | var (name : String)
  deriving DecidableEq

/-- The columns of a join that a name can stand for. -/
def columnsNamed (S : Join) (scope : Option String) (name : String) : List (Nat × Nat) :=
  S.zipIdx.flatMap fun p =>
    if scope.all (sameName · p.1.1) then (p.1.2.zipIdx.filter fun q => sameName name q.1.1).map fun q => (p.2, q.2) else []

def isRowidName (name : String) : Bool := sameName name "_rowid_" || sameName name "rowid" || sameName name "oid"

/-- Resolve a name: a column (`sem_try_resolve_column`), a rowid (`sem_try_resolve_rowid`) or a variable. There is no join outside of a
select. An ambiguous name, or a variable that has the name of a column, is an error. -/
def resolve (vars : String → Option SemType) (S : Option Join) (scope : Option String) (name : String) : Option Referent :=
  let asVariable := if scope.isNone ∧ (vars name).isSome then some (Referent.var name) else none
  match S with
  | none => asVariable
  | some S =>
    let noConflict (r : Referent) := if scope.isNone ∧ (vars name).isSome then none else some r
    match columnsNamed S scope name with
    | [(i, j)] => noConflict (.column i j)
    | _ :: _ :: _ => none
    | [] =>
      if isRowidName name then
        match scope with
        | none => if S.length = 1 then noConflict (.rowid 0) else none
        | some scope => (S.findIdx? fun p => sameName scope p.1).map .rowid
      else asVariable

/-- The type of what a name stands for. -/
def Referent.type (vars : String → Option SemType) (S : Option Join) : Referent → Option SemType
  | .column i j => do
    let table ← (← S)[i]?
    let column ← table.2[j]?
    return column.2
  | .rowid _ => some ⟨.longInteger, true⟩
  | .var name => vars name

/-! ## Improvements -/

/-- The names that a condition improves when it is true (`sem_set_improvements_for_true_condition`). -/
def Expr.improvedIfTrue {V : Type} : Expr V → List (Option String × String)
  | .binaryLogical .and l r => l.improvedIfTrue ++ r.improvedIfTrue
  | .isOrIsNot true (.ident scope name) .null => [(scope, name)]
  | _ => []

/-- The names that a condition improves when it is not true (`sem_set_improvements_for_false_condition`). -/
def Expr.improvedIfFalse {V : Type} : Expr V → List (Option String × String)
  | .binaryLogical .or l r => l.improvedIfFalse ++ r.improvedIfFalse
  | .isOrIsNot false (.ident scope name) .null => [(scope, name)]
  | _ => []

/-- The names that the left operand of AND or OR improves for the right one. -/
def LogicalOp.improved {V : Type} (op : LogicalOp) (l : Expr V) : List (Option String × String) :=
  match op with
  | .and => l.improvedIfTrue
  | .or => l.improvedIfFalse

/-- The names that the WHENs of a CASE improve for its ELSE. -/
def Whens.improved {V : Type} : Whens V → List (Option String × String)
  | .nil => []
  | .cons cond _ rest => cond.improvedIfFalse ++ rest.improved

/-- The names that a WHERE improves for the select list. -/
def OptExpr.improvedIfTrue {V : Type} : OptExpr V → List (Option String × String)
  | .none => []
  | .some e => e.improvedIfTrue

/-- What is improved, with further names. -/
def improve (vars : String → Option SemType) (S : Option Join) (improved : List Referent) (names : List (Option String × String)) :
    List Referent := names.filterMap (fun n => resolve vars S n.1 n.2) ++ improved

/-! ## Types of expressions -/

section

variable {V : Type} (vars : String → Option SemType) (strictAndOr : Bool) (S : Option Join)

def Expr.isNull : Expr V → Bool
  | .null => true
  | _ => false

def OptExpr.isSome : OptExpr V → Bool
  | .none => false
  | .some _ => true

/-- The type of a result, where a check passes. -/
def checked (ok : Bool) (t : SemType) : Option SemType := if ok then some t else none

/-- The type of a COALESCE up to an argument of type `u`: an argument that is not null makes it NOT NULL. -/
def semCoalesceNext (t : Option SemType) (u : SemType) : Option SemType :=
  match t with
  | none => some u
  | some t => checked (semVerifyCompat t.core u.core) ⟨semCombineCore t.core u.core, t.notNull && u.notNull || u.notNull⟩

mutual

/-- The type of an expression, or an error, where some names are improved. With `strictAndOr`, AND and OR improve names for their right
operands (`strict_and_or_not_null_check`). -/
def semExpr (I : List Referent) : Expr V → Option SemType
  | .null => some ⟨.null, false⟩
  | .literal core _ => some ⟨core, true⟩
  | .ident scope name => do
    let r ← resolve vars S scope name
    let t ← r.type vars S
    return ⟨t.core, t.notNull || r ∈ I⟩
  | .unaryMath op e => do
    let t ← semExpr I e
    let u := semCombineTypes ⟨.integer, true⟩ t
    checked (t.core.isNumericCompat && !(op = .complement && u.core = .real)) u
  | .unaryLogical e => do
    let t ← semExpr I e
    checked t.core.isNumericCompat ⟨.bool, t.notNull⟩
  | .binaryMath op l r => do
    let t ← semExpr I l
    let u ← semExpr I r
    let core := semCombineCore t.core u.core
    let core := if core = .bool then .integer else core
    checked (t.core.isNumericCompat && u.core.isNumericCompat && !(op.isInteger && core = .real)) ⟨core, t.notNull && u.notNull⟩
  | .binaryLogical op l r => do
    let t ← semExpr I l
    let u ← semExpr (if strictAndOr then improve vars S I (op.improved l) else I) r
    checked (t.core ≠ .text && u.core ≠ .text) ⟨.bool, t.notNull && u.notNull⟩
  | .binaryCompare _ l r => do
    let t ← semExpr I l
    let u ← semExpr I r
    checked (t.core ≠ .object && u.core ≠ .object && t.core ≠ .blob && u.core ≠ .blob && semVerifyCompat t.core u.core)
      ⟨.bool, t.notNull && u.notNull⟩
  | .eqOrNe _ l r => do
    let t ← semExpr I l
    let u ← semExpr I r
    checked (!l.isNull && !r.isNull && semVerifyCompat t.core u.core) ⟨.bool, t.notNull && u.notNull⟩
  | .like _ l r => do
    let t ← semExpr I l
    let u ← semExpr I r
    checked (t.core.isStringCompat && u.core.isStringCompat) ⟨.bool, t.notNull && u.notNull⟩
  | .concat l r => do
    let t ← semExpr I l
    let u ← semExpr I r
    checked (t.core ≠ .blob && u.core ≠ .blob && t.core ≠ .object && u.core ≠ .object) ⟨.text, t.notNull && u.notNull⟩
  | .isOrIsNot _ l r => do
    let t ← semExpr I l
    let u ← semExpr I r
    checked (semVerifyCompat t.core u.core && !(r.isNull && t.notNull)) ⟨.bool, true⟩
  | .isTrueOrFalse _ _ e => do
    let t ← semExpr I e
    checked t.core.isNumericCompat ⟨.bool, true⟩
  | .between _ e lo hi => do
    let t ← semExpr I e
    let u ← semExpr I lo
    let v ← semExpr I hi
    checked (t.core ≠ .blob && t.core ≠ .object && semVerifyCompat t.core u.core && semVerifyCompat t.core v.core &&
      semVerifyCompat u.core v.core) ⟨.bool, t.notNull && (u.notNull && v.notNull)⟩
  | .inList _ needle items => do
    let t ← semExpr I needle
    checked (← semInItems I t.core items) ⟨.bool, t.notNull⟩
  | .inSelect _ needle core _ => do
    let t ← semExpr I needle
    checked (semVerifyCompat t.core core) ⟨.bool, t.notNull⟩
  | .caseExpr expr whens orElse => do
    -- `sem_case`
    let required ← semCaseOperand I expr
    let t ← semCaseList expr.isSome I required none whens
    semCaseElse (improve vars S I whens.improved) t orElse
  | .coalesce args => semCoalesce I none args
  | .cast e core => do
    let t ← semExpr I e
    return ⟨core, if t.core = .null then false else t.notNull⟩
  | .typeCheck e u => do
    let t ← semExpr I e
    checked (t = u) t

/-- The items of an IN list are compatible with the needle and the items before them. -/
def semInItems (I : List Referent) (needed : CoreType) : Exprs V → Option Bool
  | .nil => some true
  | .cons e rest => do
    let t ← semExpr I e
    if semVerifyCompat needed t.core then semInItems I (semCombineCore needed t.core) rest else none

/-- The core type that a CASE needs its WHEN expressions to have. -/
def semCaseOperand (I : List Referent) : OptExpr V → Option CoreType
  | .none => some .bool
  | .some e => do return (← semExpr I e).core

/-- `sem_case_list`: the type of the THEN expressions, with those before them. A WHEN improves names for its THEN only if the CASE has no
operand, but for what follows in any case. -/
def semCaseList (hasOperand : Bool) (I : List Referent) (required : CoreType) (t : Option SemType) : Whens V → Option SemType
  | .nil => t
  | .cons cond value rest => do
    let c ← semExpr I cond
    let u ← semExpr (if hasOperand then I else improve vars S I cond.improvedIfTrue) value
    let I := improve vars S I cond.improvedIfFalse
    if c.core ≠ .null ∧ semVerifyCompat required c.core = true then
      match t with
      | none => semCaseList hasOperand I required (some u) rest
      | some t => if semVerifyCompat t.core u.core then semCaseList hasOperand I required (some (semCombineTypes t u)) rest else none
    else none

/-- The ELSE of a CASE: without it the result can be null. -/
def semCaseElse (I : List Referent) (t : SemType) : OptExpr V → Option SemType
  | .none => some ⟨t.core, false⟩
  | .some e => do
    let u ← semExpr I e
    checked (semVerifyCompat t.core u.core) (semCombineTypes t u)

/-- `sem_coalesce`: the type of the arguments, with those before them. Nothing may follow one that is not null. -/
def semCoalesce (I : List Referent) (t : Option SemType) : Exprs V → Option SemType
  | .nil => t
  | .cons e rest => do
    let u ← semExpr I e
    let v ← semCoalesceNext t u
    match rest with
    | .nil => if t.isSome ∧ e.isNull = false then some v else none
    | .cons _ _ => if e.isNull = false ∧ v.notNull = false then semCoalesce I (some v) rest else none

end

end

end CgSql.Nullability
