import CgSql.Nullability

/-!
# Result aliases

The aliases of a top-level select that its `ORDER BY` does not use are left out of the text that is sent to SQLite. An alias is used where
`sem.c` finds the name among the results. SQLite has rules of its own for names in `ORDER BY`, so what the texts denote is defined by these.
-/

namespace CgSql.Aliases

open Nullability (sameName)

/-! ## Selects -/

/-- A column of a `FROM` clause. -/
structure Column where
  table : String
  name : String
  deriving DecidableEq

/-- An expression. A nested select has its own `FROM`, results with aliases, clauses and `ORDER BY`. A hint is what SQLite skips before it looks at a
term of `ORDER BY`: `COLLATE`, `likely`, `unlikely` and `likelihood`. -/
inductive Expr
  | num (n : Nat)
  | name (n : String)
  | dot (table n : String)
  | op (op : String) (args : List Expr)
  | hinted (hint : String) (e : Expr)
  | select (sources : List Column) (aliases : List (Option String)) (list clauses orderBy : List Expr)

/-- A select without `ORDER BY`: its results in order, each with the alias that it has. -/
structure SelectCore where
  sources : List Column
  aliases : List (Option String)
  list : List Expr
  clauses : List Expr

/-- A select. -/
structure Select extends SelectCore where
  orderBy : List Expr

/-- The text of a select. -/
def Select.text (s : Select) : Expr := .select s.sources s.aliases s.list s.clauses s.orderBy

/-- The `FROM` clause has a column of the name. -/
def hasColumn (sources : List Column) (n : String) : Bool := sources.any fun c => sameName n c.name

/-- The aliases that belong to a result. -/
def aliasNames (aliases : List (Option String)) (list : List Expr) : List String := (aliases.zip list).filterMap Prod.fst

/-! ## Symbols that are used -/

mutual

/-- The names that an expression reads past the selects inside of it, and whether the monitor of symbols is on there: it is off in the
`ORDER BY` of a nested select. -/
def reads (monitored : Bool) (inner : List String) : Expr → List (String × Bool)
  | .num _ => []
  | .name n => if inner.any (sameName n) then [] else [(n, monitored)]
  | .dot _ _ => []
  | .op _ args => readsAll monitored inner args
  | .hinted _ e => reads monitored inner e
  | .select sources aliases list clauses orderBy =>
    let bound := sources.map Column.name ++ inner
    readsAll monitored bound list ++ readsAll monitored (aliasNames aliases list ++ bound) clauses ++
      readsAll false (aliasNames aliases list ++ bound) orderBy

def readsAll (monitored : Bool) (inner : List String) : List Expr → List (String × Bool)
  | [] => []
  | e :: es => reads monitored inner e ++ readsAll monitored inner es

end

/-- The name of an expression that has no alias. -/
def exprName : Expr → String
  | .name n | .dot _ n => n
  | _ => "_anon"

/-- The names of the results. -/
def resultNames (aliases : List (Option String)) (list : List Expr) : List String :=
  (aliases.zip list).map fun r => r.1.getD (exprName r.2)

/-- `used_symbols` of a select that is not compound: the columns of `FROM` are searched first, and what is found among the results is
recorded. -/
def Select.usedSymbols (s : Select) : List String :=
  (readsAll true [] s.orderBy).filterMap fun r =>
    if r.2 && !hasColumn s.sources r.1 then (resultNames s.aliases s.list).find? (sameName r.1) else none

/-- `symtab_find`. -/
def symtabFind (symbols : List String) (n : String) : Bool := symbols.any (sameName n)

/-- `gen_select_expr`: the alias that is emitted, where `used_alias_syms` is there. -/
def genSelectExpr (used : List String) (name : Option String) : Option String :=
  name.filter (symtabFind used)

/-- `gen_select_expr_list` with `minify_aliases`. -/
def SelectCore.minify (used : List String) (s : SelectCore) : SelectCore :=
  { s with aliases := s.aliases.map (genSelectExpr used) }

/-- No clause but `ORDER BY` reads an alias: `CQL0435` and `CQL0436` are reported where one does. -/
def SelectCore.Accepted (s : SelectCore) : Prop :=
  ∀ r ∈ readsAll true [] s.clauses, (aliasNames s.aliases s.list).any (sameName r.1) = false

/-! ## What texts denote -/

/-- An expression whose names are resolved: a column is one of the `FROM` clause of a select that is `level` deep. -/
inductive Resolved
  | num (n : Nat)
  | column (level index : Nat)
  | op (op : String) (args : List Resolved)
  | hinted (hint : String) (e : Resolved)
  | select (sources : List Column) (list clauses orderBy : List Resolved)

/-- The names that a select gives to the expressions in it: columns, and the aliases that can be read with what they stand for. -/
structure Scope where
  level : Nat
  sources : List Column
  aliases : List (String × Resolved)

/-- The columns of a name. -/
def columnsNamed (sources : List Column) (n : String) : List Nat :=
  (sources.zipIdx.filter fun c => sameName n c.1.name).map Prod.snd

/-- The expression that an alias stands for. -/
def findAlias (aliases : List (String × Resolved)) (n : String) : Option Resolved :=
  (aliases.find? fun a => sameName n a.1).map Prod.snd

/-- A name inside of an expression: a column, else an alias, of the nearest select that has one. -/
def resolveName : List Scope → String → Option Resolved
  | [], _ => none
  | scope :: scopes, n =>
    match columnsNamed scope.sources n with
    | [i] => some (.column scope.level i)
    | _ :: _ :: _ => none
    | [] => (findAlias scope.aliases n).or (resolveName scopes n)

/-- A name with its table. -/
def resolveDot : List Scope → String → String → Option Resolved
  | [], _, _ => none
  | scope :: scopes, table, n =>
    match (scope.sources.zipIdx.filter fun c => sameName table c.1.table && sameName n c.1.name).map Prod.snd with
    | [i] => some (.column scope.level i)
    | _ :: _ :: _ => none
    | [] => resolveDot scopes table n

/-- The aliases with what they stand for. -/
def visible (aliases : List (Option String)) (items : List Resolved) : List (String × Resolved) :=
  (aliases.zip items).filterMap fun a => a.1.map (·, a.2)

/-- `sqlite3ExprSkipCollateAndLikely`. -/
def Expr.bare : Expr → Expr
  | .hinted _ e => e.bare
  | e => e

/-- What replaces a term keeps the hints of the term. -/
def Expr.rehint : Expr → Resolved → Resolved
  | .hinted hint e, r => .hinted hint (e.rehint r)
  | _, r => r

/-- A term of `ORDER BY`: behind the hints a number is that of a result, a name that is an alias means the result, and anything else is an
expression. -/
def resolveTerm (aliases : List (String × Resolved)) (items : List Resolved) (term : Expr) (ordinary : Option Resolved) : Option Resolved :=
  match term.bare with
  | .num k => if k = 0 then none else items[k - 1]?.map term.rehint
  | .name n => ((findAlias aliases n).map term.rehint).or ordinary
  | _ => ordinary

mutual

/-- The expression with its names resolved, where they can be. -/
def resolve (scopes : List Scope) : Expr → Option Resolved
  | .num n => some (.num n)
  | .name n => resolveName scopes n
  | .dot table n => resolveDot scopes table n
  | .op op args => (resolveAll scopes args).map (.op op)
  | .hinted hint e => (resolve scopes e).map (.hinted hint)
  | .select sources aliases list clauses orderBy => do
    let items ← resolveAll (⟨scopes.length, sources, []⟩ :: scopes) list
    let scope : Scope := ⟨scopes.length, sources, visible aliases items⟩
    let clauses ← resolveAll (scope :: scopes) clauses
    let terms ← resolveTerms (scope :: scopes) scope.aliases items orderBy
    some (.select sources items clauses terms)

def resolveAll (scopes : List Scope) : List Expr → Option (List Resolved)
  | [] => some []
  | e :: es => do
    let r ← resolve scopes e
    let rs ← resolveAll scopes es
    some (r :: rs)

def resolveTerms (scopes : List Scope) (aliases : List (String × Resolved)) (items : List Resolved) : List Expr → Option (List Resolved)
  | [] => some []
  | e :: es => do
    let r ← resolveTerm aliases items e (resolve scopes e)
    let rs ← resolveTerms scopes aliases items es
    some (r :: rs)

end

/-- A way to evaluate: the rows of a `FROM` clause that the clauses select, the values of expressions on them, the order of the keys,
and what `DISTINCT` and `LIMIT` keep. -/
structure Meaning (Row V : Type) where
  data : List Column → List Resolved → List Row
  eval : Resolved → Row → V
  le : List V → List V → Bool
  finish : List (List V) → List (List V)

/-- The rows that a resolved select denotes, in order. -/
def Meaning.rows {Row V : Type} (m : Meaning Row V) : Resolved → List (List V)
  | .select sources list clauses orderBy =>
    let sorted := (m.data sources clauses).insertionSort fun a b => m.le (orderBy.map (m.eval · a)) (orderBy.map (m.eval · b)) = true
    m.finish (sorted.map fun row => list.map (m.eval · row))
  | _ => []

/-! ## Top-level selects -/

/-- A part of a compound select. -/
inductive Core
  | values (rows : List (List Expr))
  | select (s : SelectCore)

/-- A top-level select. A compound one, or one of `VALUES`, is ordered by numbers and names alone. -/
inductive TopSelect
  | simple (s : Select)
  | compound (cores : List Core) (orderBy : List Expr)

/-- The names of the results of a part: `sem_values` numbers its columns. -/
def Core.resultNames : Core → List String
  | .values rows => (List.range (rows.headD []).length).map fun i => "column" ++ toString (i + 1)
  | .select s => Aliases.resultNames s.aliases s.list

/-- `used_symbols` of a compound select: names are searched among the results of the first part only. -/
def compoundUsedSymbols (cores : List Core) (orderBy : List Expr) : List String :=
  orderBy.filterMap fun
    | .name n => (cores.head?.elim [] Core.resultNames).find? (sameName n)
    | _ => none

/-- A part without aliases: no symbol of it is used. -/
def Core.withoutAliases : Core → Core
  | .values rows => .values rows
  | .select s => .select (s.minify [])

/-- The aliases of the parts: the symbols are those of the first part that is no `VALUES`, and there are none for the parts after it. -/
def minifyCores (used : List String) : List Core → List Core
  | [] => []
  | .values rows :: cores => .values rows :: minifyCores used cores
  | .select s :: cores => .select (s.minify used) :: cores.map Core.withoutAliases

/-- The select as it is sent with `minify_aliases`. -/
def TopSelect.minified : TopSelect → TopSelect
  | .simple s => .simple ⟨s.minify s.usedSymbols, s.orderBy⟩
  | .compound cores orderBy => .compound (minifyCores (compoundUsedSymbols cores orderBy) cores) orderBy

/-- A part with its names resolved, and what its results can be found by. -/
structure ResolvedCore where
  query : Resolved
  aliases : List (Option String)
  sources : List Column
  items : List Resolved

/-- The part with its names resolved. -/
def Core.resolve : Core → Option ResolvedCore
  | .values rows => do
    let rows ← rows.mapM fun row => (resolveAll [⟨0, [], []⟩] row).map (.op "row")
    some ⟨.op "values" rows, [], [], []⟩
  | .select s =>
    match Aliases.resolve [] (Select.mk s []).text with
    | some (.select sources items clauses terms) => some ⟨.select sources items clauses terms, s.aliases, s.sources, items⟩
    | _ => none

/-- The expression is the column of the select. -/
def Resolved.isColumn (index : Nat) : Resolved → Bool
  | .column 0 i => i = index
  | _ => false

/-- The result that a name means in a part: one with the alias, else one that is the column. -/
def ResolvedCore.position (c : ResolvedCore) (n : String) : Option Nat :=
  (c.aliases.findIdx? fun a => a.any (sameName n)).or (match columnsNamed c.sources n with
    | [i] => c.items.findIdx? (Resolved.isColumn i)
    | _ => none)

/-- The result that a term of a compound select means: the first part where it means one says which. -/
def termPosition (cores : List ResolvedCore) : Expr → Option Nat
  | .num k => if k = 0 then none else some (k - 1)
  | .name n => cores.findSome? fun c => c.position n
  | _ => none

/-- What SQLite makes of the text of a compound select: its parts, and the results that it is ordered by. -/
def resolveCompound (cores : List Core) (orderBy : List Expr) : Option (List Resolved × List Nat) := do
  let cores ← cores.mapM Core.resolve
  let positions ← orderBy.mapM (termPosition cores)
  some (cores.map ResolvedCore.query, positions)

/-- The rows that a top-level select denotes, in order, where SQLite accepts its text. -/
def TopSelect.rows {Row V : Type} (m : Meaning Row V) (combine : List (List (List V)) → List (List V)) : TopSelect → Option (List (List V))
  | .simple s => (Aliases.resolve [] s.text).map m.rows
  | .compound cores orderBy => (resolveCompound cores orderBy).map fun r =>
    m.finish ((combine (r.1.map m.rows)).insertionSort fun a b => m.le (r.2.filterMap (a[·]?)) (r.2.filterMap (b[·]?)) = true)

/-- What `sem.c` has checked of the names. -/
def TopSelect.Accepted : TopSelect → Prop
  | .simple s => s.Accepted
  | .compound cores orderBy => (∀ s, Core.select s ∈ cores → s.Accepted) ∧
      ∀ n, Expr.name n ∈ orderBy → (cores.head?.elim [] Core.resultNames).any (sameName n) = true

end CgSql.Aliases
