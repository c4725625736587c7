import CgSql.SqlValues

/-!
# Recursive common table expressions

The types that `sem_cte_table` gives to the columns of a recursive common table expression, NOT NULL and SENSITIVE, and the rows that its
recursion produces. Each value has a mark that says whether anything sensitive went into it.
-/

namespace CgSql.Nullability

variable {V : Type}

/-! ## Sensitive expressions -/

/-- Which columns of a row are sensitive, table by table. -/
abbrev Marks := List (List Bool)

/-- Nothing is marked that is not marked there. -/
def Below (m m' : List Bool) : Prop := List.Forall₂ (fun a b => a = true → b = true) m m'

def BelowAll (m m' : Marks) : Prop := List.Forall₂ Below m m'

/-- The variables that are SENSITIVE, and the selects in IN predicates that are in a row with these marks. -/
structure Sensitivity (V : Type) where
  var : String → Bool
  select : (JoinRow V → List (Option V)) → Marks → Bool
  mono : ∀ rows m m', BelowAll m m' → select rows m = true → select rows m' = true

section

variable (vars : String → Option SemType) (Z : Sensitivity V) (S : Option Join) (m : Marks)

def Referent.sensitive : Referent → Bool
  | .column i j => (m[i]?.bind fun columns => columns[j]?).getD false
  | .rowid _ => false
  | .var name => Z.var name

mutual

/-- The flag SENSITIVE of an expression: that of any part of it (`combine_flags`). -/
def Expr.sensitive : Expr V → Bool
  | .null => false
  | .literal _ _ => false
  | .ident scope name => (resolve vars S scope name).any (Referent.sensitive Z m)
  | .unaryMath _ e => e.sensitive
  | .unaryLogical e => e.sensitive
  | .binaryMath _ l r => l.sensitive || r.sensitive
  | .binaryLogical _ l r => l.sensitive || r.sensitive
  | .binaryCompare _ l r => l.sensitive || r.sensitive
  | .eqOrNe _ l r => l.sensitive || r.sensitive
  | .like _ l r => l.sensitive || r.sensitive
  | .concat l r => l.sensitive || r.sensitive
  | .isOrIsNot _ l r => l.sensitive || r.sensitive
  | .isTrueOrFalse _ _ e => e.sensitive
  | .between _ e lo hi => e.sensitive || (lo.sensitive || hi.sensitive)
  | .inList _ needle items => needle.sensitive || items.sensitive
  | .inSelect _ needle _ rows => needle.sensitive || Z.select rows m
  | .caseExpr expr whens orElse => expr.sensitive || (whens.sensitive || orElse.sensitive)
  | .coalesce args => args.sensitive
  | .cast e _ => e.sensitive
  | .typeCheck e _ => e.sensitive

def OptExpr.sensitive : OptExpr V → Bool
  | .none => false
  | .some e => e.sensitive

def Exprs.sensitive : Exprs V → Bool
  | .nil => false
  | .cons e rest => e.sensitive || rest.sensitive

def Whens.sensitive : Whens V → Bool
  | .nil => false
  | .cons cond value rest => cond.sensitive || (value.sensitive || rest.sensitive)

end

end

/-! ## Sensitive selects -/

/-- Marks that are all set, where a condition is sensitive (`sem_add_flags_to_join`). -/
def Marks.over (sensitive : Bool) (m : Marks) : Marks := if sensitive then m.map fun columns => columns.map fun _ => true else m

section

variable (W : World V) (Z : Sensitivity V) (D : Database V) (flags : String → Nat → Bool)

/-- The flags SENSITIVE of the columns of a table. -/
def tableFlags (name : String) (columns : Columns) : List Bool := (List.range columns.length).map (flags name)

/-- The flags SENSITIVE of a select list, under a WHERE. -/
def columnsSensitive (S : Option Join) (m : Marks) (columns : List (String × Expr V)) (filter : OptExpr V) : List Bool :=
  columns.map fun c => c.2.sensitive W.types Z S m || filter.sensitive W.types Z S m

mutual

/-- The flags SENSITIVE of the columns of a select, with those of the columns of tables. -/
def selectSensitive : Select V → Option (List Bool)
  | .core columns source filter => do
    let S ← semOptSource W D source
    return columnsSensitive W Z S (← optSourceSensitive source) columns filter
  | .union _ l r => do return (← selectSensitive l).zipWith (· || ·) (← selectSensitive r)

def optSourceSensitive : OptSource V → Option Marks
  | .none => some []
  | .some s => sourceSensitive s

/-- A sensitive ON condition makes all of the join sensitive. -/
def sourceSensitive : Source V → Option Marks
  | .table name _ => do return [tableFlags flags name (← D name).columns]
  | .subselect s _ => do return [← selectSensitive s]
  | .join type l r on => do
    let J ← joinTables type (← semSource W D l) (← semSource W D r)
    let m := (← sourceSensitive l) ++ (← sourceSensitive r)
    return m.over (on.sensitive W.types Z (some J) m)

end

end

/-! ## Types -/

/-- A core of a compound select. -/
structure Core (V : Type) where
  columns : List (String × Expr V)
  source : OptSource V
  filter : OptExpr V

def Core.select (core : Core V) : Select V := .core core.columns core.source core.filter

/-- `select_core_list`: a core, and those that UNION (false) or UNION ALL (true) adds. -/
def compound (core : Core V) : List (Bool × Core V) → Select V
  | [] => core.select
  | (all, next) :: rest => .union all core.select (compound next rest)

/-- A common table expression that is a compound select. Without a list of names it has those of the first core. -/
structure CteTable (V : Type) where
  name : String
  nameList : Option (List String)
  base : Core V
  rest : List (Bool × Core V)

/-- The cores of the compound select. -/
def CteTable.cores (cte : CteTable V) : List (Core V) := cte.base :: cte.rest.map Prod.snd

/-- The columns of a common table expression, and which of them are SENSITIVE. -/
structure CteType where
  columns : Columns
  sensitive : List Bool
  deriving DecidableEq

/-- The tables, with a common table expression among them. -/
def withCte (D : Database V) (name : String) (columns : Columns) : Database V :=
  fun n => if sameName n name then some ⟨columns, [], nofun⟩ else D n

def withFlags (flags : String → Nat → Bool) (name : String) (sensitive : List Bool) (n : String) (j : Nat) : Bool :=
  if sameName n name then sensitive.getD j false else flags n j

/-- The columns of `sem_cte_decl`: the names of the declaration with the types of the select. -/
def semCteDecl (nameList : Option (List String)) (columns : Columns) : Option Columns :=
  let names := nameList.getD (columns.map Prod.fst)
  if names.Pairwise (fun a b => ¬sameName a b) ∧ names.length = columns.length then some (names.zip (columns.map Prod.snd)) else none

section

variable (W : World V) (Z : Sensitivity V) (D : Database V) (flags : String → Nat → Bool) (cte : CteTable V)

/-- The provisional type: that of the first core. -/
def semCteBase : Option CteType := do
  let columns ← semCteDecl cte.nameList (← semSelect W D cte.base.select)
  return ⟨columns, ← selectSensitive W Z D flags cte.base.select⟩

/-- The type of the whole compound select, where its own name has this type. -/
def semCteBody (type : CteType) : Option CteType := do
  let body := compound cte.base cte.rest
  let columns ← semSelect W (withCte D cte.name type.columns) body
  return ⟨columns, ← selectSensitive W Z (withCte D cte.name type.columns) (withFlags flags cte.name type.sensitive) body⟩

/-- `sem_cte_table`: the declared names, with the types of the compound select. -/
def semCteTable : Option CteType := do
  let base ← semCteBase W Z D flags cte
  let body ← semCteBody W Z D flags cte base
  return ⟨base.columns.zipWith (fun c d => (c.1, d.2)) body.columns, body.sensitive⟩

/-- The compound select, typed once more where its name has this type, is within this type. -/
def Stable (type : CteType) : Prop :=
  ∃ again, semCteBody W Z D flags cte type = some again ∧
    List.Forall₂ (fun c d : String × SemType => c.2.notNull = true → d.2.notNull = true) type.columns again.columns ∧
    Below again.sensitive type.sensitive

end

/-! ## Rows -/

/-- A row of a select: its values and their marks. -/
structure MarkedRow (V : Type) where
  values : List (Option V)
  marks : List Bool
  deriving DecidableEq

/-- A row of a join. -/
structure MarkedJoinRow (V : Type) where
  row : JoinRow V
  marks : Marks
  deriving DecidableEq

/-- A row of a select as one of a table. -/
def MarkedRow.asTable (r : MarkedRow V) : MarkedJoinRow V := ⟨[⟨none, r.values⟩], [r.marks]⟩

def MarkedJoinRow.append (l r : MarkedJoinRow V) : MarkedJoinRow V := ⟨l.row ++ r.row, l.marks ++ r.marks⟩

def MarkedJoinRow.over (sensitive : Bool) (r : MarkedJoinRow V) : MarkedJoinRow V := ⟨r.row, r.marks.over sensitive⟩

/-- A row that an outer join makes up. -/
def markedNullRow (S : Join) : MarkedJoinRow V := ⟨nullRow S, S.map fun p => p.2.map fun _ => false⟩

/-- The rows of a join. What a condition tells of sensitive values it tells of the whole row: of the pair, or of all the pairs that are not there. -/
def joinMarkedRows (type : JoinType) (S T : Join) (matches? tells? : MarkedJoinRow V → Bool) (ls rs : List (MarkedJoinRow V)) :
    List (MarkedJoinRow V) :=
  let pairs := ls.flatMap fun l => ((rs.map fun r => l.append r).filter matches?).map fun p => p.over (tells? p)
  match type with
  | .inner => pairs
  | .left => pairs ++ (ls.filter fun l => !rs.any fun r => matches? (l.append r)).map fun l =>
      (l.append (markedNullRow T)).over (rs.any fun r => tells? (l.append r))
  | .right => pairs ++ (rs.filter fun r => !ls.any fun l => matches? (l.append r)).map fun r =>
      ((markedNullRow S).append r).over (ls.any fun l => tells? (l.append r))

section

variable (W : World V) (rules : Rules V) (Z : Sensitivity V) (D : Database V) (rowsOf : String → Option (List (MarkedJoinRow V)))

/-- The rows of a select list under a WHERE that they meet, if all have values. -/
def evalMarkedRows (S : Option Join) (columns : List (String × Expr V)) (filter : OptExpr V) :
    List (MarkedJoinRow V) → Option (List (MarkedRow V))
  | [] => some []
  | r :: rest => do
    let values ← evalColumns W rules S r.row columns
    return ⟨values, columnsSensitive W Z S r.marks columns filter⟩ :: (← evalMarkedRows S columns filter rest)

mutual

/-- The rows of a select, with those of the tables. Names stand for what they were found to in the analysis. -/
def markedRows : Select V → Option (List (MarkedRow V))
  | .core columns source filter => do
    let S ← semOptSource W D source
    evalMarkedRows W rules Z S columns filter ((← optSourceMarkedRows source).filter fun r => holds W rules S filter r.row)
  | .union all l r => do
    let rows := (← markedRows l) ++ (← markedRows r)
    return if all then rows else rows.pwFilter fun a b => ¬sameRow W a.values b.values

def optSourceMarkedRows : OptSource V → Option (List (MarkedJoinRow V))
  | .none => some [⟨[], []⟩]
  | .some s => sourceMarkedRows s

def sourceMarkedRows : Source V → Option (List (MarkedJoinRow V))
  | .table name _ => rowsOf name
  | .subselect s _ => do return (← markedRows s).map MarkedRow.asTable
  | .join type l r on => do
    let S ← semSource W D l
    let T ← semSource W D r
    let J ← joinTables type S T
    return joinMarkedRows type S T (fun p => holds W rules (some J) on p.row) (fun p => on.sensitive W.types Z (some J) p.marks)
      (← sourceMarkedRows l) (← sourceMarkedRows r)

end

end

/-! ## Recursion -/

section

variable (W : World V) (rules : Rules V) (Z : Sensitivity V) (D : Database V) (flags : String → Nat → Bool) (cte : CteTable V)

/-- The rows of the tables: those of the database, whose marks are the flags of their columns, and of the recursive table the ones taken. -/
def tableRows (taken : List (MarkedRow V)) (name : String) : Option (List (MarkedJoinRow V)) :=
  if sameName name cte.name then some (taken.map MarkedRow.asTable)
  else do
    let table ← D name
    return table.rows.map fun r => ⟨[r], [tableFlags flags name table.columns]⟩

/-- The rows of a core where the recursive table has the rows taken. The names in it were found with the provisional type. -/
def coreRows (base : CteType) (core : Core V) (taken : List (MarkedRow V)) : Option (List (MarkedRow V)) :=
  markedRows W rules Z (withCte D cte.name base.columns) (tableRows D flags cte taken) core.select

/-- A step of the recursion runs a core on some of the rows produced so far. What it adds may be left out, as UNION and LIMIT do. -/
structure Step (base : CteType) (core : Core V) (taken produced produced' : List (MarkedRow V)) : Prop where
  core_mem : core ∈ cte.cores
  taken_subset : taken ⊆ produced
  added : ∃ rows, coreRows W rules Z D flags cte base core taken = some rows ∧ produced' ⊆ produced ++ rows

/-- IN predicates and rowids have the values that `sem.c` has in mind: no IN meets a null item, and no rowid is that of a made-up row. -/
def AsDocumented (base : CteType) (core : Core V) (taken : List (MarkedRow V)) : Prop :=
  coreRows W (.sql V) Z D flags cte base core taken = coreRows W (.documented V) Z D flags cte base core taken

/-- What the recursion can produce, in any number of steps. -/
def Produced (P : Core V → List (MarkedRow V) → Prop) (base : CteType) (rows : List (MarkedRow V)) : Prop :=
  Relation.ReflTransGen (fun produced produced' => ∃ core taken, P core taken ∧ Step W (.sql V) Z D flags cte base core taken produced produced')
    [] rows

end

/-- The values of NOT NULL columns are not null, and those of columns that are not SENSITIVE are not sensitive. -/
structure RowFits (type : CteType) (r : MarkedRow V) : Prop where
  notNull : List.Forall₂ (fun (c : String × SemType) v => c.2.notNull = true → v ≠ none) type.columns r.values
  sensitive : Below r.marks type.sensitive

end CgSql.Nullability
