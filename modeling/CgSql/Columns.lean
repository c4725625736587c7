import CgSql.SymbolTable

/-!
# The columns of a select list

`rewrite_select_expr_list`: how `*`, `T.*` and `@COLUMNS` are replaced by names of columns. What `sem_find_shape_def` finds is part of an item, and
what types can be assigned is a parameter.
-/

namespace CgSql.Columns

open SymbolTable (Name Case)

/-- A name up to letter case. -/
def fold (name : Name) : List UInt8 := Case.insens.fold name

/-- `"rowid"` -/
def rowid : Name := ⟨[114, 111, 119, 105, 100], by decide⟩

/-! ## Tables -/

structure Column (T : Type) where
  name : Name
  type : T
  /-- `SEM_TYPE_HIDDEN_COL` -/
  hidden : Bool

/-- `sem_struct` -/
abbrev Struct (T : Type) := List (Column T)

/-- `sem_join`, of a FROM clause. Its tables have different names. -/
structure Join (T : Type) where
  tables : List (Name × Struct T)
  nodup : (tables.map fun t => fold t.1).Nodup

/-- `col_calc`. A shape is what `sem_find_shape_def` finds, if it finds one. -/
inductive ColCalc (T : Type)
  /-- `T.x` -/
  | column (table name : Name)
  /-- `T`, or `T LIKE shape` -/
  | table (scope : Name) (like : Option (Option (Struct T)))
  /-- `LIKE shape` -/
  | like (shape : Option (Struct T))

/-- An element of a select list before the rewrite. -/
inductive Item (E T : Type)
  | expr (e : E)
  | star
  | tableStar (table : Name)
  | columns (distinct : Bool) (calcs : List (ColCalc T))

/-- The name of a column, with that of its table if it is qualified. -/
structure Ref where
  scope : Option Name
  name : Name
  deriving DecidableEq

/-- An element of a select list after the rewrite. -/
inductive Selected (E : Type)
  | expr (e : E)
  | ref (r : Ref)
  /-- The literal 1 that is the list of an EXISTS. -/
  | one

inductive Error
  /-- `CQL0052` -/
  | noFrom
  /-- `CQL0054` -/
  | tableNotFound (table : Name)
  /-- What `sem_find_shape_def` reports. -/
  | noShape
  /-- `CQL0069` -/
  | nameNotFound (scope : Option Name) (name : Name)
  /-- What `sem_verify_assignment` reports. -/
  | notAssignable (scope name : Name)

/-- The end of the rewrite: a read through a null pointer, an error, or a result. -/
inductive Outcome (α : Type)
  | crash
  | error (e : Error)
  | ok (result : α)

/-! ## Symbol tables -/

/-- A symbol table, as what is found under a name up to case, which is all that the table of `SymbolTable` says. -/
abbrev Symtab (V : Type) := List UInt8 → Option V

variable {E T V : Type}

/-- `symtab_add`: what is there stays. -/
def Symtab.add (tab : Symtab V) (name : Name) (val : V) : Symtab V :=
  if (tab (fold name)).isSome then tab else Function.update tab (fold name) (some val)

/-- `jfind_t` -/
structure JFind (T : Type) where
  location : Symtab Name
  dups : Symtab Unit
  tables : Symtab (Struct T)

/-- The inner loop of `jfind_init`. -/
def initColumns (table : Name) : Struct T → JFind T → JFind T
  | [], jfind => jfind
  | c :: cs, jfind =>
    if (jfind.location (fold c.name)).isSome then initColumns table cs { jfind with dups := jfind.dups.add c.name () }
    else initColumns table cs { jfind with location := jfind.location.add c.name table }

/-- The outer loop of `jfind_init`. -/
def initTables : List (Name × Struct T) → JFind T → JFind T
  | [], jfind => jfind
  | (name, sptr) :: tables, jfind => initTables tables (initColumns name sptr { jfind with tables := jfind.tables.add name sptr })

/-- `jfind_init` -/
def jfindInit (join : Join T) : JFind T := initTables join.tables ⟨fun _ => none, fun _ => none, fun _ => none⟩

/-! ## The rewrite -/

/-- `find_col_in_sptr` -/
def findCol (sptr : Struct T) (name : Name) : Option (Column T) := sptr.find? fun c => fold c.name = fold name

/-- `verify_matched_column`, for a shape. -/
def verifyMatchedColumn (assignable : T → T → Bool) (reqd : Column T) (actual : Struct T) (scope : Name) : Option Error :=
  match findCol actual reqd.name with
  | none => some (.nameNotFound (some scope) reqd.name)
  | some c => if assignable reqd.type c.type then none else some (.notAssignable scope reqd.name)

/-- `used_names`, if there is DISTINCT. -/
abbrev Used := Option (Symtab Unit)

/-- Whether a name is used. -/
def Used.has : Used → Name → Bool
  | none, _ => false
  | some tab, name => (tab (fold name)).isSome

/-- A name is used. -/
def Used.add : Used → Name → Used
  | none, _ => none
  | some tab, name => some (Symtab.add tab name ())

/-- The loop over the columns for `T` and `T LIKE shape`. The columns of the table itself are not verified. -/
def expandTable (assignable : T → T → Bool) (scope : Name) (isLike : Bool) (table : Struct T) : Struct T → Used → Except Error (List Ref × Used)
  | [], used => .ok ([], used)
  | c :: cs, used =>
    if c.name = rowid ∨ c.hidden then expandTable assignable scope isLike table cs used
    else if used.has c.name then expandTable assignable scope isLike table cs used
    else
      match if isLike then verifyMatchedColumn assignable c table scope else none with
      | some e => .error e
      | none => (expandTable assignable scope isLike table cs (used.add c.name)).map fun r => (⟨some scope, c.name⟩ :: r.1, r.2)

/-- The loop over the columns for `LIKE shape`. -/
def expandLike (assignable : T → T → Bool) (jfind : JFind T) : Struct T → Used → Except Error (List Ref × Used)
  | [], used => .ok ([], used)
  | c :: cs, used =>
    if used.has c.name then expandLike assignable jfind cs used
    else
      match jfind.location (fold c.name) with
      | none => .error (.nameNotFound none c.name)
      | some scope =>
        -- `Invariant(sptr_table)`
        match verifyMatchedColumn assignable c ((jfind.tables (fold scope)).getD []) scope with
        | some e => .error e
        | none =>
          (expandLike assignable jfind cs (used.add c.name)).map fun r =>
            (⟨if used.isSome ∧ (jfind.dups (fold c.name)).isSome then some scope else none, c.name⟩ :: r.1, r.2)

/-- One item. -/
def expandCalc (assignable : T → T → Bool) (jfind : JFind T) (used : Used) : ColCalc T → Except Error (List Ref × Used)
  | .column table name => .ok ([⟨some table, name⟩], used.add name)
  | .table scope like =>
    match jfind.tables (fold scope) with
    | none => .error (.tableNotFound scope)
    | some table =>
      match like with
      | none => expandTable assignable scope false table table used
      | some none => .error .noShape
      | some (some shape) => expandTable assignable scope true table shape used
  | .like none => .error .noShape
  | .like (some shape) => expandLike assignable jfind shape used

/-- The loop of `rewrite_column_calculation`. -/
def expandCalcs (assignable : T → T → Bool) (jfind : JFind T) : List (ColCalc T) → Used → Except Error (List Ref)
  | [], _ => .ok []
  | item :: calcs, used =>
    match expandCalc assignable jfind used item with
    | .error e => .error e
    | .ok (refs, used) => (expandCalcs assignable jfind calcs used).map (refs ++ ·)

/-- `rewrite_column_calculation`. What is spliced in is taken to have a head. -/
def rewriteColumnCalculation (assignable : T → T → Bool) (jfind : JFind T) (distinct : Bool) (calcs : List (ColCalc T)) : Outcome (List Ref) :=
  match expandCalcs assignable jfind calcs (if distinct then some fun _ => none else none) with
  | .error e => .error e
  | .ok [] => .crash
  | .ok (r :: rs) => .ok (r :: rs)

/-- The loop of `rewrite_star_and_table_star_as_columns_calc`. -/
def starAsColumns (join : Join T) : Item E T → Item E T
  | .star => .columns false (join.tables.map fun t => .table t.1 none)
  | .tableStar table => .columns false [.table table none]
  | item => item

/-- The loop of `rewrite_select_expr_list` with a FROM clause. -/
def rewriteItems (assignable : T → T → Bool) (jfind : JFind T) : List (Item E T) → Outcome (List (Selected E))
  | [] => .ok []
  | item :: items =>
    match item with
    | .columns distinct calcs =>
      match rewriteColumnCalculation assignable jfind distinct calcs with
      | .crash => .crash
      | .error e => .error e
      | .ok refs =>
        match rewriteItems assignable jfind items with
        | .ok out => .ok (refs.map .ref ++ out)
        | other => other
    | .expr e =>
      match rewriteItems assignable jfind items with
      | .ok out => .ok (.expr e :: out)
      | other => other
    | _ => .error .noFrom

/-- The loop of `rewrite_select_expr_list` without a FROM clause. -/
def rewriteWithoutFrom : List (Item E T) → Outcome (List (Selected E))
  | [] => .ok []
  | .expr e :: items =>
    match rewriteWithoutFrom items with
    | .ok out => .ok (.expr e :: out)
    | other => other
  | _ :: _ => .error .noFrom

/-- `rewrite_select_expr_list`. -/
def rewriteSelectExprList (assignable : T → T → Bool) (inExists : Bool) (items : List (Item E T)) : Option (Join T) → Outcome (List (Selected E))
  | none => rewriteWithoutFrom items
  | some join =>
    if inExists then .ok [.one] else rewriteItems assignable (jfindInit join) (items.map (starAsColumns join))

end CgSql.Columns
