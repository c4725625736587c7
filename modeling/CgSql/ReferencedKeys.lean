import CgSql.SymbolTable

/-!
# Referenced columns

The checks of `sem.c` that the columns a foreign key refers to, and those of the conflict target of an upsert, are a key of the table:
`sem_validate_referenceable_fk_def`, and the part of `sem_upsert_stmt` that does the same. The expressions of WHERE clauses are of any type, and what
SQLite takes the text of an expression for is a parameter.
-/

namespace CgSql.ReferencedKeys

open SymbolTable (Name Case strCaseCmp)

/-! ## Declarations -/

/-- A member of a list of names or of indexed columns. A string literal and any other expression are known by their texts. -/
inductive Item
  | name (name : Name)
  | literal (text : Name)
  | expr (text : Name)

/-- `string_from_name_list_item`. -/
def Item.text : Item → Name
  | .name n => n
  | .literal t => t
  | .expr t => t

/-- `EXTRACT_STRING`, which fails a contract for an expression that is no `is_ast_str`. -/
def Item.str? : Item → Option Name
  | .name n => some n
  | .literal t => some t
  | .expr _ => none

/-- What the code compares names and texts by. -/
def Item.folded (item : Item) : List UInt8 := Case.insens.fold item.text

/-- No two members are the same. -/
def Distinct (items : List Item) : Prop := (items.map Item.folded).Nodup

/-- A list that `sem_validate_name_list` has checked. -/
structure Columns where
  items : List Item
  nonempty : items ≠ []
  distinct : Distinct items

/-- A list of names that `sem_validate_name_list` has checked. -/
structure NameList where
  names : List Name
  nonempty : names ≠ []
  distinct : Distinct (names.map .name)

/-- A column, with the flags `SEM_TYPE_PK` and `SEM_TYPE_UK` of its attributes. -/
structure ColumnDef where
  name : Name
  primaryKey : Bool
  uniqueKey : Bool

/-- A member of `col_key_list`. -/
inductive ColKey
  | colDef (col : ColumnDef)
  | pkDef (columns : Columns)
  | unqDef (columns : Columns)
  | other

/-- The columns of a PRIMARY KEY or UNIQUE constraint. -/
def ColKey.columns? : ColKey → Option Columns
  | .pkDef columns | .unqDef columns => some columns
  | _ => none

/-- A column definition. -/
def ColKey.column? : ColKey → Option ColumnDef
  | .colDef col => some col
  | _ => none

structure Table where
  name : Name
  colKeyList : List ColKey

/-- `sem->sptr`: the names and flags of the columns. -/
def Table.columns (table : Table) : List ColumnDef := table.colKeyList.filterMap ColKey.column?

variable {ε : Type}

/-- `create_index_stmt`. The columns of a deleted index are not checked. -/
structure Index (ε : Type) where
  tableName : Name
  unique : Bool
  columns : List Item
  filter : Option ε
  deleted : Bool
  distinct : deleted = false → Distinct columns

/-! ## Checks -/

/-- `symtab_find`, in a table of the names that were added. -/
def symtabFind (cache : List Name) (name : Name) : Bool := cache.any fun sym => strCaseCmp sym.1 name.1 = 0

/-- The second loop of `is_name_list_equal`: how many names there are, if all of them are found. -/
def countFound (cache : List Name) : (count : Nat) → List Name → Option Nat
  | count, [] => some count
  | count, name :: names => if symtabFind cache name then countFound cache (count + 1) names else none

/-- `is_name_list_equal`. -/
def isNameListEqual (nameList1 nameList2 : List Item) : Bool :=
  match countFound (nameList1.map Item.text) 0 (nameList2.map Item.text) with
  | some count2 => nameList1.length = count2
  | none => false

/-- `is_column_unique_key`. -/
def isColumnUniqueKey (table : Table) (columnName : Name) : Bool :=
  table.columns.any fun col => strCaseCmp columnName.1 col.name.1 = 0 && (col.primaryKey || col.uniqueKey)

/-- `find_referenceable_columns`. The callback gets the columns of each constraint, and of each unique index on the table. -/
def findReferenceableColumns (table : Table) (indices : List (Index ε)) (callback : List Item → Bool) : Bool :=
  (table.colKeyList.any fun keyDef => match keyDef.columns? with
    | some columns => callback columns.items
    | none => false) ||
  indices.any fun index => index.unique && strCaseCmp table.name.1 index.tableName.1 = 0 && callback index.columns

/-- What is reported. -/
inductive Report
  | notReferenceable (tableName : Name)
  | notConflictTarget

/-- `sem_validate_referenceable_fk_def`, for the names in the list. -/
def semValidateReferenceableFkDef (table : Table) (indices : List (Index ε)) (nameList : List Name) : Option Report :=
  let single := match nameList with
    | [columnName] => isColumnUniqueKey table columnName
    | _ => false
  if single then none
  else if findReferenceableColumns table indices fun columns => isNameListEqual columns (nameList.map .name) then none
  else some (.notReferenceable table.name)

/-- The check of the conflict target in `sem_upsert_stmt`. -/
def checkConflictTarget (table : Table) (indices : List (Index ε)) (indexedColumns : List Item) : Option (Option Report) := do
  let isSingleUniqueKey ← match indexedColumns with
    | [item] => item.str?.map (isColumnUniqueKey table)
    | _ => some false
  if isSingleUniqueKey then return none
  else if findReferenceableColumns table indices fun columns => isNameListEqual columns indexedColumns then return none
  else return some .notConflictTarget

/-! ## Keys -/

/-- The same names and texts, in any order and any letter case. -/
def SameTexts (items items' : List Item) : Prop := ∀ t, t ∈ items.map Item.folded ↔ t ∈ items'.map Item.folded

section Reads

variable {κ : Type} (reads : Name → List UInt8 ⊕ κ)

/-- What SQLite compares: a name without its letter case, and what it takes a text for, a column or an expression. -/
def Item.column : Item → List UInt8 ⊕ κ
  | .name n => .inl (Case.insens.fold n)
  | .literal t | .expr t => reads t

/-- The same columns, in any order. -/
def SameColumns (items items' : List Item) : Prop := ∀ t, t ∈ items.map (Item.column reads) ↔ t ∈ items'.map (Item.column reads)

end Reads

/-- An index on a table. -/
def Index.On (index : Index ε) (table : Table) : Prop := Case.insens.fold index.tableName = Case.insens.fold table.name

/-- There is a list of this kind that SQLite takes as a key: of a column or a constraint, or of a live unique index that is fit for the purpose. -/
def HasKey (table : Table) (indices : List (Index ε)) (fit : Index ε → Prop) (same : List Item → Prop) : Prop :=
  (∃ col ∈ table.columns, (col.primaryKey = true ∨ col.uniqueKey = true) ∧ same [.name col.name]) ∨
    (∃ keyDef ∈ table.colKeyList, ∃ columns, keyDef.columns? = some columns ∧ same columns.items) ∨
    ∃ index ∈ indices, index.On table ∧ index.unique = true ∧ index.deleted = false ∧ fit index ∧ same index.columns

variable {κ : Type}

/-- The columns are those of a key. -/
def IsKey (reads : Name → List UInt8 ⊕ κ) (table : Table) (indices : List (Index ε)) (fit : Index ε → Prop) (items : List Item) : Prop :=
  HasKey table indices fit fun list => SameColumns reads list items

/-- Fit for a foreign key: without WHERE, over columns. -/
def FitForKey (reads : Name → List UInt8 ⊕ κ) (index : Index ε) : Prop :=
  index.filter = none ∧ ∀ item ∈ index.columns, ∃ n, item.column reads = .inl n

/-- Fit for a conflict target with this WHERE: if the index has one, then the target has one that covers it. -/
def FitForUpsert (covers : ε → ε → Prop) (optWhere : Option ε) (index : Index ε) : Prop :=
  ∀ filter, index.filter = some filter → ∃ e, optWhere = some e ∧ covers e filter

/-- A key is written as the columns are. -/
def Spelled (reads : Name → List UInt8 ⊕ κ) (table : Table) (indices : List (Index ε)) (fit : Index ε → Prop) (items : List Item) : Prop :=
  HasKey table indices fit fun list => SameColumns reads list items ∧ SameTexts list items

/-- A key has the columns and is written differently. -/
def Respelled (reads : Name → List UInt8 ⊕ κ) (table : Table) (indices : List (Index ε)) (fit : Index ε → Prop) (items : List Item) : Prop :=
  HasKey table indices fit fun list => SameColumns reads list items ∧ ¬SameTexts list items

/-- A key is written as the columns are without being theirs, or a unique index is that is deleted or not fit for the purpose. -/
def Unfit (reads : Name → List UInt8 ⊕ κ) (table : Table) (indices : List (Index ε)) (fit : Index ε → Prop) (items : List Item) : Prop :=
  (HasKey table indices fit fun list => ¬SameColumns reads list items ∧ SameTexts list items) ∨
    ∃ index ∈ indices, index.On table ∧ index.unique = true ∧ Distinct index.columns ∧ SameTexts index.columns items ∧
      (index.deleted = true ∨ ¬fit index)

end CgSql.ReferencedKeys
