import Mathlib.Data.List.Forall2

/-!
# The rows of a dummy test

`collect_dummy_test_info` and `cg_dummy_test_populate`: the INSERT OR IGNORE statements for the tables that a procedure uses. Foreign keys are
single columns, and no given value is NULL. Names stand for themselves, and what SQLite stores and refuses is a parameter.
-/

namespace CgSql.DummyData

/-- `DUMMY_TEST_INSERT_ROWS` -/
def insertRows : Nat := 2

/-! ## The schema and the attribute -/

inductive ColType
  | bool
  | integer
  | longInteger
  | real
  | text
  | blob
  deriving DecidableEq

/-- `is_numeric` -/
def ColType.isNumeric : ColType → Bool
  | .text | .blob => false
  | _ => true

/-- `NUM_INT` and so on. -/
inductive NumType
  | int
  | bool
  | long
  | real
  deriving DecidableEq

/-- A literal with its text. -/
inductive Literal
  | number (type : NumType) (minus : Bool) (lit : List Char)
  | text (lit : List Char)
  | blob (lit : List Char)
  /-- `CAST('n' as blob)` -/
  | castBlob (lit : List Char)
  deriving DecidableEq

/-- The check of `sem_autotest_dummy_test` on a value. -/
def Literal.fits : Literal → ColType → Bool
  | .number .int _ _, type | .number .bool _ _, type => type.isNumeric
  | .number .long _ _, type => type = .longInteger
  | .number .real _ _, type => type = .real
  | .text _, type => type = .text
  | .blob _, type => type = .blob
  | .castBlob _, _ => false

/-- The tables in the order that they are emitted in. The foreign keys of a column are those of its attributes and constraints, in their order. -/
structure Schema (Tab Col : Type) where
  tables : List Tab
  columns : Tab → List Col
  /-- Rows are inserted: the table is neither a backing table nor virtual. -/
  populated : Tab → Bool
  type : Tab → Col → ColType
  refs : Tab → Col → List (Tab × Col)
  /-- `is_referenceable_by_foreign_key` -/
  referenceable : Tab → Col → Bool
  nodup : tables.Nodup
  /-- What a table refers to is found with it. -/
  found : ∀ t ∈ tables, ∀ c ∈ columns t, ∀ r ∈ refs t c, r.1 ∈ tables ∧ r.2 ∈ columns r.1
  /-- `sem_validate_referenceable_fk_def`, and the check for the exact type. -/
  checked : ∀ t ∈ tables, ∀ c ∈ columns t, ∀ r ∈ refs t c, referenceable r.1 r.2 = true ∧ type r.1 r.2 = type t c

variable {Tab Col V : Type}

/-- An element of the attribute, for one table. It is accepted by `sem_autotest_dummy_test`. -/
structure Entry (S : Schema Tab Col) where
  table : Tab
  names : List Col
  rows : List (List Literal)
  names_mem : ∀ c ∈ names, c ∈ S.columns table
  rows_ne : rows ≠ []
  fits : ∀ row ∈ rows, List.Forall₂ (fun c (l : Literal) => l.fits (S.type table c) = true) names row

/-! ## The values that are given -/

/-- `dummy_test_infos` -/
abbrev Infos (Tab Col : Type) := Tab → Col → List Literal

/-- `bytebuf_append_var` -/
def Infos.append [DecidableEq Tab] [DecidableEq Col] (infos : Infos Tab Col) (t : Tab) (c : Col) (value : Literal) : Infos Tab Col := fun t' c' =>
  if t' = t ∧ c' = c then infos t c ++ [value] else infos t' c'

/-- `!StrCaseCmp` -/
def sameText (l r : List Char) : Bool := l.map Char.toLower = r.map Char.toLower

/-- The comparison in the loop of `is_column_value_present`. -/
def sameValue (type : ColType) : Literal → Literal → Bool
  | .number _ minusL lv, .number _ minusR rv => type.isNumeric && minusL == minusR && sameText lv rv
  | .text lv, .text rv => type = .text && sameText lv rv
  | _, _ => false

/-- `is_column_value_present` -/
def isColumnValuePresent (values : List Literal) (type : ColType) (value : Literal) : Bool := values.any (sameValue type · value)

variable (S : Schema Tab Col)

/-- `find_parent_column`: the first foreign key. -/
def findParentColumn (t : Tab) (c : Col) : Option (Tab × Col) := (S.refs t c).head?

/-- `add_value_to_referenced_table` -/
def addValueToReferencedTable [DecidableEq Tab] [DecidableEq Col] (infos : Infos Tab Col) (t : Tab) (c : Col) (value : Literal) : Infos Tab Col :=
  match findParentColumn S t c with
  | none => infos
  | some r => if isColumnValuePresent (infos r.1 r.2) (S.type t c) value then infos else infos.append r.1 r.2 value

/-- A value of the attribute. -/
def collectValue [DecidableEq Tab] [DecidableEq Col] (t : Tab) (infos : Infos Tab Col) (v : Col × Literal) : Infos Tab Col :=
  addValueToReferencedTable S (infos.append t v.1 v.2) t v.1 v.2

/-- The values of an element of the attribute, row after row. -/
def Entry.values {S : Schema Tab Col} (e : Entry S) : List (Col × Literal) := e.rows.flatMap fun row => e.names.zip row

/-- `collect_dummy_test_info` -/
def collect [DecidableEq Tab] [DecidableEq Col] (attr : List (Entry S)) : Infos Tab Col :=
  attr.foldl (fun infos e => e.values.foldl (collectValue S e.table) infos) fun _ _ => []

/-! ## The statements -/

/-- `cg_validate_value_range` -/
def validateValueRange (value : Nat) : Nat := if 1 ≤ value ∧ value ≤ insertRows then value else value % insertRows + 1

/-- The quote of a text. -/
def quote : Char := Char.ofNat 39

/-- `cg_dummy_test_emit_integer_value` -/
def emitIntegerValue (type : ColType) (value : Nat) : Literal :=
  if type.isNumeric then .number .int false (Nat.toDigits 10 value)
  else if type = .blob then .castBlob (Nat.toDigits 10 value)
  else .text (quote :: Nat.toDigits 10 value ++ [quote])

variable (infos : Infos Tab Col)

/-- `cg_parent_column_value` -/
def parentColumnValue (t : Tab) (c : Col) (index : Nat) : Option Literal :=
  match findParentColumn S t c with
  | none => none
  | some r => (infos r.1 r.2)[index % (infos r.1 r.2).length]?

/-- The value for a column that has no given one in the row, if the statement names it. -/
def missingValue (t : Tab) (c : Col) (rowIndex : Nat) : Option Literal :=
  if S.refs t c ≠ [] then
    some ((parentColumnValue S infos t c rowIndex).getD (emitIntegerValue (S.type t c) (validateValueRange (rowIndex + 1))))
  else if S.referenceable t c then some (emitIntegerValue (S.type t c) (rowIndex + 1))
  else none

/-- The value for a column, if the statement names it. -/
def columnValue (t : Tab) (c : Col) (rowIndex : Nat) : Option Literal :=
  match (infos t c)[rowIndex]? with
  | some value => some value
  | none => missingValue S infos t c rowIndex

/-- `add_row` -/
def addRow (t : Tab) (rowIndex : Nat) : Bool := (S.columns t).any (fun c => rowIndex < (infos t c).length) || rowIndex < insertRows

/-- The number of rows: there are at least two, and enough for the given values. -/
def rowCount (t : Tab) : Nat := (S.columns t).foldr (fun c n => max (infos t c).length n) insertRows

/-- An INSERT OR IGNORE statement. Its seed is known from the table and the index. -/
structure Insert (Tab Col : Type) where
  table : Tab
  rowIndex : Nat
  values : Col → Option Literal

/-- The loop of `cg_dummy_test_populate`. -/
def populateFrom (t : Tab) : Nat → Nat → List (Insert Tab Col)
  | 0, _ => []
  | fuel + 1, rowIndex =>
    if addRow S infos t rowIndex then ⟨t, rowIndex, fun c => columnValue S infos t c rowIndex⟩ :: populateFrom t fuel (rowIndex + 1)
    else []

/-- `cg_dummy_test_populate`, and the test for virtual tables before it. -/
def populate (t : Tab) : List (Insert Tab Col) := if S.populated t then populateFrom S infos t (rowCount S infos t) 0 else []

/-! ## The database -/

/-- What SQLite makes of literals and rows. -/
structure Sql (Tab Col V : Type) where
  stored : ColType → Literal → V
  /-- The value of a column that the statement does not name, with the seed and its options. -/
  filler : Tab → Nat → Col → V
  /-- A constraint on the row itself. -/
  rejects : Tab → (Col → V) → Bool
  /-- A unique key that two rows share. -/
  conflicts : Tab → (Col → V) → (Col → V) → Bool

/-- The rows of the tables. -/
abbrev Db (Tab Col V : Type) := Tab → List (Col → V)

variable (sql : Sql Tab Col V)

/-- The row of a statement. -/
def rowOf (stmt : Insert Tab Col) : Col → V := fun c =>
  match stmt.values c with
  | some value => sql.stored (S.type stmt.table c) value
  | none => sql.filler stmt.table stmt.rowIndex c

/-- INSERT OR IGNORE -/
def insertOrIgnore [DecidableEq Tab] (db : Db Tab Col V) (stmt : Insert Tab Col) : Db Tab Col V :=
  if sql.rejects stmt.table (rowOf S sql stmt) || (db stmt.table).any (sql.conflicts stmt.table · (rowOf S sql stmt)) then db
  else Function.update db stmt.table (db stmt.table ++ [rowOf S sql stmt])

/-- The database after all the statements. -/
def populated [DecidableEq Tab] : Db Tab Col V := (S.tables.flatMap (populate S infos)).foldl (insertOrIgnore S sql) fun _ => []

/-- Every value of a foreign key is in the column it refers to. -/
def NoViolation (db : Db Tab Col V) : Prop :=
  ∀ t ∈ S.tables, ∀ row ∈ db t, ∀ c ∈ S.columns t, ∀ r ∈ S.refs t c, ∃ row' ∈ db r.1, row' r.2 = row c

instance [DecidableEq V] (db : Db Tab Col V) : Decidable (NoViolation S db) :=
  inferInstanceAs (Decidable (∀ t ∈ S.tables, ∀ row ∈ db t, ∀ c ∈ S.columns t, ∀ r ∈ S.refs t c, ∃ row' ∈ db r.1, row' r.2 = row c))

/-- No table refers to itself, also not through others. -/
def Acyclic : Prop := ∃ rank : Tab → Nat, ∀ t c, ∀ r ∈ S.refs t c, rank r.1 < rank t

end CgSql.DummyData
