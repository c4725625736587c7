import Mathlib.Data.List.Infix

/-!
# Rebuilding a recreate group

`cql_rebuild_recreate_group` of `cqlrt_common.c`. It is given the creates of the tables of a group, the creates of their indices and
the drops of deleted tables, each as one text, splits the texts into statements, reads the names of the tables back from the
statements, and runs the drops and the creates.

A C string is the list of its characters. Where the source reads in front of or behind a string, or fails a contract, a reader
gives `none`.
-/

namespace CgSql.Rebuild

abbrev Text := List Char

/-! ## Splitting -/

/-- The quote of string literals. -/
def quote : Char := Char.ofNat 39

/-- The loop of `_cql_create_upgrader_input_statement_list`: `line` is what stands between `lineStart` and `p`. -/
def statements (parseWord : Text) (inQuote : Bool) (line : Text) : Text → List Text
  | [] => [line]
  | c :: p =>
    match inQuote with
    | true =>
      if c = quote then
        match p with
        | [] => [line ++ [c]]
        | d :: p' =>
          if d = quote then statements parseWord true (line ++ [c, d]) p'
          else statements parseWord false (line ++ [c]) (d :: p')
      else statements parseWord true (line ++ [c]) p
    | false =>
      if c = quote then statements parseWord true (line ++ [c]) p
      else if parseWord <+: c :: p ∧ line ≠ [] then line :: statements parseWord false [c] p
      else statements parseWord false (line ++ [c]) p

/-- `_cql_create_upgrader_input_statement_list`. -/
def statementList (parseWord : Text) (str : Text) : List Text :=
  if str = [] then [] else statements parseWord false [] (str.dropWhile (· = ' '))

/-! ## Names -/

/-- `while (p[-1] == ' ') p--`. -/
def backSpaces (s : Text) : Text := (s.reverse.dropWhile (· = ' ')).reverse

/-- What stands behind the last `c`, or everything. -/
def afterLast (c : Char) (s : Text) : Text := (s.reverse.takeWhile (· ≠ c)).reverse

/-- What stands in front of the first `(`. -/
def beforeParen (s : Text) : Option Text := if '(' ∈ s then some (s.takeWhile (· ≠ '(')) else none

/-- `_cql_create_table_name_from_table_creation_statement`. -/
def tableNameOfCreate (create : Text) : Option Text := do
  guard (¬ "CREATE VIRTUAL TABLE ".toList <+: create)
  let p ← beforeParen create
  guard (p ≠ [])
  let p := backSpaces p
  if p.getLast? = some ']' then
    guard ('[' ∈ p)
    return '[' :: afterLast '[' p
  else
    guard (' ' ∈ p)
    return afterLast ' ' p

/-- `strstr(s, w) + strlen(w)`. -/
def afterWord (w : Text) : Text → Option Text
  | [] => if w = [] then some [] else none
  | c :: s => if w <+: c :: s then some ((c :: s).drop w.length) else afterWord w s

/-- `_cql_create_table_name_from_index_creation_statement`. Where only spaces stand in front of the `(` the source backs up over the
word itself, and the size of the copy is negative. -/
def tableNameOfIndex (indexCreate : Text) : Option Text := do
  let lineStart ← afterWord "ON ".toList indexCreate
  let q ← beforeParen lineStart
  let q := backSpaces q
  guard (q ≠ [])
  return q

/-! ## The run -/

/-- The calls to SQLite, by the place in the source that makes them. -/
inductive Call
  | delete (sql : Text)
  | dropTable (name : Text)
  | createTable (sql : Text)
  | createIndex (sql : Text)
  deriving DecidableEq

/-- The text that is executed. -/
def Call.sql : Call → Text
  | .delete sql => sql
  | .dropTable name => "DROP TABLE IF EXISTS ".toList ++ name
  | .createTable sql => sql
  | .createIndex sql => sql

/-- What the loops do next: a call, or a read that has no result. -/
inductive Action
  | call (c : Call)
  | broken

/-- The loop over the drops of deleted tables, from the last. -/
def deleteActions (deleteList : List Text) : List Action := deleteList.reverse.map (.call ∘ .delete)

/-- The loop over the tables that drops them, from the last. -/
def dropActions (tableList : List Text) : List Action :=
  tableList.reverse.map fun create =>
    match tableNameOfCreate create with
    | none => .broken
    | some name => .call (.dropTable name)

/-- The inner loop: the indices of the table `tableName`. -/
def indexActions (tableName : Text) (indexList : List Text) : List Action :=
  indexList.flatMap fun indexCreate =>
    match tableNameOfIndex indexCreate with
    | none => [.broken]
    | some indexTableName => if tableName = indexTableName then [.call (.createIndex indexCreate)] else []

/-- The loop over the tables that creates them, each with its indices. -/
def createActions (tableList indexList : List Text) : List Action :=
  tableList.flatMap fun create =>
    .call (.createTable create) :: match tableNameOfCreate create with
      | none => [.broken]
      | some tableName => indexActions tableName indexList

/-- How a run ends, with the calls made. -/
inductive Outcome
  | finished (log : List Call)
  | failed (rc : Int) (log : List Call)
  | broken (log : List Call)
  deriving DecidableEq

/-- SQLite: the code that the execution of a text returns, given the texts executed before. -/
abbrev Db := List Text → Text → Int

/-- The loops leave for the cleanup at the first call that does not return `SQLITE_OK`. -/
def perform (db : Db) : List Action → List Call → Outcome
  | [], log => .finished log
  | .broken :: _, log => .broken log
  | .call c :: actions, log =>
    let rc := db (log.map Call.sql) c.sql
    if rc = 0 then perform db actions (log ++ [c]) else .failed rc (log ++ [c])

/-- `cql_rebuild_recreate_group`. -/
def rebuildRecreateGroup (db : Db) (tables indices deletes : Text) : Outcome :=
  let tableList := statementList "CREATE ".toList tables
  let indexList := statementList "CREATE ".toList indices
  let deleteList := statementList "DROP ".toList deletes
  perform db (deleteActions deleteList ++ dropActions tableList ++ createActions tableList indexList) []

/-! ## The statements of a group -/

/-- Identifiers as `gen_name` writes them to SQLite: plain, or in brackets when they were quoted. -/
inductive Name
  | plain (s : Text) (h : s ≠ [] ∧ s.all (fun c => c.isAlphanum || c = '_') = true)
  | bracketed (s : Text) (h : s ≠ [] ∧ ']' ∉ s)

/-- The identifier itself. -/
def Name.bare : Name → Text
  | .plain s _ => s
  | .bracketed s _ => s

/-- `gen_name_ex`. -/
def Name.text : Name → Text
  | .plain s _ => s
  | .bracketed s _ => '[' :: s ++ [']']

/-- SQLite and the compiler compare identifiers without regard to case. -/
def sameName (a b : Name) : Prop := a.bare.map Char.toLower = b.bare.map Char.toLower

/-- A table of the group: the flags, the name, and the text of the columns and keys. -/
structure Table where
  isTemp : Bool
  ifNotExists : Bool
  name : Name
  columns : Text
  noRowid : Bool

/-- What `gen_create_table_stmt` writes up to the name. -/
def tableHead (isTemp ifNotExists : Bool) : Text :=
  "CREATE ".toList ++ (if isTemp then "TEMP ".toList else []) ++ "TABLE ".toList ++
    (if ifNotExists then "IF NOT EXISTS ".toList else [])

/-- `gen_create_table_stmt`, for SQLite. -/
def Table.create (t : Table) : Text :=
  tableHead t.isTemp t.ifNotExists ++ t.name.text ++ "(\n".toList ++ t.columns ++ "\n)".toList ++ (if t.noRowid then " WITHOUT ROWID".toList else [])

/-- An index on the table at the place `on` of the group, which its own create may spell in another way. -/
structure Index where
  isUnique : Bool
  ifNotExists : Bool
  name : Name
  on : Nat
  table : Name
  columns : Text
  filter : Option Text

/-- What `gen_create_index_stmt` writes up to the name. -/
def indexHead (isUnique ifNotExists : Bool) : Text :=
  "CREATE ".toList ++ (if isUnique then "UNIQUE ".toList else []) ++ "INDEX ".toList ++
    (if ifNotExists then "IF NOT EXISTS ".toList else [])

/-- `gen_create_index_stmt`, for SQLite. -/
def Index.create (x : Index) : Text :=
  indexHead x.isUnique x.ifNotExists ++ x.name.text ++ " ON ".toList ++ x.table.text ++ " (".toList ++ x.columns ++ ")".toList ++
    (match x.filter with
     | none => []
     | some e => '\n' :: e)

/-- A recreate group: tables, and indices on them. No two statements are the same, since no two names are. -/
structure Group where
  tables : List Table
  indices : List Index
  onTable : ∀ x ∈ indices, ∃ t, tables[x.on]? = some t ∧ sameName x.table t.name
  tablesNodup : (tables.map Table.create).Nodup
  indicesNodup : (indices.map Index.create).Nodup

/-- Each create of a table is followed by `"; "`. -/
def Group.tableTexts (g : Group) : List Text := g.tables.map fun t => t.create ++ "; ".toList

/-- Each create of an index is followed by a semicolon, and by a new line when another follows. -/
def indexTexts : List Index → List Text
  | [] => []
  | [x] => [x.create ++ ";".toList]
  | x :: y :: l => (x.create ++ ";\n".toList) :: indexTexts (y :: l)

def Group.indexTexts (g : Group) : List Text := Rebuild.indexTexts g.indices

end CgSql.Rebuild
