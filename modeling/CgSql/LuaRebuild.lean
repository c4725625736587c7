import CgSql.RecreateRun

/-!
# Rebuilding a recreate group in Lua

`cql_rebuild_recreate_group` of `cqlrt.lua` with its splitting and its readers of names, which were written after those of
`cqlrt_common.c`. A text is the list of its characters, as there; what raises an error has no result.
-/

namespace CgSql.Rebuild.Lua

/-! ## Splitting -/

/-- The loop of `_cql_create_upgrader_input_statement_list`: `line` is what stands between `lineStartIt` and `i`. What the loop assigns to `i`
is lost: the next round starts from the counter of the loop. -/
def statements (parseWord : Text) (inQuote : Bool) (line : Text) : Text → List Text
  | [] => [line]
  | p :: rest =>
    if inQuote then
      if p = quote then
        -- the second test is of the same character, where C looks at the next one
        if p = quote then statements parseWord true (line ++ [p]) rest else statements parseWord false (line ++ [p]) rest
      else statements parseWord true (line ++ [p]) rest
    else if p = quote then statements parseWord true (line ++ [p]) rest
    else if parseWord <+: p :: rest ∧ line ≠ [] then line :: statements parseWord false [p] rest
    else statements parseWord false (line ++ [p]) rest

/-- `_cql_create_upgrader_input_statement_list`. -/
def statementList (parseWord : Text) (str : Text) : List Text :=
  if str = [] then [] else statements parseWord false [] (str.dropWhile (· = ' '))

/-! ## Names -/

/-- `_cql_create_table_name_from_table_creation_statement`. Where the walk back finds no start of the name it leaves the text. -/
def tableNameOfCreate (create : Text) : Option Text := do
  guard (¬ "CREATE VIRTUAL TABLE ".toList <+: create.dropWhile (· = ' '))
  let p ← beforeParen create
  let p := backSpaces p
  if p.getLast? = some ']' then
    guard ('[' ∈ p)
    return '[' :: afterLast '[' p
  else
    guard (' ' ∈ p)
    return afterLast ' ' p

/-- `_cql_create_table_name_from_index_creation_statement`: from behind the first `ON ` up to the first `(` of the whole statement. -/
def tableNameOfIndex (indexCreate : Text) : Option Text := do
  let lineStart ← afterWord "ON ".toList indexCreate
  let q ← beforeParen indexCreate
  return (backSpaces q).drop (indexCreate.length - lineStart.length)

/-! ## The run -/

/-- The loop that drops the tables, from the last. -/
def dropActions (tableList : List Text) : List Action :=
  tableList.reverse.map fun create =>
    match tableNameOfCreate create with
    | none => .broken
    | some name => .call (.dropTable name)

/-- The inner loop: the indices of the table `tableName`. -/
def indexActions (tableName : Text) (indexList : List Text) : List Action :=
  indexList.flatMap fun indexCreate =>
    match tableNameOfIndex indexCreate with
    | none => [.broken]
    | some indexTableName => if tableName = indexTableName then [.call (.createIndex indexCreate)] else []

/-- The loop over the tables that creates them, each with its indices. -/
def createActions (tableList indexList : List Text) : List Action :=
  tableList.flatMap fun create =>
    .call (.createTable create) :: match tableNameOfCreate create with
      | none => [.broken]
      | some tableName => indexActions tableName indexList

/-- `cql_rebuild_recreate_group`. -/
def rebuildRecreateGroup (db : Db) (tables indices deletes : Text) : Outcome :=
  let tableList := statementList "CREATE ".toList tables
  let indexList := statementList "CREATE ".toList indices
  let deleteList := statementList "DROP ".toList deletes
  perform db (deleteActions deleteList ++ dropActions tableList ++ createActions tableList indexList) []

end CgSql.Rebuild.Lua

namespace CgSql.Rebuild

/-! ## The same run -/

/-- The splitters of C and of Lua give the same statements. -/
def SameStatements (w str : Text) : Prop := Lua.statementList w str = statementList w str

/-- The two functions do the same: the lists of statements are equal, and where every execution succeeds and the function of C ends, that of
Lua executes the same texts in the same order. -/
def SameRun (tables indices deletes : Text) : Prop :=
  SameStatements "CREATE ".toList tables ∧ SameStatements "CREATE ".toList indices ∧ SameStatements "DROP ".toList deletes ∧
    ∀ (db : Db) (log : List Call), (∀ before sql, db before sql = 0) → rebuildRecreateGroup db tables indices deletes = .finished log →
      ∃ log', Lua.rebuildRecreateGroup db tables indices deletes = .finished log' ∧ log'.map Call.sql = log.map Call.sql

/-- Behind the first quote of a text the word stands in string literals only. -/
def QuotedLast (w str : Text) : Prop :=
  ∀ before after, str = before ++ quote :: after → quote ∉ before → ∀ p r, after = p ++ w ++ r → (quote :: p).count quote % 2 = 1

/-- The names in the statements can be read: those of the tables, and where there is a table those in the indices. -/
def Readable (tableList indexList : List Text) : Prop :=
  (∀ create ∈ tableList, tableNameOfCreate create ≠ none) ∧ (tableList ≠ [] → ∀ indexCreate ∈ indexList, tableNameOfIndex indexCreate ≠ none)

/-- No `(` stands in front of the first `ON `. -/
def PlainOn (indexCreate : Text) : Prop :=
  ∀ before after, indexCreate = before ++ "ON ".toList ++ after → afterWord "ON ".toList indexCreate = some after → '(' ∉ before

/-- No statement of an index on one of the tables has a `(` in front of its first `ON `. -/
def IndexNamesPlain (tableList indexList : List Text) : Prop :=
  ∀ create ∈ tableList, ∀ indexCreate ∈ indexList, tableNameOfCreate create = tableNameOfIndex indexCreate → PlainOn indexCreate

end CgSql.Rebuild
