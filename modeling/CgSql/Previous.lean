import CgSql.Nullability

/-!
# Validation against the previous schema

`sem.c` compares every table of the previous schema with the table of that name in the current schema, so that a database of the previous
schema can be upgraded. Errors are the texts that are reported, with their subjects.
-/

namespace CgSql.Previous

open Nullability (sameName CoreType)

/-! ## Errors -/

/-- An error that is reported. -/
structure SchemaError where
  message : String
  subject : Option String
  deriving DecidableEq

/-- An error where the condition does not hold. -/
def require (condition : Bool) (message : String) (subject : Option String) : Except SchemaError Unit :=
  if condition then .ok () else .error ⟨message, subject⟩

/-! ## Versions -/

/-- A migration procedure: a built-in one, or the name of one. -/
inductive MigrationProc
  | builtin (lhs rhs : String)
  | named (name : String)
  deriving DecidableEq

/-- An attribute of versions: a table's or a column's `@create` or `@delete`, or a table's `@recreate`. -/
inductive VersionAttr
  | create (vers : Int) (proc : Option MigrationProc)
  | delete (vers : Int) (proc : Option MigrationProc)
  | recreate (groupName : Option String) (deleted : Bool)
  deriving DecidableEq

/-- `version_attrs_info`: the versions, -1 where there is none. -/
structure VersionInfo where
  createVersion : Int := -1
  deleteVersion : Int := -1
  createProc : Option MigrationProc := none
  deleteProc : Option MigrationProc := none
  recreate : Bool := false
  recreateGroupName : Option String := none
  deriving DecidableEq

/-- What the annotation is on. -/
inductive AnnotationTarget
  | table
  | column
  deriving DecidableEq

/-- `sem_validate_builtin_migration_proc`. -/
def validateBuiltinMigrationProc (target : AnnotationTarget) (isCreate : Bool) (lhs rhs : String) : Except SchemaError Unit := do
  let name := lhs ++ ":" ++ rhs
  let isFromRecreate := sameName name "cql:from_recreate"
  let isModuleWarn := sameName name "cql:module_must_not_be_deleted_see_docs_for_CQL0392"
  require (isFromRecreate || isModuleWarn) "CQL0379: unknown built-in migration procedure" name
  require (!isFromRecreate || (isCreate && target = .table)) "CQL0378: built-in migration procedure not valid in this context" name
  require (!isModuleWarn || (!isCreate && target = .table)) "CQL0378: built-in migration procedure not valid in this context" name

/-- The procedure can be a migration procedure. -/
def validateMigrationProc (target : AnnotationTarget) (isCreate : Bool) : Option MigrationProc → Except SchemaError Unit
  | none => .ok ()
  | some (.builtin lhs rhs) => validateBuiltinMigrationProc target isCreate lhs rhs
  | some (.named name) =>
    require (!(name.toLower.endsWith "_crc")) "CQL0338: the name of a migration procedure may not end in '_crc'" name

/-- `sem_validate_version`: the number is positive and the first one. -/
def semValidateVersion (target : AnnotationTarget) (isCreate : Bool) (vers : Int) (proc : Option MigrationProc) (version : Int) :
    Except SchemaError Int := do
  require (1 ≤ vers) "CQL0025: version number in annotation must be positive" none
  require (version ≤ 0) "CQL0026: duplicate version annotation" none
  validateMigrationProc target isCreate proc
  .ok vers

/-- The attributes, in any order: nothing else goes with `@recreate`. -/
def collectVersionAttrs (target : AnnotationTarget) : List VersionAttr → VersionInfo → Except SchemaError VersionInfo
  | [], info => .ok info
  | .recreate groupName deleted :: _, info =>
    .ok { info with
      recreate := true
      recreateGroupName := groupName
      deleteVersion := if deleted then 1 else info.deleteVersion }
  | .create vers proc :: attrs, info => do
    let version ← semValidateVersion target true vers proc info.createVersion
    collectVersionAttrs target attrs { info with createVersion := version, createProc := proc }
  | .delete vers proc :: attrs, info => do
    let version ← semValidateVersion target false vers proc info.deleteVersion
    collectVersionAttrs target attrs { info with deleteVersion := version, deleteProc := proc }

/-- `sem_validate_version_attrs`. -/
def semValidateVersionAttrs (target : AnnotationTarget) (name : String) (attrs : List VersionAttr) : Except SchemaError VersionInfo := do
  let info ← collectVersionAttrs target attrs {}
  require (info.recreate || info.deleteVersion ≤ 0 || info.createVersion < info.deleteVersion)
    "CQL0107: delete version can't be <= create version" name
  .ok info

/-- `sem_validate_create_prev_cur`. -/
def semValidateCreatePrevCur (prev cur : Int) : Bool := prev = cur

/-- `sem_validate_delete_prev_cur`: no version can become any, and any other stays. -/
def semValidateDeletePrevCur (prev cur : Int) : Bool := prev < 0 || prev = cur

/-! ## Schemas -/

/-- A column, with the text that it has without versions and `@sensitive`. -/
structure Column where
  name : String
  core : CoreType
  notNull : Bool
  autoinc : Bool
  primaryKey : Bool
  uniqueKey : Bool
  hidden : Bool
  sensitive : Bool
  default : Option String
  versions : List VersionAttr
  text : String
  deriving DecidableEq

/-- The type that is compared: all but whether the column is sensitive, deleted, a foreign key or a part of the key. -/
def Column.checkedType (c : Column) : CoreType × Bool × Bool × Bool × Bool × Bool × Bool :=
  (c.core, c.notNull, c.autoinc, c.primaryKey, c.uniqueKey, c.hidden, c.default.isSome)

/-- An item of a table: a column, or the text of a constraint. -/
inductive TableItem
  | column (c : Column)
  | facet (text : String)
  deriving DecidableEq

/-- The flags of a table. -/
structure TableFlags where
  temp : Bool
  ifNotExists : Bool
  noRowid : Bool
  deriving DecidableEq

/-- A table. -/
structure Table where
  name : String
  flags : TableFlags
  isVirtual : Bool
  isBacked : Bool
  attrs : List VersionAttr
  items : List TableItem
  excludedRegion : Bool
  deriving DecidableEq

/-- The columns of a table. -/
def Table.cols (t : Table) : List Column := t.items.filterMap fun
  | .column c => some c
  | .facet _ => none

/-- The constraints of a table. -/
def Table.facets (t : Table) : List String := t.items.filterMap fun
  | .facet text => some text
  | .column _ => none

/-- The table is marked `@recreate`. -/
def Table.isRecreate (t : Table) : Bool := t.attrs.any fun
  | .recreate _ _ => true
  | _ => false

/-- What a name can stand for. -/
inductive SchemaObject
  | table (t : Table)
  | view (name : String)

/-- The name of an object. -/
def SchemaObject.name : SchemaObject → String
  | .table t => t.name
  | .view name => name

/-- A schema: its objects, and the versions of other annotations, with whether their regions are excluded. -/
structure Schema where
  objects : List SchemaObject
  otherVersions : List (Int × Bool)

/-- `find_table_or_view_even_deleted`. -/
def Schema.find (s : Schema) (name : String) : Option SchemaObject := s.objects.find? fun o => sameName name o.name

/-- The tables. -/
def Schema.tables (s : Schema) : List Table := s.objects.filterMap fun
  | .table t => some t
  | .view _ => none

/-- The number in an annotation. -/
def VersionAttr.version? : VersionAttr → Option Int
  | .create vers _ | .delete vers _ => some vers
  | .recreate _ _ => none

/-- The versions that a table's annotations and its columns' give. -/
def Table.versions (t : Table) : List (Int × Bool) :=
  ((t.attrs ++ t.cols.flatMap Column.versions).filterMap VersionAttr.version?).map fun vers => (vers, t.excludedRegion)

/-- `max_previous_schema_version`: the greatest version that is not of an excluded region. -/
def Schema.maxVersion (s : Schema) : Int :=
  (s.tables.flatMap Table.versions ++ s.otherVersions).foldl (fun m v => if v.1 > m && !v.2 then v.1 else m) (-1)

/-! ## Tables that were there -/

/-- `sem_validate_attrs_prev_cur`. -/
def semValidateAttrsPrevCur (prev cur : VersionInfo) (name : String) : Except SchemaError Unit := do
  require (!((prev.createVersion > 0 || prev.deleteVersion > 0) && cur.recreate && !prev.recreate))
    "CQL0114: current schema can't go back to @recreate semantics for" name
  if prev.recreate then
    require (cur.recreate || cur.deleteVersion ≥ 0 || (cur.createProc.any fun
      | .builtin lhs rhs => sameName (lhs ++ ":" ++ rhs) "cql:from_recreate"
      | .named _ => false)) "CQL0377: table transitioning from @recreate to @create must use @create(nn,cql:from_recreate)" name
  else
    require (semValidateCreatePrevCur prev.createVersion cur.createVersion)
      "CQL0115: current create version not equal to previous create version for" name
    require (prev.createProc = cur.createProc) "CQL0118: @create procedure changed in object" name
  require (semValidateDeletePrevCur prev.deleteVersion cur.deleteVersion)
    "CQL0116: current delete version not equal to previous delete version for" name
  require (prev.deleteVersion ≤ 0 || prev.deleteProc = cur.deleteProc) "CQL0117: @delete procedure changed in object" name

/-- `sem_validate_col_def_prev_cur`, and the comparison of the texts after it. -/
def semValidateColDefPrevCur (cur prev : Column) : Except SchemaError Unit := do
  require (cur.name = prev.name) "CQL0119: column name is different between previous and current schema" cur.name
  require (cur.checkedType = prev.checkedType) "CQL0120: column type is different between previous and current schema" cur.name
  let curInfo ← semValidateVersionAttrs .column cur.name cur.versions
  let prevInfo ← semValidateVersionAttrs .column prev.name prev.versions
  require (semValidateCreatePrevCur prevInfo.createVersion curInfo.createVersion)
    "CQL0121: column current create version not equal to previous create version" cur.name
  require (semValidateDeletePrevCur prevInfo.deleteVersion curInfo.deleteVersion)
    "CQL0122: column current delete version not equal to previous delete version" cur.name
  require (prevInfo.deleteVersion = -1 || prevInfo.deleteProc = curInfo.deleteProc) "CQL0123: column @delete procedure changed" cur.name
  require (prevInfo.createProc = curInfo.createProc) "CQL0124: column @create procedure changed" cur.name
  require (cur.default = prev.default) "CQL0125: column current default value not equal to previous default value" cur.name
  require (cur.text = prev.text) "CQL0128: table has a column that is different in the previous and current schema" cur.name

/-- The columns of the two tables side by side: what is left of the current ones. -/
def validateColumns : List Column → List Column → Except SchemaError (List Column)
  | cur, [] => .ok cur
  | [], prev :: _ => .error ⟨"CQL0129: a column was removed from the table rather than marked with @delete", prev.name⟩
  | cur :: curs, prev :: prevs => do
    semValidateColDefPrevCur cur prev
    validateColumns curs prevs

/-- The columns that are left are created ones. -/
def validateCreatedColumn (tableName : String) (c : Column) : Except SchemaError Unit := do
  let info ← semValidateVersionAttrs .column c.name c.versions
  require (info.createVersion ≥ 0) "CQL0130: table has columns added without marking them @create" tableName
  require (info.deleteVersion ≤ 0) "CQL0131: table has newly added columns that are marked both @create and @delete" tableName

/-- The constraints of the two tables side by side. -/
def validateFacets (tableName : String) : List String → List String → Except SchemaError Unit
  | [], [] => .ok ()
  | [], _ :: _ => .error ⟨"CQL0133: non-column facets have been removed from the table", tableName⟩
  | _ :: _, [] => .error ⟨"CQL0134: table has a new non-column facet in the current schema", tableName⟩
  | cur :: curs, prev :: prevs => do
    require (cur = prev) "CQL0132: table has a facet that is different in the previous and current schema" tableName
    validateFacets tableName curs prevs

/-- What is left to check when the greatest version is known: columns that are new, and tables that left `@recreate`. -/
structure Pending where
  createdColumns : List Column := []
  prevRecreateTables : List Table := []

/-- `sem_validate_previous_table`. -/
def semValidatePreviousTable (schema : Schema) (prev : Table) : Except SchemaError Pending :=
  match schema.find prev.name with
  | none =>
    if prev.flags.temp || prev.isBacked then .ok {}
    else .error ⟨"CQL0126: table was present but now it does not exist (use @delete instead)", prev.name⟩
  | some (.view _) => .error ⟨"CQL0127: object was a table but is now a view", prev.name⟩
  | some (.table cur) =>
    if prev.isBacked then .ok {}
    else do
      let prevInfo ← semValidateVersionAttrs .table prev.name prev.attrs
      let curInfo ← semValidateVersionAttrs .table cur.name cur.attrs
      semValidateAttrsPrevCur prevInfo curInfo cur.name
      require (!(prevInfo.recreate && !curInfo.recreate && curInfo.deleteVersion > 0 && !cur.isVirtual))
        "CQL0448: table was marked @delete but it needs to be marked @recreate @delete" cur.name
      if curInfo.recreate || prevInfo.recreate then
        .ok { prevRecreateTables := if !curInfo.recreate && curInfo.createVersion > 0 then [cur] else [] }
      else
        let created ← validateColumns cur.cols prev.cols
        created.forM (validateCreatedColumn cur.name)
        validateFacets cur.name cur.facets prev.facets
        require (cur.flags = prev.flags) "CQL0135: table create statement attributes different than previous version" cur.name
        .ok { createdColumns := created }

/-! ## Whole schemas -/

/-- `sem_validate_old_object_or_marked_create`, for a new table. -/
def validateTableNotInPrevious (prev : Schema) (t : Table) : Except SchemaError Unit := do
  let info ← semValidateVersionAttrs .table t.name t.attrs
  require (t.isBacked || (prev.find t.name).isSome || info.createVersion ≥ prev.maxVersion || info.recreate)
    "CQL0309: new table must be added with @create or later" t.name

/-- `sem_validate_old_object_or_marked_create`, for a new column. -/
def validateColumnNotInPrevious (prev : Schema) (c : Column) : Except SchemaError Unit := do
  let info ← semValidateVersionAttrs .column c.name c.versions
  require (info.createVersion ≥ prev.maxVersion) "CQL0310: new column must be added with @create or later" c.name

/-- `sem_validate_marked_create_or_delete`, for a table that left `@recreate`. -/
def validatePrevRecreateTable (prev : Schema) (t : Table) : Except SchemaError Unit := do
  let info ← semValidateVersionAttrs .table t.name t.attrs
  require (info.createVersion ≥ prev.maxVersion) "CQL0399: table must leave @recreate management with @create or later" t.name

/-- The tables and columns of the current schema against the previous one. -/
def validatePreviousSchema (cur prev : Schema) : Except SchemaError Unit := do
  let pending ← prev.tables.mapM (semValidatePreviousTable cur)
  cur.tables.forM (validateTableNotInPrevious prev)
  (pending.flatMap Pending.createdColumns).forM (validateColumnNotInPrevious prev)
  (pending.flatMap Pending.prevRecreateTables).forM (validatePrevRecreateTable prev)

end CgSql.Previous
