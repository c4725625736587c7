import CgSql.Lib.XorSum
import CgSql.Nullability

/-!
# Recreate groups

`cg_schema_manage_recreate_tables` walks the sorted `@recreate` annotations, gathers the texts of the tables of a group in buffers and
writes one update for the group when the next annotation is not of the same group. Tables outside the regions that are upgraded and
eponymous virtual tables are passed over.
-/

namespace CgSql.Recreate

open Nullability (sameName)
open XorSum (xorAll OddIn)

/-! ## Checksums -/

/-- One bit of the reflected polynomial. -/
def crcShift (crc : BitVec 64) : BitVec 64 := if crc.getLsbD 0 then (crc >>> 1) ^^^ 0xC96C5795D7870F42#64 else crc >>> 1

/-- The entries of `crc_table`. -/
def crcTable (tblIdx : BitVec 64) : BitVec 64 := crcShift^[8] tblIdx

example : crcTable 1 = 0xb32e4cbe03a75f6f#64 ∧ crcTable 255 = 0xe0ada17364673f59#64 := by decide

/-- `crc_update`, for one byte. -/
def crcUpdate (crc : BitVec 64) (d : UInt8) : BitVec 64 :=
  crcTable ((crc ^^^ d.toBitVec.setWidth 64) &&& 0xff#64) ^^^ (crc >>> 8)

/-- `crc_charbuf`: the checksum of a text and of the null character at its end. -/
def crcCharbuf (input : String) : BitVec 64 :=
  (input.toList.flatMap String.utf8EncodeChar ++ [0]).foldl crcUpdate 0xffffffffffffffff#64 ^^^ 0xffffffffffffffff#64

/-! ## Annotations -/

/-- `included_regions` and `excluded_regions`, each closed under the regions it uses, where the command line gives one. -/
structure Regions where
  included : Option (List String)
  excluded : Option (List String)

/-- `symtab_find`, on a table of names. -/
def symtabFind (syms : List String) (name : String) : Bool := syms.any (sameName name)

/-- `include_from_region`, for what is upgraded. -/
def includeFromRegion (regions : Regions) : Option String → Bool
  | none => regions.included.isNone
  | some region =>
    if regions.included.any fun syms => !symtabFind syms region then false
    else if regions.excluded.any fun syms => symtabFind syms region then false
    else true

/-- An index of a table: the text of its CREATE, and whether it is deleted. -/
structure Index where
  create : String
  deleted : Bool
  deriving DecidableEq

/-- A table marked `@recreate`: its group if any, its text, and whether it is deleted or unsubscribed. -/
structure Note where
  groupName : String
  tableName : String
  region : Option String
  isVirtual : Bool
  isEponymous : Bool
  deleted : Bool
  create : String
  indexList : List Index
  groupOrdinal : Int
  ordinal : Int
  deriving DecidableEq

namespace Note

/-- The table is upgraded: in scope and not eponymous. -/
def included (n : Note) (regions : Regions) : Bool := includeFromRegion regions n.region && !n.isEponymous

/-- `create_group_id`. -/
def createGroupId (n : Note) : String := if n.groupName ≠ "" then n.groupName ++ "_group" else n.tableName ++ "_table"

/-- The name that the facet, the result and the migration procedure go by. -/
def migrateKey (n : Note) : String := if n.groupName ≠ "" then n.groupName else n.tableName

/-- The facet of the group, or of the table where it is in none. -/
def facet (n : Note) : String := if n.groupName ≠ "" then n.groupName ++ "_group_crc" else n.tableName ++ "_table_crc"

/-- The CREATE of a table that is not deleted. -/
def makeTable (n : Note) : String := if n.deleted then "" else n.create ++ "; "

/-- The DROP of a deleted table. -/
def dropLines (n : Note) : List String := if n.deleted then ["DROP TABLE IF EXISTS " ++ n.tableName ++ ";"] else []

/-- The live indices of a live table. -/
def indexLines (n : Note) : List String :=
  if n.deleted then [] else (n.indexList.filter fun index => !index.deleted).map fun index => index.create ++ ";"

/-- The update waits for the next annotation, which is of the same group. -/
def held (n : Note) (next : Option Note) : Bool := next.any fun m => n.groupName ≠ "" && sameName n.groupName m.groupName

end Note

/-- `recreate_comparator`. -/
def recreateComparator (a₁ a₂ : Note) : Int :=
  if a₁.groupOrdinal ≠ a₂.groupOrdinal then if a₁.groupOrdinal < a₂.groupOrdinal then 1 else -1
  else if a₁.ordinal < a₂.ordinal then -1 else 1

/-! ## Updates -/

/-- What the upgrade is generated for: the regions, and the procedures of `@schema_ad_hoc_migration`, by group or table. -/
structure Env where
  regions : Regions
  migrators : List (String × String)

/-- `find_recreate_migrator`, as the text of the call. -/
def Env.migrateTable (env : Env) (key : String) : Option String :=
  (env.migrators.find? fun m => sameName key m.1).map fun m =>
    "\n    -- recreate migration procedure required\n" ++ "    CALL " ++ m.2 ++ "();\n\n"

/-- The buffers between two updates: `update_indices`, `delete_tables` and `pending_table_creates`, and `table_crc`. -/
structure Buffers where
  updateIndices : String := ""
  deleteTables : String := ""
  pendingTableCreates : String := ""
  tableCrc : BitVec 64 := 0#64
  deriving DecidableEq

/-- Another line in a buffer. -/
def addLine (buf line : String) : String := if buf ≠ "" then buf ++ "\n" ++ line else buf ++ line

/-- What a table adds to the buffers: its checksums are those of the whole buffers. -/
def Buffers.visit (b : Buffers) (n : Note) : Buffers :=
  let deleteTables := n.dropLines.foldl addLine b.deleteTables
  let updateIndices := n.indexLines.foldl addLine b.updateIndices
  { updateIndices
    deleteTables
    pendingTableCreates := b.pendingTableCreates ++ n.makeTable
    tableCrc := b.tableCrc ^^^ crcCharbuf n.makeTable ^^^ crcCharbuf deleteTables ^^^ crcCharbuf updateIndices }

/-- The update of a group: its facet and checksum, the texts for `cql_rebuild_recreate_group`, and the migration. -/
structure Update where
  groupId : String
  facet : String
  migrateKey : String
  tableCrc : BitVec 64
  updateTables : String
  updateIndices : String
  deleteTables : String
  migrateTable : Option String
  isVirtual : Bool
  deriving DecidableEq

/-- The update that is written at the last table of a group. -/
def Note.flush (env : Env) (n : Note) (b : Buffers) : Update :=
  let migrateTable := env.migrateTable n.migrateKey
  { groupId := n.createGroupId
    facet := n.facet
    migrateKey := n.migrateKey
    tableCrc := match migrateTable with
      | some text => b.tableCrc ^^^ crcCharbuf text
      | none => b.tableCrc
    updateTables := b.pendingTableCreates
    updateIndices := b.updateIndices
    deleteTables := b.deleteTables
    migrateTable
    isVirtual := n.isVirtual }

/-- `cg_schema_manage_recreate_tables`: the updates it writes, in order. -/
def manageRecreateTables (env : Env) : Buffers → List Note → List Update
  | _, [] => []
  | b, n :: rest =>
    if !n.included env.regions then manageRecreateTables env b rest
    else if n.held rest.head? then manageRecreateTables env (b.visit n) rest
    else n.flush env (b.visit n) :: manageRecreateTables env {} rest

/-! ## Batches -/

/-- The tables that go into one update. -/
structure Batch where
  waiting : List Note
  last : Note
  deriving DecidableEq

/-- The tables of a batch. -/
def Batch.members (t : Batch) : List Note := t.waiting ++ [t.last]

/-- The batches of the updates. -/
def batches (regions : Regions) : List Note → List Note → List Batch
  | _, [] => []
  | waiting, n :: rest =>
    if !n.included regions then batches regions waiting rest
    else if n.held rest.head? then batches regions (waiting ++ [n]) rest
    else ⟨waiting, n⟩ :: batches regions [] rest

/-- Lines, one under another. -/
def joinLines (lines : List String) : String := lines.foldl addLine ""

/-- The texts that enter the checksum of some tables, after the lines of others: for each table its CREATE, and what the buffers hold
by then. -/
def contributions (drops indices : List String) : List Note → List String
  | [] => []
  | n :: rest =>
    n.makeTable :: joinLines (drops ++ n.dropLines) :: joinLines (indices ++ n.indexLines) ::
      contributions (drops ++ n.dropLines) (indices ++ n.indexLines) rest

/-- The texts that enter the checksum of a batch. -/
def Batch.contributions (env : Env) (t : Batch) : List String :=
  Recreate.contributions [] [] t.members ++ (env.migrateTable t.last.migrateKey).toList

/-- The update of a batch, from its tables alone. -/
def Batch.update (env : Env) (t : Batch) : Update :=
  { groupId := t.last.createGroupId
    facet := t.last.facet
    migrateKey := t.last.migrateKey
    tableCrc := xorAll crcCharbuf (t.contributions env)
    updateTables := String.join (t.members.map Note.makeTable)
    updateIndices := joinLines (t.members.flatMap Note.indexLines)
    deleteTables := joinLines (t.members.flatMap Note.dropLines)
    migrateTable := env.migrateTable t.last.migrateKey
    isVirtual := t.last.isVirtual }

/-! ## Groups -/

/-- What tells groups apart: the name of the group in any case, or the name of a table that is in none. -/
inductive GroupKey
  | group (name : String)
  | table (name : String)
  deriving DecidableEq

/-- The group of a table. -/
def Note.key (n : Note) : GroupKey := if n.groupName ≠ "" then .group n.groupName.toLower else .table n.tableName.toLower

/-- Annotations as they are after the sort: every group has its own ordinal, and every table is annotated once. -/
structure Sorted (notes : List Note) : Prop where
  inOrder : notes.Pairwise fun a₁ a₂ => recreateComparator a₁ a₂ < 0
  numbered : ∀ a₁ ∈ notes, ∀ a₂ ∈ notes, a₁.groupOrdinal = a₂.groupOrdinal ↔ a₁.key = a₂.key
  distinct : notes.Pairwise fun a₁ a₂ => a₁.groupName = "" → a₁.key ≠ a₂.key

/-- The tables of a group, in order. -/
def membersOf (notes : List Note) (k : GroupKey) : List Note := notes.filter fun n => n.key = k

/-- The groups, in order. -/
def groupKeys (notes : List Note) : List GroupKey := (notes.map Note.key).dedup

/-- The one batch of some tables, if there are any. -/
def Batch.of (ns : List Note) : Option Batch := ns.getLast?.map fun last => ⟨ns.dropLast, last⟩

/-- What the updates are meant to be: one for each group with tables in scope, made of those tables. -/
def groupUpdates (env : Env) (notes : List Note) : List Update :=
  (groupKeys notes).filterMap fun k =>
    (Batch.of ((membersOf notes k).filter fun n => n.included env.regions)).map (Batch.update env)

/-- Every update is that of a group, under its facet and checksum, and none is missing. -/
def GroupingExact (env : Env) (notes : List Note) : Prop := manageRecreateTables env {} notes = groupUpdates env notes

instance (env : Env) (notes : List Note) : Decidable (GroupingExact env notes) := inferInstanceAs (Decidable (_ = _))

/-- Where a group has tables in scope, its last table is one of them. -/
def EndsInScope (regions : Regions) (notes : List Note) : Prop :=
  ∀ k, (∃ n ∈ membersOf notes k, n.included regions) → ∀ last, (membersOf notes k).getLast? = some last → last.included regions

/-! ## Changes -/

/-- The updates with the tables they are made of. -/
def updates (env : Env) (notes : List Note) : List (Update × Batch) :=
  (manageRecreateTables env {} notes).zip (batches env.regions [] notes)

/-- The text of an update. -/
def Update.text (u : Update) : String × String × String × Option String :=
  (u.updateTables, u.updateIndices, u.deleteTables, u.migrateTable)

/-- A change of the text under a facet changes the checksum that is stored for it. -/
def DetectsChange (u v : Update) : Prop := u.facet = v.facet → u.text ≠ v.text → u.tableCrc ≠ v.tableCrc

/-- Some text enters the one checksum an odd number of times and the other an even number of times. -/
def OddlyDiffer (texts₁ texts₂ : List String) : Prop := ∃ s, ¬(OddIn texts₁ s ↔ OddIn texts₂ s)

end CgSql.Recreate
