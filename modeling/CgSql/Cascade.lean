import CgSql.Lib.Cascade
import CgSql.Recreate

/-!
# Upgrades of recreate groups

The procedures that `cg_schema_manage_recreate_tables` emits, as they run. A group whose checksum is not the one in its facet is dropped and
created again; what depends on it is dropped through the `_group_drop` procedures, and the facets of its direct dependents are set to -1.
-/

namespace CgSql.Recreate

open Cascade (Acyclic dropOrder Numbering)

/-! ## Dependencies between groups -/

/-- `recreate_group_deps`: the groups that depend on a group, as they spell their names. -/
abbrev GroupDeps := List (String × List String)

/-- `symtab_find`, for the name of a group in lower case. -/
def GroupDeps.find (deps : GroupDeps) (node : String) : List String :=
  ((deps.find? fun entry => entry.1.toLower = node).map fun entry => entry.2).getD []

/-- The direct dependents of a group, in lower case. -/
def GroupDeps.next (deps : GroupDeps) (node : String) : List String := (deps.find node).map String.toLower

/-- The group of a table as the symbol tables know it. -/
def Note.node (n : Note) : String := n.createGroupId.toLower

/-- The last loop of `topological_walk_recreate_group_deps`: a group that has no number yet gets the next one. -/
def numberNotes : Numbering String → List Note → List Note
  | _, [] => []
  | s, n :: rest =>
    match s.ordinal n.node with
    | some k => { n with groupOrdinal := k } :: numberNotes s rest
    | none => { n with groupOrdinal := s.count } :: numberNotes (s.assign n.node) rest

/-- `topological_walk_recreate_group_deps`, where `groups` are the entries of the symbol table in the order of its slots. -/
def topologicalWalk (deps : GroupDeps) (groups : List String) (notes : List Note) : List Note :=
  numberNotes (Numbering.visitAll deps.next groups.length groups .empty) notes

/-! ## Databases -/

/-- A database: the names of its tables in lower case, and its facets, which are -1 where none is stored. -/
structure Db where
  tables : List String
  facets : String → Int

namespace Db

/-- `DROP TABLE IF EXISTS`. -/
def drop (db : Db) (table : String) : Db := { db with tables := db.tables.filter fun t => t ≠ table.toLower }

/-- `CREATE TABLE`. -/
def create (db : Db) (table : String) : Db := { db with tables := table.toLower :: db.tables }

/-- `cql_set_facet_version`. -/
def setFacet (db : Db) (facet : String) (version : Int) : Db := { db with facets := Function.update db.facets facet version }

/-- Drops in the reverse of the order of creation. -/
def dropTables (db : Db) (ns : List Note) : Db := ns.foldr (fun n db => db.drop n.tableName) db

/-- Creates, in order. -/
def createTables (db : Db) (ns : List Note) : Db := ns.foldl (fun db n => db.create n.tableName) db

/-- The table is there. -/
def Has (db : Db) (n : Note) : Prop := n.tableName.toLower ∈ db.tables

instance (db : Db) (n : Note) : Decidable (db.Has n) := inferInstanceAs (Decidable (_ ∈ _))

end Db

/-- `cql_rebuild_recreate_group`, which never rebuilds: deleted tables are dropped, and the others dropped and created. -/
def rebuildRecreateGroup (db : Db) (t : Batch) : Db :=
  let live := t.members.filter fun n => !n.deleted
  ((db.dropTables (t.members.filter fun n => n.deleted)).dropTables live).createTables live

/-! ## Runs -/

/-- What an upgrade is generated from. The checksums are those of the schema with and without virtual tables, and of the texts of the two
procedures that recreate. -/
structure Plan where
  env : Env
  deps : GroupDeps
  notes : List Note
  schemaCrc : Int
  schemaCrcNoVirtual : Int
  allVirtualTablesCrc : Int
  allNonvirtualTablesCrc : Int

/-- What an upgrade does: the update of a group, if it is due, and the setting of a facet. -/
inductive Step
  | update (u : Update × Batch)
  | setFacet (facet : String) (version : Int)
  deriving DecidableEq

/-- The checksum of an update, as a `LONG`. -/
def Update.version (u : Update) : Int := u.tableCrc.toInt

namespace Plan

/-- `emit_recreate_group_drops`: the tables of a group. -/
def groupTables (p : Plan) (node : String) : List Note := p.notes.filter fun n => n.node = node

/-- The groups that a `_group_drop` procedure drops, in order. -/
def groupDrops (p : Plan) (node : String) : List String := dropOrder p.deps.next p.deps.length node

/-- The `_group_drop` procedure of a group. -/
def groupDrop (p : Plan) (db : Db) (node : String) : Db := (p.groupDrops node).foldl (fun db g => db.dropTables (p.groupTables g)) db

/-- The direct dependents of the group of an update. -/
def neighbors (p : Plan) (u : Update × Batch) : List String := p.deps.find u.1.groupId.toLower

/-- What `cg_schema_add_recreate_table` emits. -/
def updateGroup (p : Plan) (db : Db) (u : Update × Batch) : Db :=
  if db.facets u.1.facet = u.1.version then db
  else
    let db := rebuildRecreateGroup db u.2
    let db := (p.neighbors u).foldl (fun db g => p.groupDrop db g.toLower) db
    let db := (p.neighbors u).foldl (fun db g => db.setFacet (g ++ "_crc") (-1)) db
    db.setFacet u.1.facet u.1.version

/-- One step. -/
def exec (p : Plan) (db : Db) : Step → Db
  | .update u => p.updateGroup db u
  | .setFacet facet version => db.setFacet facet version

/-- Steps, one after the other. -/
def run (p : Plan) (db : Db) (steps : List Step) : Db := steps.foldl p.exec db

/-- The updates of the virtual tables, or of the others. -/
def updatesOf (p : Plan) (isVirtual : Bool) : List (Update × Batch) := (updates p.env p.notes).filter fun u => u.1.isVirtual = isVirtual

/-- The facet that guards a procedure, and its checksum. -/
def guardFacet (p : Plan) (isVirtual : Bool) : String × Int :=
  if isVirtual then ("all_virtual_tables_crc", p.allVirtualTablesCrc) else ("all_nonvirtual_tables_crc", p.allNonvirtualTablesCrc)

/-- `cql_recreate_virtual_tables` and `cql_recreate_non_virtual_tables`: what they do on a database. -/
def recreateTables (p : Plan) (isVirtual : Bool) (db : Db) : List Step :=
  if db.facets (p.guardFacet isVirtual).1 = (p.guardFacet isVirtual).2 then []
  else (p.updatesOf isVirtual).map .update ++ [.setFacet (p.guardFacet isVirtual).1 (p.guardFacet isVirtual).2]

/-- `perform_upgrade_steps`, up to the virtual tables. -/
def nonVirtualSteps (p : Plan) (db : Db) : List Step :=
  if db.facets "cql_schema_crc_no_virtual" = p.schemaCrcNoVirtual then []
  else p.recreateTables false db ++ [.setFacet "cql_schema_crc_no_virtual" p.schemaCrcNoVirtual]

/-- `perform_upgrade_steps`, for the virtual tables. -/
def virtualSteps (p : Plan) (includeVirtualTables : Bool) (db : Db) : List Step :=
  if includeVirtualTables then p.recreateTables true db ++ [.setFacet "cql_schema_crc" p.schemaCrc] else []

/-- The upgrade: the steps that are taken on a database. -/
def upgrade (p : Plan) (includeVirtualTables : Bool) (db : Db) : List Step :=
  if db.facets "cql_schema_crc" = p.schemaCrc then []
  else p.nonVirtualSteps db ++ p.virtualSteps includeVirtualTables (p.run db (p.nonVirtualSteps db))

/-- The database after the upgrade. -/
def upgraded (p : Plan) (includeVirtualTables : Bool) (db : Db) : Db := p.run db (p.upgrade includeVirtualTables db)

/-! ## Completeness -/

/-- The groups that a step drops through `_group_drop` procedures. -/
def dropped (p : Plan) (db : Db) : Step → List String
  | .update u => if db.facets u.1.facet = u.1.version then [] else (p.neighbors u).flatMap fun g => p.groupDrops g.toLower
  | .setFacet _ _ => []

/-- A group has its turn later on, and its facet is not its checksum by then. -/
def CreatedIn (p : Plan) (db : Db) (steps : List Step) (node : String) : Prop :=
  ∃ pre u post, steps = pre ++ .update u :: post ∧ u.1.groupId.toLower = node ∧ (p.run db pre).facets u.1.facet ≠ u.1.version

/-- All groups that are dropped are created again later on. -/
def Restores (p : Plan) : Db → List Step → Prop
  | _, [] => True
  | db, s :: rest => (∀ g ∈ p.dropped db s, p.CreatedIn (p.exec db s) rest g) ∧ p.Restores (p.exec db s) rest

/-- The live tables in scope. -/
def liveTables (p : Plan) : List Note := p.notes.filter fun n => n.included p.env.regions && !n.deleted

/-- What the facets say is there. -/
structure Complete (p : Plan) (db : Db) : Prop where
  group : ∀ u ∈ updates p.env p.notes, db.facets u.1.facet = u.1.version → ∀ n ∈ u.2.members, n.deleted = false → db.Has n
  procedure : ∀ isVirtual, db.facets (p.guardFacet isVirtual).1 = (p.guardFacet isVirtual).2 →
    ∀ n ∈ p.liveTables, n.isVirtual = isVirtual → db.Has n
  noVirtual : db.facets "cql_schema_crc_no_virtual" = p.schemaCrcNoVirtual → ∀ n ∈ p.liveTables, n.isVirtual = false → db.Has n
  schema : db.facets "cql_schema_crc" = p.schemaCrc → ∀ n ∈ p.liveTables, db.Has n

/-- What an upgrade is meant to do: the groups that it drops are created again, and at its end all live tables are there that it is
asked for. -/
def KeepsComplete (p : Plan) (includeVirtualTables : Bool) (db : Db) : Prop :=
  p.Restores db (p.upgrade includeVirtualTables db) ∧ (p.Complete db → p.Complete (p.upgraded includeVirtualTables db) ∧
      ∀ n ∈ p.liveTables, (n.isVirtual → includeVirtualTables) → (p.upgraded includeVirtualTables db).Has n)

/-- What is known of a plan: the dependencies are acyclic, `groups` has their groups, tables have names of their own, virtual tables are in no
group, and the annotations are numbered by the walk and sorted. -/
structure Generated (p : Plan) (groups : List String) (declared : List Note) : Prop where
  acyclic : Acyclic p.deps.next
  slots : ∀ entry ∈ p.deps, entry.1.toLower ∈ groups
  distinct : declared.Pairwise fun a₁ a₂ => a₁.tableName.toLower ≠ a₂.tableName.toLower
  ungrouped : ∀ n ∈ declared, n.isVirtual = true → n.groupName = ""
  perm : p.notes.Perm (topologicalWalk p.deps groups declared)
  inOrder : p.notes.Pairwise fun a₁ a₂ => recreateComparator a₁ a₂ < 0

/-- Whatever depends on a group with an update has an update in the same procedure, under the facet that is set to -1, and its checksum is
not -1; and no group ends with a table that is out of scope while others of it are not. -/
structure Safe (p : Plan) : Prop where
  endsInScope : EndsInScope p.env.regions p.notes
  updated : ∀ u ∈ updates p.env p.notes, ∀ g ∈ p.neighbors u,
    ∃ v ∈ updates p.env p.notes, v.1.facet = g ++ "_crc" ∧ v.1.isVirtual = u.1.isVirtual ∧ v.1.version ≠ -1

end Plan

end CgSql.Recreate
