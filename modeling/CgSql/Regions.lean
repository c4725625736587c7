import Mathlib.Logic.Function.Basic
import CgSql.Lib.Walk

/-!
# Schema regions

The declarations of schema regions and of deployable regions, the regions that are visible from the current one, and the lookups of
tables and views that declarations make, as `sem.c` has them. A program is outside of migration scripts, and before
`@previous_schema` if it has that. Names are compared without case, so a name here stands for all its spellings.
-/

namespace CgSql.Regions

variable {N : Type} [DecidableEq N]

/-! ## Regions -/

/-- One item of the USING list of a region. -/
structure Link (N : Type) where
  target : N
  isPrivate : Bool
  deriving DecidableEq

/-- A region. -/
structure Region (N : Type) where
  name : N
  deployable : Bool
  links : List (Link N)
  deriving DecidableEq

/-- `find_region`. -/
def findRegion (regions : List (Region N)) (name : N) : Option (Region N) := regions.find? fun r => r.name = name

/-- The links that `sem_walk_regions` follows: private ones from the root, or if they are not honored. -/
def walkLinks (regions : List (Region N)) (honorPrivate : Bool) (root n : N) : List N :=
  (findRegion regions n).elim [] fun r =>
    (r.links.filter fun l => n = root || !honorPrivate || !l.isPrivate).map Link.target

/-- The set of names that `sem_walk_regions` adds to. -/
def imageMarks : Walk.Marks (List N) N where
  seen image n := n ∈ image
  add image n := n :: image
  seen_add := by simp [or_comm]

/-- `sem_walk_regions`. -/
def walkRegions (regions : List (Region N)) (honorPrivate : Bool) (root : N) (image : List N) : List N :=
  Walk.visit imageMarks (walkLinks regions honorPrivate root) (regions.length + 1) image root

/-- `sem_accumulate_public_region_image`, into a new set. -/
def publicRegionImage (regions : List (Region N)) (name : N) : List N := walkRegions regions true name []

/-- The owners of regions: the field `region` of what is known of a region. -/
def ownerMarks (owner : N) : Walk.Marks (N → Option N) N where
  seen owners n := (owners n).isSome
  add owners n := Function.update owners n (some owner)
  seen_add owners n m := by
    by_cases h : m = n
    · simp [h]
    · simp [h]

/-- All links of a region. -/
def allLinks (regions : List (Region N)) (n : N) : List N := (findRegion regions n).elim [] fun r => r.links.map Link.target

/-- `sem_mark_deployment_subgraph`. -/
def markDeploymentSubgraph (regions : List (Region N)) (owners : N → Option N) (current owner : N) : N → Option N :=
  Walk.visit (ownerMarks owner) (allLinks regions) (regions.length + 1) owners current

/-- `sem_validate_region_links`: no link goes to a region that is owned, unless that is a deployable one. -/
def validateRegionLinks (regions : List (Region N)) (owners : N → Option N) (r : Region N) : Bool :=
  r.links.all fun l => !((owners l.target).isSome && !(findRegion regions l.target).any Region.deployable)

/-! ## Objects -/

/-- A table or a view. -/
structure Object (N : Type) where
  name : N
  region : Option N
  deleted : Bool
  deriving DecidableEq

/-- A name where a table or a view is looked up, with the CTEs that are in scope. -/
structure From (N : Type) where
  ctes : List N
  name : N
  deriving DecidableEq

/-- Declarations with what they refer to: foreign keys, the FROM clauses of a view, the target of an index, and the target of a
trigger with the names in its WHEN expression and its statements. -/
inductive Decl (N : Type)
  | table (name : N) (deleted : Bool) (foreignKeys : List N)
  | view (name : N) (deleted : Bool) (froms : List (From N))
  | index (name : N) (deleted : Bool) (target : N)
  | trigger (name : N) (deleted : Bool) (target : N) (body : List (From N))
  deriving DecidableEq

/-- The symbol tables of declarations. -/
inductive Space
  | tables
  | indices
  | triggers
  deriving DecidableEq

def Decl.space : Decl N → Space
  | .table .. | .view .. => .tables
  | .index .. => .indices
  | .trigger .. => .triggers

def Decl.name : Decl N → N
  | .table name .. | .view name .. | .index name .. | .trigger name .. => name

def Decl.deleted : Decl N → Bool
  | .table _ deleted _ | .view _ deleted _ | .index _ deleted _ | .trigger _ deleted _ _ => deleted

/-- An accepted declaration: where it stands, and what its names stand for. -/
structure Declared (N : Type) where
  decl : Decl N
  region : Option N
  inProc : Bool
  targets : List (Object N)

/-- What semantic analysis knows. -/
structure State (N : Type) where
  /-- The regions, newest first. -/
  regions : List (Region N)
  owners : N → Option N
  /-- `current_region` and `current_region_image`. -/
  current : Option (N × List N)
  inProc : Bool
  /-- The tables and views. -/
  objects : List (Object N)
  /-- All declarations that were accepted, newest first. -/
  declared : List (Declared N)

/-- Before the first statement. -/
def State.init : State N :=
  { regions := [], owners := fun _ => none, current := none, inProc := false, objects := [], declared := [] }

/-! ## Lookups -/

/-- `sem_validate_object_ast_in_current_region`, with an error target. -/
def State.validateInCurrentRegion (s : State N) (o : Object N) : Bool :=
  s.current.elim true fun current => o.region.elim false fun region => region ∈ current.2

/-- `find_table_or_view_even_deleted`. -/
def State.findTableOrView (s : State N) (name : N) : Option (Object N) := s.objects.find? fun o => o.name = name

/-- `find_usable_table_or_view_even_deleted`. -/
def State.findUsable (s : State N) (name : N) : Option (Object N) := (s.findTableOrView name).filter s.validateInCurrentRegion

/-- `find_usable_and_not_deleted_table_or_view`. -/
def State.findUsableNotDeleted (s : State N) (name : N) : Option (Object N) := (s.findUsable name).filter fun o => !o.deleted

/-- The object of a declaration. -/
def State.object (s : State N) (d : Decl N) : Object N :=
  { name := d.name, region := s.current.map Prod.fst, deleted := d.deleted }

/-- `find_and_validate_referenced_table` for a table that is declared: a table may refer to itself, and a table that is deleted or
in a procedure to any table. -/
def State.findReferencedTable (s : State N) (d : Decl N) (name : N) : Option (Object N) :=
  if name = d.name then some (s.object d)
  else if d.deleted || s.inProc then s.findTableOrView name
  else s.findUsableNotDeleted name

/-- The target of an index or a trigger: with `@delete`, the table is an orphan if it is deleted. -/
def State.findTarget (s : State N) (d : Decl N) (name : N) : Option (Object N) :=
  if d.deleted then (s.findUsable name).filter fun o => !o.deleted else s.findUsableNotDeleted name

/-- `sem_find_table` for the names that are not those of CTEs. -/
def State.findTables (s : State N) (froms : List (From N)) : Option (List (Object N)) :=
  (froms.filter fun f => f.name ∉ f.ctes).mapM fun f => s.findUsableNotDeleted f.name

/-- What a declaration refers to, if all its names are found. -/
def State.targets (s : State N) (d : Decl N) : Option (List (Object N)) :=
  match d with
  | .table _ _ foreignKeys => foreignKeys.mapM (s.findReferencedTable d)
  | .view _ _ froms => s.findTables froms
  | .index _ _ target => return [← s.findTarget d target]
  | .trigger _ _ target body => return (← s.findTarget d target) :: (← s.findTables body)

/-! ## Statements -/

/-- The statements about regions, those that begin and end a procedure, and declarations. -/
inductive Stmt (N : Type)
  | declareSchemaRegion (name : N) (links : List (Link N))
  | declareDeployableRegion (name : N) (links : List (Link N))
  | beginSchemaRegion (name : N)
  | endSchemaRegion
  | beginProc
  | endProc
  | declare (d : Decl N)

/-- `sem_declare_schema_region_stmt`. -/
def State.declareRegion (s : State N) (r : Region N) : Option (State N) :=
  if s.inProc then none
  else if ¬(r.links.map Link.target).Nodup then none
  else if r.links.any fun l => (findRegion s.regions l.target).isNone then none
  else if (findRegion s.regions r.name).isSome then none
  else if validateRegionLinks (r :: s.regions) s.owners r then some { s with regions := r :: s.regions }
  else none

/-- `sem_declare_deployable_region_stmt`. -/
def State.declareDeployableRegion (s : State N) (r : Region N) : Option (State N) := do
  let s ← s.declareRegion r
  let owners := markDeploymentSubgraph s.regions s.owners r.name r.name
  -- a region without owner can reach into the regions that now have one
  if s.regions.all fun r => (owners r.name).isSome || validateRegionLinks s.regions owners r then
    return { s with owners := markDeploymentSubgraph s.regions owners r.name r.name }
  else none

/-- `sem_begin_schema_region_stmt`. -/
def State.beginRegion (s : State N) (name : N) : Option (State N) :=
  if s.inProc || s.current.isSome then none
  else do
    let r ← findRegion s.regions name
    return { s with current := some (r.name, publicRegionImage s.regions r.name) }

/-- `sem_end_schema_region_stmt`. -/
def State.endRegion (s : State N) : Option (State N) :=
  if s.inProc || s.current.isNone then none else some { s with current := none }

/-- A declaration: one with the name of another has to be the same, and adds nothing. -/
def State.declare (s : State N) (d : Decl N) : Option (State N) := do
  let targets ← s.targets d
  let s' := { s with
    declared := { decl := d, region := s.current.map Prod.fst, inProc := s.inProc, targets := targets } :: s.declared }
  match s.declared.find? fun e => e.decl.space = d.space ∧ e.decl.name = d.name with
  | some existing => if existing.decl = d then return s' else none
  | none => return if d.space = .tables then { s' with objects := s.object d :: s.objects } else s'

/-- One statement, if it is accepted. -/
def State.step (s : State N) : Stmt N → Option (State N)
  | .declareSchemaRegion name links => s.declareRegion { name := name, deployable := false, links := links }
  | .declareDeployableRegion name links => s.declareDeployableRegion { name := name, deployable := true, links := links }
  | .beginSchemaRegion name => s.beginRegion name
  | .endSchemaRegion => s.endRegion
  | .beginProc => if s.inProc then none else some { s with inProc := true }
  | .endProc => if s.inProc then some { s with inProc := false } else none
  | .declare d => s.declare d

/-- A program, if it is accepted. -/
def run (s : State N) (stmts : List (Stmt N)) : Option (State N) := stmts.foldlM State.step s

end CgSql.Regions
