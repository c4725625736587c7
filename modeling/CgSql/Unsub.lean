import CgSql.Regions

/-!
# Unsubscription

`@unsub` with the declarations of tables, views, indices and triggers, outside of regions, procedures and migration scripts. What refers to a table
or view is recorded when that is declared, and the record is asked when the table or view is unsubscribed. `cg_schema.c` decides on its own what to
create. A name here stands for all its spellings, and equal declarations are those with the same text.
-/

namespace CgSql.Unsub

open Regions (From Space)

/-! ## Declarations -/

/-- How a table is stored. -/
inductive Storage (N : Type)
  | ordinary
  | temp
  | eponymous
  | backed (backing : N)
  | blobStorage
  deriving DecidableEq

/-- A table: `deleted` is for a `delete_version`, and the foreign keys are those of columns and constraints. -/
structure Table (N : Type) where
  name : N
  storage : Storage N
  deleted : Bool
  foreignKeys : List N
  deriving DecidableEq

/-- A view, with the names in its FROM clauses; those of nested select expressions are in `nested`. -/
structure View (N : Type) where
  name : N
  temp : Bool
  deleted : Bool
  froms : List (From N)
  nested : List (From N)
  deriving DecidableEq

structure Index (N : Type) where
  name : N
  deleted : Bool
  target : N
  deriving DecidableEq

/-- A trigger with the names in its FROM clauses and the targets of its INSERT, UPDATE and DELETE statements. -/
structure Trigger (N : Type) where
  name : N
  temp : Bool
  deleted : Bool
  target : N
  froms : List (From N)
  dml : List N
  deriving DecidableEq

inductive Decl (N : Type)
  | table (t : Table N)
  | view (v : View N)
  | index (i : Index N)
  | trigger (r : Trigger N)
  deriving DecidableEq

namespace Decl

variable {N : Type}

def name : Decl N → N
  | .table t => t.name
  | .view v => v.name
  | .index i => i.name
  | .trigger r => r.name

def space : Decl N → Space
  | .table _ | .view _ => .tables
  | .index _ => .indices
  | .trigger _ => .triggers

def deleted : Decl N → Bool
  | .table t => t.deleted
  | .view v => v.deleted
  | .index i => i.deleted
  | .trigger r => r.deleted

/-- The `is_temp` flag. -/
def temp : Decl N → Bool
  | .table t => match t.storage with
    | .temp => true
    | _ => false
  | .view v => v.temp
  | .index _ => false
  | .trigger r => r.temp

/-- The backing table of a backed table. -/
def backing : Decl N → Option N
  | .table t => match t.storage with
    | .backed backing => some backing
    | _ => none
  | _ => none

def isBlobStorage : Decl N → Bool
  | .table t => match t.storage with
    | .blobStorage => true
    | _ => false
  | _ => false

/-- `is_table_not_physical`. -/
def isNotPhysical (d : Decl N) : Bool := d.backing.isSome || d.isBlobStorage

end Decl

/-! ## What is known -/

/-- A node that refers to others. An alias is a declaration that was made before. -/
structure Source (N : Type) where
  decl : Decl N
  isAlias : Bool

/-- The first declarations, the names of the tables and views whose `unsubscribed` is set, and `ref_sources_for_target_table` as pairs of a target
and a source. -/
structure State (N : Type) where
  declared : List (Decl N)
  unsubscribed : List N
  refSources : List (N × Source N)

def State.init : State N := { declared := [], unsubscribed := [], refSources := [] }

variable {N : Type} [DecidableEq N]

namespace State

variable (s : State N)

/-- The first declaration of a name. -/
def find (space : Space) (name : N) : Option (Decl N) := s.declared.find? fun d => d.space = space ∧ d.name = name

/-- `find_table_or_view_even_deleted`. -/
def findTableOrView (name : N) : Option (Decl N) := s.find .tables name

/-- `is_deleted`. -/
def isDeleted (src : Source N) : Bool :=
  src.decl.deleted || !src.isAlias && decide (src.decl.space = .tables) && decide (src.decl.name ∈ s.unsubscribed)

/-- `find_usable_and_not_deleted_table_or_view`. -/
def findNotDeleted (name : N) : Option (Decl N) := (s.findTableOrView name).filter fun d => !s.isDeleted ⟨d, false⟩

/-- `is_deleted` of a table or view that is looked up. -/
def tableDeleted (name : N) : Bool := (s.findTableOrView name).any fun d => s.isDeleted ⟨d, false⟩

/-- The backing table of the table with a name, if that is backed. -/
def backing (name : N) : Option N := (s.findTableOrView name).bind Decl.backing

/-- `name_hides_root_table`. -/
def nameHidesRootTable (name : N) : Bool := (s.findNotDeleted name).any fun d => d.backing.isNone

/-- The names of CTEs and `sem_find_table`. -/
def semFroms (froms : List (From N)) : Bool :=
  froms.all fun f => (f.ctes.all fun cte => !s.nameHidesRootTable cte) &&
    (decide (f.name ∈ f.ctes) || (s.findNotDeleted f.name).any fun d => !d.isBlobStorage)

/-- The targets of the statements in a trigger. A statement for a backed table is rewritten to one for its backing table and analyzed again. -/
def semDml (dml : List N) : Bool :=
  dml.all fun name => (s.findNotDeleted name).isSome && (s.backing name).all fun backing => (s.findNotDeleted backing).isSome

/-- `find_and_validate_referenced_table`. -/
def semForeignKeys (t : Table N) : Bool :=
  t.foreignKeys.all fun name =>
    decide (name = t.name) || if t.deleted then (s.findTableOrView name).isSome else (s.findNotDeleted name).isSome

/-! ## The record -/

/-- The names that `continue_find_table_node` meets where a select is rewritten. A backed table is a CTE there that calls a fragment, and that has
the backing table. -/
def walkRewritten (froms : List (From N)) : List N :=
  froms.flatMap fun f => f.name :: if f.name ∈ f.ctes then [] else (s.backing f.name).toList

/-- The names that it meets in a view. The select of the view itself is not rewritten, a nested one is (`sem_expr_select`). -/
def walkView (v : View N) : List N := v.froms.map From.name ++ s.walkRewritten v.nested

/-- The names that it meets in a trigger. -/
def walkTrigger (r : Trigger N) : List N :=
  s.walkRewritten r.froms ++ r.dml.flatMap fun name => name :: (s.backing name).toList

/-- The tables and views of these names, each once. Deleted ones are left out. -/
def found (names : List N) : List N := (names.filter fun name => (s.findTableOrView name).any fun d => !d.deleted).eraseDups

/-- `record_table_dependencies`. -/
def recordTableDependencies (src : Source N) (targets : List N) : State N :=
  { s with refSources := s.refSources ++ targets.map fun target => (target, src) }

/-! ## Statements -/

/-- A declaration of a name that is taken has to be the same as the first. -/
def declareAs (d : Decl N) (first again : State N) : Option (State N) :=
  match s.find d.space d.name with
  | some existing => if existing = d then some again else none
  | none => some { first with declared := d :: first.declared }

/-- `sem_create_table_stmt`. The foreign keys are recorded before the name is looked up. The fragment of a backed table selects from the backing
table, which has to be there. -/
def semCreateTable (t : Table N) : Option (State N) :=
  let backingFound := (Decl.table t).backing.all fun backing => (s.findNotDeleted backing).isSome
  if s.semForeignKeys t && ((s.findTableOrView t.name).isSome || backingFound) then
    s.declareAs (.table t) (s.recordTableDependencies ⟨.table t, false⟩ t.foreignKeys) (s.recordTableDependencies ⟨.table t, true⟩ t.foreignKeys)
  else none

/-- `sem_create_view_stmt` and `sem_record_view_dependencies`. -/
def semCreateView (v : View N) : Option (State N) :=
  if s.semFroms v.froms && s.semFroms v.nested then
    s.declareAs (.view v) (s.recordTableDependencies ⟨.view v, false⟩ (s.found (s.walkView v))) s
  else none

/-- `sem_create_index_stmt`. With `@delete`, the table is an orphan if it is deleted. -/
def semCreateIndex (i : Index N) : Option (State N) :=
  if (s.findNotDeleted i.target).isSome then s.declareAs (.index i) s s else none

/-- `sem_create_trigger_stmt` and `sem_record_trigger_dependencies`, which leave out the target of the trigger. -/
def semCreateTrigger (r : Trigger N) : Option (State N) :=
  if (s.findNotDeleted r.target).isSome && s.semFroms r.froms && s.semDml r.dml then
    s.declareAs (.trigger r) (s.recordTableDependencies ⟨.trigger r, false⟩ ((s.found (s.walkTrigger r)).filter fun name => name ≠ r.target)) s
  else none

/-- A declaration, if it is accepted. Temp objects may not be deleted; `others` is what else is checked, of columns, types, versions and groups. -/
def declare (others : State N → Decl N → Bool) (d : Decl N) : Option (State N) :=
  if d.temp && d.deleted || !others s d then none
  else match d with
    | .table t => s.semCreateTable t
    | .view v => s.semCreateView v
    | .index i => s.semCreateIndex i
    | .trigger r => s.semCreateTrigger r

/-- The sources that still use a table or view. One with the same name is taken for a table that refers to itself. -/
def usedBy (name : N) : List (Source N) :=
  ((s.refSources.filter fun ref => ref.1 = name).map Prod.snd).filter fun src => !s.isDeleted src && decide (src.decl.name ≠ name)

/-- `sem_schema_unsub_stmt`: the errors, or the state. -/
def semSchemaUnsubStmt (name : N) : Except (List (String × N)) (State N) :=
  match s.findTableOrView name with
  | none => .error [("CQL0466: the table/view named in an @unsub directive does not exist", name)]
  | some target =>
    if target.deleted then .error [("CQL0469: table/view is already deleted", name)]
    else if name ∈ s.unsubscribed then .error [("CQL0472: table/view is already unsubscribed", name)]
    else if target.isNotPhysical then .error [("CQL0449: unsubscribe does not make sense on non-physical tables", name)]
    else match s.usedBy name with
      | [] => .ok { s with unsubscribed := name :: s.unsubscribed }
      | users => .error (users.map fun src => ("CQL0473: @unsub is invalid because the table/view is still used by", src.decl.name))

end State

inductive Stmt (N : Type)
  | declare (d : Decl N)
  | unsub (name : N)

/-- One statement, if it is accepted. -/
def State.step (others : State N → Decl N → Bool) (s : State N) : Stmt N → Option (State N)
  | .declare d => s.declare others d
  | .unsub name => (s.semSchemaUnsubStmt name).toOption

/-- Statements, if all are accepted. -/
def run (others : State N → Decl N → Bool) (s : State N) (stmts : List (Stmt N)) : Option (State N) := stmts.foldlM (State.step others) s

/-! ## The schema upgrade -/

namespace State

variable (s : State N)

/-- What is there after a schema upgrade. Temp objects are installed without a look at what is deleted; of the others, tables and views are left
out, and indices and triggers with their table. -/
def creates : Decl N → Bool
  | .table t => match t.storage with
    | .ordinary => !s.isDeleted ⟨.table t, false⟩
    | .temp => true
    | _ => false
  | .view v => v.temp || !s.isDeleted ⟨.view v, false⟩
  | .index i => !s.tableDeleted i.target && !i.deleted
  | .trigger r => r.temp || !s.tableDeleted r.target && !r.deleted

/-- The tables and views that a select reads which is rewritten, with the backing tables. -/
def reads (froms : List (From N)) : List N := (froms.filter fun f => f.name ∉ f.ctes).flatMap fun f => f.name :: (s.backing f.name).toList

/-- The tables and views that an object refers to, without CTEs and with the backing tables of those that are rewritten. -/
def refers : Decl N → List N
  | .table t => t.foreignKeys
  | .view v => (v.froms.filter fun f => f.name ∉ f.ctes).map From.name ++ s.reads v.nested
  | .index i => [i.target]
  | .trigger r => r.target :: s.reads r.froms ++ r.dml.flatMap fun name => name :: (s.backing name).toList

/-- Nothing that is created refers to a table or view that is deleted or unsubscribed. -/
def NoneStranded : Prop := ∀ d ∈ s.declared, s.creates d = true → ∀ name ∈ s.refers d, (s.findNotDeleted name).isSome

end State

/-- A table or view itself, and its indices and triggers. -/
def Decl.BelongsTo (name : N) : Decl N → Prop
  | .table t => t.name = name
  | .view v => v.name = name
  | .index i => i.target = name
  | .trigger r => r.target = name

/-- An `@unsub` of a live physical object is accepted, unless something that is created, and does not belong to it, refers to it. -/
def State.Accepts (s : State N) (name : N) : Prop :=
  ∀ target, s.findNotDeleted name = some target → target.isNotPhysical = false →
    (∀ d ∈ s.declared, s.creates d = true → name ∈ s.refers d → d.BelongsTo name) → ∃ s', s.semSchemaUnsubStmt name = .ok s'

/-! ## Regular statements -/

/-- The backing tables of the backed tables in FROM clauses are there. -/
def State.BackingFound (s : State N) (froms : List (From N)) : Prop :=
  ∀ f ∈ froms, f.name ∉ f.ctes → ∀ backing, s.backing f.name = some backing → (s.findNotDeleted backing).isSome

/-- No trigger has the name of a table or view that its body uses, and neither a trigger nor a nested select of a view reads a backed table whose
backing table is gone; and no `@unsub` is for something that is temp or has a temp trigger. -/
def State.Regular (s : State N) : Stmt N → Prop
  | .declare (.trigger r) => (∀ name ∈ s.walkTrigger r, name ≠ r.target → r.name ≠ name) ∧ s.BackingFound r.froms
  | .declare (.view v) => s.BackingFound v.nested
  | .declare _ => True
  | .unsub name => ∀ d ∈ s.declared, d.BelongsTo name → d.temp = false

/-- A source is still there if it is not deleted: no trigger on something deleted or unsubscribed, no repeated declaration of a table that is
unsubscribed, and no table that is never created. -/
def State.Current (s : State N) (src : Source N) : Prop :=
  match src.decl with
  | .table t => (t.storage = .ordinary ∨ t.storage = .temp) ∧ (src.isAlias = true → t.name ∉ s.unsubscribed)
  | .trigger r => s.tableDeleted r.target = false
  | _ => True

/-- The states that regular statements lead to. -/
inductive Reached (others : State N → Decl N → Bool) : State N → Prop
  | init : Reached others .init
  | step {s s' : State N} (stmt : Stmt N) (hs : Reached others s) (hregular : s.Regular stmt) (hstep : s.step others stmt = some s') :
    Reached others s'

end CgSql.Unsub
