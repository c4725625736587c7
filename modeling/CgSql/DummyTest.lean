import Mathlib.Data.List.Basic

/-!
# The tables and views of a dummy test

`find_all_table_nodes`: the walk over a procedure that follows foreign keys, views and triggers, and the orders in which what it found is created and
dropped. Names stand for all their spellings. A fragment that is called stands where it is called, as the walk goes through it there.
-/

namespace CgSql.DummyTest

/-! ## The schema -/

/-- What the walk sees of a tree. -/
inductive Node (N : Type)
  | leaf
  | pair (left right : Node N)
  /-- A name in a FROM clause or bound to a parameter of a fragment, which may be that of a common table expression. -/
  | fromName (name : N)
  /-- The table of a DELETE, INSERT, UPDATE or DROP, of a foreign key or of a trigger. -/
  | target (name : N)
  /-- A common table expression, and what comes after it. The body of a LIKE form is a leaf, as it does not run. -/
  | withCte (name : N) (body rest : Node N)
  /-- The table of an ALTER TABLE or a CREATE INDEX, which is not looked up. -/
  | altered (name : N)
  /-- The call of a shared fragment, with its arguments and bindings. The arguments of a procedure that is inlined stand with the bindings. -/
  | fragment (proc args bindings : Node N)

/-- What a name of the schema is defined as: by its foreign keys, or by its select. -/
inductive Definition (N : Type)
  | table (fks : List N)
  | view (select : Node N)

/-- `create_table_stmt` and `create_view_stmt`. -/
structure Object (N : Type) where
  name : N
  definition : Definition N
  deleted : Bool
  /-- A backed table is declared and not created. -/
  backed : Bool

/-- `create_trigger_stmt`. -/
structure Trigger (N : Type) where
  name : N
  table : N
  body : Node N
  deleted : Bool

inductive Kind
  | table
  | view
  deriving DecidableEq

def Definition.kind {N : Type} : Definition N → Kind
  | .table _ => .table
  | .view _ => .view

/-- The tree that is walked. -/
def Definition.node {N : Type} : Definition N → Node N
  | .table fks => fks.foldr (fun fk rest => .pair (.target fk) rest) .leaf
  | .view select => select

variable {N : Type} [DecidableEq N]

/-- `find_table_or_view_even_deleted`. -/
def find (objects : List (Object N)) (name : N) : Option (Object N) := objects.find? fun o => o.name = name

/-- The tables, views and triggers that are declared. Triggers have different names, and only a table has keys that a foreign key can be to. -/
structure Schema (N : Type) [DecidableEq N] where
  objects : List (Object N)
  triggers : List (Trigger N)
  nodup : (triggers.map Trigger.name).Nodup
  fkTable : ∀ o ∈ objects, ∀ fks, o.definition = .table fks → ∀ fk ∈ fks, ∀ parent, find objects fk = some parent →
    parent.definition.kind = .table

/-! ## The walk -/

/-- `dummy_test_info`, and the names that the walk has visited. -/
structure Info (N : Type) where
  visited : List N
  foundTables : List N
  foundViews : List N
  foundTriggers : List N
  pendingTriggers : List (Trigger N)

/-- `add_item_to_list` for the list of tables or the list of views. -/
def Info.add (info : Info N) (name : N) : Kind → Info N
  | .table => { info with foundTables := name :: info.foundTables }
  | .view => { info with foundViews := name :: info.foundViews }

/-- The loop of `enqueue_all_triggers_node`. -/
def enqueue (info : Info N) : List (Trigger N) → Info N
  | [] => info
  | t :: ts =>
    if t.name ∈ info.foundTriggers then enqueue info ts
    else enqueue { info with foundTriggers := t.name :: info.foundTriggers, pendingTriggers := t :: info.pendingTriggers } ts

/-- `continue_find_table_node`, with what it does at a name. At a `shared_cte` it goes on with the procedure and the bindings, and returns. -/
def continueFindTableNode (found : N → Info N → Option (Info N)) : Node N → Info N → Option (Info N)
  | .leaf, info => some info
  | .pair left right, info => (continueFindTableNode found left info).bind (continueFindTableNode found right)
  | .fromName name, info => found name info
  | .target name, info => found name info
  | .withCte _ body rest, info => (continueFindTableNode found body info).bind (continueFindTableNode found rest)
  | .altered _, info => some info
  | .fragment proc _ bindings, info => (continueFindTableNode found proc info).bind (continueFindTableNode found bindings)

namespace Schema

variable (S : Schema N)

/-- `all_tables_with_triggers`. -/
def triggersOf (name : N) : List (Trigger N) := S.triggers.filter fun t => t.table = name && !t.deleted

/-- What `continue_find_table_node` does at a name, and `found_table_or_view`: the definition is walked, the triggers are kept for later, and the name
is added. A view is walked once more. The depth is bounded by fuel. -/
def found : (fuel : Nat) → N → Info N → Option (Info N)
  | 0, _, _ => none
  | fuel + 1, name, info =>
    match find S.objects name with
    | none => some info
    | some o =>
      if o.deleted then some info
      else if name ∈ info.visited then some info
      else
        match continueFindTableNode (found fuel) o.definition.node { info with visited := name :: info.visited } with
        | none => none
        | some info =>
          match o.definition.kind with
          | .table => some ((enqueue info (S.triggersOf name)).add name .table)
          | .view => continueFindTableNode (found fuel) o.definition.node ((enqueue info (S.triggersOf name)).add name .view)

/-- The loop over a list of pending triggers. -/
def processTriggers (fuel : Nat) : List (Trigger N) → Info N → Option (Info N)
  | [], info => some info
  | t :: ts, info => (continueFindTableNode (S.found fuel) (.pair (.target t.table) t.body) info).bind (processTriggers fuel ts)

/-- `process_pending_triggers`. -/
def processPendingTriggers (fuel : Nat) : (rounds : Nat) → Info N → Option (Info N)
  | 0, _ => none
  | rounds + 1, info =>
    match info.pendingTriggers with
    | [] => some info
    | pending => (S.processTriggers fuel pending { info with pendingTriggers := [] }).bind (processPendingTriggers fuel rounds)

/-- `find_table_refs`, from nothing. -/
def findTableRefs (proc : Node N) : Option (Info N) :=
  (continueFindTableNode (S.found (S.objects.length + 1)) proc ⟨[], [], [], [], []⟩).bind
    (S.processPendingTriggers (S.objects.length + 1) (S.triggers.length + 1))

/-- `find_all_table_nodes`: views first. -/
def findAllTableNodes (proc : Node N) : Option (List N) := (S.findTableRefs proc).map fun info => info.foundViews ++ info.foundTables

/-! ## What is emitted -/

/-- Whether a name is created and dropped. -/
def created (name : N) : Bool :=
  match find S.objects name with
  | some o => !o.backed
  | none => false

/-- The DROP statements of `test_..._drop_tables`. -/
def drops (found : List N) : List N := found.filter S.created

/-- The CREATE statements of `test_..._create_tables`, after `reverse_list`. -/
def creates (found : List N) : List N := found.reverse.filter S.created

end Schema

end CgSql.DummyTest
