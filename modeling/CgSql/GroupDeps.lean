import CgSql.Lib.Cascade
import CgSql.SymbolTable

/-!
# Dependencies between recreate groups

`recreate_group_deps` of `sem.c`: a symbol table from the identifier of a group, or of a table in no group, to the identifiers that depend on
it. Foreign keys add the edges, and an edge that would close a cycle is refused.
-/

namespace CgSql.GroupDeps

open Hashing (HashTab)
open SymbolTable (Name Case strCaseCmp)

/-! ## Identifiers -/

/-- The bytes of a text. -/
def bytesOf (s : String) : List UInt8 := s.toList.map fun c => UInt8.ofNat c.toNat

/-- `dup_printf("%s_...", name)`. -/
def withSuffix (name : Name) (suffix : String) (h : 0 ∉ bytesOf suffix) : Name :=
  ⟨name.1 ++ bytesOf suffix, by simp [name.2, h]⟩

/-- `create_group_id`. The name of the group may be `NULL` or empty. -/
def createGroupId (groupName : Option Name) (tableName : Name) : Name :=
  match groupName with
  | some group =>
    if group.1 ≠ [] then withSuffix group "_group" (by decide) else withSuffix tableName "_table" (by decide)
  | none => withSuffix tableName "_table" (by decide)

/-- What is recreated together: the tables of a group, or one table. -/
def unitOf (groupName : Option Name) (tableName : Name) : Name ⊕ Name :=
  match groupName with
  | some group => if group.1 ≠ [] then .inl group else .inr tableName
  | none => .inr tableName

/-- Names are told apart without regard to case. -/
def SameUnit : Name ⊕ Name → Name ⊕ Name → Prop
  | .inl group, .inl group' => Case.insens.fold group = Case.insens.fold group'
  | .inr table, .inr table' => Case.insens.fold table = Case.insens.fold table'
  | _, _ => False

/-! ## The table of buffers -/

/-- A `bytebuf` of names, which are pointers of 8 bytes. -/
structure NameBuffer where
  names : List Name
  max : Nat

/-- `bytebuf_open`. -/
def NameBuffer.open : NameBuffer := { names := [], max := 0 }

/-- `bytebuf_append`: it is undefined when the size does not fit `uint32_t`. -/
def NameBuffer.append (b : NameBuffer) (name : Name) : Option NameBuffer :=
  if 8 ≤ b.max - 8 * b.names.length then some { b with names := b.names ++ [name] }
  else if b.max + 8 + 1024 < 2 ^ 32 then some { names := b.names ++ [name], max := b.max + 8 + 1024 }
  else none

/-- `recreate_group_deps`: the symbol table with the addresses of the buffers, and the buffers. -/
structure Deps where
  syms : HashTab Name Nat
  buffers : List NameBuffer

/-- `symtab_new`. -/
def Deps.new : Deps := { syms := HashTab.new, buffers := [] }

/-- `symtab_ensure_bytebuf`: the address of the buffer. An add rehashes at most once. -/
def symtabEnsureBytebuf (deps : Deps) (symNew : Name) : Option (Nat × Deps) := do
  match ← SymbolTable.symtabFind .insens deps.syms symNew with
  | some (_, address) => return (address, deps)
  | none =>
    let (_, syms) ← SymbolTable.symtabAdd .insens 2 deps.syms symNew deps.buffers.length
    return (deps.buffers.length, { syms := syms, buffers := deps.buffers ++ [.open] })

/-- `symtab_append_bytes`, of one name. -/
def symtabAppendBytes (deps : Deps) (symNew : Name) (name : Name) : Option Deps := do
  let (address, deps) ← symtabEnsureBytebuf deps symNew
  let buf ← deps.buffers[address]?
  let buf ← buf.append name
  return { deps with buffers := deps.buffers.set address buf }

/-! ## The graph -/

/-- The loop over the neighbors. -/
def walkNeighbors (walk : Deps → Name → Option (Bool × Deps)) : Deps → List Name → Option (Bool × Deps)
  | deps, [] => some (false, deps)
  | deps, neighbor :: neighbors => do
    let (found, deps) ← walk deps neighbor
    if found then return (true, deps) else walkNeighbors walk deps neighbors

/-- `walk_recreate_group_deps`, to a depth. -/
def walkRecreateGroupDeps (stop : Name) : (fuel : Nat) → Deps → (start : Name) → Option (Bool × Deps)
  | 0, _, _ => none
  | fuel + 1, deps, start =>
    if strCaseCmp start.1 stop.1 = 0 then some (true, deps)
    else do
      let (address, deps) ← symtabEnsureBytebuf deps start
      let buf ← deps.buffers[address]?
      walkNeighbors (walkRecreateGroupDeps stop fuel) deps buf.names

/-- `add_group_dependency_to_recreate_group`. -/
def addGroupDependencyToRecreateGroup (fuel : Nat) (deps : Deps) (groupName newDependentGroupName : Name) : Option (Bool × Deps) :=
  if strCaseCmp groupName.1 newDependentGroupName.1 = 0 then some (true, deps)
  else do
    let (found, deps) ← walkRecreateGroupDeps groupName fuel deps newDependentGroupName
    if found then return (false, deps)
    else return (true, ← symtabAppendBytes deps groupName newDependentGroupName)

/-- Calls, one after another. -/
def addAll (fuel : Nat) (deps : Deps) : List (Name × Name) → Option Deps
  | [] => some deps
  | (groupName, newDependentGroupName) :: calls => do
    let (_, deps) ← addGroupDependencyToRecreateGroup fuel deps groupName newDependentGroupName
    addAll fuel deps calls

/-- The stored graph: what depends directly on a group, in lower case. -/
def Deps.graph (deps : Deps) (node : List UInt8) : List (List UInt8) :=
  match deps.syms.entries.find? fun entry => Case.insens.fold entry.1 = node with
  | some (_, address) => ((deps.buffers[address]?).map fun buf => buf.names.map Case.insens.fold).getD []
  | none => []

end CgSql.GroupDeps
