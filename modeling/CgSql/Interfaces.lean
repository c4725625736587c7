import Mathlib.Data.List.Basic

/-!
# Interfaces

`sem_validate_one_interface` and `validate_reqd_sptrs`: a procedure that implements an interface has its columns. Names stand for all their spellings.
The recursion through the names in kinds is bounded by fuel, so that no answer is a recursion that goes deeper; C has nothing that ends it.
-/

namespace CgSql.Interfaces

inductive CoreType
  | bool
  | integer
  | longInteger
  | real
  | text
  | blob
  | object
  deriving DecidableEq

/-- What follows the name in a kind. -/
inductive Suffix
  | none
  | set
  | cursor
  deriving DecidableEq

/-- A kind: what comes before any space, and what comes after. -/
structure Kind (N : Type) where
  name : N
  suffix : Suffix
  deriving DecidableEq

structure Column (N : Type) where
  name : N
  type : CoreType
  notNull : Bool
  sensitive : Bool
  kind : Option (Kind N)

/-- The columns of a result or of an interface, which have different names. -/
structure Shape (N : Type) where
  columns : List (Column N)
  nodup : (columns.map Column.name).Nodup

/-- `"procedure"` or `"interface"`. -/
inductive ItemType
  | procedure
  | interface
  deriving DecidableEq

/-- The errors that are reported, with what their texts name. -/
inductive Error (N : Type)
  /-- `CQL0482` -/
  | interfaceNotFound (name : N)
  /-- `CQL0484` -/
  | missingColumn (sourceType : ItemType) (source column interface : N)
  /-- `CQL0485` -/
  | columnType (interface column : N)
  /-- `CQL0486` -/
  | columnKind (interface column : N) (reqd : Kind N) (sourceType : ItemType) (source : N) (actual : Option (Kind N))

/-- What is declared. An interface is found even if its columns had errors, without a shape; a procedure with a result has a shape. -/
structure Decls (N : Type) where
  procs : N → Option (Shape N)
  interfaces : N → Option (Option (Shape N))

/-- The end of the validation: a read through a null pointer, or the errors that were reported. -/
inductive Outcome (N : Type)
  | crash
  | done (errors : List (Error N))

/-- What is found of a column before any recursion. -/
inductive Verdict (N : Type)
  | bad (error : Error N)
  | fine
  /-- The kinds differ, and what they name is compared. -/
  | nested (itemType : ItemType) (actualName : N) (actual : Option (Shape N)) (reqdName : N) (reqd : Option (Shape N)) (error : Error N)

variable {N : Type} [DecidableEq N]

/-- `symtab_find(names, ...)`. -/
def Shape.find (shape : Shape N) (name : N) : Option (Column N) := shape.columns.find? fun c => c.name = name

namespace Decls

variable (E : Decls N)

/-- `find_proc`, and `find_interface_type` where there is no procedure with a result. -/
def find (name : N) : Option (ItemType × Option (Shape N)) :=
  match E.procs name with
  | some shape => some (.procedure, some shape)
  | none => (E.interfaces name).map fun shape => (.interface, shape)

/-- The body of the loop of `validate_reqd_sptrs` up to its recursion. -/
def validateColumn (sourceType : ItemType) (source interface : N) (actual : Shape N) (reqd : Column N) : Verdict N :=
  match actual.find reqd.name with
  | none => .bad (.missingColumn sourceType source reqd.name interface)
  | some c =>
    if c.type ≠ reqd.type || c.notNull ≠ reqd.notNull || c.sensitive ≠ reqd.sensitive then .bad (.columnType interface reqd.name)
    else
      match reqd.kind, c.kind with
      | none, _ => .fine
      | some kindReqd, none => .bad (.columnKind interface reqd.name kindReqd sourceType source none)
      | some kindReqd, some kindActual =>
        if kindActual = kindReqd then .fine
        else
          match E.find kindActual.name with
          | none => .bad (.interfaceNotFound kindActual.name)
          | some (itemType, nestedActual) =>
            match E.find kindReqd.name with
            | none => .bad (.interfaceNotFound kindReqd.name)
            | some (_, nestedReqd) => .nested itemType kindActual.name nestedActual kindReqd.name nestedReqd
              (.columnKind interface reqd.name kindReqd sourceType source (some kindActual))

/-- The loop of `validate_reqd_sptrs`. The procedure is in error behind the recursion if that reported something: it was in no error before. -/
def validateColumns (recurse : N → N → ItemType → (reqd actual : Option (Shape N)) → Option (Outcome N)) (sourceType : ItemType)
    (source interface : N) (actual : Shape N) : List (Column N) → Option (Outcome N)
  | [] => some (.done [])
  | reqd :: columns =>
    match E.validateColumn sourceType source interface actual reqd with
    | .bad error => some (.done [error])
    | .fine => validateColumns recurse sourceType source interface actual columns
    | .nested itemType actualName nestedActual reqdName nestedReqd error =>
      match recurse actualName reqdName itemType nestedReqd nestedActual with
      | none => none
      | some .crash => some .crash
      | some (.done errors) =>
        if !errors.isEmpty then some (.done (errors ++ [error]))
        else validateColumns recurse sourceType source interface actual columns

/-- `validate_reqd_sptrs`. -/
def validateReqdSptrs : (fuel : Nat) → (source interface : N) → (sourceType : ItemType) → (reqd actual : Option (Shape N)) →
    Option (Outcome N)
  | 0, _, _, _, _, _ => none
  | fuel + 1, source, interface, sourceType, some reqd, some actual =>
    E.validateColumns (validateReqdSptrs fuel) sourceType source interface actual reqd.columns
  | _ + 1, _, _, _, _, _ => some .crash

/-- `sem_validate_one_interface` for a procedure with this result. Where an interface before this one has `failed`, `record_error` has replaced the
semantic data of the procedure, and there is no shape any more. -/
def validateOneInterface (failed : Bool) (fuel : Nat) (proc interface : N) (actual : Option (Shape N)) : Option (Outcome N) :=
  match E.interfaces interface with
  | none => some (.done [.interfaceNotFound interface])
  | some reqd => E.validateReqdSptrs fuel proc interface .procedure reqd (if failed then none else actual)

/-! ## Compatible shapes -/

/-- What a kind names has a shape. -/
def shapeOf (kind : Kind N) : Option (Shape N) := (E.find kind.name).bind Prod.snd

/-- A kind that is equal, or not required, or names a shape that is in the relation. -/
def KindConforms (S : Shape N → Shape N → Prop) (reqd actual : Option (Kind N)) : Prop :=
  ∀ kindReqd, reqd = some kindReqd → ∃ kindActual, actual = some kindActual ∧
    (kindActual = kindReqd ∨ ∃ r a, E.shapeOf kindReqd = some r ∧ E.shapeOf kindActual = some a ∧ S r a)

/-- There is a column for the required one: of its name, with its type, and with a kind that conforms. -/
def ColumnConforms (S : Shape N → Shape N → Prop) (actual : Shape N) (reqd : Column N) : Prop :=
  ∃ c ∈ actual.columns, c.name = reqd.name ∧ c.type = reqd.type ∧ c.notNull = reqd.notNull ∧ c.sensitive = reqd.sensitive ∧
    E.KindConforms S reqd.kind c.kind

/-- The greatest relation where every required column has one that conforms. -/
def Compatible (reqd actual : Shape N) : Prop :=
  ∃ S : Shape N → Shape N → Prop, (∀ r a, S r a → ∀ c ∈ r.columns, E.ColumnConforms S a c) ∧ S reqd actual

/-! ## Comparisons -/

/-- The column needs no comparison: it conforms with no kind that only names something compatible. -/
def Plain (actual : Shape N) (reqd : Column N) : Prop := E.ColumnConforms (fun _ _ => False) actual reqd

/-- The kinds of a column have the right types around them, differ, and name declarations, whose shapes are these. -/
def Names (actual : Shape N) (reqd : Column N) (nestedReqd nestedActual : Option (Shape N)) : Prop :=
  ∃ c ∈ actual.columns, c.name = reqd.name ∧ c.type = reqd.type ∧ c.notNull = reqd.notNull ∧ c.sensitive = reqd.sensitive ∧
    ∃ kindReqd kindActual, reqd.kind = some kindReqd ∧ c.kind = some kindActual ∧ kindActual ≠ kindReqd ∧
      (E.find kindReqd.name).map Prod.snd = some nestedReqd ∧ (E.find kindActual.name).map Prod.snd = some nestedActual

/-- Two shapes lead to the comparison of two others: these are named by a column, and the columns before it are compatible. -/
def Leads (reqd actual : Shape N) (nestedReqd nestedActual : Option (Shape N)) : Prop :=
  ∃ before c after, reqd.columns = before ++ c :: after ∧ E.Names actual c nestedReqd nestedActual ∧
    ∀ b ∈ before, E.ColumnConforms E.Compatible actual b

/-- No endless chain of comparisons starts here, and none that comes to a declaration without a shape. -/
inductive Ends : Shape N → Shape N → Prop
  | intro (reqd actual : Shape N) :
    (∀ nestedReqd nestedActual, E.Leads reqd actual nestedReqd nestedActual → nestedReqd.isSome ∧ nestedActual.isSome) →
    (∀ r a, E.Leads reqd actual (some r) (some a) → Ends r a) → Ends reqd actual

end Decls

end CgSql.Interfaces
