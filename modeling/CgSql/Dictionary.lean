import CgSql.HashTab

/-!
# Dictionaries

The dictionaries of `cqlrt_common.c`, hash tables with strings as keys. Strings, objects and blobs are values that are retained and
released; longs, and reals as their bits, are not.
-/

namespace CgSql

namespace Hashing

/-! ## References -/

/-- What a reference points to. A string that was freed does not come back. -/
abbrev Ref := Nat

/-- The references that a table has retained and not released, and those that the caller holds on to during a call. -/
structure Refs where
  /-- How often the table has retained a reference. -/
  held : Ref → Nat
  /-- The references of the caller. -/
  given : List Ref

namespace Refs

/-- A reference has not been freed. -/
def Alive (s : Refs) (r : Ref) : Prop := 0 < s.held r ∨ r ∈ s.given

instance (s : Refs) (r : Ref) : Decidable (s.Alive r) := inferInstanceAs (Decidable (_ ∨ _))

/-- `cql_retain`. -/
def retain (r : Ref) (s : Refs) : Option Refs :=
  if s.Alive r then some { s with held := Function.update s.held r (s.held r + 1) } else none

/-- `cql_release`, of what the table has retained. -/
def release (r : Ref) (s : Refs) : Option Refs :=
  if 0 < s.held r then some { s with held := Function.update s.held r (s.held r - 1) } else none

end Refs

/-- The references of a table, with what `cql_outstanding_refs` counts besides them. -/
structure Counted extends Refs where
  /-- How many references the table has retained and not released. -/
  own : Nat
  /-- How many references the rest of the process has. -/
  elsewhere : Nat

namespace Counted

/-- `cql_retain`. The count of all references is an `int32_t`, and that of one reference is not greater. -/
def retain (r : Ref) (s : Counted) : Option Counted :=
  if s.own + s.elsewhere + 1 < 2 ^ 31 then (s.toRefs.retain r).map fun refs => { s with toRefs := refs, own := s.own + 1 } else none

/-- `cql_release`, and its check that the count of all references is not negative. -/
def release (r : Ref) (s : Counted) : Option Counted :=
  if 0 < s.own + s.elsewhere then (s.toRefs.release r).map fun refs => { s with toRefs := refs, own := s.own - 1 } else none

end Counted

/-! ## Strings as keys -/

/-- The characters of a string, in front of its null. -/
abbrev Text := List UInt8

/-- The loop of `cql_string_hash`: djb2 in 64 bits. -/
def djb2 (text : Text) : UInt64 := text.foldl (fun hash c => ((hash <<< 5) + hash) + c.toUInt64) 5381

variable (text : Ref → Text)

/-- `cql_key_str_hash`. -/
def keyStrHash (key : Ref) (s : Refs) : Option UInt64 := if s.Alive key then some (djb2 (text key)) else none

/-- `cql_key_str_eq`: the same string, or `strcmp` finds no difference. -/
def keyStrEq (key₁ key₂ : Ref) (s : Refs) : Option Bool :=
  if s.Alive key₁ ∧ s.Alive key₂ then some (key₁ = key₂ || text key₁ = text key₂) else none

/-- The functions of a table from strings to values, some of which have a reference that is retained. -/
def dictionaryCallbacks {ν : Type} (refOf : ν → Option Ref) : Callbacks Ref ν Counted where
  hashKey key s := keyStrHash text key s.toRefs
  compareKeys key₁ key₂ s := keyStrEq text key₁ key₂ s.toRefs
  retainKey := Counted.retain
  retainVal val s := (refOf val).elim (noOp val s) fun r => s.retain r
  releaseKey := Counted.release
  releaseVal val s := (refOf val).elim (noOp val s) fun r => s.release r

/-! ## Dictionaries -/

section Generic

variable {ν : Type} (refOf : ν → Option Ref) (depth : Nat)

/-- `cql_string_dictionary_add`. The new value is retained first, in case it is the same as the old value. -/
def dictionaryAdd (ht : HashTab Ref ν) (key : Ref) (val : ν) (s : Counted) : Option (Bool × HashTab Ref ν × Counted) := do
  match ← ht.find (dictionaryCallbacks text refOf) key s with
  | some (offset, key', old) =>
    let s ← (dictionaryCallbacks text refOf).retainVal val s
    let s ← (dictionaryCallbacks text refOf).releaseVal old s
    return (false, { ht with payload := ht.payload.set offset (some (key', val)) }, s)
  | none => ht.add (dictionaryCallbacks text refOf) depth key val s

/-- `cql_string_dictionary_find`. There is nothing at a null key. -/
def dictionaryFind (ht : HashTab Ref ν) (key : Option Ref) (s : Counted) : Option (Option ν) :=
  match key with
  | none => some none
  | some key => do return (← ht.find (dictionaryCallbacks text refOf) key s).map fun (_, _, val) => val

end Generic

/-- `cql_string_dictionary_add`; `cql_object_dictionary_add` and `cql_blob_dictionary_add` call it. -/
def stringDictionaryAdd := dictionaryAdd text (some : Ref → Option Ref)

/-- `cql_string_dictionary_find`; `cql_object_dictionary_find` and `cql_blob_dictionary_find` call it. -/
def stringDictionaryFind := dictionaryFind text (some : Ref → Option Ref)

/-- `cql_long_dictionary_add`. Values are neither retained nor released. -/
def longDictionaryAdd := dictionaryAdd text (fun _ : Int64 => none)

/-- `cql_long_dictionary_find`. -/
def longDictionaryFind := dictionaryFind text (fun _ : Int64 => none)

/-- `cql_real_dictionary_add`, of the bits of a double. -/
def realDictionaryAdd := dictionaryAdd text (fun _ : UInt64 => none)

/-- `cql_real_dictionary_find`, the bits of a double. -/
def realDictionaryFind := dictionaryFind text (fun _ : UInt64 => none)

/-! ## Runs -/

/-- An operation of a dictionary, and the references that its caller holds on to; for an add, also how many references the rest of the
process has. -/
inductive DictOp (ν : Type)
  | add (given : List Ref) (elsewhere : Nat) (key : Ref) (val : ν)
  | find (given : List Ref) (key : Option Ref)

/-- What an operation returns. -/
inductive Answer (ν : Type)
  | added (new : Bool)
  | found (val : Option ν)
  deriving DecidableEq

section Runs

variable {ν : Type} (refOf : ν → Option Ref) (depth : Nat)

/-- How many references a table retains for an entry with a value: its key, and what the value has. -/
def retained (val : ν) : Nat := 1 + (refOf val).toList.length

/-- An operation. -/
def DictOp.step (ht : HashTab Ref ν) (s : Counted) : DictOp ν → Option (Answer ν × HashTab Ref ν × Counted)
  | .add given elsewhere key val => do
    let (new, ht, s) ← dictionaryAdd text refOf depth ht key val { s with given := given, elsewhere := elsewhere }
    return (.added new, ht, s)
  | .find given key => do
    let val ← dictionaryFind text refOf ht key { s with given := given }
    return (.found val, ht, { s with given := given })

/-- Operations one after another, and what they return. -/
def DictOp.run (ht : HashTab Ref ν) (s : Counted) : List (DictOp ν) → Option (List (Answer ν) × HashTab Ref ν × Counted)
  | [] => some ([], ht, s)
  | op :: ops => do
    let (answer, ht, s) ← op.step text refOf depth ht s
    let (answers, ht, s) ← DictOp.run ht s ops
    return (answer :: answers, ht, s)

/-- There is room for an operation. A value that takes the place of another is retained before the other is released. A new key needs
a table that has at most `3 * 2 ^ 29` keys then, and it and its value are retained; where the table doubles, each entry is retained once
more before it is released. -/
def DictOp.Room (ht : HashTab Ref ν) (s : Counted) : DictOp ν → Prop
  | .add _ elsewhere key val =>
    if ∃ e ∈ ht.entries, text e.1 = text key then (refOf val).isSome → s.own + elsewhere + 1 < 2 ^ 31
    else
      ht.count < 3 * 2 ^ 29 ∧ s.own + elsewhere + retained refOf val < 2 ^ 31 ∧ (4 * (ht.count + 1) > 3 * ht.capacity →
        ∀ e ∈ (key, val) :: ht.entries, s.own + elsewhere + retained refOf val + retained refOf e.2 < 2 ^ 31)
  | .find .. => True

instance (ht : HashTab Ref ν) (s : Counted) : ∀ op : DictOp ν, Decidable (op.Room text refOf ht s)
  | .add .. => by unfold DictOp.Room; infer_instance
  | .find .. => .isTrue trivial

/-- There is room for each operation of a run, in the state that it meets. -/
def DictOp.RoomRun (ht : HashTab Ref ν) (s : Counted) : List (DictOp ν) → Prop
  | [] => True
  | op :: ops => op.Room text refOf ht s ∧ ∀ r ∈ op.step text refOf depth ht s, DictOp.RoomRun r.2.1 r.2.2 ops

end Runs

/-! ## The finite map -/

section Maps

variable {ν : Type}

/-- A finite map from texts to keys and values. The key of an entry is the string it was first added with. -/
abbrev Model (ν : Type) := Text → Option (Ref × ν)

variable (refOf : ν → Option Ref)

/-- An operation of a dictionary changes the map at one text. -/
def DictOp.after (m : Model ν) : DictOp ν → Model ν
  | .add _ _ key val => Function.update m (text key) (some (((m (text key)).map Prod.fst).getD key, val))
  | .find _ _ => m

/-- What an operation of a finite map returns: whether the key was absent, and the value of the latest add with an equal key. -/
def DictOp.answer (m : Model ν) : DictOp ν → Answer ν
  | .add _ _ key _ => .added (m (text key)).isNone
  | .find _ key => .found ((key.bind fun key => m (text key)).map Prod.snd)

/-- What operations return, one after another. -/
def DictOp.answers (m : Model ν) : List (DictOp ν) → List (Answer ν)
  | [] => []
  | op :: ops => op.answer text m :: DictOp.answers (op.after text m) ops

/-- The map behind operations. -/
def DictOp.final (m : Model ν) (ops : List (DictOp ν)) : Model ν := ops.foldl (DictOp.after text) m

/-- A reference that the caller holds on to, or the dictionary. -/
def Model.Alive (m : Model ν) (given : List Ref) (r : Ref) : Prop :=
  r ∈ given ∨ ∃ t e, m t = some e ∧ (e.1 = r ∨ refOf e.2 = some r)

/-- An operation is called with references that have not been freed. -/
def DictOp.Legal (m : Model ν) : DictOp ν → Prop
  | .add given _ key val => m.Alive refOf given key ∧ ∀ r ∈ refOf val, m.Alive refOf given r
  | .find given key => ∀ r ∈ key, m.Alive refOf given r

/-- All operations of a run are called so. -/
def DictOp.LegalRun (m : Model ν) : List (DictOp ν) → Prop
  | [] => True
  | op :: ops => op.Legal refOf m ∧ DictOp.LegalRun (op.after text m) ops

/-- How often a reference is a key or a value of entries. -/
def occurrences (r : Ref) (es : List (Ref × ν)) : Nat := es.countP (·.1 = r) + es.countP (refOf ·.2 = some r)

/-- The references of a table that has retained nothing. -/
def Refs.none : Refs := { held := fun _ => 0, given := [] }

/-- They are none of those that are counted. -/
def Counted.none : Counted := { Refs.none with own := 0, elsewhere := 0 }

end Maps

end Hashing

end CgSql
