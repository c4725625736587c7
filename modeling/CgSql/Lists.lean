import CgSql.Dictionary

/-!
# Lists

The lists of `cqlrt_common.c` over a growable buffer. Strings, objects and blobs are retained and released; longs, and reals as their
bits, are not. `none` is a failed contract or undefined behaviour.
-/

namespace CgSql.Lists

open Hashing (Ref Refs)

/-! ## The buffer -/

/-- A `cql_bytebuf` of elements of 8 bytes. -/
structure WordBuf (ν : Type) where
  elems : List ν
  max : Nat

variable {ν : Type}

/-- `cql_bytebuf_open`. -/
def WordBuf.open : WordBuf ν := { elems := [], max := 1024 }

/-- `max` when the buffer grows for 8 more bytes. -/
def grownMax (max : Nat) : Nat := if max > 1024 * 1024 then 8 + 200 * 1024 + max else 8 + 2 * max

/-- `cql_bytebuf_append` of an element. The elements move with the buffer when it grows; that is undefined when the new size does not
fit `cql_uint32`. -/
def WordBuf.append (b : WordBuf ν) (val : ν) : Option (WordBuf ν) :=
  if 8 ≤ b.max - 8 * b.elems.length then some { b with elems := b.elems ++ [val] }
  else if grownMax b.max < 2 ^ 32 then some { elems := b.elems ++ [val], max := grownMax b.max }
  else none

/-! ## Operations -/

/-- What the kinds of lists differ in: the reference that an element is, and the contract of `set_at` on the new value. -/
structure ListKind (ν : Type) where
  refOf : ν → Option Ref
  contract : ν → Bool

/-- `cql_string_list`, `cql_object_list` and `cql_blob_list`: `cql_contract(value)` is that the reference is not null, and it never is. -/
def stringList : ListKind Ref := { refOf := some, contract := fun _ => true }

/-- `cql_long_list`, with `cql_contract(value)` on a number. -/
def longList : ListKind Int64 := { refOf := fun _ => none, contract := fun value => value ≠ 0 }

/-- `cql_real_list`, with `cql_contract(value)` on a double: both zeros have no other bit than that of the sign. -/
def realList : ListKind UInt64 := { refOf := fun _ => none, contract := fun bits => bits <<< 1 ≠ 0 }

variable (k : ListKind ν)

/-- `cql_string_retain`, of elements that are references. -/
def retain (val : ν) (s : Refs) : Option Refs := (k.refOf val).elim (some s) fun r => s.retain r

/-- `cql_string_release`, of elements that are references. -/
def release (val : ν) (s : Refs) : Option Refs := (k.refOf val).elim (some s) fun r => s.release r

/-- `cql_string_list_add`, `cql_long_list_add` and `cql_real_list_add`. -/
def listAdd (list : WordBuf ν) (val : ν) (s : Refs) : Option (WordBuf ν × Refs) := do
  let s ← retain k val s
  let list ← list.append val
  return (list, s)

/-- `cql_string_list_count`, `cql_long_list_count` and `cql_real_list_count`: `used / 8`. -/
def listCount (list : WordBuf ν) : Nat := list.elems.length

/-- `cql_string_list_get_at`, `cql_long_list_get_at` and `cql_real_list_get_at`. -/
def listGetAt (list : WordBuf ν) (index : Nat) : Option ν := if index < listCount list then list.elems[index]? else none

/-- `cql_string_list_set_at`, `cql_long_list_set_at` and `cql_real_list_set_at`. The new reference is retained first
(`cql_set_string_ref`). -/
def listSetAt (list : WordBuf ν) (index : Nat) (value : ν) (s : Refs) : Option (WordBuf ν × Refs) :=
  if k.contract value ∧ index < listCount list then do
    let old ← list.elems[index]?
    let s ← retain k value s
    let s ← release k old s
    return ({ list with elems := list.elems.set index value }, s)
  else none

/-- `cql_string_list_finalize` and `cql_long_list_finalize`. -/
def listFinalize (list : WordBuf ν) (s : Refs) : Option Refs := list.elems.foldlM (fun s val => release k val s) s

/-! ## Runs -/

/-- An operation, and the references that its caller holds on to. -/
inductive ListOp (ν : Type)
  | add (given : List Ref) (val : ν)
  | setAt (given : List Ref) (index : Nat) (val : ν)
  | getAt (index : Nat)
  | count

/-- What an operation returns. -/
inductive Answer (ν : Type)
  | list
  | val (v : ν)
  | count (n : Nat)
  deriving DecidableEq

/-- An operation. -/
def ListOp.step (list : WordBuf ν) (s : Refs) : ListOp ν → Option (Answer ν × WordBuf ν × Refs)
  | .add given val => do
    let (list, s) ← listAdd k list val { s with given := given }
    return (.list, list, s)
  | .setAt given index val => do
    let (list, s) ← listSetAt k list index val { s with given := given }
    return (.list, list, s)
  | .getAt index => do return (.val (← listGetAt list index), list, s)
  | .count => return (.count (listCount list), list, s)

/-- Operations one after another, and what they return. -/
def ListOp.run (list : WordBuf ν) (s : Refs) : List (ListOp ν) → Option (List (Answer ν) × WordBuf ν × Refs)
  | [] => some ([], list, s)
  | op :: ops => do
    let (answer, list, s) ← op.step k list s
    let (answers, list, s) ← ListOp.run list s ops
    return (answer :: answers, list, s)

/-! ## Sequences -/

/-- An operation on a sequence. -/
def ListOp.after (xs : List ν) : ListOp ν → List ν
  | .add _ val => xs ++ [val]
  | .setAt _ index val => xs.set index val
  | .getAt _ => xs
  | .count => xs

/-- What an operation on a sequence returns; `none` is an index out of range. -/
def ListOp.answer (xs : List ν) : ListOp ν → Option (Answer ν)
  | .add _ _ => some .list
  | .setAt _ _ _ => some .list
  | .getAt index => xs[index]?.map .val
  | .count => some (.count xs.length)

/-- What operations on a sequence return, and the sequence behind them. -/
def ListOp.answers (xs : List ν) : List (ListOp ν) → Option (List (Answer ν) × List ν)
  | [] => some ([], xs)
  | op :: ops => do
    let answer ← op.answer xs
    let (answers, xs') ← ListOp.answers (op.after xs) ops
    return (answer :: answers, xs')

/-- A reference that the caller holds on to, or the list. -/
def Alive (xs : List ν) (given : List Ref) (r : Ref) : Prop := r ∈ given ∨ ∃ x ∈ xs, k.refOf x = some r

/-- An operation is called with an index in range and with references that have not been freed. -/
def ListOp.Legal (xs : List ν) : ListOp ν → Prop
  | .add given val => ∀ r ∈ k.refOf val, Alive k xs given r
  | .setAt given index val => index < xs.length ∧ ∀ r ∈ k.refOf val, Alive k xs given r
  | .getAt index => index < xs.length
  | .count => True

/-- All operations of a run are called so. -/
def ListOp.LegalRun (xs : List ν) : List (ListOp ν) → Prop
  | [] => True
  | op :: ops => op.Legal k xs ∧ ListOp.LegalRun (op.after xs) ops

/-- The contract of `set_at` on the value holds. -/
def ListOp.meetsContract : ListOp ν → Bool
  | .setAt _ _ val => k.contract val
  | _ => true

def ListOp.isAdd : ListOp ν → Bool
  | .add _ _ => true
  | _ => false

end CgSql.Lists
