import Mathlib.Algebra.Order.Ring.Int
import Mathlib.Data.BitVec

/-!
# The hash table of the runtime

`cql_hashtab` of `cqlrt_common.c`: linear probing in a table that doubles when it is more than three quarters full. What keys and values
are is up to the functions that a table is made with; they run in a state of their own.
-/

namespace CgSql

namespace Hashing

/-- The functions a table is made with. `none` is undefined behaviour: something is used that is not alive. -/
structure Callbacks (κ ν σ : Type) where
  /-- `hash_key`, a `uint64_t`. -/
  hashKey : κ → σ → Option UInt64
  /-- `compare_keys`. -/
  compareKeys : κ → κ → σ → Option Bool
  /-- `retain_key`. -/
  retainKey : κ → σ → Option σ
  /-- `retain_val`. -/
  retainVal : ν → σ → Option σ
  /-- `release_key`. -/
  releaseKey : κ → σ → Option σ
  /-- `release_val`. -/
  releaseVal : ν → σ → Option σ

/-- `cql_no_op_retain_release`. -/
def noOp {α σ : Type} (_ : α) (s : σ) : Option σ := some s

/-- `cql_hashtab`, with its `uint32_t` fields. A slot without a key is `none`. -/
structure HashTab (κ ν : Type) where
  /-- `count`. -/
  count : Nat
  /-- `capacity`. -/
  capacity : Nat
  /-- `payload`. -/
  payload : List (Option (κ × ν))

namespace HashTab

variable {κ ν σ : Type}

/-- `HASHTAB_INIT_SIZE`. -/
def initSize : Nat := 4

/-- `cql_hashtab_set_payload`. -/
def setPayload (ht : HashTab κ ν) : HashTab κ ν := { ht with payload := List.replicate ht.capacity none }

/-- `cql_hashtab_new`. -/
def new : HashTab κ ν := setPayload { count := 0, capacity := initSize, payload := [] }

/-- The entries of a table. -/
def entries (ht : HashTab κ ν) : List (κ × ν) := ht.payload.filterMap id

variable (cb : Callbacks κ ν σ)

/-- The loop of `cql_hashtab_add` and `cql_hashtab_find`, from an offset on: the slot without a key, or with an equal one. A loop that
went all around the table never ends. -/
def seekFrom (ht : HashTab κ ν) (key : κ) (s : σ) : (fuel offset : Nat) → Option (Nat × Option (κ × ν))
  | 0, _ => none
  | fuel + 1, offset => do
    match ← ht.payload[offset]? with
    | none => return (offset, none)
    | some (k, v) =>
      if ← cb.compareKeys k key s then return (offset, some (k, v))
      else seekFrom ht key s fuel (if offset + 1 ≥ ht.capacity then 0 else offset + 1)

/-- The loop, from the offset of the hash on. The remainder of a division by zero is undefined. -/
def seek (ht : HashTab κ ν) (key : κ) (s : σ) : Option (Nat × Option (κ × ν)) := do
  let hash ← cb.hashKey key s
  if ht.capacity = 0 then none
  else seekFrom cb ht key s ht.capacity (hash.toUInt32.toNat % ht.capacity)

/-- `cql_hashtab_find`: the offset of the entry and the entry, or `NULL`. -/
def find (ht : HashTab κ ν) (key : κ) (s : σ) : Option (Option (Nat × κ × ν)) := do
  let (offset, entry) ← seek cb ht key s
  return entry.map (offset, ·)

/-- The loop of `cql_hashtab_rehash` over the old payload. -/
def reinsert (add : HashTab κ ν → κ → ν → σ → Option (Bool × HashTab κ ν × σ)) :
    List (Option (κ × ν)) → HashTab κ ν → σ → Option (HashTab κ ν × σ)
  | [], ht, s => some (ht, s)
  | none :: rest, ht, s => reinsert add rest ht s
  | some (key, val) :: rest, ht, s => do
    let (_, ht, s) ← add ht key val s
    let s ← cb.releaseKey key s
    let s ← cb.releaseVal val s
    reinsert add rest ht s

/-- `cql_hashtab_rehash`. -/
def rehash (add : HashTab κ ν → κ → ν → σ → Option (Bool × HashTab κ ν × σ)) (ht : HashTab κ ν) (s : σ) : Option (HashTab κ ν × σ) :=
  reinsert cb add ht.payload (setPayload { ht with count := 0, capacity := ht.capacity * 2 % 2 ^ 32 }) s

/-- The branch of `cql_hashtab_add` for a slot without a key. The table is rehashed when `count > capacity * HASHTAB_LOAD_FACTOR`. -/
def insertAt (add : HashTab κ ν → κ → ν → σ → Option (Bool × HashTab κ ν × σ)) (ht : HashTab κ ν) (offset : Nat) (key : κ) (val : ν)
    (s : σ) : Option (HashTab κ ν × σ) := do
  let s ← cb.retainKey key s
  let s ← cb.retainVal val s
  let ht := { ht with payload := ht.payload.set offset (some (key, val)), count := (ht.count + 1) % 2 ^ 32 }
  if 4 * ht.count > 3 * ht.capacity then rehash cb add ht s else return (ht, s)

/-- `cql_hashtab_add`, and whether the key was added. It and `cql_hashtab_rehash` call each other, to a depth. -/
def add : (depth : Nat) → HashTab κ ν → κ → ν → σ → Option (Bool × HashTab κ ν × σ)
  | 0, _, _, _, _ => none
  | depth + 1, ht, key, val, s => do
    match ← seek cb ht key s with
    | (offset, none) =>
      let (ht, s) ← insertAt cb (add depth) ht offset key val s
      return (true, ht, s)
    | (_, some _) => return (false, ht, s)

/-- The loop of `cql_hashtab_delete`. -/
def releaseAll : List (Option (κ × ν)) → σ → Option σ
  | [], s => some s
  | none :: rest, s => releaseAll rest s
  | some (key, val) :: rest, s => do
    let s ← cb.releaseKey key s
    let s ← cb.releaseVal val s
    releaseAll rest s

/-- `cql_hashtab_delete`. -/
def delete (ht : HashTab κ ν) (s : σ) : Option σ := releaseAll cb ht.payload s

end HashTab

end Hashing

end CgSql
