import CgSql.LuaCursor
import CgSql.Pieces
import Mathlib.Data.Nat.Digits.Defs

/-!
# Partitions

`cql_make_str_key`, `cql_partition_cursor` and `cql_extract_partition` of `cqlrt.lua`, where the columns of a key are one string, and the
same functions of `cqlrt_common.c`, where keys are compared by their columns. The hash table of the latter is a map here: its entries in
the order in which they were added.
-/

namespace CgSql.Partition

open LuaCursor (Row)

/-! ## Keys -/

/-- The types of key columns. Lua has strings for both text and blobs, and one type for both sizes of integers. -/
inductive KeyType
  | bool
  | integer
  | longInteger
  | real
  | text
  | blob
  deriving DecidableEq

/-- The values of a column. A null is `nil`, which is not a value. -/
inductive Scalar (R : Type)
  | bool (b : Bool)
  | integer (n : Int)
  | real (x : R)
  | string (bytes : Bytes)
  deriving DecidableEq

structure Column where
  name : String
  type : KeyType
  notNull : Bool

/-- The column has strings of any bytes. -/
def Column.isString (c : Column) : Bool := c.type = .text ∨ c.type = .blob

/-- The columns of a key. -/
structure Shape where
  columns : List Column
  nodup : (columns.map Column.name).Nodup

/-- `key_fields`. -/
def Shape.fields (σ : Shape) : List String := σ.columns.map Column.name

variable {R : Type}

/-- A value of the type. -/
def KeyType.Has : KeyType → Scalar R → Prop
  | .bool, .bool _ => True
  | .integer, .integer n => -2 ^ 31 ≤ n ∧ n < 2 ^ 31
  | .longInteger, .integer n => -2 ^ 63 ≤ n ∧ n < 2 ^ 63
  | .real, .real _ => True
  | .text, .string _ => True
  | .blob, .string _ => True
  | _, _ => False

/-- What a column may hold: a null where it is nullable, or a value of its type. -/
def Column.Holds (c : Column) : Option (Scalar R) → Prop
  | none => c.notNull = false
  | some v => c.type.Has v

/-- A key cursor of a shape. One that has no row holds anything: the last row, the values of an empty cursor, or nothing. -/
structure Key (R : Type) (σ : Shape) where
  table : Row (Scalar R)
  holds : table.hasRow = true → ∀ c ∈ σ.columns, c.Holds (table.fields c.name)

/-- The columns of a key, in order. -/
def Key.values {σ : Shape} (k : Key R σ) : List (Option (Scalar R)) := σ.fields.map k.table.fields

/-! ## Key strings -/

/-- The decimal digits of a number. -/
def digits (n : Nat) : Bytes := if n = 0 then [48] else (Nat.digits 10 n).reverse.map fun d => Fin.ofNat 256 (48 + d)

def minus : Byte := 45

/-- `tostring` of an integer. -/
def decimal (n : Int) : Bytes := if n < 0 then minus :: digits n.natAbs else digits n.natAbs

/-- `:`. -/
def colon : Byte := 58

/-- `nil`. -/
def nilText : Bytes := [110, 105, 108]

/-- `tostring` of floating point numbers, by `%.14g`: digits and signs, or words. -/
structure FloatText (R : Type) where
  text : R → Bytes
  colon_notMem : ∀ x, colon ∉ text x
  ne_nilText : ∀ x, text x ≠ nilText

/-- `tostring`. -/
def tostring (F : FloatText R) : Option (Scalar R) → Bytes
  | none => nilText
  | some (.bool true) => [116, 114, 117, 101]
  | some (.bool false) => [102, 97, 108, 115, 101]
  | some (.integer n) => decimal n
  | some (.real x) => F.text x
  | some (.string bytes) => bytes

/-- `cql_make_str_key`. -/
def cqlMakeStrKey (F : FloatText R) (keyTable : Row (Scalar R)) (fields : List String) : Bytes :=
  fields.foldl (fun key k => key ++ colon :: tostring F (keyTable.fields k)) []

/-! ## Partitions of Lua -/

/-- A table: its fields that are not `nil`. The rows of a partition are values of `ρ`. -/
abbrev Table (ρ : Type) := Bytes → Option (List ρ)

/-- `__empty__`. -/
def emptyName : Bytes := [95, 95, 101, 109, 112, 116, 121, 95, 95]

/-- A call of `cql_partition_cursor`. -/
structure Call (R ρ : Type) (σ : Shape) where
  key : Key R σ
  /-- `_has_row_` of the cursor. -/
  hasRow : Bool
  row : ρ

variable {ρ : Type} {σ : Shape}

namespace Lua

/-- `cql_partition_cursor`. -/
def cqlPartitionCursor (F : FloatText R) (partition : Table ρ) (c : Call R ρ σ) : Bool × Table ρ :=
  if !c.hasRow then (false, partition)
  else
    let key := cqlMakeStrKey F c.key.table σ.fields
    match partition key with
    | some rows => (true, Function.update partition key (some (rows ++ [c.row])))
    | none => (true, Function.update partition key (some [c.row]))

/-- `cql_extract_partition`. -/
def cqlExtractPartition (F : FloatText R) (partition : Table ρ) (k : Key R σ) : List ρ × Table ρ :=
  match partition (cqlMakeStrKey F k.table σ.fields) with
  | some rows => (rows, partition)
  | none =>
    match partition emptyName with
    | some rows => (rows, partition)
    | none => ([], Function.update partition emptyName (some []))

/-- The partition after a sequence of calls of `cql_partition_cursor`. -/
def added (F : FloatText R) (calls : List (Call R ρ σ)) : Table ρ :=
  calls.foldl (fun partition c => (cqlPartitionCursor F partition c).2) fun _ => none

/-- What a sequence of calls of `cql_extract_partition` returns. -/
def extracted (F : FloatText R) : Table ρ → List (Key R σ) → List (List ρ)
  | _, [] => []
  | partition, k :: ks => (cqlExtractPartition F partition k).1 :: extracted F (cqlExtractPartition F partition k).2 ks

end Lua

/-! ## Partitions of C -/

/-- What an entry holds: a buffer, or the result set that was made of it, with the low bit set. -/
inductive Entry (ρ : Type)
  | buffer (rows : List ρ)
  | resultSet (rows : List ρ)

/-- `cql_partition`: the entries by the columns of their keys. -/
structure State (R ρ : Type) where
  ht : List (List (Option (Scalar R)) × Entry ρ)
  didExtract : Bool

namespace C

variable [DecidableEq R]

/-- `cql_hashtab_find`, by `cql_cursors_equal`. -/
def find (ht : List (List (Option (Scalar R)) × Entry ρ)) (key : List (Option (Scalar R))) : Option (Entry ρ) :=
  (ht.find? fun e => e.1 = key).map Prod.snd

/-- The assignment of the value of an entry that is there. -/
def assign (ht : List (List (Option (Scalar R)) × Entry ρ)) (key : List (Option (Scalar R))) (val : Entry ρ) :
    List (List (Option (Scalar R)) × Entry ρ) :=
  ht.map fun e => if e.1 = key then (key, val) else e

/-- `cql_partition_cursor`. `none` is a failed contract. -/
def cqlPartitionCursor (self : State R ρ) (c : Call R ρ σ) : Option (Bool × State R ρ) :=
  if self.didExtract then none
  else if !c.key.table.hasRow || !c.hasRow then some (false, self)
  else
    match find self.ht c.key.values with
    | some (.buffer rows) => some (true, { self with ht := assign self.ht c.key.values (.buffer (rows ++ [c.row])) })
    | some (.resultSet _) => none
    | none => some (true, { self with ht := self.ht ++ [(c.key.values, .buffer [c.row])] })

/-- `cql_extract_partition`: the rows of the result set. -/
def cqlExtractPartition (self : State R ρ) (k : Key R σ) : List ρ × State R ρ :=
  match find self.ht k.values with
  | some (.resultSet rows) => (rows, { self with didExtract := true })
  | some (.buffer rows) => (rows, { ht := assign self.ht k.values (.resultSet rows), didExtract := true })
  | none => ([], { self with didExtract := true })

/-- The partition after a sequence of calls of `cql_partition_cursor`. -/
def added (calls : List (Call R ρ σ)) : Option (State R ρ) :=
  calls.foldlM (fun self c => (cqlPartitionCursor self c).map Prod.snd) { ht := [], didExtract := false }

/-- What a sequence of calls of `cql_extract_partition` returns. -/
def extracted : State R ρ → List (Key R σ) → List (List ρ)
  | _, [] => []
  | self, k :: ks => (cqlExtractPartition self k).1 :: extracted (cqlExtractPartition self k).2 ks

end C

/-! ## What partitions are for -/

/-- The rows that were added with a key equal to `k`, where both cursors have a row. -/
def rowsOf [DecidableEq R] (calls : List (Call R ρ σ)) (k : Key R σ) : List ρ :=
  (calls.filter fun c => c.hasRow && c.key.table.hasRow && c.key.values = k.values).map Call.row

/-- The strings of two key rows of the shape are the same exactly when their columns are. -/
def SeparatesKeys (F : FloatText R) (σ : Shape) : Prop :=
  ∀ k k' : Key R σ, k.table.hasRow = true → k'.table.hasRow = true →
    (cqlMakeStrKey F k.table σ.fields = cqlMakeStrKey F k'.table σ.fields ↔ k.values = k'.values)

/-- After every sequence of calls, with keys that have no row among them or without, every extraction returns the rows that were added with
an equal key, as in C. -/
def SeparatesRows [DecidableEq R] (F : FloatText R) (σ : Shape) (ρ : Type) (rowless : Bool) : Prop :=
  ∀ calls : List (Call R ρ σ), (∀ c ∈ calls, rowless = true ∨ c.key.table.hasRow = true) →
    ∀ ks : List (Key R σ), (∀ k ∈ ks, k.table.hasRow = true) → Lua.extracted F (Lua.added F calls) ks = ks.map (rowsOf calls) ∧
        (C.added calls).map (fun self => C.extracted self ks) = some (Lua.extracted F (Lua.added F calls) ks)

/-- The shape whose key strings can be told apart: there is one column of strings at most, which is not nullable, and no column of floating
point numbers, unless `tostring` gives different texts to different ones. -/
structure Separable (F : FloatText R) (σ : Shape) : Prop where
  one : (σ.columns.filter Column.isString).length ≤ 1
  notNull : ∀ c ∈ σ.columns, c.isString = true → c.notNull = true
  real : ∀ c ∈ σ.columns, c.type = .real → Function.Injective F.text

end CgSql.Partition
