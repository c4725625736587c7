import CgSql.Serial

/-!
# Comparing and hashing rows

`cql_cursors_equal`, `cql_cursor_hash` and `cql_cursor_diff_index` of `cqlrt_common.c`, with the helpers of `cqlrt.c` for strings and
blobs. The first two go over the bytes of a row up to its references and over the references behind them, the third over its columns.

A failed contract is `none`. Columns of type object are left out, and the comparison of doubles is a parameter.
-/

namespace CgSql.RowCompare

open Serial (DataType)

abbrev Byte := Serial.Byte

/-! ## Objects -/

/-- The content of an object: the characters of a string in front of its NUL, or the bytes of a blob. -/
inductive Object
  | string (chars : List Byte)
  | blob (bytes : List Byte)
  deriving DecidableEq

/-- The objects by their addresses. -/
abbrev Heap := Nat → Object

/-- `hash * 33 + c`. -/
def hashStep (hash c : BitVec 64) : BitVec 64 := ((hash <<< 5) + hash) + c

/-- The djb2 hash of bytes, from a start. -/
def hashBytes (hash : BitVec 64) (bytes : List Byte) : BitVec 64 := bytes.foldl (fun h b => hashStep h (b.setWidth 64)) hash

/-- `cql_ref_hash`, with `cql_string_hash` and `cql_blob_hash`. -/
def refHash (heap : Heap) : Option Nat → BitVec 64
  | none => 0
  | some r =>
    match heap r with
    | .string chars => hashBytes 5381 chars
    | .blob bytes => hashBytes 5381 bytes

/-- `cql_string_equal`, where both are strings: `strcmp` compares the characters. -/
def stringEqual (heap : Heap) (s1 s2 : Option Nat) : Option Bool :=
  if s1 = s2 then some true
  else
    match s1, s2 with
    | some s1, some s2 =>
      match heap s1, heap s2 with
      | .string chars1, .string chars2 => some (chars1 = chars2)
      | _, _ => none
    | _, _ => some false

/-- `cql_blob_equal`, where both are blobs: the sizes and `memcmp`. -/
def blobEqual (heap : Heap) (b1 b2 : Option Nat) : Option Bool :=
  if b1 = b2 then some true
  else
    match b1, b2 with
    | some b1, some b2 =>
      match heap b1, heap b2 with
      | .blob bytes1, .blob bytes2 => some (bytes1.length = bytes2.length ∧ bytes1 = bytes2)
      | _, _ => none
    | _, _ => some false

/-- `cql_ref_equal`. -/
def refEqual (heap : Heap) (r1 r2 : Option Nat) : Option Bool :=
  if r1 = r2 then some true
  else
    match r1, r2 with
    | some r1, some r2 =>
      match heap r1, heap r2 with
      | .string _, .string _ => stringEqual heap (some r1) (some r2)
      | .blob _, .blob _ => blobEqual heap (some r1) (some r2)
      | _, _ => none
    | _, _ => some false

/-! ## Cursors -/

/-- A column with its entry of `cursor_col_offsets`. -/
structure Column where
  type : DataType
  notNull : Bool
  offset : Nat

def Column.isRef (c : Column) : Bool := c.type = .string ∨ c.type = .blob

/-- The size of a value, which is its alignment too. -/
def valueSize : DataType → Nat
  | .bool => 1
  | .int32 => 4
  | _ => 8

/-- Where the value is behind the flag of a `cql_nullable_…`. -/
def Column.valueOffset (c : Column) : Nat := if c.notNull then c.offset else c.offset + valueSize c.type

/-- A byte of the row is in the field of the column. -/
def Column.Covers (c : Column) (p : Nat) : Prop := c.offset ≤ p ∧ p < c.valueOffset + valueSize c.type

/-- The layout of a row. The references are behind the first `front` bytes, or there are none: then `front` is the size of the row.
What stands outside of the columns is the same in all rows: the standard fields and the padding. -/
structure Layout where
  columns : List Column
  front : Nat
  refsCount : Nat
  fixed : Nat → Byte
  /-- The scalars are in front of the references. -/
  scalars : ∀ c ∈ columns, c.isRef = false → c.valueOffset + valueSize c.type ≤ front
  /-- The columns that are references stand behind, in 8 bytes each. -/
  refs : ∀ c ∈ columns, c.isRef = true → ∃ k < refsCount, c.offset = front + 8 * k
  /-- Each reference is a column. -/
  covered : ∀ k < refsCount, ∃ c ∈ columns, c.isRef = true ∧ c.offset = front + 8 * k

/-- A layout without doubles. -/
structure PlainLayout extends Layout where
  plain : ∀ c ∈ columns, c.type ≠ .double

/-- `cursor_size`. -/
def Layout.size (l : Layout) : Nat := l.front + 8 * l.refsCount

/-- `cursor_refs_offset`: it is not set where there are no references. -/
def Layout.refsOffset (l : Layout) : Nat := if l.refsCount = 0 then 0 else l.front

/-- The bytes in front of the references are as the runtime keeps them: nulls have the value 0, and padding is 0. -/
structure Normalized (l : Layout) (data : List Byte) : Prop where
  length : data.length = l.front
  fixed : ∀ p < l.front, (∀ c ∈ l.columns, c.isRef = false → ¬c.Covers p) → data[p]? = some (l.fixed p)
  padding : ∀ c ∈ l.columns, c.isRef = false → ∀ p, c.offset < p → p < c.valueOffset → data[p]? = some 0
  nulls : ∀ c ∈ l.columns, c.isRef = false → c.notNull = false → data[c.offset]? ≠ some 0 →
    ∀ p, c.valueOffset ≤ p → p < c.valueOffset + valueSize c.type → data[p]? = some 0

/-- The object is of the type of the column. -/
def Object.IsA : Object → DataType → Prop
  | .string _, t => t = .string
  | .blob _, t => t = .blob

/-- A cursor of a layout: where it has a row, its bytes are normalized, and its references are null or of the type of their column. -/
structure Cursor (heap : Heap) (l : Layout) where
  hasRow : Bool
  data : List Byte
  refs : List (Option Nat)
  normalized : hasRow = true → Normalized l data
  refsLength : refs.length = l.refsCount
  typed : ∀ c ∈ l.columns, ∀ k r, c.isRef = true → c.offset = l.front + 8 * k → refs[k]? = some (some r) → (heap r).IsA c.type

variable {heap : Heap} {l₁ l₂ l : Layout}

/-! ## Equality -/

/-- The loop of `cql_buffers_equal` over the references. -/
def refsEqual (heap : Heap) : List (Option Nat) → List (Option Nat) → Option Bool
  | r1 :: refs1, r2 :: refs2 => do
    if ← refEqual heap r1 r2 then refsEqual heap refs1 refs2 else return false
  | _, _ => some true

/-- `cql_buffers_equal`. -/
def buffersEqual (heap : Heap) (data1 data2 : List Byte) (refs1 refs2 : List (Option Nat)) : Option Bool :=
  if data1 ≠ data2 then some false else refsEqual heap refs1 refs2

/-- `cql_cursors_equal`. -/
def cursorsEqual (c1 : Cursor heap l₁) (c2 : Cursor heap l₂) : Option Bool :=
  if l₁.size ≠ l₂.size ∨ l₁.refsCount ≠ l₂.refsCount ∨ l₁.refsOffset ≠ l₂.refsOffset ∨ c1.hasRow ≠ c2.hasRow then some false
  else if c1.hasRow = false then some true
  else buffersEqual heap c1.data c2.data c1.refs c2.refs

/-! ## Hashing -/

/-- `cql_cursor_hash`, with `cql_hash_buffer`. -/
def cursorHash (c : Cursor heap l) : BitVec 64 :=
  if c.hasRow = false then 0 else c.refs.foldl (fun h r => hashStep h (refHash heap r)) (hashBytes 5381 c.data)

/-! ## Differences -/

/-- The bytes of a value at an offset. Two integers are equal if their bytes are. -/
def Cursor.bytesAt (c : Cursor heap l) (offset size : Nat) : List Byte := (c.data.drop offset).take size

/-- The reference at an offset. -/
def Cursor.refAt (c : Cursor heap l) (offset : Nat) : Option Nat := (c.refs[(offset - l.front) / 8]?).join

/-- Equality of values; that of doubles is a parameter. -/
def valuesEqual (doubleEq : List Byte → List Byte → Bool) (t : DataType) (v1 v2 : List Byte) : Bool :=
  if t = .double then doubleEq v1 v2 else v1 = v2

/-- `cql_compare_one_cursor_column` for the columns at the same index. -/
def compareOneCursorColumn (doubleEq : List Byte → List Byte → Bool) (c1 : Cursor heap l₁) (c2 : Cursor heap l₂) (col1 col2 : Column) :
    Option Bool :=
  if col1.type ≠ col2.type ∨ col1.notNull ≠ col2.notNull then none
  else if col1.type = .string then stringEqual heap (c1.refAt col1.offset) (c2.refAt col2.offset)
  else if col1.type = .blob then blobEqual heap (c1.refAt col1.offset) (c2.refAt col2.offset)
  else
    let v1 := c1.bytesAt col1.valueOffset (valueSize col1.type)
    let v2 := c2.bytesAt col2.valueOffset (valueSize col2.type)
    if col1.notNull then some (valuesEqual doubleEq col1.type v1 v2)
    else if c1.bytesAt col1.offset 1 ≠ c2.bytesAt col2.offset 1 then some false
    else if c1.bytesAt col1.offset 1 ≠ [0] then some true
    else some (valuesEqual doubleEq col1.type v1 v2)

/-- The loop of `cql_cursor_diff_index`, from column `i` on. -/
def diffColumns (doubleEq : List Byte → List Byte → Bool) (c1 : Cursor heap l₁) (c2 : Cursor heap l₂) :
    Nat → List Column → List Column → Option Int
  | i, col1 :: cols1, col2 :: cols2 => do
    if ← compareOneCursorColumn doubleEq c1 c2 col1 col2 then diffColumns doubleEq c1 c2 (i + 1) cols1 cols2 else return i
  | _, _, _ => some (-1)

/-- `cql_cursor_diff_index`. -/
def cursorDiffIndex (doubleEq : List Byte → List Byte → Bool) (c1 : Cursor heap l₁) (c2 : Cursor heap l₂) : Option Int :=
  if c1.hasRow ≠ c2.hasRow then some (-2)
  else if c1.hasRow = false then some (-1)
  else if l₁.columns.length ≠ l₂.columns.length then none
  else diffColumns doubleEq c1 c2 0 l₁.columns l₂.columns

end CgSql.RowCompare
