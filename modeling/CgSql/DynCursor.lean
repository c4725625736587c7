import CgSql.Serial

/-!
# Dynamic cursors

`cql_cursor_from_bytes` of `cqlrt_common.c` on the storage of a cursor: the references that the cursor had are released, strings and
blobs are made while the columns are read, and on an error they are released again. `cql_cursor_from_blob` and
`cql_cursor_from_blob_stream` lead to it. Cursors with columns of objects are left out.

Where a reader of the source goes outside of an array (that has happened when there are 65536 type codes or more), it gets what
stands there: a parameter of the model.
-/

namespace CgSql.DynCursor

open Serial

abbrev Byte := Serial.Byte

/-! ## The storage -/

/-- Strings and blobs: those that the cursor had before, by their identity, and those that the call makes, in order. -/
inductive Ref
  | old (id : Nat)
  | made (k : Nat)
  deriving DecidableEq

/-- The field of a column: a scalar (`none` is null), or a reference. -/
inductive Field (α : Type)
  | scalar (v : Option Value)
  | ref (r : Option α)
  deriving DecidableEq

/-- The columns whose fields are references. -/
def isRef : DataType → Bool
  | .string => true
  | .blob => true
  | _ => false

def Field.isRef {α : Type} : Field α → Bool
  | .scalar _ => false
  | .ref _ => true

/-- The reference that a field holds. -/
def Field.held {α : Type} : Field α → Option α
  | .scalar _ => none
  | .ref r => r

def Field.map {α β : Type} (f : α → β) : Field α → Field β
  | .scalar v => .scalar v
  | .ref r => .ref (r.map f)

/-- A reference is set to `NULL`. -/
def Field.cleared {α : Type} : Field α → Field α
  | .scalar v => .scalar v
  | .ref _ => .ref none

/-- A cursor before the call: its references are null or owned, one for each field. -/
structure Cursor (sh : Shape) where
  hasRow : Bool
  fields : List (Field Nat)
  shaped : List.Forall₂ (fun c f => f.isRef = isRef c.type) sh.columns fields

/-- What is done with references. -/
inductive Event
  | create (r : Ref)
  | release (r : Ref)
  deriving DecidableEq

/-- The cursor during the call, with what was made and what was done with references. -/
structure Call where
  hasRow : Bool
  fields : List (Field Ref)
  made : List Value
  log : List Event

/-- The start of a call. -/
def Cursor.start {sh : Shape} (cursor : Cursor sh) : Call :=
  { hasRow := cursor.hasRow, fields := cursor.fields.map (Field.map .old), made := [], log := [] }

/-- `cql_clear_references_before_deserialization`, that is `cql_release_offsets`: a null is not released. -/
def Call.clearReferences (call : Call) : Call :=
  { call with
    log := call.log ++ (call.fields.filterMap Field.held).map .release
    fields := call.fields.map Field.cleared }

/-- The label `error`. -/
def Call.error (call : Call) : Call := { call with hasRow := false }.clearReferences

/-- The result of a column is stored: `cql_string_ref_new` and `cql_blob_ref_new` make an object with one reference. -/
def Call.store (call : Call) (i : Nat) (c : Column) (v : Option Value) : Call :=
  if isRef c.type then
    match v with
    | some v =>
      { call with
        made := call.made ++ [v]
        log := call.log ++ [.create (.made call.made.length)]
        fields := call.fields.set i (.ref (some (.made call.made.length))) }
    | none => { call with fields := call.fields.set i (.ref none) }
  else { call with fields := call.fields.set i (.scalar v) }

/-! ## Reading -/

/-- What stands outside of the arrays: a type code (`none` is no type), and a bit. -/
structure Beyond where
  type : Nat → Option Column
  byte : Nat → Byte
  bit : Nat → Bool

/-- `types[i]`. -/
def Beyond.typeAt (beyond : Beyond) (needed : List Column) (i : Nat) : Option Column :=
  match needed[i]? with
  | some c => some c
  | none => beyond.type i

/-- `cql_getbit`. -/
def Beyond.getBit (beyond : Beyond) (bits : List Byte) (i : Nat) : Bool := (getBit? bits i).getD (beyond.bit i)

/-- The first loop; `none` is `goto error`. -/
def readCodes (beyond : Beyond) (needed : List Column) (n : Counts) : List Byte → Option (Counts × List Byte)
  | [] => none
  | code :: input =>
    if code = 0 then some (n, input)
    else
      let n := n.add code
      if n.actual ≤ needed.length then do
        let c ← beyond.typeAt needed n.next
        if c.accepts code then readCodes beyond needed { n with next := (n.next + 1) % 2 ^ 16 } input else none
      else readCodes beyond needed n input

/-- A value of a type that is present. -/
def readValue (beyond : Beyond) (bits : List Byte) (nullables : Nat) (r : Reader) : DataType → Option (Value × Reader)
  | .int32 => do
    let x ← readVarint32 r.input
    return (.int32 x.1, { r with input := x.2 })
  | .int64 => do
    let x ← readVarint64 r.input
    return (.int64 x.1, { r with input := x.2 })
  | .double => do
    let x ← readDouble r.input
    return (.double x.1, { r with input := x.2 })
  | .bool =>
    -- the index is a `uint16_t`
    some (.bool (beyond.getBit bits ((nullables + r.boolIndex) % 2 ^ 16)), { r with boolIndex := r.boolIndex + 1 })
  | .string => do
    let x ← inlineStr r.input
    return (.string x.1, { r with input := x.2 })
  | .blob => do
    let size ← readVarint32 r.input
    let x ← inlineBytes size.2 size.1.toNat
    return (.blob x.1, { r with input := x.2 })

/-- Whether column `i` is to be read. -/
def fetchData (beyond : Beyond) (bytes bits : List Byte) (actual i : Nat) (r : Reader) : Bool × Reader :=
  if i ≥ actual then (false, r)
  else if isUpper (bytes.getD i (beyond.byte i)) then (true, r)
  else (beyond.getBit bits r.nullableIndex, { r with nullableIndex := r.nullableIndex + 1 })

/-- What is read for a column. -/
def readColumn (beyond : Beyond) (bytes bits : List Byte) (n : Counts) (i : Nat) (c : Column) (r : Reader) : Option (Option Value × Reader) :=
  let x := fetchData beyond bytes bits n.actual i r
  if x.1 then do
    let v ← readValue beyond bits n.nullables x.2 c.type
    return (some v.1, v.2)
  else return (none, { x.2 with boolIndex := nextBool c x.2.boolIndex })

/-- The last loop, from column `i` on: whether it comes to its end, and the cursor then. A scalar that cannot be read is left as it
was; the source may have cleared its null flag, and the cursor has no row then. -/
def Call.columns (beyond : Beyond) (bytes bits : List Byte) (n : Counts) : Nat → List Column → Reader → Call → Bool × Call
  | _, [], _, call => (true, call)
  | i, c :: cols, r, call =>
    match readColumn beyond bytes bits n i c r with
    | none => (false, call)
    | some (v, r) => Call.columns beyond bytes bits n (i + 1) cols r (call.store i c v)

/-- What stands in front of the last loop: the counts, the bits, and the rest of the input. -/
def readHeader (beyond : Beyond) (needed : List Column) (bytes : List Byte) : Option (Counts × List Byte × List Byte) := do
  let x ← readCodes beyond needed { nullables := 0, bools := 0, actual := 0, next := 0 } bytes
  if (needed.drop x.1.next).any (·.notNull) then none
  else do
    let bits ← inlineBytes x.2 ((x.1.nullables + x.1.bools + 7) / 8)
    return (x.1, bits.1, bits.2)

/-- What stands behind the last loop, and the label `error`. -/
def finish : Bool × Call → Bool × Call
  | (true, call) => (true, { call with hasRow := true })
  | (false, call) => (false, call.error)

/-- `cql_cursor_from_bytes`: whether it returns `SQLITE_OK`, and the cursor then. -/
def Call.fromBytes (beyond : Beyond) (needed : Shape) (bytes : List Byte) (call : Call) : Bool × Call :=
  let call := { call with hasRow := false }.clearReferences
  match readHeader beyond needed.columns bytes with
  | none => finish (false, call)
  | some (n, bits, input) =>
    finish (call.columns beyond bytes bits n 0 needed.columns { input := input, nullableIndex := 0, boolIndex := 0 })

/-- `cql_cursor_from_bytes` on a cursor. -/
def cursorFromBytes (beyond : Beyond) {needed : Shape} (bytes : List Byte) (cursor : Cursor needed) : Bool × Call :=
  cursor.start.fromBytes beyond needed bytes

/-- `cql_cursor_from_blob`. -/
def cursorFromBlob (beyond : Beyond) {needed : Shape} (b : Option (List Byte)) (cursor : Cursor needed) : Bool × Call :=
  match b with
  | none => (false, cursor.start.error)
  | some bytes => cursorFromBytes beyond bytes cursor

/-! ## Streams -/

/-- Four bytes at an offset of a blob, where they are inside of it. -/
def read32 (bytes : List Byte) (offset : Int) : Option (BitVec 32) :=
  if 0 ≤ offset ∧ offset + 4 ≤ bytes.length then some ((ofLittleEndian ((bytes.drop offset.toNat).take 4)).setWidth 32) else none

/-- What `cql_cursor_from_blob_stream` gets from the offsets. -/
inductive Range
  /-- A read outside of the blob. -/
  | outside
  /-- `goto error`. -/
  | error
  /-- From a start, a number of bytes. -/
  | bytes (start size : BitVec 32)
  deriving DecidableEq

/-- The checks of `cql_cursor_from_blob_stream`. The products with 4 are those of `int`: an offset can be negative. -/
def streamRange (bytes : List Byte) (index : BitVec 32) : Range :=
  let len := BitVec.ofNat 32 bytes.length
  if len < 4 then .error
  else
    match read32 bytes 0 with
    | none => .outside
    | some count =>
      if index.slt 0 ∨ index ≥ count ∨ (index + 2) * 4 > len then .error
      else
        match read32 bytes ((index + 1) * 4).toInt with
        | none => .outside
        | some stop =>
          if stop > len then .error
          else
            match if (0 : BitVec 32).slt index then read32 bytes (index * 4).toInt else some ((count + 1) * 4) with
            | none => .outside
            | some start => if start > stop then .error else .bytes start (stop - start)

/-- `cql_cursor_from_blob_stream`; `none` where it reads offsets outside of the blob. -/
def cursorFromBlobStream (beyond : Beyond) {needed : Shape} (bytes : List Byte) (index : BitVec 32) (cursor : Cursor needed) :
    Option (Bool × Call) :=
  match streamRange bytes index with
  | .outside => none
  | .error => some (false, cursor.start.error)
  | .bytes start size => some (cursorFromBytes beyond ((bytes.drop start.toNat).take size.toNat) cursor)

/-- The offsets of `cql_make_blob_stream`: for each blob, where it ends. -/
def streamOffsets : BitVec 32 → List (List Byte) → List (BitVec 32)
  | _, [] => []
  | offset, blob :: blobs =>
    (offset + BitVec.ofNat 32 blob.length) :: streamOffsets (offset + BitVec.ofNat 32 blob.length) blobs

/-- The bytes of a `cql_uint32`, lowest first. -/
def bytes32 (v : BitVec 32) : List Byte := littleEndian 4 (v.setWidth 64)

/-- What is appended to the buffer of a stream, in order. -/
def streamChunks (blobs : List (List Byte)) : List (List Byte) :=
  let count := BitVec.ofNat 32 blobs.length
  (count :: streamOffsets ((1 + count) * 4) blobs).map bytes32 ++ blobs

/-- `cql_make_blob_stream`: no stream where the size of the buffer does not fit `cql_uint32`. -/
def makeBlobStream (blobs : List (List Byte)) : Option (List Byte) := (ByteBuf.open.appendAll (streamChunks blobs)).map (·.bytes)

end CgSql.DynCursor
