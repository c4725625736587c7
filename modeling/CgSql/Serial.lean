import CgSql.Lib.Varint

/-!
# Serialized cursors

The codec of `cqlrt_common.c` for the rows of cursors: `cql_cursor_to_bytebuf` and `cql_cursor_from_bytes`, with the growing
buffer that the first writes to and the checked input that the second reads. A buffer is written at its end, except for the
bits, which are set through a pointer into it.
-/

namespace CgSql.Serial

open Varint

/-! ## Shapes and rows -/

/-- A byte of a buffer. -/
abbrev Byte := BitVec 8

instance lawfulBEqByte : LawfulBEq Byte := inferInstance

/-- The core types of `CQL_DATA_TYPE_…`. Columns of objects are left out. -/
inductive DataType
  | int32
  | int64
  | double
  | bool
  | string
  | blob
  deriving DecidableEq, Repr

/-- The type of a column. -/
structure Column where
  type : DataType
  notNull : Bool
  deriving DecidableEq, Repr

/-- The letter of a type. -/
def DataType.letter : DataType → Byte
  | .int32 => 73
  | .int64 => 76
  | .double => 68
  | .bool => 70
  | .string => 83
  | .blob => 66

/-- The type code of a column: upper case if it is NOT NULL. -/
def Column.code (c : Column) : Byte := if c.notNull then c.type.letter else c.type.letter + 32

/-- How many columns have a null bit. -/
def nullableCount (cols : List Column) : Nat := cols.countP fun c => !c.notNull

/-- How many have a bit for their value. -/
def boolCount (cols : List Column) : Nat := cols.countP fun c => c.type = .bool

/-- The bytes of the bit vector. -/
def bitBytes (cols : List Column) : Nat := (nullableCount cols + boolCount cols + 7) / 8

/-- The columns of a cursor. Their offsets are `uint16_t`, and no column has more bits than bytes, so that the bits can be counted
in 16 bits too. The shape of 65536 bits, two for each of 32768 columns, is left out with those that have more. -/
structure Shape where
  columns : List Column
  short : columns.length < 2 ^ 16
  fewBits : nullableCount columns + boolCount columns < 2 ^ 16

/-- Values; a double is its bits, and a string the bytes before its NUL. -/
inductive Value
  | int32 (v : BitVec 32)
  | int64 (v : BitVec 64)
  | double (v : BitVec 64)
  | bool (b : Bool)
  | string (bytes : List Byte)
  | blob (bytes : List Byte)
  deriving DecidableEq

def Value.type : Value → DataType
  | .int32 _ => .int32
  | .int64 _ => .int64
  | .double _ => .double
  | .bool _ => .bool
  | .string _ => .string
  | .blob _ => .blob

/-- Strings have no NUL, and sizes of blobs are `cql_int32`. -/
def Value.Sized : Value → Prop
  | .string bytes => 0 ∉ bytes
  | .blob bytes => bytes.length < 2 ^ 31
  | _ => True

/-- What a column can hold; `none` is null. -/
def Column.Fits (c : Column) : Option Value → Prop
  | none => c.notNull = false
  | some v => v.type = c.type ∧ v.Sized

/-- The rows of a shape. -/
structure Row (sh : Shape) where
  values : List (Option Value)
  fits : List.Forall₂ Column.Fits sh.columns values

/-! ## Bits -/

/-- `cql_setbit`. -/
def setBit (bits : List Byte) (i : Nat) : List Byte := bits.modify (i / 8) (· ||| (1 : Byte) <<< (i % 8))

/-- `cql_getbit`, where the byte exists. -/
def getBit? (bits : List Byte) (i : Nat) : Option Bool := bits[i / 8]?.map fun b : Byte => b &&& (1 : Byte) <<< (i % 8) ≠ 0

/-! ## The buffer -/

/-- `cql_bytebuf`, with the number of times that its storage moved. -/
structure ByteBuf where
  bytes : List Byte
  max : Nat
  moves : Nat

/-- `cql_bytebuf_open`. -/
def ByteBuf.open : ByteBuf := { bytes := [], max := 1024, moves := 0 }

/-- `cql_bytebuf_append`, with `cql_bytebuf_alloc`. The storage is copied when it grows. There is no buffer when its size does not
fit `cql_uint32`. -/
def ByteBuf.append (b : ByteBuf) (data : List Byte) : Option ByteBuf :=
  if data.length ≤ b.max - b.bytes.length then some { b with bytes := b.bytes ++ data }
  else
    let max := if b.max > 1024 * 1024 then data.length + 200 * 1024 + b.max else data.length + 2 * b.max
    if max < 2 ^ 32 then some { bytes := b.bytes ++ data, max := max, moves := b.moves + 1 } else none

/-- Appends in order. -/
def ByteBuf.appendAll (b : ByteBuf) (chunks : List (List Byte)) : Option ByteBuf := chunks.foldlM ByteBuf.append b

/-- The pointer `bits`: where the bits are, in the storage the buffer had when it was taken. -/
structure Bits where
  offset : Nat
  size : Nat
  moves : Nat

/-- `cql_setbit` through the pointer: a bit that is set in a storage that was freed is lost. -/
def ByteBuf.setBit (b : ByteBuf) (bits : Bits) (i : Nat) : ByteBuf :=
  if b.moves = bits.moves then
    { b with bytes := b.bytes.take bits.offset ++
        (Serial.setBit ((b.bytes.drop bits.offset).take bits.size) i ++ b.bytes.drop (bits.offset + bits.size)) }
  else b

/-! ## Encoding -/

/-- The loop of `cql_write_varint_32` and `cql_write_varint_64`. -/
def writeVarint {w : Nat} (i : BitVec w) : List Byte :=
  let byte := (i &&& 0x7f).setWidth 8
  let i' := i >>> 7
  if i' = 0 then [byte] else (byte ||| 0x80) :: writeVarint i'
termination_by i.toNat
decreasing_by
  have hne : ¬i >>> 7 = 0 := ‹_›
  have hpos : (i >>> 7).toNat ≠ 0 := fun h => hne (BitVec.eq_of_toNat_eq (by simpa using h))
  have hdiv : (i >>> 7).toNat = i.toNat / 128 := by rw [BitVec.toNat_ushiftRight, Nat.shiftRight_eq_div_pow]
  omega

/-- The `n` low bytes of a value, lowest first, as they are in memory. -/
def littleEndian : Nat → BitVec 64 → List Byte
  | 0, _ => []
  | n + 1, v => v.setWidth 8 :: littleEndian n (v >>> 8)

/-- What is appended for a value that is not null, in the order of the appends. A varint is appended byte by byte. -/
def Value.chunks : Value → List (List Byte)
  | .int32 v => (writeVarint (zigzag v)).map fun b => [b]
  | .int64 v => (writeVarint (zigzag v)).map fun b => [b]
  | .double v => [littleEndian 8 v]
  | .bool _ => []
  | .string bytes => [bytes ++ [0]]
  | .blob bytes => (writeVarint (zigzag (BitVec.ofNat 32 bytes.length))).map (fun b => [b]) ++ [bytes]

/-- The buffer and the counters of the second loop. -/
structure Writer where
  buf : ByteBuf
  nullableIndex : Nat
  boolIndex : Nat

/-- The bit of a bool that is true. -/
def Writer.setBool (w : Writer) (bits : Bits) (nullables : Nat) (v : Value) : ByteBuf :=
  if v = .bool true then w.buf.setBit bits (nullables + w.boolIndex) else w.buf

/-- The index after a column, if it is a bool. -/
def nextBool (c : Column) (i : Nat) : Nat := if c.type = .bool then i + 1 else i

/-- One column of the second loop. -/
def Writer.column (bits : Bits) (nullables : Nat) (w : Writer) (c : Column) (v : Option Value) : Option Writer :=
  if c.notNull then
    v.bind fun v => do
      let buf ← (w.setBool bits nullables v).appendAll v.chunks
      return { buf := buf, nullableIndex := w.nullableIndex, boolIndex := nextBool c w.boolIndex }
  else do
    let buf ← match v with
      | none => some w.buf
      | some v =>
        let w := { w with buf := w.buf.setBit bits w.nullableIndex }
        (w.setBool bits nullables v).appendAll v.chunks
    return { buf := buf, nullableIndex := w.nullableIndex + 1, boolIndex := nextBool c w.boolIndex }

/-- The second loop. -/
def Writer.columns (bits : Bits) (nullables : Nat) (w : Writer) : List Column → List (Option Value) → Option Writer
  | c :: cols, v :: values => do (← w.column bits nullables c v).columns bits nullables cols values
  | _, _ => some w

/-- The type codes with their terminator, byte by byte. -/
def header (cols : List Column) : List (List Byte) := cols.map (fun c => [c.code]) ++ [[0]]

/-- The bit vector, all zeros: the pointer to it is taken after the storage has grown for it. -/
def ByteBuf.allocBits (b : ByteBuf) (cols : List Column) : Option (ByteBuf × Bits) := do
  let b' ← b.append (List.replicate (bitBytes cols) 0)
  return (b', { offset := b.bytes.length, size := bitBytes cols, moves := b'.moves })

/-- `cql_cursor_to_bytebuf` on a new buffer. -/
def cursorToBytebuf {sh : Shape} (row : Row sh) : Option ByteBuf := do
  let b ← ByteBuf.open.appendAll (header sh.columns)
  let x ← b.allocBits sh.columns
  let w ← Writer.columns x.2 (nullableCount sh.columns) { buf := x.1, nullableIndex := 0, boolIndex := 0 } sh.columns row.values
  return w.buf

/-! ## Decoding -/

/-- A read outside of an array. -/
inductive Fault
  | outOfBounds
  deriving DecidableEq

/-- Decoding: a fault, `SQLITE_ERROR`, or a result. -/
abbrev Decode (α : Type) := ExceptT Fault Option α

/-- `goto error`. -/
def Decode.error {α : Type} : Decode α := ExceptT.mk none

/-- An element of an array. -/
def Decode.at {α : Type} (l : List α) (i : Nat) : Decode α :=
  match l[i]? with
  | some a => pure a
  | none => throw .outOfBounds

/-- A read of the input that is checked. -/
def Decode.checked {α : Type} : Option α → Decode α
  | some a => pure a
  | none => Decode.error

/-- `cql_read_varint_32`. -/
def readVarint32 (input : List Byte) : Option (BitVec 32 × List Byte) :=
  (read 5 0 0 input).map fun r => (unzigzag r.1, r.2)

/-- `cql_read_varint_64`. -/
def readVarint64 (input : List Byte) : Option (BitVec 64 × List Byte) :=
  (read 10 0 0 input).map fun r => (unzigzag r.1, r.2)

/-- `cql_input_inline_bytes`. -/
def inlineBytes (input : List Byte) (n : Nat) : Option (List Byte × List Byte) :=
  if n ≤ input.length then some (input.take n, input.drop n) else none

/-- `cql_input_inline_str`: the bytes up to the first NUL, which is read too. -/
def inlineStr (input : List Byte) : Option (List Byte × List Byte) :=
  if 0 ∈ input then some (input.takeWhile (· ≠ 0), (input.dropWhile (· ≠ 0)).drop 1) else none

/-- The number with these bytes, lowest first. -/
def ofLittleEndian (bytes : List Byte) : BitVec 64 :=
  bytes.foldr (fun b v => (v <<< 8) ||| b.setWidth 64) 0

/-- A double. -/
def readDouble (input : List Byte) : Option (BitVec 64 × List Byte) :=
  (inlineBytes input 8).map fun r => (ofLittleEndian r.1, r.2)

/-- What the first loop counts, in 16 bits. -/
structure Counts where
  nullables : Nat
  bools : Nat
  actual : Nat
  /-- The index of the needed column to check next. -/
  next : Nat

/-- A lower case letter. -/
def isLower (code : Byte) : Bool := 97 ≤ code.toNat ∧ code.toNat ≤ 122

/-- An upper case letter. -/
def isUpper (code : Byte) : Bool := 65 ≤ code.toNat ∧ code.toNat ≤ 90

/-- The counts with one more code. -/
def Counts.add (n : Counts) (code : Byte) : Counts :=
  { n with
    nullables := (n.nullables + if isLower code then 1 else 0) % 2 ^ 16
    bools := (n.bools + if code = 102 ∨ code = 70 then 1 else 0) % 2 ^ 16
    actual := (n.actual + 1) % 2 ^ 16 }

/-- A stored code is one that the needed column can be read from. -/
def Column.accepts (c : Column) (code : Byte) : Bool :=
  !(c.notNull && isLower code) && (if isLower code then code - 32 else code) = c.type.letter

/-- The first loop: the type codes. -/
def readCodes (needed : List Column) (n : Counts) : List Byte → Decode (Counts × List Byte)
  | [] => Decode.error
  | code :: input =>
    if code = 0 then pure (n, input)
    else
      let n := n.add code
      if n.actual ≤ needed.length then do
        let c ← Decode.at needed n.next
        if c.accepts code then readCodes needed { n with next := (n.next + 1) % 2 ^ 16 } input else Decode.error
      else readCodes needed n input

/-- The input and the counters of the last loop. -/
structure Reader where
  input : List Byte
  nullableIndex : Nat
  boolIndex : Nat

/-- A value of a type that is present. -/
def Reader.value (bits : List Byte) (nullables : Nat) (r : Reader) : DataType → Decode (Value × Reader)
  | .int32 => do
    let x ← Decode.checked (readVarint32 r.input)
    return (.int32 x.1, { r with input := x.2 })
  | .int64 => do
    let x ← Decode.checked (readVarint64 r.input)
    return (.int64 x.1, { r with input := x.2 })
  | .double => do
    let x ← Decode.checked (readDouble r.input)
    return (.double x.1, { r with input := x.2 })
  | .bool => do
    -- the index is a `uint16_t`
    let b ← (getBit? bits ((nullables + r.boolIndex) % 2 ^ 16)).elim (throw .outOfBounds) pure
    return (.bool b, { r with boolIndex := r.boolIndex + 1 })
  | .string => do
    let x ← Decode.checked (inlineStr r.input)
    return (.string x.1, { r with input := x.2 })
  | .blob => do
    let size ← Decode.checked (readVarint32 r.input)
    let x ← Decode.checked (inlineBytes size.2 size.1.toNat)
    return (.blob x.1, { r with input := x.2 })

/-- Whether column `i` is to be read: the fields that are not there are null, and nullable ones have a bit. -/
def Reader.fetchData (bytes bits : List Byte) (actual i : Nat) (r : Reader) : Decode (Bool × Reader) :=
  if i ≥ actual then pure (false, r)
  else do
    let code ← Decode.at bytes i
    if isUpper code then return (true, r)
    else do
      let b ← (getBit? bits r.nullableIndex).elim (throw .outOfBounds) pure
      return (b, { r with nullableIndex := r.nullableIndex + 1 })

/-- One column of the last loop. -/
def Reader.column (bytes bits : List Byte) (n : Counts) (i : Nat) (c : Column) (r : Reader) : Decode (Option Value × Reader) := do
  let x ← r.fetchData bytes bits n.actual i
  if x.1 then
    let v ← x.2.value bits n.nullables c.type
    return (some v.1, v.2)
  else return (none, { x.2 with boolIndex := nextBool c x.2.boolIndex })

/-- The last loop, from column `i` on. -/
def Reader.columns (bytes bits : List Byte) (n : Counts) : Nat → List Column → Reader → Decode (List (Option Value))
  | _, [], _ => pure []
  | i, c :: cols, r => do
    let x ← r.column bytes bits n i c
    let values ← Reader.columns bytes bits n (i + 1) cols x.2
    return x.1 :: values

/-- `cql_cursor_from_bytes`: the columns of the row. -/
def cursorFromBytes (needed : Shape) (bytes : List Byte) : Decode (List (Option Value)) := do
  let x ← readCodes needed.columns { nullables := 0, bools := 0, actual := 0, next := 0 } bytes
  -- fields that are missing have to be nullable
  if (needed.columns.drop x.1.next).any (·.notNull) then Decode.error
  else do
    let bits ← Decode.checked (inlineBytes x.2 ((x.1.nullables + x.1.bools + 7) / 8))
    Reader.columns bytes bits.1 x.1 0 needed.columns { input := bits.2, nullableIndex := 0, boolIndex := 0 }

end CgSql.Serial
