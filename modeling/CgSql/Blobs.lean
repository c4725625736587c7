import CgSql.Lib.Memory
import CgSql.Serial

/-!
# Key and value blobs

The user defined functions of `cqlrt_common.c` for backing tables: `bcreatekey` and `bcreateval` build a blob from typed values,
`bgetkey` and `bgetval` read a column, and `bupdatekey` and `bupdateval` build the blob with some of the columns changed. A blob is a
header, the ids of the fields (of a value blob), a word for each column, a type code for each column, and the bytes of strings and
blobs, which the words refer to.

Sizes and offsets are integers here. In the source they are 64 bits wide, and no sum of 32-bit sizes overflows them; those of
`bupdateval` may be negative, and a write at a negative offset is outside of the block.
-/

namespace CgSql.Blobs

open Serial (littleEndian ofLittleEndian)

/-- A byte. -/
abbrev Byte := Serial.Byte

/-! ## SQLite -/

/-- Values of SQLite. A double is its bits, and a text its bytes without the NUL that follows them. -/
inductive SqlValue
  | null
  | integer (v : BitVec 64)
  | float (v : BitVec 64)
  | text (bytes : List Byte)
  | blob (bytes : List Byte)
  deriving DecidableEq

/-- The conversions of SQLite: to an integer of what is not one, and to a double of what is not one. -/
structure Sqlite where
  toInt64 : SqlValue → BitVec 64
  toDouble : SqlValue → BitVec 64

/-- `sqlite3_value_int64`. -/
def SqlValue.int64 (s : Sqlite) : SqlValue → BitVec 64
  | .integer v => v
  | v => s.toInt64 v

/-- `sqlite3_value_double`. -/
def SqlValue.double (s : Sqlite) : SqlValue → BitVec 64
  | .float v => v
  | v => s.toDouble v

/-- The bytes of a text or of a blob: `sqlite3_value_text` and `sqlite3_value_blob`, which are asked of no other values. -/
def SqlValue.bytes : SqlValue → List Byte
  | .text bytes => bytes
  | .blob bytes => bytes
  | _ => []

/-- What ends a function without a value: `cql_blob_error`, a `cql_contract` that does not hold, or an access outside of a block. -/
inductive Stop
  | invalid
  | contract
  | fault
  deriving DecidableEq, Repr

/-- A user defined function. -/
abbrev Udf (α : Type) := Except Stop α

/-! ## Memory -/

/-- Bytes of a block. -/
def load (b : List Byte) (offset : Int) (n : Nat) : Udf (List Byte) := (Memory.read b offset n).elim (throw .fault) pure

/-- A byte of a block. -/
def loadByte (b : List Byte) (offset : Int) : Udf Byte := do return (← load b offset 1).headD 0

/-- Bytes that are copied into a block. -/
def store (b : List Byte) (offset : Int) (bytes : List Byte) : Udf (List Byte) :=
  (Memory.write b offset bytes).elim (throw .fault) pure

/-- `sqlite3_malloc` and the contract on its result: there is no block if the size is not positive as an `int`. What is in a new
block is arbitrary. -/
def malloc (junk : Nat → Byte) (total : Int) : Udf (List Byte) :=
  if 0 < total ∧ total < 2 ^ 31 then pure ((List.range total.toNat).map junk) else throw .contract

/-- `cql_write_big_endian_…`: the `n` low bytes, highest first. -/
def bigEndian : Nat → BitVec 64 → List Byte
  | 0, _ => []
  | n + 1, v => (v >>> (8 * n)).setWidth 8 :: bigEndian n v

/-- `cql_read_big_endian_…`. -/
def ofBigEndian (bytes : List Byte) : BitVec 64 := bytes.foldl (fun v b => v <<< 8 ||| b.setWidth 64) 0

/-- `cql_read_big_endian_u64` at an offset. -/
def loadU64 (b : List Byte) (offset : Int) : Udf (BitVec 64) := do return ofBigEndian (← load b offset 8)

/-! ## Headers and shapes -/

/-- `CQL_BLOB_MAGIC`. -/
def magic : BitVec 32 := 0x524d3030

/-- `cql_blob_header`. -/
structure Header where
  magic : BitVec 32
  columnCount : BitVec 32
  recordType : BitVec 64

/-- `cql_read_blob_header`. -/
def readBlobHeader (b : List Byte) : Udf Header :=
  if b.length < 16 then return { magic := 0, columnCount := 0, recordType := 0 }
  else do
    let recordType ← load b 0 8
    let magic ← load b 8 4
    let columnCount ← load b 12 4
    return { magic := (ofBigEndian magic).setWidth 32, columnCount := (ofBigEndian columnCount).setWidth 32
             recordType := ofBigEndian recordType }

/-- `cql_write_blob_header`. -/
def writeBlobHeader (b : List Byte) (header : Header) : Udf (List Byte) := do
  let b ← store b 0 (bigEndian 8 header.recordType)
  let b ← store b 8 (bigEndian 4 (header.magic.setWidth 64))
  store b 12 (bigEndian 4 (header.columnCount.setWidth 64))

/-- `cql_key_blob_shape` and `cql_val_blob_shape`; key blobs have no field ids. -/
structure BlobShape where
  fieldIdsOffset : Int
  storageOffset : Int
  typeCodesOffset : Int
  variableOffset : Int
  totalBytes : Int

/-- `cql_compute_key_blob_shape`: the size has to be a `cql_uint32`. -/
def computeKeyBlobShape (columnCount variableSize : Int) : Udf BlobShape :=
  let total := 16 + columnCount + columnCount * 8 + variableSize
  if 0 ≤ total ∧ total < 2 ^ 32 then
    return { fieldIdsOffset := 16, storageOffset := 16, typeCodesOffset := 16 + columnCount * 8
             variableOffset := 16 + columnCount * 8 + columnCount, totalBytes := total }
  else throw .contract

/-- `cql_compute_val_blob_shape`: the size has to be a `cql_int32`. -/
def computeValBlobShape (columnCount variableSize : Int) : Udf BlobShape :=
  let total := 16 + columnCount * 8 + columnCount + columnCount * 8 + variableSize
  if -2 ^ 31 ≤ total ∧ total < 2 ^ 31 then
    return { fieldIdsOffset := 16, storageOffset := 16 + columnCount * 8, typeCodesOffset := 16 + columnCount * 8 + columnCount * 8
             variableOffset := 16 + columnCount * 8 + columnCount * 8 + columnCount, totalBytes := total }
  else throw .contract

/-! ## Type codes -/

/-- `CQL_BLOB_TYPE_…`. -/
inductive BlobType
  | bool
  | int32
  | int64
  | float
  | string
  | blob
  deriving DecidableEq, Repr

/-- The code of a type. -/
def BlobType.code : BlobType → Byte
  | .bool => 0
  | .int32 => 1
  | .int64 => 2
  | .float => 3
  | .string => 4
  | .blob => 5

/-- The type with a code. -/
def BlobType.ofCode? (code : Byte) : Option BlobType :=
  [BlobType.bool, .int32, .int64, .float, .string, .blob].find? (·.code = code)

/-- `CQL_BLOB_TYPE_DIRTY`. -/
def dirty : Byte := 0x40

/-- `cql_blobtype_vs_argtype_compat`: the variable size of a value, if it can be stored with the type code. -/
def blobtypeVsArgtypeCompat (v : SqlValue) (code : Byte) : Option Nat :=
  match BlobType.ofCode? code, v with
  | some .bool, .integer _ => some 0
  | some .int32, .integer _ => some 0
  | some .int64, .integer _ => some 0
  | some .float, .float _ => some 0
  | some .float, .integer _ => some 0
  | some .string, .text bytes => some (bytes.length + 1)
  | some .blob, .blob bytes => some bytes.length
  | _, _ => none

/-- The word of a string or a blob: where it is, and its length. -/
def info (offset : Int) (len : Nat) : BitVec 64 := BitVec.ofInt 64 offset <<< 32 ||| BitVec.ofNat 64 len

/-- The low half of such a word. -/
def infoLen (info : BitVec 64) : Nat := (info.setWidth 32).toNat

/-- The high half. -/
def infoOffset (info : BitVec 64) : Nat := (info >>> 32).toNat

/-! ## Validation -/

/-- One column of `cql_validate_blob_variable_fields`. -/
def validateField (b : List Byte) (shape : BlobShape) (icol : Nat) : Udf Bool := do
  let code ← loadByte b (shape.typeCodesOffset + icol)
  match BlobType.ofCode? code with
  | some .string =>
    let val ← loadU64 b (shape.storageOffset + icol * 8)
    if (infoOffset val : Int) < shape.variableOffset ∨ infoOffset val + (infoLen val + 1) > b.length then return false
    else do
      let last ← loadByte b (infoOffset val + infoLen val)
      return decide (last = 0)
  | some .blob =>
    let val ← loadU64 b (shape.storageOffset + icol * 8)
    return decide (¬((infoOffset val : Int) < shape.variableOffset ∨ infoOffset val + infoLen val > b.length))
  | some _ => return true
  | none => return false

/-- `cql_validate_blob_variable_fields`. -/
def validateBlobVariableFields (b : List Byte) (shape : BlobShape) (columnCount : Nat) : Udf Bool :=
  (List.range columnCount).allM (validateField b shape)

/-- The checks that are made when a blob is opened: its shape, that it has room for its columns, and their validation. -/
def openBlob (compute : Int → Int → Udf BlobShape) (b : List Byte) (header : Header) : Udf BlobShape := do
  let shape ← compute header.columnCount.toNat 0
  if shape.variableOffset > b.length then throw .invalid
  else do
    let valid ← validateBlobVariableFields b shape header.columnCount.toNat
    if valid then return shape else throw .invalid

/-! ## Reading -/

/-- The value of a column: the last switch of `bgetkey` and of `bgetval`. A float is its bits; SQLite makes null of one that is NaN. -/
def readField (b : List Byte) (code : Byte) (storageOffset : Int) : Udf SqlValue :=
  match BlobType.ofCode? code with
  | some .bool => do return .integer (if (← loadU64 b storageOffset) = 0 then 0 else 1)
  | some .int32 => do return .integer (← loadU64 b storageOffset)
  | some .int64 => do return .integer (← loadU64 b storageOffset)
  | some .float => do return .float (ofLittleEndian (← load b storageOffset 8))
  | some .string => do
    let val ← loadU64 b storageOffset
    if infoOffset val + infoLen val > b.length then throw .invalid
    else do return .text (← load b (infoOffset val) (infoLen val))
  | some .blob => do
    let val ← loadU64 b storageOffset
    if infoOffset val + infoLen val > b.length then throw .invalid
    else do return .blob (← load b (infoOffset val) (infoLen val))
  | none => throw .invalid

/-- `bgetkey`. -/
def bgetkey : List SqlValue → Udf SqlValue
  | [.blob b, .integer icol] => do
    let header ← readBlobHeader b
    if icol.toNat ≥ header.columnCount.toNat ∨ header.magic ≠ magic then throw .invalid
    else do
      let shape ← openBlob computeKeyBlobShape b header
      let code ← loadByte b (shape.typeCodesOffset + icol.toNat)
      readField b code (shape.storageOffset + icol.toNat * 8)
  | _ => throw .invalid

/-- `bgetkey_type`. -/
def bgetkeyType : List SqlValue → Udf SqlValue
  | [.blob b] => do
    let header ← readBlobHeader b
    if header.magic ≠ magic then throw .invalid
    else do
      let _ ← openBlob computeKeyBlobShape b header
      return .integer header.recordType
  | _ => throw .invalid

/-- The search for a field id among these columns. -/
def findField (b : List Byte) (shape : BlobShape) (fieldId : BitVec 64) : List Nat → Udf (Option Nat)
  | [] => return none
  | icol :: icols => do
    let stored ← loadU64 b (shape.fieldIdsOffset + icol * 8)
    if stored = fieldId then return some icol else findField b shape fieldId icols

/-- `bgetval`: a field that is not stored is null. -/
def bgetval : List SqlValue → Udf SqlValue
  | [.blob b, .integer fieldId] => do
    let header ← readBlobHeader b
    if header.magic ≠ magic then throw .invalid
    else do
      let shape ← openBlob computeValBlobShape b header
      match ← findField b shape fieldId (List.range header.columnCount.toNat) with
      | none => return .null
      | some icol =>
        let code ← loadByte b (shape.typeCodesOffset + icol)
        readField b code (shape.storageOffset + icol * 8)
  | _ => throw .invalid

/-- `bgetval_type`. -/
def bgetvalType : List SqlValue → Udf SqlValue
  | [.blob b] => do
    let header ← readBlobHeader b
    if header.magic ≠ magic then throw .invalid
    else do
      let _ ← openBlob computeValBlobShape b header
      return .integer header.recordType
  | _ => throw .invalid

/-! ## Writing -/

/-- A block that is filled, with the next places in its areas. -/
structure Writer where
  block : List Byte
  fieldIdsOffset : Int
  storageOffset : Int
  typeCodesOffset : Int
  variableOffset : Int

/-- The places at the start of the areas. -/
def BlobShape.writer (shape : BlobShape) (block : List Byte) : Writer :=
  { block := block, fieldIdsOffset := shape.fieldIdsOffset, storageOffset := shape.storageOffset
    typeCodesOffset := shape.typeCodesOffset, variableOffset := shape.variableOffset }

/-- The next type code. -/
def Writer.typeCode (w : Writer) (code : Byte) : Udf Writer := do
  let block ← store w.block w.typeCodesOffset [code]
  return { w with block := block, typeCodesOffset := w.typeCodesOffset + 1 }

/-- The next field id. -/
def Writer.fieldId (w : Writer) (bytes : List Byte) : Udf Writer := do
  let block ← store w.block w.fieldIdsOffset bytes
  return { w with block := block, fieldIdsOffset := w.fieldIdsOffset + 8 }

/-- The word of the column. -/
def Writer.word (w : Writer) (bytes : List Byte) : Udf Writer := do
  let block ← store w.block w.storageOffset bytes
  return { w with block := block }

/-- The next variable bytes. -/
def Writer.copyBytes (w : Writer) (bytes : List Byte) : Udf Writer := do
  let block ← store w.block w.variableOffset bytes
  return { w with block := block, variableOffset := w.variableOffset + bytes.length }

/-- The next column. -/
def Writer.next (w : Writer) : Writer := { w with storageOffset := w.storageOffset + 8 }

/-- The word of a value that is not variable. -/
def fixedWord (s : Sqlite) (type : BlobType) (v : SqlValue) : List Byte :=
  match type with
  | .bool => bigEndian 8 (if v.int64 s = 0 then 0 else 1)
  | .float => littleEndian 8 (v.double s)
  | _ => bigEndian 8 (v.int64 s)

/-- A value with its type code: the switch of `bcreatekey`, of `bcreateval`, and of the second pass of `bupdateval`. -/
def Writer.value (s : Sqlite) (w : Writer) (code : Byte) (v : SqlValue) : Udf Writer :=
  match BlobType.ofCode? code with
  | some .string => do
    let w ← w.word (bigEndian 8 (info w.variableOffset v.bytes.length))
    w.copyBytes (v.bytes ++ [0])
  | some .blob => do
    let w ← w.word (bigEndian 8 (info w.variableOffset v.bytes.length))
    w.copyBytes v.bytes
  | some type => w.word (fixedWord s type v)
  | none => return w

/-- Arguments two by two. -/
def pairs : List SqlValue → List (SqlValue × SqlValue)
  | a :: b :: args => (a, b) :: pairs args
  | _ => []

/-- Arguments three by three. -/
def triples : List SqlValue → List (SqlValue × SqlValue × SqlValue)
  | a :: b :: c :: args => (a, b, c) :: triples args
  | _ => []

/-- Whether `sqlite3_value_type` is `SQLITE_INTEGER`. -/
def SqlValue.isInteger : SqlValue → Bool
  | .integer _ => true
  | _ => false

/-- The type code that an argument names, as an `int8_t`. -/
def typeArg (s : Sqlite) (v : SqlValue) : Byte := (v.int64 s).setWidth 8

/-! ## Key blobs -/

/-- The first pass of `bcreatekey`: the variable size of the columns, given as values with types. -/
def createKeySize (s : Sqlite) : List (SqlValue × SqlValue) → Udf Int
  | [] => return 0
  | (value, type) :: specs =>
    if type.isInteger then
      match blobtypeVsArgtypeCompat value (typeArg s type) with
      | some size => do return size + (← createKeySize s specs)
      | none => throw .invalid
    else throw .invalid

/-- A column in the second pass of `bcreatekey`. -/
def Writer.keyColumn (s : Sqlite) (w : Writer) (spec : SqlValue × SqlValue) : Udf Writer := do
  let w ← w.typeCode (typeArg s spec.2)
  let w ← w.value s (typeArg s spec.2) spec.1
  return w.next

/-- `bcreatekey`. -/
def bcreatekey (s : Sqlite) (junk : Nat → Byte) (argv : List SqlValue) : Udf (List Byte) :=
  if argv.length < 3 ∨ argv.length % 2 = 0 then throw .invalid
  else match argv with
  | .integer recordType :: args => do
    let specs := pairs args
    let variableSize ← createKeySize s specs
    let shape ← computeKeyBlobShape specs.length variableSize
    let b ← malloc junk shape.totalBytes
    let b ← writeBlobHeader b { recordType := recordType, columnCount := BitVec.ofNat 32 specs.length, magic := magic }
    let w ← specs.foldlM (Writer.keyColumn s) (shape.writer b)
    return w.block
  | _ => throw .invalid

/-- The stored length of a variable column, with the NUL of a string. -/
def storedSize (b : List Byte) (code : Byte) (storageOffset : Int) : Udf Int :=
  match BlobType.ofCode? code with
  | some .string => do return infoLen (← loadU64 b storageOffset) + 1
  | some .blob => do return infoLen (← loadU64 b storageOffset)
  | _ => return 0

/-- An update in the first pass of `bupdatekey`, with the copy of the blob and the change of its size. -/
def checkKeyUpdate (shape : BlobShape) (columnCount : Nat) (x : List Byte × Int) (update : SqlValue × SqlValue) : Udf (List Byte × Int) :=
  match update.1 with
  | .integer icol =>
    if icol.toNat ≥ columnCount then throw .invalid
    else do
      let code ← loadByte x.1 (shape.typeCodesOffset + icol.toNat)
      if code &&& dirty ≠ 0 then throw .invalid
      else do
        let b ← store x.1 (shape.typeCodesOffset + icol.toNat) [code ||| dirty]
        match blobtypeVsArgtypeCompat update.2 code with
        | none => throw .invalid
        | some size =>
          let stored ← storedSize b code (shape.storageOffset + icol.toNat * 8)
          return (b, x.2 + size - stored)
  | _ => throw .invalid

/-- What the first pass of `bupdatekey` leaves: the copy of the blob with its dirty type codes, its shape, and the size of the
result. -/
structure KeyUpdate where
  block : List Byte
  columnCount : Nat
  shape : BlobShape
  totalBytes : Int

/-- `bupdatekey` up to the size of the result. -/
def sizeKeyUpdate (argv : List SqlValue) : Udf KeyUpdate :=
  if argv.length < 3 ∨ argv.length % 2 = 0 then throw .invalid
  else match argv with
  | .blob b :: args => do
    let header ← readBlobHeader b
    if header.magic ≠ magic then throw .invalid
    else do
      let shape ← openBlob computeKeyBlobShape b header
      let x ← (pairs args).foldlM (checkKeyUpdate shape header.columnCount.toNat) (b, 0)
      return { block := x.1, columnCount := header.columnCount.toNat, shape := shape, totalBytes := b.length + x.2 }
  | _ => throw .invalid

/-- An update in the second pass: a string or a blob leaves the index of its argument in the word. -/
def storeKeyUpdate (s : Sqlite) (u : KeyUpdate) (result : List Byte) (index : Nat) (update : SqlValue × SqlValue) : Udf (List Byte) := do
  let icol := (update.1.int64 s).toNat
  let marked ← loadByte u.block (u.shape.typeCodesOffset + icol)
  let code := marked &&& ~~~dirty
  let result ← store result (u.shape.typeCodesOffset + icol) [code]
  match BlobType.ofCode? code with
  | some .string => store result (u.shape.storageOffset + icol * 8) (littleEndian 8 (BitVec.ofNat 64 (index + 1)))
  | some .blob => store result (u.shape.storageOffset + icol * 8) (littleEndian 8 (BitVec.ofNat 64 (index + 1)))
  | some type => store result (u.shape.storageOffset + icol * 8) (fixedWord s type update.2)
  | none => return result

/-- The second pass of `bupdatekey`, from the argument with an index on. -/
def storeKeyUpdates (s : Sqlite) (u : KeyUpdate) (result : List Byte) (index : Nat) : List (SqlValue × SqlValue) → Udf (List Byte)
  | [] => return result
  | update :: updates => do
    let result ← storeKeyUpdate s u result index update
    storeKeyUpdates s u result (index + 2) updates

/-- Variable bytes at the end of the result, with the word that refers to them. -/
def appendKeyBytes (u : KeyUpdate) (icol : Nat) (x : List Byte × Int) (len : Nat) (bytes : List Byte) : Udf (List Byte × Int) := do
  let result ← store x.1 (u.shape.storageOffset + icol * 8) (bigEndian 8 (info x.2 len))
  let result ← store result x.2 bytes
  return (result, x.2 + bytes.length)

/-- The argument whose index the second pass has left. -/
def stashedArg (u : KeyUpdate) (argv : List SqlValue) (result : List Byte) (icol : Nat) : Udf SqlValue := do
  let word ← load result (u.shape.storageOffset + icol * 8) 8
  argv[(ofLittleEndian word).toNat]?.elim (throw .fault) pure

/-- A column in the third pass: the result, and the end of its variable bytes. -/
def copyKeyColumn (u : KeyUpdate) (argv : List SqlValue) (x : List Byte × Int) (icol : Nat) : Udf (List Byte × Int) := do
  let code ← loadByte u.block (u.shape.typeCodesOffset + icol)
  if code = BlobType.string.code then do
    let val ← loadU64 u.block (u.shape.storageOffset + icol * 8)
    let text ← load u.block (infoOffset val) (infoLen val + 1)
    appendKeyBytes u icol x (infoLen val) text
  else if code = BlobType.blob.code then do
    let val ← loadU64 u.block (u.shape.storageOffset + icol * 8)
    let data ← load u.block (infoOffset val) (infoLen val)
    appendKeyBytes u icol x (infoLen val) data
  else if code = BlobType.string.code ||| dirty then do
    let v ← stashedArg u argv x.1 icol
    appendKeyBytes u icol x v.bytes.length (v.bytes ++ [0])
  else if code = BlobType.blob.code ||| dirty then do
    let v ← stashedArg u argv x.1 icol
    appendKeyBytes u icol x v.bytes.length v.bytes
  else return x

/-- The second and the third pass of `bupdatekey`: the result, and the end of what was copied into it. -/
def copyKeyUpdate (s : Sqlite) (junk : Nat → Byte) (argv : List SqlValue) (u : KeyUpdate) : Udf (List Byte × Int) := do
  let result ← malloc junk u.totalBytes
  let fixed ← load u.block 0 u.shape.variableOffset.toNat
  let result ← store result 0 fixed
  let result ← storeKeyUpdates s u result 1 (pairs argv.tail)
  (List.range u.columnCount).foldlM (copyKeyColumn u argv) (result, u.shape.variableOffset)

/-- `bupdatekey`. -/
def bupdatekey (s : Sqlite) (junk : Nat → Byte) (argv : List SqlValue) : Udf (List Byte) := do
  let u ← sizeKeyUpdate argv
  return (← copyKeyUpdate s junk argv u).1

/-! ## Value blobs -/

/-- The first pass of `bcreateval`: the number of columns that are not null, and their variable size. -/
def createValSize (s : Sqlite) : List (SqlValue × SqlValue × SqlValue) → Udf (Nat × Int)
  | [] => return (0, 0)
  | (fieldId, value, type) :: specs =>
    if type.isInteger ∧ fieldId.isInteger then
      if value = .null then createValSize s specs
      else match blobtypeVsArgtypeCompat value (typeArg s type) with
      | some size => do
        let x ← createValSize s specs
        return (x.1 + 1, size + x.2)
      | none => throw .invalid
    else throw .invalid

/-- A column in the second pass of `bcreateval` and of `bupdateval`. -/
def Writer.valColumn (s : Sqlite) (w : Writer) (spec : SqlValue × SqlValue × SqlValue) : Udf Writer :=
  if spec.2.1 = .null then return w
  else do
    let w ← w.typeCode (typeArg s spec.2.2)
    let w ← w.fieldId (bigEndian 8 (spec.1.int64 s))
    let w ← w.value s (typeArg s spec.2.2) spec.2.1
    return w.next

/-- `bcreateval`. -/
def bcreateval (s : Sqlite) (junk : Nat → Byte) (argv : List SqlValue) : Udf (List Byte) :=
  if argv.length < 1 ∨ argv.length % 3 ≠ 1 then throw .invalid
  else match argv with
  | .integer recordType :: args => do
    let specs := triples args
    let x ← createValSize s specs
    let shape ← computeValBlobShape x.1 x.2
    let b ← malloc junk shape.totalBytes
    let b ← writeBlobHeader b { recordType := recordType, columnCount := BitVec.ofNat 32 x.1, magic := magic }
    let w ← specs.foldlM (Writer.valColumn s) (shape.writer b)
    return w.block
  | _ => throw .invalid

/-- What the first pass of `bupdateval` counts, with the copy of the blob. -/
structure ValSizes where
  block : List Byte
  columns : Int
  variableSize : Int

/-- An update in the first pass of `bupdateval`. -/
def checkValUpdate (s : Sqlite) (shape : BlobShape) (columnCount : Nat) (x : ValSizes) (update : SqlValue × SqlValue × SqlValue) : Udf ValSizes :=
  match update.1 with
  | .integer fieldId => do
    let code := typeArg s update.2.2
    match ← findField x.block shape fieldId (List.range columnCount) with
    | none =>
      if update.2.1 = .null then return x
      else match blobtypeVsArgtypeCompat update.2.1 code with
      | some size => return { x with columns := x.columns + 1, variableSize := x.variableSize + size }
      | none => throw .invalid
    | some icol =>
      let stored ← loadByte x.block (shape.typeCodesOffset + icol)
      if code ≠ stored then throw .invalid
      else do
        let b ← store x.block (shape.typeCodesOffset + icol) [code ||| dirty]
        -- a column that is deleted does not give its variable size back
        if update.2.1 = .null then return { x with block := b, columns := x.columns - 1 }
        else match blobtypeVsArgtypeCompat update.2.1 code with
        | some size => do
          let old ← storedSize b code (shape.storageOffset + icol * 8)
          return { x with block := b, variableSize := x.variableSize + size - old }
        | none => throw .invalid
  | _ => throw .invalid

/-- A stored value in the final pass of `bupdateval`. -/
def Writer.copyValue (b : List Byte) (storageOffset : Int) (w : Writer) : BlobType → Udf Writer
  | .string => do
    let val ← loadU64 b storageOffset
    let text ← load b (infoOffset val) (infoLen val + 1)
    let w ← w.word (bigEndian 8 (info w.variableOffset (infoLen val)))
    w.copyBytes text
  | .blob => do
    let val ← loadU64 b storageOffset
    let data ← load b (infoOffset val) (infoLen val)
    let w ← w.word (bigEndian 8 (info w.variableOffset (infoLen val)))
    w.copyBytes data
  | _ => do
    let word ← load b storageOffset 8
    w.word word

/-- A column in the final pass of `bupdateval`: those that are dirty are left out. -/
def Writer.copyColumn (b : List Byte) (shape : BlobShape) (w : Writer) (icol : Nat) : Udf Writer := do
  let code ← loadByte b (shape.typeCodesOffset + icol)
  match BlobType.ofCode? code with
  | none => return w
  | some type =>
    let w ← w.copyValue b (shape.storageOffset + icol * 8) type
    let w ← w.typeCode code
    let fieldId ← load b (shape.fieldIdsOffset + icol * 8) 8
    let w ← w.fieldId fieldId
    return w.next

/-- `bupdateval`. -/
def bupdateval (s : Sqlite) (junk : Nat → Byte) (argv : List SqlValue) : Udf (List Byte) :=
  if argv.length < 4 ∨ argv.length % 3 ≠ 1 then throw .invalid
  else match argv with
  | .blob b :: args => do
    let header ← readBlobHeader b
    if header.magic ≠ magic then throw .invalid
    else do
      let shape ← openBlob computeValBlobShape b header
      let updates := triples args
      let x ← updates.foldlM (checkValUpdate s shape header.columnCount.toNat) { block := b, columns := 0, variableSize := 0 }
      let columnCount : Int := header.columnCount.toNat + x.columns
      let newShape ← computeValBlobShape columnCount (b.length - shape.variableOffset + x.variableSize)
      let result ← malloc junk newShape.totalBytes
      let w ← updates.foldlM (Writer.valColumn s) (newShape.writer result)
      let w ← (List.range header.columnCount.toNat).foldlM (Writer.copyColumn x.block shape) w
      writeBlobHeader w.block { header with columnCount := BitVec.ofInt 32 columnCount }
  | _ => throw .invalid

/-! # What a blob holds

A blob stands for its record type and its cells: the values of its columns as they are stored. The layout gives the bytes of such a
record, one byte string for each, with the variable bytes in the order of the columns. -/

/-! ## Cells -/

/-- A stored value: a word, or the bytes of a string (without its NUL) or of a blob. -/
inductive Cell
  | fixed (type : BlobType) (word : List Byte)
  | string (bytes : List Byte)
  | blob (bytes : List Byte)
  deriving DecidableEq

/-- Words have eight bytes, and are not those of strings and blobs. -/
def Cell.WellFormed : Cell → Prop
  | .fixed type word => type ≠ .string ∧ type ≠ .blob ∧ word.length = 8
  | _ => True

def Cell.type : Cell → BlobType
  | .fixed type _ => type
  | .string _ => .string
  | .blob _ => .blob

/-- The variable bytes. -/
def Cell.extra : Cell → List Byte
  | .fixed _ _ => []
  | .string bytes => bytes ++ [0]
  | .blob bytes => bytes

/-- The word, when the variable bytes are at an offset. -/
def Cell.word (offset : Int) : Cell → List Byte
  | .fixed _ word => word
  | .string bytes => bigEndian 8 (info offset bytes.length)
  | .blob bytes => bigEndian 8 (info offset bytes.length)

/-- The value that is read. -/
def Cell.read : Cell → SqlValue
  | .fixed .bool word => .integer (if ofBigEndian word = 0 then 0 else 1)
  | .fixed .float word => .float (ofLittleEndian word)
  | .fixed _ word => .integer (ofBigEndian word)
  | .string bytes => .text bytes
  | .blob bytes => .blob bytes

/-- The cell of a value that is stored with a type code. -/
def cellOf (s : Sqlite) (code : Byte) (v : SqlValue) : Cell :=
  match BlobType.ofCode? code with
  | some .string => .string v.bytes
  | some .blob => .blob v.bytes
  | some type => .fixed type (fixedWord s type v)
  | none => .fixed .bool []

/-! ## Layouts -/

/-- The words of cells whose variable bytes begin at an offset. -/
def words (offset : Int) : List Cell → List (List Byte)
  | [] => []
  | c :: cells => c.word offset :: words (offset + c.extra.length) cells

/-- The type codes. -/
def codes (cells : List Cell) : List Byte := cells.map fun c => c.type.code

/-- The variable bytes of all cells. -/
def extras (cells : List Cell) : List Byte := cells.flatMap Cell.extra

/-- The areas of a blob. -/
def areas (head : List Byte) (ids words : List (List Byte)) (codes rest : List Byte) : List Byte :=
  head ++ (ids.flatten ++ (words.flatten ++ (codes ++ rest)))

/-- The bytes of a header. -/
def headerBytes (recordType : BitVec 64) (n : Nat) : List Byte :=
  bigEndian 8 recordType ++ (bigEndian 4 (magic.setWidth 64) ++ bigEndian 4 ((BitVec.ofNat 32 n).setWidth 64))

/-- The key blob of a record. -/
def keyBlob (recordType : BitVec 64) (cells : List Cell) : List Byte :=
  areas (headerBytes recordType cells.length) [] (words (16 + 9 * cells.length) cells) (codes cells) (extras cells)

/-- A column of a value blob. -/
structure Field where
  id : BitVec 64
  cell : Cell

/-- The value blob of a record, with some more bytes at its end. -/
def valBlob (recordType : BitVec 64) (fields : List Field) (slack : List Byte) : List Byte :=
  areas (headerBytes recordType fields.length) (fields.map fun f => bigEndian 8 f.id)
    (words (16 + 17 * fields.length) (fields.map Field.cell)) (codes (fields.map Field.cell))
    (extras (fields.map Field.cell) ++ slack)

end CgSql.Blobs
