import CgSql.Serial

/-!
# Serialized cursors in Lua

The codec of `cqlrt.lua` for the same format: `cql_cursor_to_blob` and `cql_cursor_from_blob`. Integers have 64 bits, strings and
blobs are strings of bytes, and what goes wrong either raises an error or is returned as a code. A position in a string is
given by the bytes from there on.
-/

namespace CgSql.Serial

open Varint

/-! ## Lua -/

/-- Values other than `nil`. -/
inductive LuaValue
  | boolean (b : Bool)
  | integer (v : BitVec 64)
  | number (v : BitVec 64)
  | string (bytes : List Byte)
  deriving DecidableEq

/-- What ends a function early: an error that is raised, a return code, or the code `sqlite3.TYPE_MISMATCH`, which is no constant of
`lsqlite3`: it is `nil`, and so not `sqlite3.OK` either. -/
inductive Stop
  | raised
  | code (rc : Int)
  | typeMismatch
  deriving DecidableEq

abbrev Lua (α : Type) := Except Stop α

/-- Return a code if there is no value. -/
def Lua.check {α : Type} (rc : Int) : Option α → Lua α
  | some a => .ok a
  | none => .error (.code rc)

/-- `pcall`: the value, or nothing if an error is raised. -/
def pcall {α : Type} : Lua α → Option α
  | .ok a => some a
  | .error _ => none

/-- The columns' values as Lua has them. -/
def Value.toLua : Value → LuaValue
  | .int32 v => .integer (v.signExtend 64)
  | .int64 v => .integer v
  | .double v => .number v
  | .bool b => .boolean b
  | .string bytes | .blob bytes => .string bytes

/-! ## Encoding -/

/-- `cql_setbit`. -/
def luaSetBit (bits : List Byte) (i : Nat) : Lua (List Byte) :=
  if i / 8 < bits.length then .ok (setBit bits i) else .error .raised

/-- `cql_getbit`. -/
def luaGetBit (bits : List Byte) (i : Nat) : Option Bool :=
  if 1 + i / 8 > bits.length then none else some ((bits.getD (i / 8) 0) &&& (1 : Byte) <<< (i % 8) ≠ 0)

/-- `cql_zigzag_encode_64`. -/
def luaZigzag64 (x : BitVec 64) : BitVec 64 := if x.slt 0 then (x <<< 1) ^^^ -1 else x <<< 1

/-- `cql_zigzag_encode_32`. -/
def luaZigzag32 (x : BitVec 64) : BitVec 64 := luaZigzag64 x &&& 0xFFFFFFFF

/-- `cql_zigzag_decode`. -/
def luaUnzigzag (x : BitVec 64) : BitVec 64 := (x >>> 1) ^^^ -(x &&& 1)

/-- The loop of `cql_varint_encode`. -/
def varintEncodeLoop (x : BitVec 64) (result : List Byte) : List Byte :=
  if (0#64).slt x ∨ result = [] then
    let b := x &&& 0x7F
    let x' := x >>> 7
    let b := if (0#64).slt x' then b ||| 0x80 else b
    varintEncodeLoop x' (result ++ [b.setWidth 8])
  else result
termination_by x.toNat + (if result = [] then 1 else 0)
decreasing_by
  have hdiv : (x >>> 7).toNat = x.toNat / 128 := by rw [BitVec.toNat_ushiftRight, Nat.shiftRight_eq_div_pow]
  have happ : ∀ b : Byte, result ++ [b] ≠ [] := by simp
  rw [if_neg (happ _), hdiv]
  rcases ‹(0#64).slt x = true ∨ result = []› with h | h
  · have hpos : x.toNat ≠ 0 := by
      intro h0
      have : x = 0#64 := BitVec.eq_of_toNat_eq (by simpa using h0)
      rw [this] at h
      exact absurd h (by decide)
    split
    · omega
    · omega
  · rw [if_pos h]
    omega

/-- `cql_varint_encode`. -/
def varintEncode (x : BitVec 64) : List Byte := varintEncodeLoop x []

/-- `string.pack("z", value)`, which raises an error for a string with a NUL. -/
def packZ (bytes : List Byte) : Lua (List Byte) := if 0 ∈ bytes then .error .raised else .ok (bytes ++ [0])

/-- The pieces of a value that is not `nil`, where an operation on a value of another type raises an error. -/
def luaPiece : DataType → LuaValue → Lua (List Byte)
  | .bool, _ => .ok []
  | .int32, .integer x => .ok (varintEncode (luaZigzag32 x))
  | .int64, .integer x => .ok (varintEncode (luaZigzag64 x))
  | .string, .string bytes => packZ bytes
  | .blob, .string bytes => .ok (varintEncode (luaZigzag32 (BitVec.ofNat 64 bytes.length)) ++ bytes)
  | .double, .number x => .ok (littleEndian 8 x)
  | _, _ => .error .raised

/-- `cql_is_true`, for values that are not `nil`. -/
def LuaValue.isTrue (v : LuaValue) : Bool := v ≠ .boolean false ∧ v ≠ .integer 0 ∧ v ≠ .number 0

/-- The tables `bits` and `pieces`, and the indexes. -/
structure LuaWriter where
  bits : List Byte
  pieces : List Byte
  nullableIndex : Nat
  boolIndex : Nat

/-- The bits of a bool that is true. -/
def LuaWriter.setBool (w : LuaWriter) (nullables : Nat) (type : DataType) (v : LuaValue) : Lua (List Byte) :=
  if type = .bool ∧ v.isTrue then luaSetBit w.bits (nullables + w.boolIndex) else .ok w.bits

/-- One column of the loop of `cql_cursor_to_blob`. -/
def LuaWriter.column (nullables : Nat) (w : LuaWriter) (c : Column) (value : Option LuaValue) : Lua LuaWriter :=
  if c.notNull then do
    let v ← Lua.check (-1) value
    let bits ← w.setBool nullables c.type v
    let piece ← luaPiece c.type v
    return { w with bits := bits, pieces := w.pieces ++ piece, boolIndex := nextBool c w.boolIndex }
  else do
    let w ← match value with
      | none => pure w
      | some v =>
        let bits ← luaSetBit w.bits w.nullableIndex
        let bits ← { w with bits := bits }.setBool nullables c.type v
        let piece ← luaPiece c.type v
        pure { w with bits := bits, pieces := w.pieces ++ piece }
    return { w with nullableIndex := w.nullableIndex + 1, boolIndex := nextBool c w.boolIndex }

/-- The loop. -/
def LuaWriter.columns (nullables : Nat) (w : LuaWriter) : List Column → List (Option LuaValue) → Lua LuaWriter
  | c :: cols, v :: values => do (← w.column nullables c v).columns nullables cols values
  | _, _ => .ok w

/-- The type codes that count as nullable, and those that are bools. -/
def luaNullables (types : List Byte) : Nat := types.countP fun code => 97 ≤ code.toNat

def luaBools (types : List Byte) : Nat := types.countP fun code => code = 70 ∨ code = 102

/-- The string of type codes of a cursor. -/
def luaTypes (cols : List Column) : List Byte := cols.map Column.code

/-- `cql_cursor_to_blob`. -/
def cursorToBlob {sh : Shape} (row : Row sh) : Lua (List Byte) := do
  let types := luaTypes sh.columns
  let bits := List.replicate ((luaNullables types + luaBools types + 7) / 8) 0
  let w ← LuaWriter.columns (luaNullables types) { bits := bits, pieces := [], nullableIndex := 0, boolIndex := 0 } sh.columns
    (row.values.map (·.map Value.toLua))
  return types ++ [0] ++ w.bits ++ w.pieces

/-! ## Decoding -/

/-- The loop of `cql_varint_decode`. -/
def varintDecodeLoop : Nat → BitVec 64 → Nat → List Byte → Option (BitVec 64 × List Byte)
  | 0, _, _, _ => none
  | _ + 1, _, _, [] => none
  | lim + 1, result, shift, b :: rest =>
    let result := result ||| ((b.setWidth 64 &&& 0x7F) <<< shift)
    if b.toNat < 0x80 then some (result, rest) else varintDecodeLoop lim result (shift + 7) rest

/-- `cql_varint_decode`. -/
def varintDecode (lim : Nat) (x : List Byte) : Option (BitVec 64 × List Byte) :=
  (varintDecodeLoop lim 0 0 x).map fun r => (luaUnzigzag r.1, r.2)

/-- `string.unpack("z", …)`, which raises an error where there is no NUL. -/
def unpackZ (str : List Byte) : Lua (List Byte × List Byte) :=
  if 0 ∈ str then .ok (str.takeWhile (· ≠ 0), (str.dropWhile (· ≠ 0)).drop 1) else .error .raised

/-- `string.unpack("d", …)`. -/
def unpackD (str : List Byte) : Lua (BitVec 64 × List Byte) :=
  if 8 ≤ str.length then .ok (ofLittleEndian (str.take 8), str.drop 8) else .error .raised

/-- `string.unpack("c" .. size, …)`: a size that is negative makes the format wrong. -/
def unpackC (str : List Byte) (size : BitVec 64) : Lua (List Byte × List Byte) :=
  if size.slt 0 then .error .raised
  else if size.toNat ≤ str.length then .ok (str.take size.toNat, str.drop size.toNat)
  else .error .raised

/-- What `cql_empty_cursor` puts in a column. -/
def luaEmpty (c : Column) : Option LuaValue :=
  if c.notNull then
    match c.type with
    | .bool => some (.boolean false)
    | .int32 | .int64 => some (.integer 0)
    | .double => some (.number 0)
    | .string | .blob => none
  else none

/-- The column that a type code is for. -/
def Column.ofCode? (code : Byte) : Option Column :=
  [DataType.int32, .int64, .double, .bool, .string, .blob].findSome? fun t =>
    if code = t.letter then some ⟨t, true⟩ else if code = t.letter + 32 then some ⟨t, false⟩ else none

/-- The rest of the buffer and the indexes. -/
structure LuaReader where
  rest : List Byte
  nullableIndex : Nat
  boolIndex : Nat

/-- The codes that are returned for what is missing: the value of a NOT NULL column, the null bit of a nullable one, and its value.
A blob has a second one for its bytes. -/
def DataType.notNullCodes : DataType → Int × Int
  | .bool => (-1, -1)
  | .int32 => (-4, -4)
  | .int64 => (-7, -7)
  | .double => (-10, -10)
  | .string => (-13, -13)
  | .blob => (-16, -17)

def DataType.nullBitCode : DataType → Int
  | .bool => -2
  | .int32 => -5
  | .int64 => -8
  | .double => -11
  | .string => -14
  | .blob => -18

def DataType.nullableCodes : DataType → Int × Int
  | .bool => (-3, -3)
  | .int32 => (-6, -6)
  | .int64 => (-9, -9)
  | .double => (-12, -12)
  | .string => (-15, -15)
  | .blob => (-19, -20)

/-- A value that is there. -/
def LuaReader.value (bits : List Byte) (nullables : Nat) (r : LuaReader) (rc : Int × Int) : DataType → Lua (LuaValue × LuaReader)
  | .bool => do
    let b ← Lua.check rc.1 (luaGetBit bits (nullables + r.boolIndex))
    return (.boolean b, r)
  | .int32 => do
    let x ← Lua.check rc.1 (varintDecode 5 r.rest)
    return (.integer x.1, { r with rest := x.2 })
  | .int64 => do
    let x ← Lua.check rc.1 (varintDecode 10 r.rest)
    return (.integer x.1, { r with rest := x.2 })
  | .double => do
    let x ← Lua.check rc.1 (pcall (unpackD r.rest))
    return (.number x.1, { r with rest := x.2 })
  | .string => do
    let x ← Lua.check rc.1 (pcall (unpackZ r.rest))
    return (.string x.1, { r with rest := x.2 })
  | .blob => do
    let size ← Lua.check rc.1 (varintDecode 5 r.rest)
    let x ← Lua.check rc.2 (pcall (unpackC size.2 size.1))
    return (.string x.1, { r with rest := x.2 })

/-- A value that is there if the bit is set; without one the column stays as it is. -/
def LuaReader.optional (bits : List Byte) (nullables : Nat) (r : LuaReader) (default : Option LuaValue) (t : DataType) :
    Bool → Lua (Option LuaValue × LuaReader)
  | true => do
    let x ← r.value bits nullables t.nullableCodes t
    return (some x.1, x.2)
  | false => .ok (default, r)

/-- The indexes after a column. -/
def LuaReader.next (r : LuaReader) (c : Column) : LuaReader :=
  { r with
    nullableIndex := if c.notNull then r.nullableIndex else r.nullableIndex + 1
    boolIndex := nextBool c r.boolIndex }

/-- One column of the last loop of `cql_cursor_from_blob`: the code of the stored column decides, and without one of the known codes
or without a value the column stays as it is. -/
def LuaReader.column (bits : List Byte) (nullables : Nat) (r : LuaReader) (default : Option LuaValue) (code : Byte) :
    Lua (Option LuaValue × LuaReader) :=
  match Column.ofCode? code with
  | none => .ok (default, r)
  | some ⟨t, true⟩ => do
    let x ← r.value bits nullables t.notNullCodes t
    return (some x.1, x.2.next ⟨t, true⟩)
  | some ⟨t, false⟩ => do
    let bit ← Lua.check t.nullBitCode (luaGetBit bits r.nullableIndex)
    let x ← r.optional bits nullables default t bit
    return (x.1, x.2.next ⟨t, false⟩)

/-- The last loop, over the columns that are both needed and stored. -/
def LuaReader.columns (bits : List Byte) (nullables : Nat) : LuaReader → List Column → List Byte → Lua (List (Option LuaValue))
  | r, c :: cols, code :: types => do
    let x ← r.column bits nullables (luaEmpty c) code
    let values ← LuaReader.columns bits nullables x.2 cols types
    return x.1 :: values
  | _, cols, _ => .ok (cols.map luaEmpty)

/-- The checks of the type codes that are stored against those that are needed. -/
def luaCheckTypes : List Column → List Byte → Lua Unit
  | c :: cols, code :: types =>
    if c.code = code ∨ code.toNat + 32 = c.code.toNat then luaCheckTypes cols types else .error .typeMismatch
  | cols, [] => if cols.any fun c => c.code.toNat < 97 then .error .typeMismatch else .ok ()
  | [], _ => .ok ()

/-- `cql_cursor_from_blob`: the columns of the row. -/
def cursorFromBlob (needed : Shape) (buffer : List Byte) : Lua (List (Option LuaValue)) := do
  let x ← Lua.check (-104) (pcall (unpackZ buffer))
  luaCheckTypes needed.columns x.1
  let bytes := (luaNullables x.1 + luaBools x.1 + 7) / 8
  LuaReader.columns (x.2.take bytes) (luaNullables x.1)
    { rest := x.2.drop bytes, nullableIndex := 0, boolIndex := 0 } needed.columns x.1

end CgSql.Serial
