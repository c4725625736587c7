import CgSql.LuaSerial

/-!
# Blob streams in Lua

`cql_make_blob_stream`, `cql_blob_stream_count` and `cql_cursor_from_blob_stream` of `cqlrt.lua`: a count, the offsets where the blobs end, and
the blobs.
-/

namespace CgSql.LuaStream

open Serial (Lua Stop Shape LuaValue littleEndian ofLittleEndian cursorFromBlob)

/-! ## Strings of bytes -/

abbrev Byte := Serial.Byte

/-- `string.pack("<i4", n)`, which raises an error for a number that does not fit. -/
def packI4 (n : Int) : Lua (List Byte) :=
  if -2 ^ 31 ≤ n ∧ n < 2 ^ 31 then .ok (littleEndian 4 (BitVec.ofInt 64 n)) else .error .raised

/-- The number in four bytes. -/
def intOfBytes (bytes : List Byte) : Int := ((ofLittleEndian bytes).setWidth 32).toInt

/-- `string.unpack("<i4", b, 1 + offset)`, which raises an error where fewer than four bytes are left. -/
def unpackI4 (b : List Byte) (offset : Nat) : Lua Int :=
  if offset + 4 ≤ b.length then .ok (intOfBytes ((b.drop offset).take 4)) else .error .raised

/-- `string.sub(s, i, j)`: from the `i`th byte to the `j`th, where a negative number counts from the end. -/
def stringSub (s : List Byte) (i j : Int) : List Byte :=
  let first : Int := if 0 < i then i else if i = 0 ∨ i < -s.length then 1 else s.length + i + 1
  let last : Int := if s.length < j then s.length else if 0 ≤ j then j else if j < -s.length then 0 else s.length + j + 1
  (s.take last.toNat).drop (first.toNat - 1)

/-! ## Making -/

/-- The first loop of `cql_make_blob_stream`: the offsets where the blobs end. -/
def packOffsets : Int → List (List Byte) → Lua (List Byte)
  | _, [] => .ok []
  | offsetNext, blob :: blobs => do
    let offsetNext := offsetNext + blob.length
    let word ← packI4 offsetNext
    let words ← packOffsets offsetNext blobs
    return word ++ words

/-- `cql_make_blob_stream`. -/
def cqlMakeBlobStream (blobList : List (List Byte)) : Lua (List Byte) := do
  let count ← packI4 blobList.length
  let offsets ← packOffsets ((1 + blobList.length) * 4) blobList
  return count ++ offsets ++ blobList.flatten

/-! ## Reading -/

/-- `cql_blob_stream_count`. -/
def cqlBlobStreamCount (b : List Byte) : Lua Int := if b.length < 4 then .ok 0 else unpackI4 b 0

/-- The part of `cql_cursor_from_blob_stream` in front of the call to `cql_cursor_from_blob`: the string that is handed to it. -/
def blobAt (b : List Byte) (index : Int) : Lua (List Byte) :=
  if b.length < 4 then .error (.code (-1))
  else do
    let count ← unpackI4 b 0
    if index < 0 ∨ index ≥ count ∨ (index + 1) * 4 ≥ b.length then .error (.code (-2))
    else do
      let stop ← unpackI4 b ((index + 1) * 4).toNat
      if stop > b.length then .error (.code (-3))
      else do
        let start ← (if index > 0 then unpackI4 b (index * 4).toNat else pure ((count + 1) * 4))
        if start > stop then .error (.code (-4)) else return stringSub b (start + 1) (stop + 1)

/-- `cql_cursor_from_blob_stream`: the columns of the row. -/
def cursorFromBlobStream (needed : Shape) (b : List Byte) (index : Int) : Lua (List (Option LuaValue)) := do
  let blob ← blobAt b index
  cursorFromBlob needed blob

/-! ## Conditions -/

/-- A string of bytes can be decoded. -/
def Decodes (needed : Shape) (blob : List Byte) : Prop := ∃ row, cursorFromBlob needed blob = .ok row

/-- A counted entry whose end lies beyond the last of the bytes, but not all of it. -/
structure OffsetCut (b : List Byte) (index : Int) : Prop where
  header : 4 ≤ b.length
  counted : 0 ≤ index ∧ index < intOfBytes (b.take 4)
  starts : (index + 1) * 4 < b.length
  cut : b.length < (index + 2) * 4

/-- A blob that cannot be decoded by itself, but can with the first byte behind it. -/
def Completed (needed : Shape) (blobs : List (List Byte)) (i : Nat) : Prop :=
  ∃ blob next, blobs[i]? = some blob ∧ (blobs.drop (i + 1)).flatten.head? = some next ∧ ¬Decodes needed blob ∧ Decodes needed (blob ++ [next])

end CgSql.LuaStream
