import CgSql.Serial

/-!
# The input of the varint readers

`cql_input_buf` of `cqlrt_common.c`, with its reads, and the varint codecs of both widths on it. What C leaves undefined, a read outside of the memory
that is there or a shift by the width or more, is `none`; a read that is refused is `none` within. Signed numbers are shifted as two's complement.
-/

namespace CgSql.Input

open Varint (zigzag unzigzag)

/-- `cql_input_buf`: a place in a memory, and what remains from there. -/
structure InputBuf where
  memory : List Varint.Byte
  data : Nat
  remaining : Nat

namespace InputBuf

/-- What remains is in the memory. -/
def Valid (buf : InputBuf) : Prop := buf.data + buf.remaining ≤ buf.memory.length

/-- The bytes that remain. -/
def input (buf : InputBuf) : List Varint.Byte := (buf.memory.drop buf.data).take buf.remaining

def advance (buf : InputBuf) (bytes : Nat) : InputBuf := { buf with data := buf.data + bytes, remaining := buf.remaining - bytes }

/-- `memcpy` from the place of the buffer. -/
def load (buf : InputBuf) (bytes : Nat) : Option (List Varint.Byte) :=
  if buf.data + bytes ≤ buf.memory.length then some ((buf.memory.drop buf.data).take bytes) else none

/-- `cql_input_read`. -/
def read (buf : InputBuf) (bytes : Nat) : Option (Option (List Varint.Byte) × InputBuf) :=
  if bytes > buf.remaining then some (none, buf)
  else (buf.load bytes).map fun dest => (some dest, buf.advance bytes)

/-- `x << n` of an unsigned number of `w` bits. -/
def shiftLeft {w : Nat} (x : BitVec w) (n : Nat) : Option (BitVec w) := if n < w then some (x <<< n) else none

/-- The loop of `cql_read_varint_32` and `cql_read_varint_64`, with the number of passes that are left. -/
def readVarintLoop {w : Nat} : (left offset : Nat) → (result : BitVec w) → InputBuf → Option (Option (BitVec w) × InputBuf)
  | 0, _, _, buf => some (none, buf)
  | left + 1, offset, result, buf => do
    match ← buf.read 1 with
    | (some [byte], buf) =>
      let result := result ||| (← shiftLeft ((byte &&& 0x7f).setWidth w) offset)
      if byte &&& 0x80 = 0 then return (some (unzigzag result), buf) else readVarintLoop left (offset + 7) result buf
    | (_, buf) => return (none, buf)

end InputBuf

/-- `cql_zigzag_encode_32`. -/
def zigzagEncode32 (i : BitVec 32) : BitVec 32 := zigzag i

/-- `cql_zigzag_decode_32`. -/
def zigzagDecode32 (i : BitVec 32) : BitVec 32 := unzigzag i

/-- `cql_zigzag_encode_64`. -/
def zigzagEncode64 (i : BitVec 64) : BitVec 64 := zigzag i

/-- `cql_zigzag_decode_64`. -/
def zigzagDecode64 (i : BitVec 64) : BitVec 64 := unzigzag i

/-- `cql_read_varint_32`. -/
def readVarint32 (buf : InputBuf) : Option (Option (BitVec 32) × InputBuf) := buf.readVarintLoop 5 0 0

/-- `cql_read_varint_64`. -/
def readVarint64 (buf : InputBuf) : Option (Option (BitVec 64) × InputBuf) := buf.readVarintLoop 10 0 0

/-- `cql_write_varint_32`: the bytes that it appends. -/
def writeVarint32 (si : BitVec 32) : List Varint.Byte := Serial.writeVarint (zigzagEncode32 si)

/-- `cql_write_varint_64`. -/
def writeVarint64 (si : BitVec 64) : List Varint.Byte := Serial.writeVarint (zigzagEncode64 si)

/-! ## Codecs -/

/-- A codec of at most `limit` bytes. -/
structure Codec {w : Nat} (limit : Nat) (encode decode : BitVec w → BitVec w) (write : BitVec w → List Varint.Byte)
    (read : InputBuf → Option (Option (BitVec w) × InputBuf)) : Prop where
  inverse : ∀ v, decode (encode v) = v
  bounded : ∀ v, (write v).length ≤ limit
  /-- What was written is read back, whatever follows, and nothing more is taken. -/
  roundTrip : ∀ v rest (buf : InputBuf), buf.Valid → buf.input = write v ++ rest → read buf = some (some v, buf.advance (write v).length)
  /-- Every input is read up to the limit and not further, and no byte behind it. -/
  stops : ∀ buf : InputBuf, buf.Valid → ∃ value n, read buf = some (value, buf.advance n) ∧ n ≤ limit ∧ n ≤ buf.remaining
  /-- Only inputs are refused of which the first bytes all continue. -/
  refused : ∀ buf : InputBuf, buf.Valid → ((∃ buf', read buf = some (none, buf')) ↔ ∀ b ∈ buf.input.take limit, b &&& 0x80 ≠ 0)

end CgSql.Input
