import CgSql.Lib.Probing
import CgSql.Lib.Utf8

/-!
# Compressed text

With `--compress`, a text is cut into pieces that are stored once, in one table, and the text is a list of offsets into the table. Table
and list are written as C string literals, so a model of how a C compiler reads literals comes with the one of how the runtime expands
the list. Offsets are of type `int32_t`; a number is kept modulo `2 ^ 32`, and is negative from `2 ^ 31` on.
-/

namespace CgSql

/-- A byte of a C string. -/
abbrev Byte := Fin 256

instance lawfulBEqByte : LawfulBEq Byte := inferInstance

/-- The text of a C string, without the NUL at its end. -/
abbrev Bytes := List Byte

namespace Byte

def quote : Byte := 34

def question : Byte := 63

def backslash : Byte := 92

/-- The digit for a number below 16, in lower case (`emit_hex_digit`). -/
def hexDigit (n : Nat) : Byte := Fin.ofNat 256 (if n < 10 then n + 48 else n - 10 + 97)

/-- `\xHH`, the two digits in lower case. -/
def hexEscape (n : Nat) : Bytes := [backslash, 120, hexDigit (n / 16), hexDigit (n % 16)]

end Byte

open Byte

/-! ## Encoding -/

/-- `cg_encode_char_as_c_string_literal`. A `char` is signed, so that the bytes from 128 on are below 32. -/
def cgEncodeCharAsCStringLiteral (c : Byte) : Bytes :=
  if c = quote then [backslash, quote]
  else if c = 7 then [backslash, 97]
  else if c = 8 then [backslash, 98]
  else if c = 12 then [backslash, 102]
  else if c = 10 then [backslash, 110]
  else if c = 13 then [backslash, 114]
  else if c = 9 then [backslash, 116]
  else if c = 11 then [backslash, 118]
  else if c = backslash then [backslash, backslash]
  else if c < 32 ∨ 128 ≤ c then hexEscape c
  else [c]

/-- The bytes `cg_varinteger` writes for a 32-bit number, the lowest seven bits first; at most five of them. The test for another byte
is one of signed numbers. -/
def varintegerBytes : Nat → Nat → List Nat
  | 0, _ => []
  | rounds + 1, val =>
    (val % 128 + if 0x7f < val ∧ val < 2 ^ 31 then 128 else 0) ::
      if val / 128 = 0 then [] else varintegerBytes rounds (val / 128)

/-- `cg_varinteger`. -/
def cgVarinteger (val : Nat) : Bytes := (varintegerBytes 5 val).flatMap hexEscape

/-- An `int32_t`. -/
def int32 (n : Nat) : Nat := n % 2 ^ 32

/-! ## The symbol table -/

/-- `symtab`, for names with the offsets of pieces: the table of `SymbolTable` while its size fits `uint32_t`, and so without its errors. -/
structure Symtab where
  payload : Probing.Slots Bytes Nat
  count : Nat

/-- `hash_case_sens`. -/
def hashCaseSens (sym : Bytes) : Nat :=
  let hash : BitVec 64 :=
    sym.foldl (fun (hash : BitVec 64) byte => ((hash <<< 5) ||| (hash >>> 27)) ^^^ BitVec.ofNat 64 byte.val) 0
  (hash ^^^ (hash >>> 32)).toNat % 2 ^ 32

/-- `symtab_new_case_sens`, with `SYMTAB_INIT_SIZE` slots. -/
def symtabNew : Symtab := ⟨List.replicate 4 none, 0⟩

/-- `symtab_find`. -/
def symtabFind (syms : Symtab) (sym : Bytes) : Option Nat := Probing.find hashCaseSens syms.payload sym

/-- `symtab_rehash`: the entries are added to a table twice as large, which adding them does not fill up again. -/
def symtabRehash (syms : Symtab) : Symtab :=
  let entries := syms.payload.filterMap id
  ⟨Probing.placeAll hashCaseSens (List.replicate (2 * syms.payload.length) none) entries, entries.length⟩

/-- `symtab_add`, with `SYMTAB_LOAD_FACTOR` three quarters. -/
def symtabAdd (syms : Symtab) (sym : Bytes) (val : Nat) : Symtab :=
  match Probing.place hashCaseSens syms.payload (sym, val) with
  | none => syms
  | some payload =>
    let syms := ⟨payload, syms.count + 1⟩
    if 3 * syms.payload.length < 4 * syms.count then symtabRehash syms else syms

/-! ## Pieces -/

/-- The pieces so far: `text_pieces`, `piece_last_offset` and the literals in `cg_pieces_output`. -/
structure Pieces where
  textPieces : Symtab
  lastOffset : Nat
  output : List Bytes

/-- No pieces yet. -/
def Pieces.new : Pieces := ⟨symtabNew, 0, []⟩

/-- `cg_intern_piece`: the offset of a piece, which is written with a NUL if it is new. -/
def cgInternPiece (str : Bytes) (len : Nat) (s : Pieces) : Nat × Pieces :=
  match symtabFind s.textPieces str with
  | some offset => (offset, s)
  | none =>
    (s.lastOffset,
      { textPieces := symtabAdd s.textPieces str s.lastOffset
        lastOffset := int32 (s.lastOffset + (len + 1))
        output := s.output ++ [str ++ [backslash, 48]] })

/-- `cg_flush_piece`: what is written for a piece, and the pieces after it. -/
def cgFlushPiece (piece : Bytes) (s : Pieces) : Bytes × Pieces :=
  let (offset, s) := cgInternPiece (piece.flatMap cgEncodeCharAsCStringLiteral) piece.length s
  (cgVarinteger (int32 (offset + 1)), s)

/-- Letters, `@` among the capital ones, and digits. -/
def isAlphaish (ch : Byte) : Bool := decide ((97 ≤ ch ∧ ch ≤ 122) ∨ (64 ≤ ch ∧ ch ≤ 90) ∨ (48 ≤ ch ∧ ch ≤ 57))

/-- The state for a character: 0 for whitespace, 1 for letters and digits, 2 for the rest. -/
def charState (ch : Byte) : Nat := if ch = 32 ∨ ch = 10 then 0 else if isAlphaish ch then 1 else 2

/-- The loop of `cg_statement_pieces`, which flushes pieces: `pending` is the text from `start` to `cur`. The character after a space
that ends a piece is skipped: only whether it starts a run of letters is noted. -/
def statementPieces (pending : Bytes) (prevState : Nat) : Bytes → List Bytes
  | [] => if pending = [] then [] else [pending]
  | ch :: rest =>
    if prevState = charState ch then statementPieces (pending ++ [ch]) prevState rest
    else if pending.length ≤ 4 ∧ charState ch = 0 then statementPieces (pending ++ [ch]) 0 rest
    else if charState ch = 0 then
      (pending ++ [ch]) :: match rest with
        | [] => []
        | ch :: rest => statementPieces [ch] (if isAlphaish ch ∨ ch = 95 then 1 else 0) rest
    else if pending = [] then statementPieces [ch] (charState ch) rest
    else pending :: statementPieces [ch] (charState ch) rest

/-- Flush pieces one after another. -/
def cgFlushPieces : List Bytes → Pieces → Bytes × Pieces
  | [], s => ([], s)
  | piece :: rest, s =>
    let (out, s) := cgFlushPiece piece s
    let (outs, s) := cgFlushPieces rest s
    (out ++ outs, s)

/-- The pieces of a text. -/
def piecesOf (text : Bytes) : List Bytes := statementPieces [] 0 text

/-- `cg_statement_pieces`: the literal of a text, without its quotes, and the pieces after it. -/
def cgStatementPieces (text : Bytes) (s : Pieces) : Bytes × Pieces :=
  let (out, s) := cgFlushPieces (piecesOf text) s
  (cgVarinteger (int32 (text.length + 1)) ++ out, s)

/-- Compress texts one after another. -/
def compressAll : List Bytes → Pieces → List Bytes × Pieces
  | [], s => ([], s)
  | text :: rest, s =>
    let (lit, s) := cgStatementPieces text s
    let (lits, s) := compressAll rest s
    (lit :: lits, s)

/-! ## How a C compiler reads a literal -/

/-- The character a trigraph `??c` stands for. -/
def trigraph (c : Byte) : Option Byte :=
  if c = 61 then some 35          -- `#`
  else if c = 47 then some backslash
  else if c = 39 then some 94     -- `^`
  else if c = 40 then some 91     -- `[`
  else if c = 41 then some 93     -- `]`
  else if c = 33 then some 124    -- `|`
  else if c = 60 then some 123    -- an opening brace
  else if c = 62 then some 125    -- a closing brace
  else if c = 45 then some 126    -- `~`
  else none

/-- The first phase of translation. -/
def replaceTrigraphs : Bytes → Bytes
  | a :: b :: c :: cs =>
    match (if a = question ∧ b = question then trigraph c else none) with
    | some r => r :: replaceTrigraphs cs
    | none => a :: replaceTrigraphs (b :: c :: cs)
  | cs => cs

/-- The value of a hexadecimal digit. -/
def hexValue (c : Byte) : Option Nat :=
  if 48 ≤ c ∧ c ≤ 57 then some (c - 48) else if 97 ≤ c ∧ c ≤ 102 then some (c - 87)
  else if 65 ≤ c ∧ c ≤ 70 then some (c - 55) else none

/-- The value of an octal digit. -/
def octalValue (c : Byte) : Option Nat := if 48 ≤ c ∧ c ≤ 55 then some (c - 48) else none

/-- The character a simple escape sequence stands for. -/
def simpleEscape (c : Byte) : Option Byte :=
  if c = quote ∨ c = 39 ∨ c = question ∨ c = backslash then some c
  else if c = 97 then some 7 else if c = 98 then some 8 else if c = 102 then some 12 else if c = 110 then some 10
  else if c = 114 then some 13 else if c = 116 then some 9 else if c = 118 then some 11 else none

/-- Where a compiler is in a literal: between characters, after a backslash, or in a numeric escape sequence with some digits so far.
A hexadecimal one is as long as there are digits, an octal one has at most three. -/
inductive InLiteral
  | plain
  | escape
  | hex (digits val : Nat)
  | octal (digits val : Nat)
  deriving DecidableEq

namespace InLiteral

/-- The character of a numeric escape sequence: it has a digit and is in range. -/
def char (digits val : Nat) : Option Byte := if h : digits ≠ 0 ∧ val < 256 then some ⟨val, h.2⟩ else none

/-- Read a character outside of escape sequences. -/
def readPlain (c : Byte) : Option (Bytes × InLiteral) :=
  if c = backslash then some ([], escape) else if c = quote ∨ c = 10 then none else some ([c], plain)

/-- Read a character. -/
def read (c : Byte) : InLiteral → Option (Bytes × InLiteral)
  | plain => readPlain c
  | escape =>
    if c = 120 then some ([], hex 0 0)
    else match octalValue c with
      | some d => some ([], octal 1 d)
      | none => (simpleEscape c).map fun b => ([b], plain)
  | hex digits val =>
    match hexValue c with
    | some d => some ([], hex (digits + 1) (val * 16 + d))
    | none => do
      let b ← char digits val
      let (out, s) ← readPlain c
      return (b :: out, s)
  | octal digits val =>
    match (if digits < 3 then octalValue c else none) with
    | some d => some ([], octal (digits + 1) (val * 8 + d))
    | none => do
      let b ← char digits val
      let (out, s) ← readPlain c
      return (b :: out, s)

/-- The literal ends. -/
def finish : InLiteral → Option Bytes
  | plain => some []
  | escape => none
  | hex digits val | octal digits val => do return [← char digits val]

/-- Read the rest of a literal. -/
def readAll (s : InLiteral) : Bytes → Option Bytes
  | [] => s.finish
  | c :: cs => do
    let (out, s) ← s.read c
    return out ++ (← s.readAll cs)

end InLiteral

/-- The bytes of a string literal, with trigraphs replaced or not. -/
def readLiteral (trigraphs : Bool) (src : Bytes) : Option Bytes :=
  InLiteral.plain.readAll (if trigraphs then replaceTrigraphs src else src)

/-- Adjacent literals are one array, with a NUL at its end. -/
def readLiterals (trigraphs : Bool) : List Bytes → Option Bytes
  | [] => some [0]
  | lit :: lits => do return (← readLiteral trigraphs lit) ++ (← readLiterals trigraphs lits)

/-! ## Expansion -/

/-- `cql_decode`, with what it read so far. -/
def decodeFrom (out offset : Nat) : Bytes → Option (Nat × Bytes)
  | [] => none
  | byte :: data =>
    let out := out ||| ((byte % 128 : Nat) <<< offset)
    if 128 ≤ byte then decodeFrom out (offset + 7) data else some (int32 out, data)

/-- `cql_decode`: a number and the data after it. -/
def cqlDecode (data : Bytes) : Option (Nat × Bytes) := decodeFrom 0 0 data

/-- The C string at an offset, if it starts and ends inside of the array. -/
def cString (base : Bytes) (offset : Nat) : Option Bytes :=
  if offset < 2 ^ 31 ∧ 0 ∈ base.drop offset then some ((base.drop offset).takeWhile (· ≠ 0)) else none

/-- The loop of `cql_expand_frags`; each round takes a byte or more. -/
def expandFrags (base : Bytes) : Nat → Bytes → Option Bytes
  | 0, _ => none
  | rounds + 1, frags => do
    let (offset, frags) ← cqlDecode frags
    if offset = 0 then return [0] else return (← cString base (offset - 1)) ++ (← expandFrags base rounds frags)

/-- `cql_expand_frags`: the bytes written, the NUL among them. -/
def cqlExpandFrags (base frags : Bytes) : Option Bytes := expandFrags base frags.length frags

/-- `cql_uncompress`: the size of the buffer and what is written to it. The first byte is not NUL by contract. `cql_prepare_frags` and
`cql_exec_frags` do the same without the contract. -/
def cqlUncompress (base frags : Bytes) : Option (Nat × Bytes) :=
  if frags.head? = some 0 then none
  else do
    let (len, frags) ← cqlDecode frags
    return (len, ← cqlExpandFrags base frags)

end CgSql
