import CgSql.Quoting

/-!
# Names and literals as text

The codecs of `encoders.c`: back-quoted names as identifiers (`cg_encode_qstr`, `cg_decode_qstr` and `cg_unquote_encoded_qstr`), SQL
string literals, and C string literals as the compiler itself reads them. `none` is a failed contract or a move outside of a buffer.
-/

namespace CgSql

namespace Codecs

open Byte

/-! ## Buffers -/

/-- The memory of a `charbuf` that is in use: its text and the null behind it. -/
abbrev Charbuf := Bytes

/-- The buffer with a text. -/
def charbuf (text : Bytes) : Charbuf := text ++ [0]

/-- `bputc`: the character takes the place of the null. -/
def bputc (buf : Charbuf) (c : Byte) : Charbuf := buf.dropLast ++ [c, 0]

/-- `memmove` of `n` bytes. -/
def memmove (mem : Bytes) (dst src n : Nat) : Option Bytes :=
  if src + n ≤ mem.length ∧ dst + n ≤ mem.length then some (mem.take dst ++ (mem.drop src).take n ++ mem.drop (dst + n)) else none

/-! ## Names -/

def backQuote : Byte := 96

/-- `X`. -/
def escapeX : Byte := 88

def underscore : Byte := 95

/-- The characters that stand for themselves. -/
def isKept (ch : Byte) : Bool :=
  (97 ≤ ch ∧ ch ≤ 122) ∨ (65 ≤ ch ∧ ch ≤ 90 ∧ ch ≠ escapeX) ∨ (48 ≤ ch ∧ ch ≤ 57) ∨ ch = underscore

/-- `X` and two hexadecimal digits. -/
def bputHex (buf : Charbuf) (ch : Byte) : Charbuf :=
  bputc (bputc (bputc buf escapeX) (hexDigit (ch / 16))) (hexDigit (ch % 16))

/-- The loop of `cg_encode_qstr`, up to the last character: the buffer, and whether a character was escaped. -/
def encodeLoop (buf : Charbuf) (usedHex : Bool) : Bytes → Option (Charbuf × Bool)
  | [] => some (buf, usedHex)
  | [_] => some (buf, usedHex)
  | ch :: next :: rest =>
    if isKept ch then encodeLoop (bputc buf ch) usedHex (next :: rest)
    else if ch = backQuote then if next = backQuote then encodeLoop (bputHex buf ch) true rest else none
    else encodeLoop (bputHex buf ch) true (next :: rest)

/-- `cg_encode_qstr`. The text that was added is moved by two, for the prefix. -/
def cgEncodeQstr (output : Charbuf) (qstr : Bytes) : Option Charbuf :=
  if qstr.head? = some backQuote ∧ 3 ≤ qstr.length ∧ qstr.getLast? = some backQuote then do
    let used := output.length
    let (output, usedHex) ← encodeLoop output false (qstr.drop 1)
    if usedHex then do
      let output := bputc (bputc output 36) 36
      let output ← memmove output (used + 1) (used - 1) (output.length - used - 2)
      return (output.set (used - 1) escapeX).set used underscore
    else return output
  else none

/-- `decode_hex_escape` behind its `x`: what is emitted, and the text that the caller's loop goes on with. -/
def decodeHexEscape : Bytes → Bytes × Bytes
  | h :: l :: rest =>
    match hexValue h, hexValue l with
    | some hi, some lo => (if hi * 16 + lo = 0 then [] else [Fin.ofNat 256 (hi * 16 + lo)], rest)
    | _, _ => ([], h :: l :: rest)
  | rest => ([], rest)

theorem decodeHexEscape_length (rest : Bytes) : (decodeHexEscape rest).2.length ≤ rest.length := by
  unfold decodeHexEscape
  split
  · split <;> simp only [List.length_cons] <;> omega
  · exact Nat.le_refl _

/-- The loop of `cg_decode_qstr`: a back quote that was decoded is doubled. -/
def decodeLoop (buf : Charbuf) : Bytes → Charbuf
  | [] => buf
  | c :: rest =>
    if c ≠ escapeX then decodeLoop (bputc buf c) rest
    else
      let buf := (decodeHexEscape rest).1.foldl bputc buf
      decodeLoop (if buf[buf.length - 2]? = some backQuote then bputc buf backQuote else buf) (decodeHexEscape rest).2
  termination_by qstr => qstr.length
  decreasing_by
    · simp only [List.length_cons]
      omega
    · have h := decodeHexEscape_length rest
      simp only [List.length_cons]
      omega

/-- `bprintf` of text. -/
def bprint (buf : Charbuf) (text : Bytes) : Charbuf := text.foldl bputc buf

/-- The name has the prefix `X_`. -/
def hasPrefix (qstr : Bytes) : Bool := qstr.head? = some escapeX ∧ (qstr.drop 1).head? = some underscore

/-- `cg_decode_qstr`. -/
def cgDecodeQstr (output : Charbuf) (qstr : Bytes) : Charbuf :=
  if ¬hasPrefix qstr then bprint output (backQuote :: qstr ++ [backQuote])
  else bputc (decodeLoop (bputc output backQuote) (qstr.drop 2)) backQuote

/-- The loop of `cg_unquote_encoded_qstr`. -/
def unquoteLoop (buf : Charbuf) : Bytes → Charbuf
  | [] => buf
  | c :: rest =>
    if c ≠ escapeX then unquoteLoop (bputc buf c) rest
    else unquoteLoop ((decodeHexEscape rest).1.foldl bputc buf) (decodeHexEscape rest).2
  termination_by qstr => qstr.length
  decreasing_by
    · simp only [List.length_cons]
      omega
    · have h := decodeHexEscape_length rest
      simp only [List.length_cons]
      omega

/-- `cg_unquote_encoded_qstr`. -/
def cgUnquoteEncodedQstr (output : Charbuf) (qstr : Bytes) : Charbuf :=
  if ¬hasPrefix qstr then bprint output qstr else unquoteLoop output (qstr.drop 2)

/-- A name that can be quoted. The empty one, which the lexer lets through, fails a contract of `cg_encode_qstr`. -/
structure QName where
  chars : Bytes
  nonempty : chars ≠ []
  noNull : 0 ∉ chars

/-- A back-quoted name: back quotes in it are doubled. -/
def QName.quoted (name : QName) : Bytes :=
  backQuote :: name.chars.flatMap (fun c => if c = backQuote then [c, c] else [c]) ++ [backQuote]

/-! ## String literals -/

/-- `cg_encode_string_literal`. -/
def cgEncodeStringLiteral (str : Bytes) : Bytes := squote :: str.flatMap (fun c => if c = squote then [c, c] else [c]) ++ [squote]

/-- The loop of `cg_decode_string_literal`. -/
def decodeStringLoop : Bytes → Bytes
  | [] => []
  | c :: rest =>
    if c = squote ∧ rest.head? = some squote then squote :: decodeStringLoop (rest.drop 1)
    else if c = squote then []
    else c :: decodeStringLoop rest
  termination_by str => str.length
  decreasing_by
    all_goals simp only [List.length_cons, List.length_drop]
    all_goals omega

/-- `cg_decode_string_literal`. -/
def cgDecodeStringLiteral (str : Bytes) : Bytes := decodeStringLoop (str.drop 1)

/-- The escapes of one letter that `cg_decode_c_string_literal` knows; other characters stand for themselves. -/
def decodeLetter (c : Byte) : Byte :=
  if c = 97 then 7 else if c = 98 then 8 else if c = 102 then 12 else if c = 110 then 10
  else if c = 114 then 13 else if c = 116 then 9 else if c = 118 then 11 else c

/-- The loop of `cg_decode_c_string_literal`, up to the closing quote. -/
def decodeCLoop : Bytes → Option Bytes
  | [] => none
  | c :: rest =>
    if c = quote then some []
    else if c ≠ backslash then (decodeCLoop rest).map (c :: ·)
    else
      match rest with
      | [] => none
      | e :: rest =>
        if e = 120 then (decodeCLoop (decodeHexEscape rest).2).map ((decodeHexEscape rest).1 ++ ·)
        else (decodeCLoop rest).map (decodeLetter e :: ·)
  termination_by str => str.length
  decreasing_by
    all_goals simp only [List.length_cons]
    all_goals first
      | omega
      | exact Nat.lt_succ_of_le (Nat.le_succ_of_le (decodeHexEscape_length _))

/-- `cg_decode_c_string_literal`. -/
def cgDecodeCStringLiteral (str : Bytes) : Option Bytes := if str.head? = some quote then decodeCLoop (str.drop 1) else none

end Codecs

end CgSql
