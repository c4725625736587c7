import CgSql.Lib.Utf8
import CgSql.Quoting

/-!
# JSON strings

`cg_encode_json_string_literal` and `cg_pretty_quote_plaintext` with `PRETTY_QUOTE_JSON`, of `encoders.c`, and what a
JSON parser reads in their strings.
-/

namespace CgSql

open Byte

/-! ## Encoding -/

/-- `cg_encode_char_as_json_string_literal`. A `char` is signed, so that the bytes from 128 on are below 32. -/
def cgEncodeCharAsJsonStringLiteral (c : Byte) : Bytes :=
  if c = quote then [backslash, quote]
  else if c = backslash then [backslash, backslash]
  else if c = 8 then [backslash, 98]
  else if c = 12 then [backslash, 102]
  else if c = 10 then [backslash, 110]
  else if c = 13 then [backslash, 114]
  else if c = 9 then [backslash, 116]
  else if c < 32 ∨ 128 ≤ c then [backslash, 117, 48, 48, hexDigit (c / 16), hexDigit (c % 16)]
  else [c]

/-- `utf8_sequence_length`. -/
def utf8SequenceLength (leadByte : Byte) : Nat :=
  if leadByte.val &&& 0x80 = 0x00 then 1
  else if leadByte.val &&& 0xE0 = 0xC0 then 2
  else if leadByte.val &&& 0xF0 = 0xE0 then 3
  else if leadByte.val &&& 0xF8 = 0xF0 then 4
  else 0

/-- `is_utf8_continuation`. -/
def isUtf8Continuation (byte : Byte) : Bool := byte.val &&& 0xC0 = 0x80

/-- The loop of `valid_utf8_sequence` over the continuation bytes, from offset `i` on. A byte behind the end of the memory is `none`. -/
def continuationsFrom (p : Bytes) (i : Nat) : (count : Nat) → Option Bool
  | 0 => some true
  | count + 1 => do
    let byte ← p[i]?
    if byte = 0 ∨ ¬isUtf8Continuation byte then return false
    else continuationsFrom p (i + 1) count

/-- The bits that a continuation byte contributes. -/
def continuationBits (byte : Byte) : Nat := byte.val &&& 0x3F

/-- The switch of `valid_utf8_sequence` over the length: the code point is in the range of the length. -/
def validCodepoint (p : Bytes) : Nat → Option Bool
  | 2 => do
    let codepoint := (((← p[0]?).val &&& 0x1F) <<< 6) ||| continuationBits (← p[1]?)
    return ¬codepoint < 0x80
  | 3 => do
    let codepoint := (((← p[0]?).val &&& 0x0F) <<< 12) ||| (continuationBits (← p[1]?) <<< 6) ||| continuationBits (← p[2]?)
    return ¬codepoint < 0x800 ∧ ¬(codepoint ≥ 0xD800 ∧ codepoint ≤ 0xDFFF)
  | 4 => do
    let codepoint := (((← p[0]?).val &&& 0x07) <<< 18) ||| (continuationBits (← p[1]?) <<< 12) |||
      (continuationBits (← p[2]?) <<< 6) ||| continuationBits (← p[3]?)
    return ¬codepoint < 0x10000 ∧ ¬codepoint > 0x10FFFF
  | _ => some true

/-- `valid_utf8_sequence`. -/
def validUtf8Sequence (p : Bytes) : Option Nat := do
  let len := utf8SequenceLength (← p[0]?)
  if len = 0 then return 0
  else if len = 1 then return 1
  else if ¬(← continuationsFrom p 1 (len - 1)) then return 0
  else if isUtf8Continuation (← p[len]?) then return 0
  else if ← validCodepoint p len then return len
  else return 0

/-- The loop of `cg_encode_json_string_literal`, over the memory from the pointer on. -/
def encodeJsonFrom (p : Bytes) : Option Bytes :=
  match p with
  | [] => none
  | c :: rest =>
    if c = 0 then some [quote]
    else do
      let seqLen ← if 0x80 ≤ c then validUtf8Sequence (c :: rest) else some 0
      if 1 < seqLen then return (c :: rest.take (seqLen - 1)) ++ (← encodeJsonFrom (rest.drop (seqLen - 1)))
      else return cgEncodeCharAsJsonStringLiteral c ++ (← encodeJsonFrom rest)
  termination_by p.length
  decreasing_by
    all_goals simp only [List.length_cons, List.length_drop]
    all_goals omega

/-- `cg_encode_json_string_literal`, for the memory that a string starts in. -/
def cgEncodeJsonStringLiteral (str : Bytes) : Option Bytes := (encodeJsonFrom str).map (quote :: ·)

/-- `cg_pretty_quote_plaintext`, with each of its flags. -/
def cgPrettyQuoteIn (forJson multiLine : Bool) (str : Bytes) : Bytes :=
  quote :: prettyQuoteFrom (if forJson then cgEncodeCharAsJsonStringLiteral else cgEncodeCharAsCStringLiteral) multiLine true false str

/-! ## Reading -/

/-- The character of a simple escape. -/
def jsonSimpleEscape (c : Byte) : Option Nat :=
  if c = quote ∨ c = backslash ∨ c = 47 then some c
  else if c = 98 then some 8
  else if c = 102 then some 12
  else if c = 110 then some 10
  else if c = 114 then some 13
  else if c = 116 then some 9
  else none

/-- An escape behind its backslash, and the text behind it. Two escapes of surrogates are left as two numbers. -/
def readJsonEscape : Bytes → Option (Nat × Bytes)
  | [] => none
  | c :: rest =>
    if c = 117 then do
      let a ← hexValue (← rest[0]?)
      let b ← hexValue (← rest[1]?)
      let c ← hexValue (← rest[2]?)
      let d ← hexValue (← rest[3]?)
      return (((a * 16 + b) * 16 + c) * 16 + d, rest.drop 4)
    else (jsonSimpleEscape c).map (·, rest)

theorem readJsonEscape_length {bytes rest : Bytes} {cp : Nat} (h : readJsonEscape bytes = some (cp, rest)) : rest.length ≤ bytes.length := by
  cases bytes with
  | nil => cases h
  | cons c cs =>
    have hdrop := List.length_drop (i := 4) (l := cs)
    rw [readJsonEscape] at h
    split at h
    · simp only [Option.bind_eq_bind, Option.bind_eq_some_iff, Option.pure_def, Option.some.injEq, Prod.mk.injEq] at h
      obtain ⟨-, -, -, -, -, -, -, -, -, -, -, -, -, -, -, -, -, rfl⟩ := h
      simp only [List.length_drop, List.length_cons]
      omega
    · simp only [Option.map_eq_some_iff, Prod.mk.injEq] at h
      obtain ⟨-, -, -, rfl⟩ := h
      exact Nat.le_succ _

/-- A string behind its first quote, in UTF-8: its characters, and the text behind its last quote. -/
def readJsonFrom (bytes : Bytes) : Option (List Nat × Bytes) :=
  match _hone : Utf8.decodeOne bytes with
  | none => none
  | some (cp, rest) =>
    if cp = 34 then some ([], rest)
    else if cp = 92 then
      match _hescape : readJsonEscape rest with
      | none => none
      | some (cp, rest) => (readJsonFrom rest).map fun (cps, rest) => (cp :: cps, rest)
    else if cp < 32 then none
    else (readJsonFrom rest).map fun (cps, rest) => (cp :: cps, rest)
  termination_by bytes.length
  decreasing_by
    · have := Utf8.decodeOne_length _hone
      have := readJsonEscape_length _hescape
      omega
    · exact Utf8.decodeOne_length _hone

theorem readJsonFrom_length {bytes rest : Bytes} {cps : List Nat} (h : readJsonFrom bytes = some (cps, rest)) : rest.length < bytes.length := by
  fun_induction readJsonFrom bytes generalizing cps rest with
  | case1 => cases h
  | case2 bytes rest' hone =>
    obtain ⟨-, rfl⟩ := Prod.mk.inj (Option.some.inj h)
    exact Utf8.decodeOne_length hone
  | case3 => cases h
  | case4 bytes rest' cp rest'' hescape hone _ ih =>
    obtain ⟨⟨cps', tail⟩, hread, heq⟩ := Option.map_eq_some_iff.mp h
    obtain ⟨-, rfl⟩ := Prod.mk.inj heq
    have hfirst := Utf8.decodeOne_length hone
    have hsecond := readJsonEscape_length hescape
    have hlast := ih hread
    omega
  | case5 => cases h
  | case6 bytes cp rest' hone hquote hslash hcontrol ih =>
    obtain ⟨⟨cps', tail⟩, hread, heq⟩ := Option.map_eq_some_iff.mp h
    obtain ⟨-, rfl⟩ := Prod.mk.inj heq
    exact Nat.lt_trans (ih hread) (Utf8.decodeOne_length hone)

/-- A string that is all of a text. -/
def readJson : Bytes → Option (List Nat)
  | [] => none
  | c :: rest =>
    if c = quote then
      match readJsonFrom rest with
      | some (cps, []) => some cps
      | _ => none
    else none

/-- Strings with white space between them, as one. -/
def readJsonParts (bytes : Bytes) : Option (List Nat) :=
  match bytes with
  | [] => some []
  | c :: cs =>
    if c = quote then
      match _hread : readJsonFrom cs with
      | some (cps, rest) => (readJsonParts rest).map (cps ++ ·)
      | none => none
    else if c = 32 ∨ c = 10 then readJsonParts cs
    else none
  termination_by bytes.length
  decreasing_by
    · exact Nat.lt_succ_of_lt (readJsonFrom_length _hread)
    · exact Nat.lt_succ_self _

/-- The text that a C compiler or a JSON parser reads, where adjacent literals are one. -/
def readContent (forJson : Bool) (source : Bytes) : Option Bytes :=
  if forJson then (readJsonParts source).map Utf8.text else readSource false source

/-- No newline has an even number of single quotes in front of it. -/
def NoLayout (inQuote : Bool) : Bytes → Prop
  | [] => True
  | c :: cs => (c = 10 → inQuote = true) ∧ NoLayout (if c = squote then !inQuote else inQuote) cs

instance decidableNoLayout (inQuote : Bool) : (text : Bytes) → Decidable (NoLayout inQuote text)
  | [] => .isTrue trivial
  | c :: cs =>
    haveI := decidableNoLayout (if c = squote then !inQuote else inQuote) cs
    inferInstanceAs (Decidable (_ ∧ _))

end CgSql
