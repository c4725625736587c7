import CgSql.Pieces

/-!
# Quoted text

`cg_encode_c_string_literal` and `cg_pretty_quote_plaintext` of `encoders.c`, what a C compiler reads in their literals, and what counts
as white space outside of string literals in a text of SQL.
-/

namespace CgSql

open Byte InLiteral

/-! ## Encoding -/

/-- The quote of SQL. -/
def squote : Byte := 39

/-- `cg_encode_c_string_literal`. -/
def cgEncodeCStringLiteral (str : Bytes) : Bytes := quote :: str.flatMap cgEncodeCharAsCStringLiteral ++ [quote]

/-- The loop of `cg_pretty_quote_plaintext` with an encoding of characters, and the quote behind it. -/
def prettyQuoteFrom (encode : Byte → Bytes) (multiLine : Bool) (atStart inQuote : Bool) : Bytes → Bytes
  | [] => [quote]
  | c :: cs =>
    if atStart ∧ c = 32 ∧ cs.head? = some 32 then prettyQuoteFrom encode multiLine atStart inQuote cs
    else if ¬inQuote ∧ c = squote then squote :: prettyQuoteFrom encode multiLine false true cs
    else if inQuote ∧ c = squote ∧ cs.head? = some squote then
      squote :: squote :: prettyQuoteFrom encode multiLine false inQuote (cs.drop 1)
    else if inQuote ∧ c = squote then squote :: prettyQuoteFrom encode multiLine false false cs
    else if ¬inQuote ∧ c = 10 then
      if multiLine then
        -- the spaces that follow indent the next part
        [32, quote, 10, 32, 32] ++ cs.takeWhile (· = 32) ++ quote :: prettyQuoteFrom encode multiLine false inQuote (cs.dropWhile (· = 32))
      else 32 :: prettyQuoteFrom encode multiLine false inQuote (cs.dropWhile (· = 32))
    else encode c ++ prettyQuoteFrom encode multiLine false inQuote cs
  termination_by str => str.length
  decreasing_by
    all_goals simp only [List.length_cons, List.length_drop]
    all_goals first
      | omega
      | exact Nat.lt_succ_of_le (List.dropWhile_sublist _).length_le

/-- `cg_pretty_quote_plaintext` with `PRETTY_QUOTE_C`. -/
def cgPrettyQuotePlaintext (multiLine : Bool) (str : Bytes) : Bytes := quote :: prettyQuoteFrom cgEncodeCharAsCStringLiteral multiLine true false str

/-! ## Reading -/

/-- Where a compiler is in a row of literals: between them, or in one. -/
inductive InSource
  | between
  | inside (s : InLiteral)

namespace InSource

/-- Read a character. A quote ends a literal, but not behind a backslash. -/
def read (c : Byte) : InSource → Option (Bytes × InSource)
  | between => if c = quote then some ([], inside plain) else if c = 32 ∨ c = 10 then some ([], between) else none
  | inside s =>
    if c = quote ∧ s ≠ escape then s.finish.map (·, between)
    else (s.read c).map fun (out, s') => (out, inside s')

/-- The source ends. -/
def finish : InSource → Option Bytes
  | between => some []
  | inside _ => none

/-- Read the rest of the literals, each of them to its end; adjacent ones are one. -/
def readAll (s : InSource) : Bytes → Option Bytes
  | [] => s.finish
  | c :: cs => do
    let (out, s) ← s.read c
    return out ++ (← s.readAll cs)

end InSource

/-- The bytes that literals denote, with trigraphs replaced or not. -/
def readSource (trigraphs : Bool) (src : Bytes) : Option Bytes :=
  InSource.between.readAll (if trigraphs then replaceTrigraphs src else src)

/-! ## White space in SQL -/

/-- The text behind leading spaces, with a space for each newline outside of quotes and the spaces that follow it. -/
def laidOut (atStart inQuote : Bool) : Bytes → Bytes
  | [] => []
  | c :: cs =>
    if atStart ∧ c = 32 ∧ cs.head? = some 32 then laidOut atStart inQuote cs
    else if ¬inQuote ∧ c = squote then squote :: laidOut false true cs
    else if inQuote ∧ c = squote ∧ cs.head? = some squote then squote :: squote :: laidOut false inQuote (cs.drop 1)
    else if inQuote ∧ c = squote then squote :: laidOut false false cs
    else if ¬inQuote ∧ c = 10 then 32 :: laidOut false inQuote (cs.dropWhile (· = 32))
    else c :: laidOut false inQuote cs
  termination_by str => str.length
  decreasing_by
    all_goals simp only [List.length_cons, List.length_drop]
    all_goals first
      | omega
      | exact Nat.lt_succ_of_le (List.dropWhile_sublist _).length_le

/-- Where a scanner of SQL is: in a string literal, in one of the three kinds of quoted identifiers, or in neither. -/
inductive SqlState
  | plain
  | string
  | brackets
  | quotes
  | backticks
  deriving DecidableEq

/-- The scanner reads a character. A doubled quote leaves a literal and enters it again. -/
def SqlState.next (c : Byte) : SqlState → SqlState
  | .plain =>
    if c = squote then .string else if c = 91 then .brackets else if c = quote then .quotes else if c = 96 then .backticks
    else .plain
  | .string => if c = squote then .plain else .string
  | .brackets => if c = 93 then .plain else .brackets
  | .quotes => if c = quote then .plain else .quotes
  | .backticks => if c = 96 then .plain else .backticks

/-- The white space that SQL text is laid out with. -/
def isWhite (c : Byte) : Bool := c = 32 || c = 10

/-- A text with one space for each run of white space outside of string literals; `white` tells that such a run goes on. -/
def squeezeFrom (st : SqlState) (white : Bool) : Bytes → Bytes
  | [] => []
  | c :: cs =>
    if st ≠ .string ∧ isWhite c then (if white then [] else [32]) ++ squeezeFrom st true cs
    else c :: squeezeFrom (st.next c) false cs

/-- A text up to white space outside of string literals. -/
def squeeze (text : Bytes) : Bytes := squeezeFrom .plain false text

/-- Where the count of single quotes is even, a newline is in no string literal. -/
def NewlinesOutside (inQuote : Bool) (st : SqlState) : Bytes → Prop
  | [] => True
  | c :: cs =>
    (c = 10 → inQuote = false → st ≠ .string) ∧ NewlinesOutside (if c = squote then !inQuote else inQuote) (st.next c) cs

end CgSql
