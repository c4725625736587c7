import CgSql.Quoting

/-!
# Tokens of SQL

What a scanner of SQL makes of a text: the quoted tokens, and the words between them and the white space. How words are divided into names,
numbers and operators is a parameter.
-/

namespace CgSql

open Byte

/-- The tokens that start with a quote. -/
inductive Quoted
  | string
  | brackets
  | quotes
  | backticks
  deriving DecidableEq

namespace Quoted

/-- The token that a character starts. -/
def opened (c : Byte) : Option Quoted :=
  if c = squote then some .string else if c = 91 then some .brackets else if c = quote then some .quotes
  else if c = 96 then some .backticks else none

/-- The character that ends it. -/
def close : Quoted → Byte
  | string => squote
  | brackets => 93
  | quotes => quote
  | backticks => 96

/-- The state of a scanner in it. -/
def state : Quoted → SqlState
  | string => .string
  | brackets => .brackets
  | quotes => .quotes
  | backticks => .backticks

end Quoted

/-- A token, with its quotes; words have no kind. -/
structure SqlToken where
  kind : Option Quoted
  text : Bytes
  deriving DecidableEq

/-- How words are divided. -/
structure WordCut where
  cut : Bytes → List Bytes
  flatten_cut : ∀ word, (cut word).flatten = word

/-- Where a scanner is: in a word, in a quoted token, or behind a quote that ends a string literal if it is not doubled. -/
inductive LexState
  | word (text : Bytes)
  | quoted (kind : Quoted) (text : Bytes)
  | closing (text : Bytes)

/-- A word, if there is one. -/
def wordToken (text : Bytes) : List SqlToken := if text = [] then [] else [⟨none, text⟩]

namespace LexState

/-- A character that is in no quoted token, behind a part of a word. -/
def stepWord (text : Bytes) (c : Byte) : List SqlToken × LexState :=
  if isWhite c then (wordToken text, word [])
  else
    match Quoted.opened c with
    | some kind => (wordToken text, quoted kind [c])
    | none => ([], word (text ++ [c]))

/-- The tokens that a character ends, and the state behind it. -/
def step : LexState → Byte → List SqlToken × LexState
  | word text, c => stepWord text c
  | quoted kind text, c =>
    if c = kind.close then
      if kind = .string then ([], closing (text ++ [c])) else ([⟨some kind, text ++ [c]⟩], word [])
    else ([], quoted kind (text ++ [c]))
  | closing text, c =>
    if c = squote then ([], quoted .string (text ++ [c]))
    else (⟨some .string, text⟩ :: (stepWord [] c).1, (stepWord [] c).2)

/-- The tokens that the end of the text ends. -/
def finish : LexState → List SqlToken
  | word text => wordToken text
  | quoted kind text => [⟨some kind, text⟩]
  | closing text => [⟨some .string, text⟩]

/-- The tokens of the rest of a text. -/
def lexFrom (s : LexState) : Bytes → List SqlToken
  | [] => s.finish
  | c :: cs => (s.step c).1 ++ (s.step c).2.lexFrom cs

end LexState

/-- The tokens of a text, with its words divided. -/
def sqlTokens (words : WordCut) (text : Bytes) : List SqlToken :=
  ((LexState.word []).lexFrom text).flatMap fun t => if t.kind = none then (words.cut t.text).map (⟨none, ·⟩) else [t]

/-- Where the count of single quotes is even, a newline is between tokens. -/
def NewlinesBetween (inQuote : Bool) (st : SqlState) : Bytes → Prop
  | [] => True
  | c :: cs =>
    (c = 10 → inQuote = false → st = .plain) ∧ NewlinesBetween (if c = squote then !inQuote else inQuote) (st.next c) cs

instance decidableNewlinesBetween (inQuote : Bool) (st : SqlState) : (text : Bytes) → Decidable (NewlinesBetween inQuote st text)
  | [] => .isTrue trivial
  | c :: cs =>
    haveI := decidableNewlinesBetween (if c = squote then !inQuote else inQuote) (st.next c) cs
    inferInstanceAs (Decidable (_ ∧ _))

end CgSql
