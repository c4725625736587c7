import CgSql.GenSql

/-!
# The echo of expressions

With no callbacks, `gen_expr` prints an expression so that it can be read again by `cql.y`. The lexer has tokens of more than one word, and
a number takes a dot that follows it.
-/

namespace CgSql.GenSql

open Mixfix (Text Tree Token Reads)

/-- Echoing. -/
@[reducible] def echo : Mode := ⟨false, false⟩

/-! ## The lexer -/

/-- The postfix operator that `IS` or `IS NOT` is with the word that follows: `IS_TRUE`, `IS_FALSE`, `IS_NOT_TRUE` or `IS_NOT_FALSE`. -/
def truthToken : BinaryOp → Bool → Option PostfixOp
  | .is, true => some .isTrue
  | .is, false => some .isFalse
  | .isNot, true => some .isNotTrue
  | .isNot, false => some .isNotFalse
  | _, _ => none

/-- The operator that `NOT` is with the name of a function that follows: `NOT_GLOB` or `NOT_LIKE`. -/
def notToken (name : String) : Option BinaryOp :=
  if name = "glob" then some .notGlob else if name = "like" then some .notLike else none

/-- The digits of an integer: `reallit` takes the dot after them. -/
def isIntlit (value : String) (long : Bool) : Bool := !long && value.toList.all Char.isDigit

/-- What the lexer makes of two tokens that are printed one after the other, where these are not the two. -/
def join : Token (grammar false) → Token (grammar false) → Option (List (Token (grammar false)))
  | .bin (.op o), .atom (.bool b) => (truthToken o b).map fun p => [.post (.truth p)]
  | .pre .not, .opening name => (notToken name).map fun o => [.bin (.op o), .lparen]
  | .atom (.num value long), .post (.dot n) =>
    if isIntlit value long then some [.atom (.num (value ++ ".") false), .atom (.name n)] else none
  | _, _ => none

/-- The tokens of a text, as the lexer returns them. -/
def lex : List (Token (grammar false)) → List (Token (grammar false))
  | [] => []
  | [t] => [t]
  | t :: t' :: ts =>
    match join t t' with
    | some r => r ++ lex ts
    | none => t :: lex (t' :: ts)

/-! ## The tree -/

mutual

/-- The tree of an expression. -/
def structureOf : Expr → Tree (grammar false)
  | .atom a => .atom a
  | .binary op l r => .bin (.op op) (structureOf l) (structureOf r)
  | .concatLike op l r => .bin (.concatLike op) (structureOf l) (structureOf r)
  | .unary op e => .pre op (structureOf e)
  | .postfixed op e => .post (.truth op) (structureOf e)
  | .collate e name => .post (.collate name) (structureOf e)
  | .dot e name => .post (.dot name) (structureOf e)
  | .between form e low high => .tern form.negated (structureOf e) (structureOf low) (structureOf high)
  | .bracketed op e args => .brk op (structureOf e) (structureOfList args)
  | .closed form args => .closed form (structureOfList args)
  | .elided f e => .closed f.name (structureOf e)
  | .typeCheck e type => .closed ("TYPE_CHECK AS " ++ type) (structureOf e)
  | .cast e type _ => .closed ("CAST AS " ++ type) (structureOf e)

def structureOfList : List Expr → Tree (grammar false)
  | [] => .atom (.word "")
  | e :: es => .bin .separator (structureOf e) (structureOfList es)

end

mutual

/-- The parser has no rule for `cql_inferred_notnull`, and semantic analysis alone rewrites `BETWEEN`. -/
def Parsed : Expr → Prop
  | .atom _ => True
  | .binary _ l r | .concatLike _ l r => Parsed l ∧ Parsed r
  | .unary _ e | .postfixed _ e | .collate e _ | .dot e _ | .typeCheck e _ | .cast e _ _ => Parsed e
  | .between (.rewrite _) _ _ _ => False
  | .between (.between _) e low high => Parsed e ∧ Parsed low ∧ Parsed high
  | .bracketed _ e args => Parsed e ∧ ParsedList args
  | .closed _ args => ParsedList args
  | .elided f e => f ≠ .cqlInferredNotnull ∧ Parsed e

def ParsedList : List Expr → Prop
  | [] => True
  | e :: es => Parsed e ∧ ParsedList es

end

end CgSql.GenSql
