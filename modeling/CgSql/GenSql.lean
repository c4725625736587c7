import CgSql.Lib.Mixfix

/-!
# Expressions as text

`gen_expr` prints an expression from its tree, with parentheses where the priority of the operator is below that of the place. The texts are
read by two grammars: SQLite reads those of `gen_mode_sql`, and `cql.y` reads those that are echoed.
-/

namespace CgSql.GenSql

open Mixfix (Text Tree)

/-! ## Expressions -/

/-- The operators that `gen_binary` prints. Those of assignment do not occur in SQL. -/
inductive BinaryOp
  | binAnd | binOr | lshift | rshift | mul | div | mod | add | sub
  | eq | lt | gt | ne | ge | le
  | and | or
  | is | isNot | like | notLike | match_ | notMatch | regexp | notRegexp | glob | notGlob
  | exprAssign | addEq | subEq | mulEq | divEq | modEq | orEq | andEq | rsEq | lsEq
  deriving DecidableEq

/-- The operators that `gen_concat`, `gen_jex1` and `gen_jex2` print. -/
inductive ConcatOp
  | concat
  | jex1
  | jex2 (type : String)
  deriving DecidableEq

inductive UnaryOp
  | not
  | tilde
  | uminus
  deriving DecidableEq

/-- The operators that `gen_postfix` prints. -/
inductive PostfixOp
  | isTrue
  | isFalse
  | isNotTrue
  | isNotFalse
  deriving DecidableEq

/-- The functions that change types only. -/
inductive Elided
  | nullable
  | ptr
  | sensitive
  | cqlInferredNotnull
  deriving DecidableEq

def Elided.name : Elided → String
  | nullable => "nullable"
  | ptr => "ptr"
  | sensitive => "sensitive"
  | cqlInferredNotnull => "cql_inferred_notnull"

/-- What has no operands: names, literals, and words of the grammar. -/
inductive Atom
  | name (n : String)
  | num (value : String) (long : Bool)
  | bool (b : Bool)
  | str (text : String)
  | blob (text : String)
  | null
  | word (w : String)
  deriving DecidableEq

/-- The forms of `BETWEEN`: semantic analysis rewrites the first. -/
inductive Between
  | between (negated : Bool)
  | rewrite (negated : Bool)
  deriving DecidableEq

def Between.negated : Between → Bool
  | between negated => negated
  | rewrite negated => negated

/-- What follows an operand in brackets: a list to search, subscripts, or the arguments of a call. -/
inductive Bracket
  | inPred
  | notIn
  | array
  | reverseApply (name : String)
  | reverseApplyPolyArgs
  deriving DecidableEq

/-- An expression. Calls, `CASE`, `EXISTS`, nested selects and the like are `closed`: each prints its parts between words of its own.
Subscripts and `reverse_apply` do not occur in SQL, and there a dot is between two names. -/
inductive Expr
  | atom (a : Atom)
  | binary (op : BinaryOp) (l r : Expr)
  | concatLike (op : ConcatOp) (l r : Expr)
  | unary (op : UnaryOp) (e : Expr)
  | postfixed (op : PostfixOp) (e : Expr)
  | collate (e : Expr) (name : String)
  | dot (e : Expr) (name : String)
  | between (form : Between) (e low high : Expr)
  | bracketed (op : Bracket) (e : Expr) (args : List Expr)
  | closed (form : String) (args : List Expr)
  | elided (f : Elided) (e : Expr)
  | typeCheck (e : Expr) (type : String)
  | cast (e : Expr) (type : String) (sameType : Bool)

/-! ## Priorities -/

/-- `EXPR_PRI_ROOT`. -/
def exprPriRoot : Int := -999

/-- The priorities of the operators of `gen_binary`, by `EXPR_INIT`. -/
def BinaryOp.pri : BinaryOp → Int
  | exprAssign | addEq | subEq | mulEq | divEq | modEq | orEq | andEq | rsEq | lsEq => 0
  | or => 1
  | and => 2
  | eq | is | isNot | like | notLike | match_ | notMatch | regexp | notRegexp | glob | notGlob => 5
  | lt | gt | ne | ge | le => 6
  | binAnd | binOr | lshift | rshift => 7
  | add | sub => 8
  | mul | div | mod => 9

/-- `EXPR_PRI_EQUALITY`, which is also `EXPR_PRI_BETWEEN`. -/
def exprPriEquality : Int := 5

/-- The priority of the last operand: `gen_expr_between` and `gen_expr_not_between` go by the usual rules for the right operand, and
`gen_expr_between_rewrite` does not. -/
def Between.highPri : Between → Int
  | between _ => exprPriEquality + 1
  | rewrite _ => exprPriEquality

def exprPriConcat : Int := 10

def exprPriCollate : Int := 11

/-- `EXPR_PRI_NOT` and `EXPR_PRI_TILDE`. -/
def UnaryOp.pri : UnaryOp → Int
  | not => 3
  | tilde | uminus => 12

def exprPriReverseApply : Int := 13

/-- The priority of brackets after an operand. -/
def Bracket.pri : Bracket → Int
  | inPred | notIn => exprPriEquality
  | array | reverseApply _ | reverseApplyPolyArgs => exprPriReverseApply

/-! ## The grammars -/

inductive PostToken
  | truth (op : PostfixOp)
  | collate (name : String)
  | dot (name : String)

inductive BinToken
  | separator
  | op (o : BinaryOp)
  | concatLike (o : ConcatOp)

/-- The level of a binary operator in both grammars: `<>` is one of the equalities. -/
def BinaryOp.level : BinaryOp → Nat
  | exprAssign | addEq | subEq | mulEq | divEq | modEq | orEq | andEq | rsEq | lsEq => 1
  | or => 2
  | and => 3
  | eq | ne | is | isNot | like | notLike | match_ | notMatch | regexp | notRegexp | glob | notGlob => 6
  | lt | gt | ge | le => 7
  | binAnd | binOr | lshift | rshift => 8
  | add | sub => 9
  | mul | div | mod => 10

/-- Assignments group to the right, all other operators to the left. -/
def BinaryOp.rightLevel : BinaryOp → Nat
  | exprAssign | addEq | subEq | mulEq | divEq | modEq | orEq | andEq | rsEq | lsEq => 1
  | o => o.level + 1

/-- The level of the operators of strings and JSON: `cql.y` takes none but basic expressions as operands of `->` and `->>`. -/
def ConcatOp.level (sql : Bool) : ConcatOp → Nat
  | concat => 11
  | jex1 | jex2 _ => if sql then 11 else 14

/-- The grammar that the text is read by: SQLite's, or that of `cql.y`. A level is that of the precedence tables, and separators of lists,
which stand in brackets only, bind least. In `cql.y` what has an operator up to the level 13 is no basic expression, so that it is no operand
of an operator of the level 14. -/
@[reducible] def grammar (sql : Bool) : Mixfix where
  Atom := Atom
  Fn := String
  Pre := UnaryOp
  Post := PostToken
  Brk := Bracket
  Bin := BinToken
  Tern := Bool
  preLevel
    | .not => 4
    | .tilde | .uminus => 13
  preLead _ := if sql then 15 else 13
  postLevel
    | .truth _ => 6
    | .collate _ => 12
    | .dot _ => 14
  postCap
    | .truth _ | .collate _ => if sql then 15 else 13
    | .dot _ => 15
  brkLevel
    | .inPred | .notIn => 6
    | .array | .reverseApply _ | .reverseApplyPolyArgs => 14
  brkCap
    | .inPred | .notIn => if sql then 15 else 13
    | .array | .reverseApply _ | .reverseApplyPolyArgs => 15
  binLevel
    | .separator => 0
    | .op o => o.level
    | .concatLike o => o.level sql
  binRight
    | .separator => 0
    | .op o => o.rightLevel
    | .concatLike o => o.level sql + 1
  ternLevel _ := 6
  ternMiddle _ := 4
  ternRight _ := 7
  separator _ := .op .and
  separator_lt _ := show BinaryOp.level .and < 4 by decide

/-! ## Printing -/

/-- How expressions are printed: for SQLite or as an echo, and with fewer casts. -/
structure Mode where
  forSqlite : Bool
  minifyCasts : Bool

/-- `if (pri_new < pri) gen_printf("(")`. -/
def wrap {sql : Bool} (priNew pri : Int) (t : Text (grammar sql)) : Text (grammar sql) :=
  if priNew < pri then .paren t else t

/-- The operator and the word that SQLite reads: it has no tokens of more than one word. -/
def PostfixOp.words : PostfixOp → BinaryOp × String
  | isTrue => (.is, "TRUE")
  | isFalse => (.is, "FALSE")
  | isNotTrue => (.isNot, "TRUE")
  | isNotFalse => (.isNot, "FALSE")

/-- `gen_postfix`. -/
def genPostfix {sql : Bool} (op : PostfixOp) (t : Text (grammar sql)) : Text (grammar sql) :=
  if sql then .bin (.op op.words.1) t (.atom (.word op.words.2)) else .post (.truth op) t

/-- The scope of a nested select without an alias. -/
def Expr.isSelectScope : Expr → Bool
  | .atom (.name n) => n = "_select_"
  | _ => false

/-- The expression is `NULL`. -/
def Expr.isNull : Expr → Bool
  | .atom .null => true
  | _ => false

/-- The function is left out of the text. -/
def Elided.isElided (f : Elided) (m : Mode) : Bool := m.forSqlite || f = .cqlInferredNotnull

mutual

/-- `gen_expr`: the text of an expression at a place of the priority. -/
def genExpr (m : Mode) (pri : Int) : Expr → Text (grammar m.forSqlite)
  | .atom a => .atom a
  | .binary op l r => wrap op.pri pri (.bin (.op op) (genExpr m op.pri l) (genExpr m (op.pri + 1) r))
  | .concatLike op l r =>
    wrap exprPriConcat pri (.bin (.concatLike op) (genExpr m exprPriConcat l) (genExpr m exprPriConcat r))
  | .unary op e => wrap op.pri pri (.pre op (genExpr m op.pri e))
  | .postfixed op e => wrap exprPriEquality pri (genPostfix op (genExpr m exprPriEquality e))
  | .collate e name => wrap exprPriCollate pri (.post (.collate name) (genExpr m exprPriCollate e))
  | .dot e name =>
    if m.forSqlite && e.isSelectScope then .atom (.name name)
    else wrap exprPriReverseApply pri (.post (.dot name) (genExpr m exprPriReverseApply e))
  | .between form e low high =>
    wrap exprPriEquality pri (.tern form.negated (genExpr m exprPriEquality e) (genExpr m exprPriEquality low) (genExpr m form.highPri high))
  | .bracketed op e args => wrap op.pri pri (.brk op (genExpr m op.pri e) (genList m args))
  | .closed form args => .closed form (genList m args)
  | .elided f e => if f.isElided m then genExpr m exprPriRoot e else .closed f.name (genExpr m exprPriRoot e)
  | .typeCheck e type =>
    if m.forSqlite then genExpr m exprPriRoot e else .closed ("TYPE_CHECK AS " ++ type) (genExpr m exprPriRoot e)
  | .cast e type sameType =>
    if m.minifyCasts && e.isNull then .atom .null
    else if m.minifyCasts && sameType then .paren (genExpr m exprPriRoot e)
    else .closed ("CAST AS " ++ type) (genExpr m exprPriRoot e)

/-- `gen_arg_list` and `gen_expr_list`. -/
def genList (m : Mode) : List Expr → Text (grammar m.forSqlite)
  | [] => .atom (.word "")
  | e :: es => .bin .separator (genExpr m exprPriRoot e) (genList m es)

end

mutual

/-- The tree that the text stands for: functions and type checks that are left out are replaced by their argument, and so are casts to the
type of the argument and the scope of a nested select. -/
def denoted (m : Mode) : Expr → Tree (grammar m.forSqlite)
  | .atom a => .atom a
  | .binary op l r => .bin (.op op) (denoted m l) (denoted m r)
  | .concatLike op l r => .bin (.concatLike op) (denoted m l) (denoted m r)
  | .unary op e => .pre op (denoted m e)
  | .postfixed op e =>
    if m.forSqlite then .bin (.op op.words.1) (denoted m e) (.atom (.word op.words.2)) else .post (.truth op) (denoted m e)
  | .collate e name => .post (.collate name) (denoted m e)
  | .dot e name => if m.forSqlite && e.isSelectScope then .atom (.name name) else .post (.dot name) (denoted m e)
  | .between form e low high => .tern form.negated (denoted m e) (denoted m low) (denoted m high)
  | .bracketed op e args => .brk op (denoted m e) (denotedList m args)
  | .closed form args => .closed form (denotedList m args)
  | .elided f e => if f.isElided m then denoted m e else .closed f.name (denoted m e)
  | .typeCheck e type => if m.forSqlite then denoted m e else .closed ("TYPE_CHECK AS " ++ type) (denoted m e)
  | .cast e type sameType =>
    if m.minifyCasts && (e.isNull || sameType) then denoted m e else .closed ("CAST AS " ++ type) (denoted m e)

def denotedList (m : Mode) : List Expr → Tree (grammar m.forSqlite)
  | [] => .atom (.word "")
  | e :: es => .bin .separator (denoted m e) (denotedList m es)

end

end CgSql.GenSql
