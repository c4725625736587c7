import CgSql.Lib.Precedence
import CgSql.Nullability

/-!
# The code generator for expressions

What `cg_c.c` generates for the expressions of CQL outside of SQL: the texts of the result and of whether it is null, and the
statements that have to run first. Expressions are given as the semantic analysis leaves them, with the types of their variables.
-/

namespace CgSql.CodeGen

open Nullability

/-! ## Generated code -/

/-- Variables of the generated code: those of the program, and scratch variables by type and level. -/
inductive Var
  | user (name : String)
  | temp (t : SemType) (level : Nat)
  deriving DecidableEq

/-- Operands: `NULL`, `0` and `1`, literals, `x`, `x.value` and `x.is_null`. -/
inductive Atom (V : Type)
  | null
  | bool (b : Bool)
  | literal (v : V)
  | var (x : Var)
  | value (x : Var)
  | isNull (x : Var)
  deriving DecidableEq

/-- Prefix operators, casts among them: `!` on a number, and on a reference. -/
inductive Prefix
  | not
  | notRef
  | neg
  | complement
  | cast (core : CoreType)
  deriving DecidableEq

/-- Binary operators: `==` on numbers and objects, and on blobs, where it compares addresses. -/
inductive Binary
  | lor
  | land
  | bitOr
  | bitAnd
  | eq
  | eqRef
  | ne
  | lt
  | gt
  | le
  | ge
  | lshift
  | rshift
  | add
  | sub
  | mul
  | div
  | mod
  deriving DecidableEq

/-- The precedences of C, which are `C_EXPR_PRI_LOR` to `C_EXPR_PRI_MUL`. -/
def Binary.prec : Binary → Nat
  | .lor => 1
  | .land => 2
  | .bitOr => 3
  | .bitAnd => 4
  | .eq | .eqRef | .ne => 5
  | .lt | .gt | .le | .ge => 6
  | .lshift | .rshift => 7
  | .add | .sub => 8
  | .mul | .div | .mod => 9

/-- Runtime functions of two arguments, and macros that put their arguments in parentheses. -/
inductive Function
  | stringCompare
  | stringEqual
  | stringLike
  | blobEqual
  | isNullableTrue
  | isNullableFalse
  deriving DecidableEq

/-- Texts of C expressions. -/
abbrev Text (V : Type) := Precedence.Text (Atom V) Prefix Binary Function

/-- Statements. A block is `do { … } while (0)`, left by a break; `caseElse` is what a `goto case_else` skips to the end of. -/
inductive Code (V : Type)
  | skip
  | seq (a b : Code V)
  | setNull (x : Var)
  | setNullable (x : Var) (isNull : List (Text V)) (value : Text V)
  | copy (x : Var) (value : Text V)
  | ite (cond : Text V) (a b : Code V)
  | block (a : Code V)
  | break
  | caseElse (a : Code V)
  | gotoElse

section

variable {V : Type}

/-- One statement after another. -/
def Code.andThen : Code V → Code V → Code V
  | .skip, b => b
  | a, .skip => a
  | a, b => .seq a b

def Code.isSkip : Code V → Bool
  | .skip => true
  | _ => false

/-- The texts in a statement. -/
def Code.texts : Code V → List (Text V)
  | .seq a b => a.texts ++ b.texts
  | .setNullable _ isNull value => isNull ++ [value]
  | .copy _ value => [value]
  | .ite cond a b => cond :: (a.texts ++ b.texts)
  | .block a | .caseElse a => a.texts
  | .skip | .setNull _ | .break | .gotoElse => []

def zero : Text V := .atom (.bool false)

def one : Text V := .atom (.bool true)

def notText (t : Text V) : Text V := .unary .not t

def parenIf (b : Bool) (t : Text V) : Text V := if b then .paren t else t

/-- References: they are null while not set, whatever their type. -/
def isRef : CoreType → Bool
  | .text | .blob | .object => true
  | _ => false

/-- The text `0` of an expression that is known to be null: the null reference, unless it is a number. -/
def nullZero (t : SemType) : Text V := if isRef t.core ∨ t.core = .null then .atom .null else zero

/-- The texts that `cg_scratch_var` and `cg_id` give for a variable: whether it is null, and its value. -/
def varTexts (t : SemType) (x : Var) : Text V × Text V :=
  if isRef t.core then (.unary .notRef (.atom (.var x)), .atom (.var x))
  else if t.notNull then (zero, .atom (.var x))
  else (.atom (.isNull x), .atom (.value x))

end

/-! ## Expressions -/

mutual

/-- Expressions after semantic analysis. The literals FALSE, TRUE, `0` and `1` stand apart, and BETWEEN is rewritten to a test of a new
variable. The result of a call is the variable that it is stored in, and `cg_unary`'s own text for the smallest LONG is left out. -/
inductive Expr (V : Type)
  | null
  | bit (core : CoreType) (b : Bool)
  | literal (core : CoreType) (v : V)
  | var (t : SemType) (name : String)
  | unary (op : UnaryOp) (e : Expr V)
  | not (e : Expr V)
  | binary (op : MathOp) (l r : Expr V)
  | compare (op : CompareOp) (l r : Expr V)
  | eqNe (negated : Bool) (l r : Expr V)
  | like (negated : Bool) (l r : Expr V)
  | logical (op : LogicalOp) (l r : Expr V)
  | is (negated : Bool) (l r : Expr V)
  | isTruth (negated value : Bool) (e : Expr V)
  | between (name : String) (e test : Expr V)
  | inPred (negated : Bool) (e : Expr V) (items : Exprs V)
  | caseExpr (operand : OptExpr V) (whens : Whens V) (orElse : OptExpr V)
  | coalesce (args : Exprs V)
  | cast (e : Expr V) (core : CoreType)
  | typeCheck (e : Expr V)

inductive OptExpr (V : Type)
  | none
  | some (e : Expr V)

inductive Exprs (V : Type)
  | nil
  | cons (e : Expr V) (rest : Exprs V)

inductive Whens (V : Type)
  | nil
  | cons (cond value : Expr V) (rest : Whens V)

end

variable {V : Type}

/-- The type of a list of alternatives, with those before them. -/
def joinType (t : Option SemType) (u : SemType) : SemType :=
  match t with
  | none => u
  | some t => semCombineTypes t u

mutual

/-- The type that the semantic analysis gave an expression. -/
def Expr.type : Expr V → SemType
  | .null => ⟨.null, false⟩
  | .bit core _ | .literal core _ => ⟨core, true⟩
  | .var t _ => t
  | .unary _ e => semCombineTypes ⟨.integer, true⟩ e.type
  | .not e => ⟨.bool, e.type.notNull⟩
  | .binary _ l r =>
    let core := semCombineCore l.type.core r.type.core
    ⟨if core = .bool then .integer else core, l.type.notNull && r.type.notNull⟩
  | .compare _ l r | .eqNe _ l r | .like _ l r | .logical _ l r => ⟨.bool, l.type.notNull && r.type.notNull⟩
  | .is _ _ _ | .isTruth _ _ _ => ⟨.bool, true⟩
  | .between _ e test => ⟨.bool, e.type.notNull && test.type.notNull⟩
  | .inPred _ e _ => ⟨.bool, e.type.notNull⟩
  | .caseExpr _ whens orElse => orElse.elseType (whens.type none)
  | .coalesce args => args.type none
  | .cast e core => ⟨core, if e.type.core = .null then false else e.type.notNull⟩
  | .typeCheck e => e.type

/-- The type of the arguments of a COALESCE: NOT NULL if one of them is. -/
def Exprs.type (t : Option SemType) : Exprs V → SemType
  | .nil => t.getD ⟨.null, false⟩
  | .cons e rest => rest.type (some ⟨(joinType t e.type).core, (t.any fun t => t.notNull) || e.type.notNull⟩)

def Whens.type (t : Option SemType) : Whens V → SemType
  | .nil => t.getD ⟨.null, false⟩
  | .cons _ value rest => rest.type (some (joinType t value.type))

/-- The type of a CASE with this ELSE: without one it can be null. -/
def OptExpr.elseType (t : SemType) : OptExpr V → SemType
  | .none => ⟨t.core, false⟩
  | .some e => semCombineTypes t e.type

end

/-! ## Stores -/

def isZero : Text V → Bool
  | .atom (.bool b) => !b
  | _ => false

def isOne : Text V → Bool
  | .atom (.bool b) => b
  | _ => false

/-- `cg_combine_nullables`: the texts `0` and `1` make it `cql_set_notnull`, `cql_set_nullable` or `cql_set_null`. -/
def combineNullables (x : Var) (l r value : Text V) : Code V :=
  if isOne l || isOne r then .setNull x else .setNullable x ([l, r].filter fun t => !isZero t) value

/-- The first character is `!`. -/
def startsWithNot : Text V → Bool
  | .unary .not _ | .unary .notRef _ => true
  | .binary _ l _ => startsWithNot l
  | _ => false

/-- The value that `cg_store` stores: numbers are converted to REAL, and normalized to BOOL unless they look normalized. -/
def storedValue (t u : SemType) (value : Text V) : Text V :=
  if t.core = .real ∧ u.core ≠ .real then .unary (.cast .real) (.paren value)
  else if t.core = .bool ∧ u.core ≠ .bool ∧ !isZero value && !isOne value && !startsWithNot value then
    notText (notText (.paren value))
  else value

/-- The texts are those of the variable itself. -/
def isSameVar (x : Var) (t : SemType) (isNull value : Text V) : Bool :=
  if isRef t.core || t.notNull then
    match value with
    | .atom (.var y) => x = y
    | _ => false
  else
    match isNull, value with
    | .atom (.isNull y), .atom (.value z) => x = y ∧ x = z
    | _, _ => false

/-- `cg_store`: store texts of type `u` in a variable of type `t`. -/
def store (x : Var) (t u : SemType) (isNull value : Text V) : Code V :=
  let value := storedValue t u value
  if isSameVar x t isNull value then .skip
  else if isRef t.core || t.notNull then .copy x value
  else combineNullables x isNull zero value

/-- `cg_store_same_type` for the new variable of a BETWEEN. -/
def storeNew (x : Var) (t : SemType) (isNull value : Text V) : Code V :=
  if isRef t.core || t.notNull then .copy x value else combineNullables x isNull zero value

/-- `cg_set_null`. -/
def setNullCode (x : Var) (t : SemType) : Code V :=
  if isRef t.core then .copy x (.atom .null) else if t.notNull then .skip else .setNull x

/-! ## Expressions -/

/-- Where an expression is generated: the priority of the context, whether it is the right child of its parent, the variable that is
assigned if it is all of the right hand side, and the stack level. -/
structure Ctx where
  pri : Nat
  right : Bool
  target : Option (Var × SemType)
  level : Nat

def Ctx.root (level : Nat) : Ctx := ⟨0, false, none, level⟩

def Ctx.left (pri level : Nat) : Ctx := ⟨pri, false, none, level⟩

def Ctx.rightOf (pri level : Nat) : Ctx := ⟨pri, true, none, level⟩

/-- `needs_paren`. -/
def Ctx.needsParen (c : Ctx) (pri : Nat) : Bool := if pri = c.pri then c.right else pri < c.pri

/-- The result variable of `cg_scratch_var`: the assigned variable if its type is the same, else a scratch variable. -/
def Ctx.resultVar (c : Ctx) (t : SemType) : Var :=
  match c.target with
  | some (x, u) => if u = t then x else .temp t c.level
  | none => .temp t c.level

/-- What `cg_expr` gives: the two texts, the statements to run first, the stack level after them, and all the texts that this call and
those below it gave. -/
structure Out (V : Type) where
  isNull : Text V
  value : Text V
  code : Code V
  level : Nat
  produced : List (Text V)

def out (isNull value : Text V) (code : Code V) (level : Nat) (produced : List (Text V)) : Out V :=
  ⟨isNull, value, code, level, isNull :: value :: produced⟩

/-- A result in the result variable, which frees the scratch variables above it. -/
def outVar (c : Ctx) (t : SemType) (x : Var) (code : Code V) (produced : List (Text V)) : Out V :=
  out (varTexts t x).1 (varTexts t x).2 code (c.level + 1) produced

/-- `if` conditions for a value that is true, or false. -/
def ifTrue (isNull value : Text V) : Text V :=
  if isZero isNull then value else if isOne isNull then zero else .call .isNullableTrue isNull value

def ifFalse (isNull value : Text V) : Text V :=
  if isZero isNull then notText (.paren value) else if isOne isNull then zero else .call .isNullableFalse isNull value

def unaryPrefix : UnaryOp → Prefix
  | .neg => .neg
  | .complement => .complement

def mathBinary : MathOp → Binary
  | .add => .add
  | .sub => .sub
  | .mul => .mul
  | .div => .div
  | .mod => .mod
  | .bitAnd => .bitAnd
  | .bitOr => .bitOr
  | .lshift => .lshift
  | .rshift => .rshift

def compareBinary : CompareOp → Binary
  | .lt => .lt
  | .gt => .gt
  | .le => .le
  | .ge => .ge

def eqBinary (negated : Bool) : Binary := if negated then .ne else .eq

/-- `cg_unary`. -/
def unaryOut (c : Ctx) (t u : SemType) (op : Prefix) (E : Out V) : Out V :=
  let text := parenIf (c.needsParen 10) (.unary op E.value)
  if u.notNull then out zero text E.code E.level E.produced
  else outVar c t (c.resultVar t) (E.code.andThen (combineNullables (c.resultVar t) E.isNull zero text)) E.produced

/-- The result of an operator that is null if an operand is: the text itself if neither can be, else the result variable. -/
def strictOut (c : Ctx) (t l r : SemType) (plain boxed : Text V) (L R : Out V) : Out V :=
  let code := L.code.andThen R.code
  if l.notNull && r.notNull then out zero plain code R.level (L.produced ++ R.produced)
  else outVar c t (c.resultVar t) (code.andThen (combineNullables (c.resultVar t) L.isNull R.isNull boxed)) (L.produced ++ R.produced)

/-- `cg_binary` for operands that are not both of type NULL. -/
def binaryOut (c : Ctx) (t l r : SemType) (op : Binary) (L R : Out V) : Out V :=
  let text := .binary op L.value R.value
  strictOut c t l r (parenIf (c.needsParen op.prec) text) text L R

/-- `cg_binary_compare` for texts and blobs. -/
def compareOut (c : Ctx) (t l r : SemType) (pri : Nat) (text : Text V) (L R : Out V) : Out V :=
  let text := parenIf (c.needsParen pri) text
  strictOut c t l r text text L R

/-- The statements of OR and AND where the right operand needs statements or something can be null. -/
def logicalCode (op : LogicalOp) (x : Var) (t r : SemType) (L R : Out V) : Code V :=
  let short (o : Out V) : Text V := if op = .or then ifTrue o.isNull o.value else ifFalse o.isNull o.value
  let decided : Code V := store x t t zero (if op = .or then one else zero)
  .ite (short L) decided (R.code.andThen (if t.notNull then store x t r zero R.value
     else .ite (short R) decided (combineNullables x L.isNull R.isNull (if op = .or then zero else one))))

/-- `cg_expr_or` and `cg_expr_and`. -/
def logicalOut (c : Ctx) (t r : SemType) (op : LogicalOp) (bothNull : Bool) (L R : Out V) : Out V :=
  let cop : Binary := if op = .or then .lor else .land
  if t.notNull && R.code.isSkip then
    out zero (parenIf (c.needsParen cop.prec) (.binary cop L.value R.value)) L.code R.level (L.produced ++ R.produced)
  else
    let x := c.resultVar t
    outVar c t x (L.code.andThen (if bothNull then .setNull x else logicalCode op x t r L R)) (L.produced ++ R.produced)

/-- `cg_expr_is_null` and `cg_expr_is_not_null` for what is generated. -/
def isNullOut (negated : Bool) (E : Out V) : Out V :=
  out zero (if negated then notText E.isNull else E.isNull) E.code E.level E.produced

/-- `cg_expr_is` and `cg_expr_is_not` where neither side is the literal NULL. -/
def isOut (c : Ctx) (negated : Bool) (l r : SemType) (L R : Out V) : Out V :=
  let negate (t : Text V) : Text V := if negated then notText t else t
  let text :=
    if l.core = .text ∨ r.core = .text then negate (.call .stringEqual L.value R.value)
    else if l.core = .blob ∨ r.core = .blob then negate (.call .blobEqual L.value R.value)
    else if l.notNull && r.notNull || isRef l.core || isRef r.core then
      parenIf (c.needsParen 5) (.binary (eqBinary negated) L.value R.value)
    else
      negate (.paren (.binary .land (.paren (.binary .eq L.isNull R.isNull)) (.paren (.binary .lor R.isNull (.binary .eq L.value R.value)))))
  out zero text (L.code.andThen R.code) R.level (L.produced ++ R.produced)

/-- The four forms IS [NOT] TRUE and IS [NOT] FALSE. -/
def isTruthOut (negated value : Bool) (u : SemType) (E : Out V) : Out V :=
  let text :=
    if u.notNull then
      if negated = value then notText (.paren E.value) else notText (notText (.paren E.value))
    else
      let call : Text V := .call (if value then .isNullableTrue else .isNullableFalse) E.isNull E.value
      if negated then notText call else call
  out zero text E.code E.level E.produced

/-- The comparison of an operand that is not null with an item of type `u`: `cg_in_or_not_in_expr_list` knows blobs. -/
def itemTest (blobs : Bool) (operand : Text V) (u : SemType) (E : Out V) : Text V :=
  let same : Binary := if u.core = .blob then .eqRef else .eq
  if u.core = .text then .binary .eq (.call .stringCompare operand E.value) zero
  else if blobs ∧ u.core = .blob then .call .blobEqual operand E.value
  else if u.notNull then .binary same operand E.value
  else .call .isNullableTrue E.isNull (.binary same operand E.value)

/-- The test of a WHEN of type `u`, with an operand or without. -/
def whenCond (operand : Option (Text V)) (u : SemType) (E : Out V) : Text V :=
  match operand with
  | some o => itemTest false o u E
  | none => if u.notNull then E.value else .call .isNullableTrue E.isNull E.value

/-- `cg_expr_cast`. -/
def castOut (c : Ctx) (t u : SemType) (E : Out V) : Out V :=
  if u.core = .null then out one (nullZero t) E.code E.level E.produced
  else if u.core = t.core then out E.isNull E.value E.code E.level E.produced
  else
    let arg : Text V := .paren E.value
    let arg := if u.core = .bool ∨ t.core = .bool then notText (notText arg) else arg
    let text : Text V := .paren (.unary (.cast t.core) arg)
    if t.notNull then out zero text E.code E.level E.produced
    else outVar c t (c.resultVar t) (E.code.andThen (combineNullables (c.resultVar t) E.isNull zero text)) E.produced

def Expr.isNullLiteral : Expr V → Bool
  | .null => true
  | _ => false

mutual

/-- `cg_expr`. -/
def cgExpr (c : Ctx) : Expr V → Out V
  | .null => out one (.atom .null) .skip c.level []
  | .bit _ b => out zero (.atom (.bool b)) .skip c.level []
  | .literal _ v => out zero (.atom (.literal v)) .skip c.level []
  | .var t name => out (varTexts t (.user name)).1 (varTexts t (.user name)).2 .skip c.level []
  | .unary op e => unaryOut c (Expr.unary op e).type e.type (unaryPrefix op) (cgExpr (.left 10 (c.level + 1)) e)
  | .not e => unaryOut c (Expr.not e).type e.type .not (cgExpr (.left 10 (c.level + 1)) e)
  | .binary op l r =>
    let t := (Expr.binary op l r).type
    if t = ⟨.null, false⟩ then out one (nullZero t) .skip c.level []
    else
      let pri := (mathBinary op).prec
      let L := cgExpr (.left pri (c.level + 1)) l
      binaryOut c t l.type r.type (mathBinary op) L (cgExpr (.rightOf pri L.level) r)
  | .compare op l r =>
    let t := (Expr.compare op l r).type
    let L := cgExpr (.left 6 (c.level + 1)) l
    let R := cgExpr (.rightOf 6 L.level) r
    if l.type.core = .text ∧ r.type.core = .text then
      compareOut c t l.type r.type 6 (.binary (compareBinary op) (.call .stringCompare L.value R.value) zero) L R
    else binaryOut c t l.type r.type (compareBinary op) L R
  | .eqNe negated l r =>
    let t := (Expr.eqNe negated l r).type
    let L := cgExpr (.left 5 (c.level + 1)) l
    let R := cgExpr (.rightOf 5 L.level) r
    if l.type.core = .text ∧ r.type.core = .text then
      compareOut c t l.type r.type 5 (.binary (eqBinary negated) (.call .stringCompare L.value R.value) zero) L R
    else if l.type.core = .blob ∧ r.type.core = .blob then
      let call : Text V := .call .blobEqual L.value R.value
      compareOut c t l.type r.type 5 (if negated then notText call else call) L R
    else binaryOut c t l.type r.type (eqBinary negated) L R
  | .like negated l r =>
    let L := cgExpr (.left 5 (c.level + 1)) l
    let R := cgExpr (.rightOf 5 L.level) r
    compareOut c (Expr.like negated l r).type l.type r.type 5 (.binary (eqBinary negated) (.call .stringLike L.value R.value) zero) L R
  | .logical op l r =>
    let pri := if op = .or then 1 else 2
    let L := cgExpr (.left pri (c.level + 1)) l
    logicalOut c (Expr.logical op l r).type r.type op (l.isNullLiteral && r.isNullLiteral) L (cgExpr (.rightOf pri L.level) r)
  | .is negated l r =>
    if l.isNullLiteral then
      if r.type.notNull && !isRef r.type.core then out zero (.atom (.bool negated)) .skip c.level []
      else isNullOut negated (cgExpr (.root c.level) r)
    else if r.isNullLiteral then
      if l.type.notNull && !isRef l.type.core then out zero (.atom (.bool negated)) .skip c.level []
      else isNullOut negated (cgExpr (.root c.level) l)
    else
      let L := cgExpr (.left 5 c.level) l
      isOut c negated l.type r.type L (cgExpr (.rightOf 5 L.level) r)
  | .isTruth negated value e => isTruthOut negated value e.type (cgExpr (.root c.level) e)
  | .between name e test =>
    if e.isNullLiteral then out one zero .skip c.level []
    else
      let E := cgExpr (.root c.level) e
      let T := cgExpr ⟨c.pri, true, none, E.level⟩ test
      out T.isNull T.value (E.code.andThen ((storeNew (.user name) e.type E.isNull E.value).andThen T.code)) T.level (E.produced ++ T.produced)
  | .inPred negated e items =>
    let t := (Expr.inPred negated e items).type
    if e.type.core = .null then outVar c t (c.resultVar t) (setNullCode (c.resultVar t) t) []
    else
      let x : Var := .temp t c.level
      let E := cgExpr (.root (c.level + 1)) e
      let temp : Var := .temp e.type E.level
      let I := cgItems (varTexts e.type temp).2 (E.level + 1) items
      let test : Code V := if e.type.notNull then .skip
        else .ite (varTexts e.type temp).1 ((setNullCode x t).andThen .break) .skip
      outVar c t x (.block (E.code.andThen ((store temp e.type e.type E.isNull E.value).andThen (test.andThen
          ((store x t t zero (.atom (.bool !negated))).andThen (I.1.andThen (store x t t zero (.atom (.bool negated)))))))))
        (E.produced ++ I.2)
  | .caseExpr operand whens orElse =>
    let t := (Expr.caseExpr operand whens orElse).type
    let x := c.resultVar t
    let O := cgOperand (c.level + 1) operand
    let W := cgWhens x t O.1 (if O.1.isSome then c.level + 2 else c.level + 1) whens
    let D := cgElse x t (c.level + 1) orElse
    outVar c t x (.block ((Code.caseElse (O.2.1.andThen W.1)).andThen D.1)) (O.2.2 ++ (W.2 ++ D.2))
  | .coalesce args =>
    let t := (Expr.coalesce args).type
    let x := c.resultVar t
    let A := cgCoalesce x t (c.level + 1) args
    outVar c t x (.block A.1) A.2
  | .cast e core => castOut c (Expr.cast e core).type e.type (cgExpr (.root (c.level + 1)) e)
  | .typeCheck e =>
    let E := cgExpr (.root c.level) e
    out zero E.value E.code E.level E.produced

/-- `cg_in_or_not_in_expr_list`: the tests of the items, which break where one is equal. -/
def cgItems (operand : Text V) (level : Nat) : Exprs V → Code V × List (Text V)
  | .nil => (.skip, [])
  | .cons e rest =>
    let R := cgItems operand level rest
    if e.isNullLiteral then R
    else
      let E := cgExpr (.left 5 level) e
      (E.code.andThen ((Code.ite (itemTest true operand e.type E) .break .skip).andThen R.1), E.produced ++ R.2)

/-- The operand of a CASE in its scratch variable: the text of it, the statements, and the texts given. A null one goes to the ELSE. -/
def cgOperand (level : Nat) : OptExpr V → Option (Text V) × Code V × List (Text V)
  | .none => (none, .skip, [])
  | .some e =>
    let temp : Var := .temp e.type level
    let E := cgExpr (.left 5 (level + 1)) e
    let test : Code V := if e.type.notNull then .skip else .ite (varTexts e.type temp).1 .gotoElse .skip
    (some (varTexts e.type temp).2, E.code.andThen ((store temp e.type e.type E.isNull E.value).andThen test), E.produced)

/-- `cg_case_list`. -/
def cgWhens (x : Var) (t : SemType) (operand : Option (Text V)) (level : Nat) : Whens V → Code V × List (Text V)
  | .nil => (.skip, [])
  | .cons cond value rest =>
    let C := cgExpr (.left 5 level) cond
    let E := cgExpr (.root level) value
    let R := cgWhens x t operand level rest
    (C.code.andThen ((Code.ite (whenCond operand cond.type C)
      (E.code.andThen ((store x t value.type E.isNull E.value).andThen .break)) .skip).andThen R.1),
      C.produced ++ (E.produced ++ R.2))

/-- The ELSE of a CASE. -/
def cgElse (x : Var) (t : SemType) (level : Nat) : OptExpr V → Code V × List (Text V)
  | .none => (setNullCode x t, [])
  | .some e =>
    let E := cgExpr (.root level) e
    (E.code.andThen (store x t e.type E.isNull E.value), E.produced)

/-- `cg_func_coalesce`: the last argument is stored even if it is null. -/
def cgCoalesce (x : Var) (t : SemType) (level : Nat) : Exprs V → Code V × List (Text V)
  | .nil => (.skip, [])
  | .cons e rest =>
    let E := cgExpr (.root level) e
    match rest with
    | .nil => (E.code.andThen (store x t e.type E.isNull E.value), E.produced)
    | .cons _ _ =>
      let R := cgCoalesce x t E.level rest
      (E.code.andThen ((Code.ite (notText E.isNull) ((store x t ⟨e.type.core, true⟩ zero E.value).andThen .break) .skip).andThen R.1),
        E.produced ++ R.2)

end

/-- `cg_assign`: the statements of `SET x := e`. -/
def cgAssign (x : String) (t : SemType) (e : Expr V) : Code V :=
  let E := cgExpr ⟨0, true, some (.user x, t), 0⟩ e
  E.code.andThen (store (.user x) t e.type E.isNull E.value)

end CgSql.CodeGen
