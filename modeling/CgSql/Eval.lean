import Mathlib.Algebra.Order.Ring.Int
import Mathlib.Data.BitVec

/-!
# Constant evaluation

`eval.c`: the value of a constant expression, the conversions between the numeric types, and the literal that replaces the expression.
With it the loops of `sem.c` that evaluate the members of an enumeration and the values of a `SWITCH`, and the core types that `sem.c`
gives these expressions.

An operation that C leaves undefined, and a contract that fails, are `none`. The arithmetic of doubles is a parameter.
-/

namespace CgSql.Eval

/-! ## Values -/

/-- The core types of constants, from the smallest on. -/
inductive CoreType
  | null
  | bool
  | integer
  | long
  | real
  deriving DecidableEq, Repr

/-- The order of the `SEM_TYPE_…` constants. -/
def CoreType.rank : CoreType → Nat
  | .null => 0
  | .bool => 1
  | .integer => 2
  | .long => 3
  | .real => 4

/-- What `sem.c` knows of the type of an expression: the core type, and the flag `SEM_TYPE_NOTNULL`. -/
structure SemType where
  core : CoreType
  notnull : Bool
  deriving DecidableEq, Repr

/-- What C does with doubles. -/
structure Doubles (R : Type) where
  add : R → R → R
  sub : R → R → R
  mul : R → R → R
  div : R → R → R
  neg : R → R
  eq : R → R → Bool
  lt : R → R → Bool
  le : R → R → Bool
  ofInt : Int → R
  /-- The integer that is left without the digits behind the point; infinities and NaN have none. -/
  trunc : R → Option Int
  /-- The value of the literal that `eval_format_real` prints. -/
  printed : R → R

/-- `eval_node`: the type and the field of it that counts. -/
inductive Value (R : Type)
  | error
  | null
  | bool (b : Bool)
  | integer (v : Int)
  | long (v : Int)
  | real (r : R)
  deriving DecidableEq

variable {R : Type}

def Value.isError : Value R → Bool
  | .error => true
  | _ => false

def Value.isNull : Value R → Bool
  | .null => true
  | _ => false

/-- The core type, if it is no error. -/
def Value.coreType : Value R → Option CoreType
  | .error => none
  | .null => some .null
  | .bool _ => some .bool
  | .integer _ => some .integer
  | .long _ => some .long
  | .real _ => some .real

/-- A number is one of a signed type of `w` bits. -/
def Fits (w : Nat) (v : Int) : Prop := -2 ^ (w - 1) ≤ v ∧ v < 2 ^ (w - 1)

instance (w : Nat) (v : Int) : Decidable (Fits w v) := inferInstanceAs (Decidable (_ ∧ _))

/-- The conversion of a double to a signed type of `w` bits. -/
def toSigned (D : Doubles R) (w : Nat) (r : R) : Option Int := (D.trunc r).bind fun v => if Fits w v then some v else none

/-- `!!bool_value`. -/
def bit (b : Bool) : Int := if b then 1 else 0

variable (D : Doubles R)

/-- `real_value != 0`. -/
def isNonzero (r : R) : Bool := !D.eq r (D.ofInt 0)

/-- `eval_cast_to`: errors and nulls break its contract. -/
def evalCastTo (v : Value R) (t : CoreType) : Option (Value R) :=
  match t, v with
  | .real, .real r => some (.real r)
  | .real, .integer v => some (.real (D.ofInt v))
  | .real, .bool b => some (.real (D.ofInt (bit b)))
  | .real, .long v => some (.real (D.ofInt v))
  | .long, .long v => some (.long v)
  | .long, .real r => (toSigned D 64 r).map .long
  | .long, .bool b => some (.long (bit b))
  | .long, .integer v => some (.long v)
  | .integer, .integer v => some (.integer v)
  | .integer, .real r => (toSigned D 32 r).map .integer
  | .integer, .bool b => some (.integer (bit b))
  | .integer, .long v => some (.integer (v.bmod (2 ^ 32)))
  | .bool, .bool b => some (.bool b)
  | .bool, .real r => some (.bool (isNonzero D r))
  | .bool, .integer v => some (.bool (v ≠ 0))
  | .bool, .long v => some (.bool (v ≠ 0))
  | _, _ => none

/-- `eval_combined_type`: errors and nulls break its contract. -/
def evalCombinedType (left right : Value R) : Option CoreType :=
  match left, right with
  | .error, _ => none
  | .null, _ => none
  | _, .error => none
  | _, .null => none
  | .real _, _ => some .real
  | _, .real _ => some .real
  | .long _, _ => some .long
  | _, .long _ => some .long
  | .integer _, _ => some .integer
  | _, .integer _ => some .integer
  | .bool _, .bool _ => some .bool

/-- `result_is_false`. -/
def resultIsFalse (v : Value R) : Option Bool :=
  match v with
  | .null => some false
  | v => (evalCastTo D v .bool).map fun
    | .bool b => !b
    | _ => false

/-- `result_is_true`. -/
def resultIsTrue (v : Value R) : Option Bool :=
  match v with
  | .null => some false
  | v => (evalCastTo D v .bool).map fun
    | .bool b => b
    | _ => false

/-- The field of an integer type, with `!!bool_value` for a truth value. -/
def Value.toInt : Value R → Int
  | .bool b => bit b
  | .integer v => v
  | .long v => v
  | _ => 0

/-! ## Operators -/

/-- The operators of `BINARY_OP` and `BINARY_OP_NO_REAL`. -/
inductive MathOp
  | add
  | sub
  | mul
  | div
  | mod
  | lshift
  | rshift
  | binAnd
  | binOr
  deriving DecidableEq, Repr

/-- What an operator gives on integers of `w` bits, without regard to its range. What leaves a left shift is dropped. -/
def MathOp.exact (w : Nat) : MathOp → Int → Int → Int
  | .add, a, b => a + b
  | .sub, a, b => a - b
  | .mul, a, b => a * b
  | .div, a, b => a.tdiv b
  | .mod, a, b => a.tmod b
  | .lshift, a, b => (a * 2 ^ b.toNat).bmod (2 ^ w)
  | .rshift, a, b => a / 2 ^ b.toNat
  | .binAnd, a, b => (BitVec.ofInt w a &&& BitVec.ofInt w b).toInt
  | .binOr, a, b => (BitVec.ofInt w a ||| BitVec.ofInt w b).toInt

/-- The operation is defined: no division by zero, no overflow, and a shift by less than the width. -/
def MathOp.Defined (w : Nat) (op : MathOp) (a b : Int) : Prop :=
  match op with
  | .add => Fits w (a + b)
  | .sub => Fits w (a - b)
  | .mul => Fits w (a * b)
  | .div => b ≠ 0 ∧ Fits w (a.tdiv b)
  | .mod => b ≠ 0 ∧ Fits w (a.tdiv b)
  | .lshift => 0 ≤ b ∧ b < w
  | .rshift => 0 ≤ b ∧ b < w
  | .binAnd => True
  | .binOr => True

instance (w : Nat) (op : MathOp) (a b : Int) : Decidable (op.Defined w a b) := by
  cases op <;> unfold MathOp.Defined <;> infer_instance

/-- The operator on integers of `w` bits. -/
def MathOp.onInts (w : Nat) (op : MathOp) (a b : Int) : Option Int := if op.Defined w a b then some (op.exact w a b) else none

/-- The operator on doubles; the operators of `BINARY_OP_NO_REAL` have none. -/
def MathOp.onReals (op : MathOp) (a b : R) : Option R :=
  match op with
  | .add => some (D.add a b)
  | .sub => some (D.sub a b)
  | .mul => some (D.mul a b)
  | .div => some (D.div a b)
  | _ => none

/-- The operators with a test for zero. -/
def MathOp.isDivision : MathOp → Bool
  | .div => true
  | .mod => true
  | _ => false

/-- The switch over the combined type. -/
def MathOp.apply (op : MathOp) : Value R → Value R → Option (Value R)
  | .integer a, .integer b => (op.onInts 32 a b).map .integer
  | .long a, .long b => (op.onInts 64 a b).map .long
  | .bool a, .bool b => (op.onInts 32 (bit a) (bit b)).map fun v => .bool (v ≠ 0)
  | .real a, .real b => (op.onReals D a b).map .real
  | _, _ => none

/-- `BINARY_OP` and `BINARY_OP_NO_REAL`, behind the evaluation of the operands. -/
def binaryOp (op : MathOp) (left right : Value R) : Option (Value R) :=
  if left.isError || right.isError then some .error
  else if left.isNull || right.isNull then some .null
  else do
    let zero ← resultIsFalse D right
    if op.isDivision && zero then return .error
    else do
      let t ← evalCombinedType left right
      let l ← evalCastTo D left t
      let r ← evalCastTo D right t
      op.apply D l r

/-- The operators of `COMPARE_BINARY_OP`. -/
inductive CompareOp
  | eq
  | ne
  | le
  | ge
  | lt
  | gt
  deriving DecidableEq, Repr

def CompareOp.onInts : CompareOp → Int → Int → Bool
  | .eq, a, b => a = b
  | .ne, a, b => a ≠ b
  | .le, a, b => a ≤ b
  | .ge, a, b => a ≥ b
  | .lt, a, b => a < b
  | .gt, a, b => a > b

def CompareOp.onReals : CompareOp → R → R → Bool
  | .eq, a, b => D.eq a b
  | .ne, a, b => !D.eq a b
  | .le, a, b => D.le a b
  | .ge, a, b => D.le b a
  | .lt, a, b => D.lt a b
  | .gt, a, b => D.lt b a

/-- The switch over the combined type. -/
def CompareOp.apply (op : CompareOp) : Value R → Value R → Option Bool
  | .integer a, .integer b => some (op.onInts a b)
  | .long a, .long b => some (op.onInts a b)
  | .bool a, .bool b => some (op.onInts (bit a) (bit b))
  | .real a, .real b => some (op.onReals D a b)
  | _, _ => none

/-- Both operands are converted to the combined type and compared. -/
def compareValues (op : CompareOp) (left right : Value R) : Option Bool := do
  let t ← evalCombinedType left right
  let l ← evalCastTo D left t
  let r ← evalCastTo D right t
  op.apply D l r

/-- `COMPARE_BINARY_OP`, behind the evaluation of the operands. -/
def compareBinaryOp (op : CompareOp) (left right : Value R) : Option (Value R) :=
  if left.isError || right.isError then some .error
  else if left.isNull || right.isNull then some .null
  else (compareValues D op left right).map .bool

/-- `eval_is`, behind the evaluation of the operands. -/
def isOp (left right : Value R) : Option (Value R) :=
  if left.isError || right.isError then some .error
  else if left.isNull || right.isNull then some (.bool (left.isNull && right.isNull))
  else (compareValues D .eq left right).map .bool

/-- `eval_are_equal`. -/
def evalAreEqual (left right : Value R) : Option Bool :=
  if right.isNull || left.isNull then some false else compareValues D .eq left right

/-- The unary operators with an operand that is evaluated first. -/
inductive UnaryOp
  | not
  | tilde
  | uminus
  | isTrue
  | isFalse
  | isNotTrue
  | isNotFalse
  deriving DecidableEq, Repr

/-- `eval_uminus` on a value that is no error and no null. -/
def negate : Value R → Option (Value R)
  | .integer v => if Fits 32 (-v) then some (.integer (-v)) else none
  | .long v => if Fits 64 (-v) then some (.long (-v)) else none
  | .real r => some (.real (D.neg r))
  | .bool b => some (.integer (if b then -1 else 0))
  | _ => none

/-- `eval_tilde` on a value that is no error and no null. -/
def complement : Value R → Option (Value R)
  | .integer v => some (.integer (-v - 1))
  | .long v => some (.long (-v - 1))
  | .bool b => some (.integer (if b then -2 else -1))
  | _ => none

/-- The `eval_…` of the unary operators, behind the evaluation of the operand. -/
def unaryOp (op : UnaryOp) (v : Value R) : Option (Value R) :=
  if v.isError then some v
  else
    match op with
    | .not =>
      if v.isNull then some v
      else (evalCastTo D v .bool).map fun
        | .bool b => .bool (!b)
        | v => v
    | .tilde => if v.isNull then some v else complement v
    | .uminus => if v.isNull then some v else negate D v
    | .isTrue => (resultIsTrue D v).map .bool
    | .isFalse => (resultIsFalse D v).map .bool
    | .isNotTrue => if v.isNull then some (.bool true) else (resultIsTrue D v).map fun b => .bool (!b)
    | .isNotFalse => if v.isNull then some (.bool true) else (resultIsFalse D v).map fun b => .bool (!b)

/-! ## Expressions -/

mutual

/-- The expressions that `eval` has a function for, and the others. A number is that of the digits of its literal. The type of a
conversion is the one it is written with, and in a tree that was analysed the one that was left there: null where there is none. -/
inductive Expr (R : Type)
  | null
  | boolNum (n : Nat)
  | intNum (n : Nat)
  | longNum (n : Nat)
  /-- The literal that `eval_uminus` knows by its text. -/
  | minLong
  | realNum (r : R)
  | math (op : MathOp) (left right : Expr R)
  | compare (op : CompareOp) (left right : Expr R)
  | is (left right : Expr R)
  | isNot (left right : Expr R)
  | and (left right : Expr R)
  | or (left right : Expr R)
  | unary (op : UnaryOp) (operand : Expr R)
  | cast (operand : Expr R) (t : CoreType)
  | caseOf (test : Expr R) (list : CaseList R)
  | caseWhen (list : CaseList R)
  /-- A node without a function, with the type that it has, if it is accepted. -/
  | other (t : Option SemType)

/-- The `WHEN` and `THEN` expressions of a `CASE` up to its `ELSE`. -/
inductive CaseList (R : Type)
  | when (w t : Expr R) (rest : CaseList R)
  | otherwise (e : Expr R)
  | done

end

/-- `strtoll` stops at the largest number. -/
def strtoll (n : Nat) : Int := min (n : Int) (2 ^ 63 - 1)

/-- The operand is the literal `9223372036854775808`. -/
def Expr.isMinLong : Expr R → Bool
  | .minLong => true
  | _ => false

/-- `is_ast_null`. -/
def Expr.isNull : Expr R → Bool
  | .null => true
  | _ => false

/-! ## Types -/

/-- `sem_combine_types`, on numeric types. -/
def semCombineTypes (a b : SemType) : SemType :=
  let core :=
    match a.core, b.core with
    | .real, _ => .real
    | .long, .real => .real
    | .long, _ => .long
    | .integer, .real => .real
    | .integer, .long => .long
    | .integer, _ => .integer
    | .bool, .null => .bool
    | .bool, t => t
    | .null, t => t
  ⟨core, a.notnull && b.notnull⟩

/-- The operators that `sem_reject_real` stands behind. -/
def MathOp.isInteger : MathOp → Bool
  | .add => false
  | .sub => false
  | .mul => false
  | .div => false
  | _ => true

/-- `sem_binary_math` and `sem_binary_integer_math`, behind the operands. -/
def semBinaryMath (op : MathOp) (left right : SemType) : Option SemType :=
  let t := semCombineTypes left right
  let t := if t.core = .bool then ⟨.integer, t.notnull⟩ else t
  if op.isInteger ∧ t.core = .real then none else some t

/-- `sem_unary_math`, `sem_unary_integer_math`, `sem_unary_logical` and `sem_unary_is_true_or_false`, behind the operand. -/
def semUnary (op : UnaryOp) (t : SemType) : Option SemType :=
  match op with
  | .not => some ⟨.bool, t.notnull⟩
  | .tilde => if t.core = .real then none else some (semCombineTypes ⟨.integer, true⟩ t)
  | .uminus => some (semCombineTypes ⟨.integer, true⟩ t)
  | _ => some ⟨.bool, true⟩

/-- The comparison is one of `sem_binary_eq_or_ne`. -/
def CompareOp.isEqOrNe : CompareOp → Bool
  | .eq => true
  | .ne => true
  | _ => false

mutual

/-- `sem_expr`, where it reports nothing: the type of an expression. Kinds and sensitivity are left out. -/
def semType : Expr R → Option SemType
  | .null => some ⟨.null, false⟩
  | .boolNum _ => some ⟨.bool, true⟩
  | .intNum _ => some ⟨.integer, true⟩
  | .longNum _ => some ⟨.long, true⟩
  | .minLong => some ⟨.long, true⟩
  | .realNum _ => some ⟨.real, true⟩
  | .math op left right => do
    let l ← semType left
    let r ← semType right
    semBinaryMath op l r
  | .compare op left right => do
    let l ← semType left
    let r ← semType right
    if op.isEqOrNe && (left.isNull || right.isNull) then none else some ⟨.bool, l.notnull && r.notnull⟩
  | .is left right => do
    let l ← semType left
    let _ ← semType right
    if right.isNull && l.notnull then none else some ⟨.bool, true⟩
  | .isNot left right => do
    let l ← semType left
    let _ ← semType right
    if right.isNull && l.notnull then none else some ⟨.bool, true⟩
  | .and left right => do
    let l ← semType left
    let r ← semType right
    some ⟨.bool, l.notnull && r.notnull⟩
  | .or left right => do
    let l ← semType left
    let r ← semType right
    some ⟨.bool, l.notnull && r.notnull⟩
  | .unary op operand => do
    let t ← semType operand
    semUnary op t
  | .cast operand t => do
    let s ← semType operand
    if t = .null then none else some ⟨t, s.notnull⟩
  | .caseOf test list => do
    let _ ← semType test
    semCaseList none list
  | .caseWhen list => semCaseList none list
  | .other t => t

/-- `sem_case_list` and the `ELSE` in `sem_case`: `pending` is the type of the branches so far. -/
def semCaseList (pending : Option SemType) : CaseList R → Option SemType
  | .when w t rest => do
    let tw ← semType w
    let tt ← semType t
    if tw.core = .null then none
    else semCaseList (some (pending.elim tt fun p => semCombineTypes p tt)) rest
  | .otherwise e => do
    let te ← semType e
    let p ← pending
    some (semCombineTypes p te)
  | .done => pending.map fun p => ⟨p.core, false⟩

end

/-! ### What the analysis leaves in the tree -/

mutual

/-- An expression that was not analysed: no type was left at its conversions. -/
def Expr.unseen : Expr R → Expr R
  | .math op left right => .math op left.unseen right.unseen
  | .compare op left right => .compare op left.unseen right.unseen
  | .is left right => .is left.unseen right.unseen
  | .isNot left right => .isNot left.unseen right.unseen
  | .and left right => .and left.unseen right.unseen
  | .or left right => .or left.unseen right.unseen
  | .unary op operand => .unary op operand.unseen
  | .cast operand _ => .cast operand.unseen .null
  | .caseOf test list => .caseOf test.unseen list.unseen
  | .caseWhen list => .caseWhen list.unseen
  | e => e

def CaseList.unseen : CaseList R → CaseList R
  | .when w t rest => .when w.unseen t.unseen rest.unseen
  | .otherwise e => .otherwise e.unseen
  | .done => .done

end

mutual

/-- `sem_expr`: the type that it leaves at an expression, none if that is an error, and the tree with the types of its conversions. Both
operands of an operator are analysed; behind an error in a `CASE` nothing more of it is. -/
def semExpr : Expr R → Option SemType × Expr R
  | .math op left right =>
    let (l, left) := semExpr left
    let (r, right) := semExpr right
    (l.bind fun l => r.bind fun r => semBinaryMath op l r, .math op left right)
  | .compare op left right =>
    let (l, left') := semExpr left
    let (r, right') := semExpr right
    (l.bind fun l => r.bind fun r =>
      if op.isEqOrNe && (left.isNull || right.isNull) then none else some ⟨.bool, l.notnull && r.notnull⟩, .compare op left' right')
  | .is left right =>
    let (l, left') := semExpr left
    let (r, right') := semExpr right
    (l.bind fun l => r.bind fun _ => if right.isNull && l.notnull then none else some ⟨.bool, true⟩, .is left' right')
  | .isNot left right =>
    let (l, left') := semExpr left
    let (r, right') := semExpr right
    (l.bind fun l => r.bind fun _ => if right.isNull && l.notnull then none else some ⟨.bool, true⟩, .isNot left' right')
  | .and left right =>
    let (l, left) := semExpr left
    let (r, right) := semExpr right
    (l.bind fun l => r.map fun r => ⟨.bool, l.notnull && r.notnull⟩, .and left right)
  | .or left right =>
    let (l, left) := semExpr left
    let (r, right) := semExpr right
    (l.bind fun l => r.map fun r => ⟨.bool, l.notnull && r.notnull⟩, .or left right)
  | .unary op operand =>
    let (s, operand) := semExpr operand
    (s.bind (semUnary op), .unary op operand)
  | .cast operand t =>
    match semExpr operand with
    | (some s, operand) => (if t = .null then none else some ⟨t, s.notnull⟩, .cast operand t)
    | (none, operand) => (none, .cast operand .null)
  | .caseOf test list =>
    match semExpr test with
    | (some _, test) =>
      let (s, list) := semWhens none list
      (s, .caseOf test list)
    | (none, test) => (none, .caseOf test list.unseen)
  | .caseWhen list =>
    let (s, list) := semWhens none list
    (s, .caseWhen list)
  | e => (semType e, e)

/-- `sem_case_list` and the `ELSE` in `sem_case`; of the branches so far `pending` has the type of the first and that of all. A
`WHEN NULL` is an error of the list only if it is the first. Behind that the list is left with the type of its first branch, and the
`ELSE` is analysed. -/
def semWhens (pending : Option (SemType × SemType)) : CaseList R → Option SemType × CaseList R
  | .when w t rest =>
    match semExpr w with
    | (none, w) => (none, .when w t.unseen rest.unseen)
    | (some tw, w) =>
      if tw.core = .null then
        match pending with
        | none => (none, .when w t.unseen rest.unseen)
        | some (first, _) =>
          let (s, rest) := semElse first rest
          (s, .when w t.unseen rest)
      else
        match semExpr t with
        | (none, t) => (none, .when w t rest.unseen)
        | (some tt, t) =>
          let (s, rest) := semWhens (some (pending.elim (tt, tt) fun p => (p.1, semCombineTypes p.2 tt))) rest
          (s, .when w t rest)
  | .otherwise e =>
    let (te, e) := semExpr e
    (te.bind fun te => pending.map fun p => semCombineTypes p.2 te, .otherwise e)
  | .done => (pending.map fun p => ⟨p.2.core, false⟩, .done)

/-- The `ELSE` in `sem_case`, behind branches that are not analysed. -/
def semElse (first : SemType) : CaseList R → Option SemType × CaseList R
  | .when w t rest =>
    let (s, rest) := semElse first rest
    (s, .when w.unseen t.unseen rest)
  | .otherwise e =>
    let (te, e) := semExpr e
    (te.map (semCombineTypes first), .otherwise e)
  | .done => (some ⟨first.core, false⟩, .done)

end

/-! ## Evaluation -/

mutual

/-- `eval`, of a tree that was analysed. -/
def eval : Expr R → Option (Value R)
  | .null => some .null
  | .boolNum n => some (.bool (strtoll n ≠ 0))
  | .intNum n => some (.integer ((strtoll n).bmod (2 ^ 32)))
  | .longNum n => some (.long (strtoll n))
  | .minLong => some (.long (strtoll (2 ^ 63)))
  | .realNum r => some (.real r)
  | .math op left right => do
    let l ← eval left
    let r ← eval right
    binaryOp D op l r
  | .compare op left right => do
    let l ← eval left
    let r ← eval right
    compareBinaryOp D op l r
  | .is left right => do
    let l ← eval left
    let r ← eval right
    isOp D l r
  | .isNot left right => do
    let l ← eval left
    let r ← eval right
    (isOp D l r).map fun
      | .bool b => .bool (!b)
      | v => v
  | .and left right => do
    let l ← eval left
    if l.isError then return .error
    else if ← resultIsFalse D l then return .bool false
    else do
      let r ← eval right
      if r.isError then return .error
      else if ← resultIsFalse D r then return .bool false
      else if r.isNull || l.isNull then return .null
      else return .bool true
  | .or left right => do
    let l ← eval left
    if l.isError then return .error
    else if ← resultIsTrue D l then return .bool true
    else do
      let r ← eval right
      if r.isError then return .error
      else if ← resultIsTrue D r then return .bool true
      else if r.isNull || l.isNull then return .null
      else return .bool false
  | .unary op operand => do
    if op = .uminus ∧ operand.isMinLong then return .long (-2 ^ 63)
    else do
      let v ← eval operand
      unaryOp D op v
  | .cast operand t => do
    let v ← eval operand
    if v.isError || v.isNull then return v else evalCastTo D v t
  | .caseOf test list => do
    let v ← eval test
    if v.isError then return .error else evalCaseOf v list
  | .caseWhen list => evalCaseWhen list
  | .other _ => some .error

/-- `eval_case_expr` with a test expression. -/
def evalCaseOf (test : Value R) : CaseList R → Option (Value R)
  | .when w t rest => do
    let v ← eval w
    if v.isError then return .error
    else if ← evalAreEqual D test v then eval t
    else evalCaseOf test rest
  | .otherwise e => eval e
  | .done => some .null

/-- `eval_case_expr` without one. -/
def evalCaseWhen : CaseList R → Option (Value R)
  | .when w t rest => do
    let v ← eval w
    if v.isError then return .error
    else if ← resultIsTrue D v then eval t
    else evalCaseWhen rest
  | .otherwise e => eval e
  | .done => some .null

end

/-! ## The uses -/

/-- `eval_add_one`: errors and nulls break its contract. -/
def evalAddOne : Value R → Option (Value R)
  | .integer v => if Fits 32 (v + 1) then some (.integer (v + 1)) else none
  | .long v => if Fits 64 (v + 1) then some (.long (v + 1)) else none
  | .real r => some (.real (D.add r (D.ofInt 1)))
  | .bool b => some (.bool !b)
  | _ => none

/-- `eval_set`: what the literal that replaces the expression stands for. An error breaks its contract. -/
def evalSet : Value R → Option (Value R)
  | .error => none
  | .real r => some (.real (D.printed r))
  | v => some v

/-- `sem_expr_const`, where it reports nothing, and so has left the types in the tree that are written there. -/
def semExprConst (e : Expr R) : Option (Value R) := do
  let _ ← semType e
  let v ← eval D e
  if v.isError then none else evalSet D v

/-- The errors of `sem_switch_expr_list` and of the values in `sem_declare_enum_stmt`. -/
inductive EvalError
  /-- The expression has an error of its own. -/
  | expr
  /-- CQL0382: type of a WHEN expression is bigger than the type of the SWITCH expression -/
  | biggerType
  /-- CQL0380: WHEN expression cannot be evaluated to a constant -/
  | notConstant
  /-- CQL0355: evaluation failed -/
  | evaluationFailed
  deriving DecidableEq, Repr

/-- `sem_switch_expr_list`: the values of the cases of a `SWITCH` on type `t`. -/
def semSwitchExprList (t : CoreType) : List (Expr R) → Option (Except EvalError (List Int))
  | [] => some (.ok [])
  | e :: rest =>
    match semExpr e with
    | (none, _) => some (.error .expr)
    | (some s, e) =>
      if s.core.rank > t.rank then some (.error .biggerType)
      else do
        let v ← eval D e
        if v.isError then return .error .notConstant
        else do
          let v ← evalCastTo D v .long
          let vals ← semSwitchExprList t rest
          return vals.map fun vals => v.toInt :: vals

/-- The loop of `sem_declare_enum_stmt`: the values of the members of an enumeration of type `t`, behind a member with the value `last`.
What `sem_root_expr` has found is not looked at. -/
def semEnumValues (t : CoreType) (last : Value R) : List (Option (Expr R)) → Option (Except EvalError (List (Value R)))
  | [] => some (.ok [])
  | member :: rest => do
    let v ← match member with
      | some e => eval D (semExpr e).2
      | none => evalAddOne D last
    if v.isError || v.isNull then return .error .evaluationFailed
    else do
      let v ← evalCastTo D v t
      let vals ← semEnumValues t v rest
      return vals.map fun vals => v :: vals

/-- `sem_declare_enum_stmt` starts with the integer 0. -/
def semDeclareEnum (t : CoreType) (members : List (Option (Expr R))) : Option (Except EvalError (List (Value R))) :=
  semEnumValues D t (.integer 0) members

end CgSql.Eval
