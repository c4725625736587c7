import CgSql.Eval

/-!
# Constants in exact arithmetic

The value of a constant expression in exact arithmetic, and what it takes that the operations on the way to it stay in range.
-/

namespace CgSql.Eval

/-! ## Exact values -/

variable {R : Type} (D : Doubles R)

/-- The value as a double. -/
def Value.toReal : Value R → R
  | .real r => r
  | v => D.ofInt v.toInt

/-- The value is a number other than zero. -/
def Value.isTrue : Value R → Bool
  | .bool b => b
  | .integer v => v ≠ 0
  | .long v => v ≠ 0
  | .real r => isNonzero D r
  | _ => false

/-- The value is zero. -/
def Value.isZero (v : Value R) : Bool := !v.isError && !v.isNull && !v.isTrue D

/-- The conversion, whatever becomes of a double that is out of range. -/
def exactCast (v : Value R) (t : CoreType) : Value R :=
  match t, v with
  | .null, v => v
  | .bool, v => .bool (v.isTrue D)
  | .integer, .real r => .integer ((D.trunc r).getD 0)
  | .integer, .long v => .integer (v.bmod (2 ^ 32))
  | .integer, v => .integer v.toInt
  | .long, .real r => .long ((D.trunc r).getD 0)
  | .long, v => .long v.toInt
  | .real, v => .real (v.toReal D)

/-- The bigger one of the types. -/
def commonType (left right : Value R) : CoreType := (evalCombinedType left right).getD .null

/-- The operator on numbers that are converted to the bigger one of the types. -/
def exactNumber (op : MathOp) (left right : Value R) : Value R :=
  match commonType left right with
  | .null => .null
  | .bool => .bool (op.exact 32 left.toInt right.toInt ≠ 0)
  | .integer => .integer (op.exact 32 left.toInt right.toInt)
  | .long => .long (op.exact 64 left.toInt right.toInt)
  | .real => .real ((op.onReals D (left.toReal D) (right.toReal D)).getD (left.toReal D))

/-- The operator in exact arithmetic; zero divisors are errors. -/
def exactMath (op : MathOp) (left right : Value R) : Value R :=
  if left.isError || right.isError then .error
  else if left.isNull || right.isNull then .null
  else if op.isDivision && right.isZero D then .error
  else exactNumber D op left right

/-- The comparison of numbers. -/
def exactRel (op : CompareOp) (left right : Value R) : Bool :=
  match commonType left right with
  | .real => op.onReals D (left.toReal D) (right.toReal D)
  | _ => op.onInts left.toInt right.toInt

/-- The comparison, with nulls. -/
def exactCompare (op : CompareOp) (left right : Value R) : Value R :=
  if left.isError || right.isError then .error
  else if left.isNull || right.isNull then .null
  else .bool (exactRel D op left right)

/-- `IS`. -/
def exactIs (left right : Value R) : Value R :=
  if left.isError || right.isError then .error
  else if left.isNull || right.isNull then .bool (left.isNull && right.isNull)
  else .bool (exactRel D .eq left right)

/-- The opposite of a truth value. -/
def Value.invert : Value R → Value R
  | .bool b => .bool (!b)
  | v => v

/-- `IS NOT`. -/
def exactIsNot (left right : Value R) : Value R := (exactIs D left right).invert

/-- `AND`. -/
def exactAnd (left right : Value R) : Value R :=
  if left.isError then .error
  else if left.isZero D then .bool false
  else if right.isError then .error
  else if right.isZero D then .bool false
  else if right.isNull || left.isNull then .null
  else .bool true

/-- `OR`. -/
def exactOr (left right : Value R) : Value R :=
  if left.isError then .error
  else if left.isTrue D then .bool true
  else if right.isError then .error
  else if right.isTrue D then .bool true
  else if right.isNull || left.isNull then .null
  else .bool false

/-- The unary operators. -/
def exactUnary (op : UnaryOp) (v : Value R) : Value R :=
  if v.isError then v
  else
    match op with
    | .not => if v.isNull then v else .bool (!v.isTrue D)
    | .tilde =>
      match v with
      | .null => .null
      | .long n => .long (-n - 1)
      | v => .integer (-v.toInt - 1)
    | .uminus =>
      match v with
      | .null => .null
      | .long n => .long (-n)
      | .real r => .real (D.neg r)
      | v => .integer (-v.toInt)
    | .isTrue => .bool (v.isTrue D)
    | .isFalse => .bool (v.isZero D)
    | .isNotTrue => .bool (!v.isTrue D)
    | .isNotFalse => .bool (!v.isZero D)

/-- The equality that a `CASE` asks for. -/
def exactEqual (left right : Value R) : Bool := !right.isNull && !left.isNull && exactRel D .eq left right

mutual

/-- The value of an expression in exact arithmetic. -/
def exact : Expr R → Value R
  | .null => .null
  | .boolNum n => .bool (strtoll n ≠ 0)
  | .intNum n => .integer ((strtoll n).bmod (2 ^ 32))
  | .longNum n => .long (strtoll n)
  | .minLong => .long (strtoll (2 ^ 63))
  | .realNum r => .real r
  | .math op left right => exactMath D op (exact left) (exact right)
  | .compare op left right => exactCompare D op (exact left) (exact right)
  | .is left right => exactIs D (exact left) (exact right)
  | .isNot left right => exactIsNot D (exact left) (exact right)
  | .and left right => exactAnd D (exact left) (exact right)
  | .or left right => exactOr D (exact left) (exact right)
  | .unary op operand => if op = .uminus ∧ operand.isMinLong then .long (-2 ^ 63) else exactUnary D op (exact operand)
  | .cast operand t =>
    if (exact operand).isError || (exact operand).isNull then exact operand else exactCast D (exact operand) t
  | .caseOf test list => if (exact test).isError then .error else exactCaseOf (exact test) list
  | .caseWhen list => exactCaseWhen list
  | .other _ => .error

/-- The branch that equals the test expression. -/
def exactCaseOf (test : Value R) : CaseList R → Value R
  | .when w t rest =>
    if (exact w).isError then .error
    else if exactEqual D test (exact w) then exact t
    else exactCaseOf test rest
  | .otherwise e => exact e
  | .done => .null

/-- The branch with a true condition. -/
def exactCaseWhen : CaseList R → Value R
  | .when w t rest =>
    if (exact w).isError then .error
    else if (exact w).isTrue D then exact t
    else exactCaseWhen rest
  | .otherwise e => exact e
  | .done => .null

end

/-! ## Staying in range -/

/-- The operator stays in the range of a signed type of `w` bits. -/
def MathOp.Stays (w : Nat) (op : MathOp) (a b : Int) : Prop :=
  match op with
  | .add => Fits w (a + b)
  | .sub => Fits w (a - b)
  | .mul => Fits w (a * b)
  | .div => ¬(a = -2 ^ (w - 1) ∧ b = -1)
  | .mod => ¬(a = -2 ^ (w - 1) ∧ b = -1)
  | .lshift => 0 ≤ b ∧ b < w
  | .rshift => 0 ≤ b ∧ b < w
  | .binAnd => True
  | .binOr => True

/-- The operator on numbers stays in range, behind their conversion; doubles do not meet an operator for integers. -/
def NumberStays (op : MathOp) (left right : Value R) : Prop :=
  match commonType left right with
  | .null => True
  | .bool => True
  | .integer => op.Stays 32 left.toInt right.toInt
  | .long => op.Stays 64 left.toInt right.toInt
  | .real => op.isInteger = false

/-- So do the operands, if there is an operation: with a null or a zero divisor there is none. -/
def MathStays (op : MathOp) (left right : Value R) : Prop :=
  left.isError ∨ right.isError ∨ left.isNull ∨ right.isNull ∨ (op.isDivision ∧ right.isZero D) ∨ NumberStays op left right

/-- There is a type to convert to, and a double fits into it. -/
def CastStays (v : Value R) (t : CoreType) : Prop :=
  match t, v with
  | .null, _ => False
  | .integer, .real r => ∃ n, D.trunc r = some n ∧ Fits 32 n
  | .long, .real r => ∃ n, D.trunc r = some n ∧ Fits 64 n
  | _, _ => True

/-- A number is not the smallest one when it is negated, and no double when it is complemented. -/
def UnaryStays (op : UnaryOp) (v : Value R) : Prop :=
  match op, v with
  | .tilde, .real _ => False
  | .uminus, .integer n => n ≠ -2 ^ 31
  | .uminus, .long n => n ≠ -2 ^ 63
  | _, _ => True

mutual

/-- All the operations that are reached stay in range, and no conversion is reached that has no type. -/
def Stays : Expr R → Prop
  | .math op left right => Stays left ∧ Stays right ∧ MathStays D op (exact D left) (exact D right)
  | .compare _ left right => Stays left ∧ Stays right
  | .is left right => Stays left ∧ Stays right
  | .isNot left right => Stays left ∧ Stays right
  | .and left right => Stays left ∧ ((exact D left).isError ∨ (exact D left).isZero D ∨ Stays right)
  | .or left right => Stays left ∧ ((exact D left).isError ∨ (exact D left).isTrue D ∨ Stays right)
  | .unary op operand => (op = .uminus ∧ operand.isMinLong) ∨ (Stays operand ∧ UnaryStays op (exact D operand))
  | .cast operand t =>
    Stays operand ∧ ((exact D operand).isError ∨ (exact D operand).isNull ∨ CastStays D (exact D operand) t)
  | .caseOf test list => Stays test ∧ ((exact D test).isError ∨ StaysCaseOf (exact D test) list)
  | .caseWhen list => StaysCaseWhen list
  | _ => True

/-- So do those of the branch that is taken, and of the conditions up to it. -/
def StaysCaseOf (test : Value R) : CaseList R → Prop
  | .when w t rest =>
    Stays w ∧ ((exact D w).isError ∨ if exactEqual D test (exact D w) then Stays t else StaysCaseOf test rest)
  | .otherwise e => Stays e
  | .done => True

/-- The same without a test expression. -/
def StaysCaseWhen : CaseList R → Prop
  | .when w t rest => Stays w ∧ ((exact D w).isError ∨ if (exact D w).isTrue D then Stays t else StaysCaseWhen rest)
  | .otherwise e => Stays e
  | .done => True

end

/-- The values of a `SWITCH` on type `t` up to the first error: no value is null, and no double is out of the range of a `LONG`. -/
def SwitchStays (t : CoreType) : List (Expr R) → Prop
  | [] => True
  | e :: rest =>
    match semExpr e with
    | (none, _) => True
    | (some s, e) =>
      s.core.rank > t.rank ∨ (Stays D e ∧ ((exact D e).isError ∨
          ((exact D e).isNull = false ∧ CastStays D (exact D e) .long ∧ SwitchStays t rest)))

/-- The number behind a number. -/
def exactAddOne : Value R → Value R
  | .integer v => .integer (v + 1)
  | .long v => .long (v + 1)
  | .real r => .real (D.add r (D.ofInt 1))
  | .bool b => .bool !b
  | v => v

/-- There is a number behind it. -/
def AddOneStays : Value R → Prop
  | .integer v => v ≠ 2 ^ 31 - 1
  | .long v => v ≠ 2 ^ 63 - 1
  | _ => True

/-- The members of an enumeration of type `t` up to the first error, behind a member with the value `last`. -/
def EnumStays (t : CoreType) (last : Value R) : List (Option (Expr R)) → Prop
  | [] => True
  | some e :: rest =>
    let e := (semExpr e).2
    Stays D e ∧ ((exact D e).isError ∨ (exact D e).isNull ∨ (CastStays D (exact D e) t ∧ EnumStays t (exactCast D (exact D e) t) rest))
  | none :: rest =>
    AddOneStays last ∧ CastStays D (exactAddOne D last) t ∧ EnumStays t (exactCast D (exactAddOne D last) t) rest

end CgSql.Eval
