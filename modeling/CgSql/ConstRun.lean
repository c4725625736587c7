import CgSql.EvalExact

/-!
# Constants at run time

What a constant expression means where it is computed at run time: SQL's three-valued logic, operands converted to the type that `sem.c`
gives their operator, and branches of a `CASE` to the type of the `CASE`. Arithmetic is exact, as it is where the evaluation is defined.

Then the expressions where `eval` goes the same way, and the parts of an expression that are computed.
-/

namespace CgSql.Eval

variable {R : Type} (D : Doubles R)

/-! ## Operators -/

/-- The core type that `sem.c` gives an expression. -/
def coreOf (e : Expr R) : CoreType := (semType e).elim .null (·.core)

/-- The core type of two operands together. -/
def combineCores (a b : CoreType) : CoreType := (semCombineTypes ⟨a, true⟩ ⟨b, true⟩).core

/-- A conversion; null stays null. -/
def promote (v : Value R) (t : CoreType) : Value R := if v.isError || v.isNull then v else exactCast D v t

/-- The truth value; null is unknown. -/
def Value.truth (v : Value R) : Option Bool := if v.isNull then none else some (v.isTrue D)

/-- A truth value as a value. -/
def ofTruth : Option Bool → Value R
  | some b => .bool b
  | none => .null

/-- The table of `AND`. -/
def and3 : Option Bool → Option Bool → Option Bool
  | some false, _ => some false
  | _, some false => some false
  | some true, some true => some true
  | _, _ => none

/-- The table of `OR`. -/
def or3 : Option Bool → Option Bool → Option Bool
  | some true, _ => some true
  | _, some true => some true
  | some false, some false => some false
  | _, _ => none

/-- An operator on operands that are converted to type `t`. -/
def runNumber (op : MathOp) (t : CoreType) (left right : Value R) : Value R :=
  let l := exactCast D left t
  let r := exactCast D right t
  match t with
  | .integer => .integer (op.exact 32 l.toInt r.toInt)
  | .long => .long (op.exact 64 l.toInt r.toInt)
  | .real => .real ((op.onReals D (l.toReal D) (r.toReal D)).getD (l.toReal D))
  | _ => .error

/-- A binary operator of type `t`. A zero divisor has no value. -/
def runMath (op : MathOp) (t : CoreType) (left right : Value R) : Value R :=
  if left.isError || right.isError then .error
  else if left.isNull || right.isNull then .null
  else if op.isDivision && right.isZero D then .error
  else runNumber D op t left right

/-- A comparison of numbers that are converted to type `t`. -/
def runRel (op : CompareOp) (t : CoreType) (left right : Value R) : Bool :=
  let l := exactCast D left t
  let r := exactCast D right t
  match t with
  | .real => op.onReals D (l.toReal D) (r.toReal D)
  | _ => op.onInts l.toInt r.toInt

/-- A comparison. -/
def runCompare (op : CompareOp) (t : CoreType) (left right : Value R) : Value R :=
  if left.isError || right.isError then .error
  else if left.isNull || right.isNull then .null
  else .bool (runRel D op t left right)

/-- `IS`. -/
def runIs (t : CoreType) (left right : Value R) : Value R :=
  if left.isError || right.isError then .error
  else if left.isNull || right.isNull then .bool (left.isNull && right.isNull)
  else .bool (runRel D .eq t left right)

/-- `IS NOT`. -/
def runIsNot (t : CoreType) (left right : Value R) : Value R := (runIs D t left right).invert

/-- The equality that a `CASE` asks for. -/
def runEqual (t : CoreType) (left right : Value R) : Bool := !right.isNull && !left.isNull && runRel D .eq t left right

/-- `AND`; a left operand that is false decides. -/
def runAnd (left right : Value R) : Value R :=
  if left.isError then .error
  else if left.isZero D then .bool false
  else if right.isError then .error
  else ofTruth (and3 (left.truth D) (right.truth D))

/-- `OR`; a left operand that is true decides. -/
def runOr (left right : Value R) : Value R :=
  if left.isError then .error
  else if left.isTrue D then .bool true
  else if right.isError then .error
  else ofTruth (or3 (left.truth D) (right.truth D))

/-- A unary operator of type `t`. -/
def runUnary (op : UnaryOp) (t : CoreType) (v : Value R) : Value R :=
  if v.isError then .error
  else
    match op with
    | .not => ofTruth ((v.truth D).map (!·))
    | .isTrue => .bool (v.truth D = some true)
    | .isFalse => .bool (v.truth D = some false)
    | .isNotTrue => .bool (v.truth D ≠ some true)
    | .isNotFalse => .bool (v.truth D ≠ some false)
    | .tilde =>
      if v.isNull then .null
      else
        match t with
        | .integer => .integer (-(exactCast D v t).toInt - 1)
        | .long => .long (-(exactCast D v t).toInt - 1)
        | _ => .error
    | .uminus =>
      if v.isNull then .null
      else
        match t with
        | .integer => .integer (-(exactCast D v t).toInt)
        | .long => .long (-(exactCast D v t).toInt)
        | .real => .real (D.neg ((exactCast D v t).toReal D))
        | _ => .error

/-! ## Expressions -/

mutual

/-- The value of an expression at run time; an error is no value. -/
def run : Expr R → Value R
  | .null => .null
  | .boolNum n => .bool (strtoll n ≠ 0)
  | .intNum n => .integer ((strtoll n).bmod (2 ^ 32))
  | .longNum n => .long (strtoll n)
  | .minLong => .long (strtoll (2 ^ 63))
  | .realNum r => .real r
  | .math op left right => runMath D op (coreOf (.math op left right)) (run left) (run right)
  | .compare op left right => runCompare D op (combineCores (coreOf left) (coreOf right)) (run left) (run right)
  | .is left right => runIs D (combineCores (coreOf left) (coreOf right)) (run left) (run right)
  | .isNot left right => runIsNot D (combineCores (coreOf left) (coreOf right)) (run left) (run right)
  | .and left right => runAnd D (run left) (run right)
  | .or left right => runOr D (run left) (run right)
  | .unary op operand =>
    if op = .uminus ∧ operand.isMinLong then .long (-2 ^ 63) else runUnary D op (coreOf (.unary op operand)) (run operand)
  | .cast operand t => promote D (run operand) t
  | .caseOf test list =>
    if (run test).isError then .error
    else promote D (runCaseOf (coreOf test) (run test) list) (coreOf (.caseOf test list))
  | .caseWhen list => promote D (runCaseWhen list) (coreOf (.caseWhen list))
  | .other _ => .error

/-- The branch that equals the test expression. -/
def runCaseOf (t : CoreType) (test : Value R) : CaseList R → Value R
  | .when w e rest =>
    if (run w).isError then .error
    else if runEqual D (combineCores t (coreOf w)) test (run w) then run e
    else runCaseOf t test rest
  | .otherwise e => run e
  | .done => .null

/-- The branch with a true condition. -/
def runCaseWhen : CaseList R → Value R
  | .when w e rest =>
    if (run w).isError then .error
    else if (run w).isTrue D then run e
    else runCaseWhen rest
  | .otherwise e => run e
  | .done => .null

end

/-! ## The condition -/

/-- The branch of a `CASE` of type `t` needs no conversion. -/
def BranchFits (t : CoreType) (e : Expr R) : Prop := (run D e).isNull ∨ coreOf e = t

mutual

/-- No arithmetic on two truth values, and no branch of a `CASE` with a conversion, is computed. -/
def Regular : Expr R → Prop
  | .math _ left right =>
    Regular left ∧ Regular right ∧ ((run D left).isNull ∨ (run D right).isNull ∨ ¬(coreOf left = .bool ∧ coreOf right = .bool))
  | .compare _ left right => Regular left ∧ Regular right
  | .is left right => Regular left ∧ Regular right
  | .isNot left right => Regular left ∧ Regular right
  | .and left right => Regular left ∧ ((run D left).isZero D ∨ Regular right)
  | .or left right => Regular left ∧ ((run D left).isTrue D ∨ Regular right)
  | .unary _ operand => Regular operand
  | .cast operand _ => Regular operand
  | .caseOf test list => Regular test ∧ RegularCaseOf (coreOf (.caseOf test list)) (coreOf test) (run D test) list
  | .caseWhen list => RegularCaseWhen (coreOf (.caseWhen list)) list
  | _ => True

/-- The conditions up to the branch that is taken, and that branch. -/
def RegularCaseOf (type t : CoreType) (test : Value R) : CaseList R → Prop
  | .when w e rest =>
    Regular w ∧ if runEqual D (combineCores t (coreOf w)) test (run D w) then Regular e ∧ BranchFits D type e
      else RegularCaseOf type t test rest
  | .otherwise e => Regular e ∧ BranchFits D type e
  | .done => True

/-- The same without a test expression. -/
def RegularCaseWhen (type : CoreType) : CaseList R → Prop
  | .when w e rest =>
    Regular w ∧ if (run D w).isTrue D then Regular e ∧ BranchFits D type e else RegularCaseWhen type rest
  | .otherwise e => Regular e ∧ BranchFits D type e
  | .done => True

end

/-- The value has a literal of the type: it is not null unless the type is, and a double is printed with all its digits. -/
def Printable (e : Expr R) : Prop :=
  ((run D e).isNull → coreOf e = .null) ∧ ∀ r, run D e = .real r → D.printed r = r

mutual

/-- The parts of an expression that are computed, itself first. -/
def computed : Expr R → List (Expr R)
  | .math op left right => .math op left right :: computed left ++ computed right
  | .compare op left right => .compare op left right :: computed left ++ computed right
  | .is left right => .is left right :: computed left ++ computed right
  | .isNot left right => .isNot left right :: computed left ++ computed right
  | .and left right => .and left right :: computed left ++ if (run D left).isZero D then [] else computed right
  | .or left right => .or left right :: computed left ++ if (run D left).isTrue D then [] else computed right
  | .unary op operand => .unary op operand :: computed operand
  | .cast operand t => .cast operand t :: computed operand
  | .caseOf test list => .caseOf test list :: computed test ++ computedCaseOf (coreOf test) (run D test) list
  | .caseWhen list => .caseWhen list :: computedCaseWhen list
  | e => [e]

/-- The conditions up to the branch that is taken, and that branch. -/
def computedCaseOf (t : CoreType) (test : Value R) : CaseList R → List (Expr R)
  | .when w e rest =>
    computed w ++ if runEqual D (combineCores t (coreOf w)) test (run D w) then computed e else computedCaseOf t test rest
  | .otherwise e => computed e
  | .done => []

/-- The same without a test expression. -/
def computedCaseWhen : CaseList R → List (Expr R)
  | .when w e rest => computed w ++ if (run D w).isTrue D then computed e else computedCaseWhen rest
  | .otherwise e => computed e
  | .done => []

end

/-- The literal is what the expression is at run time: in the type that it has, and in its value. -/
def FoldsTo (e : Expr R) (literal : Value R) : Prop := literal.coreType = some (coreOf e) ∧ literal = run D e

end CgSql.Eval
