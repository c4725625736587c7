import CgSql.CodeGen

/-!
# The shape of generated texts

What the text of an expression shows outside of parentheses, and which expressions are generated so that every operator has its operands.
-/

namespace CgSql.CodeGen

open Nullability

variable {V : Type}

/-- The operator of priority `own` as what an operand shows outside of parentheses. -/
def shown (own pri : Nat) (right : Bool) : Option Nat :=
  if (if own = pri then right else decide (own < pri)) then none else some own

def bothNotNull (l r : Expr V) : Bool := l.type.notNull && r.type.notNull

/-- Nothing has to run before the expression. -/
def Expr.plain : Expr V → Bool
  | .null | .bit _ _ | .literal _ _ | .var _ _ => true
  | .unary _ e | .not e => e.type.notNull && e.plain
  | .binary op l r => decide ((Expr.binary op l r).type = ⟨.null, false⟩) || bothNotNull l r && (l.plain && r.plain)
  | .compare _ l r | .eqNe _ l r | .like _ l r | .logical _ l r => bothNotNull l r && (l.plain && r.plain)
  | .is _ l r =>
    if l.isNullLiteral then r.type.notNull && !isRef r.type.core || r.plain
    else if r.isNullLiteral then l.type.notNull && !isRef l.type.core || l.plain
    else l.plain && r.plain
  | .isTruth _ _ e | .typeCheck e => e.plain
  | .between _ e _ => e.isNullLiteral
  | .inPred _ e _ => decide (e.type.core = .null) && e.type.notNull
  | .caseExpr _ _ _ | .coalesce _ => false
  | .cast e core => if e.type.core = .null ∨ e.type.core = core then e.plain else e.type.notNull && e.plain

/-- The expression is known to be null. -/
def Expr.knownNull : Expr V → Bool
  | .null => true
  | .binary op l r => (Expr.binary op l r).type = ⟨.null, false⟩
  | .between _ e test => e.isNullLiteral || test.knownNull
  | .cast e core => if e.type.core = .null then true else if e.type.core = core then e.knownNull else false
  | _ => false

/-- The priority of the operator that the text of an expression shows outside of parentheses, in a context of priority `pri`. A cast that
does nothing and a type check show what their operand shows. -/
def Expr.loosest (pri : Nat) (right : Bool) : Expr V → Option Nat
  | .binary op l r => if bothNotNull l r then shown (mathBinary op).prec pri right else none
  | .compare _ l r => if bothNotNull l r then shown 6 pri right else none
  | .eqNe _ l r => if bothNotNull l r ∧ ¬(l.type.core = .blob ∧ r.type.core = .blob) then shown 5 pri right else none
  | .like _ l r => if bothNotNull l r then shown 5 pri right else none
  | .logical op l r => if bothNotNull l r && r.plain then shown (if op = .or then 1 else 2) pri right else none
  | .is _ l r =>
    if l.isNullLiteral || r.isNullLiteral then none
    else if l.type.core = .text ∨ r.type.core = .text ∨ l.type.core = .blob ∨ r.type.core = .blob then none
    else if bothNotNull l r || isRef l.type.core || isRef r.type.core then shown 5 pri right
    else none
  | .between _ e test => if e.isNullLiteral then none else test.loosest pri true
  | .cast e core => if e.type.core ≠ .null ∧ e.type.core = core then e.loosest 0 false else none
  | .typeCheck e => e.loosest 0 false
  | _ => none

/-- The operands of a binary operator show nothing looser than it, the right one nothing as loose. -/
def operandsTight (pri : Nat) (l r : Expr V) : Bool :=
  (l.loosest pri false).all (pri ≤ ·) && (r.loosest pri true).all (pri < ·)

/-- The comparison of operands is not generated: one of them is known to be null. -/
def elided (l r : Expr V) : Bool := !bothNotNull l r && (l.knownNull || r.knownNull)

/-- An item shows nothing as loose as the equality operator that it is put after, or it is put in a call. -/
def itemTight (blobs : Bool) (e : Expr V) : Bool :=
  decide (e.type.core = .text) || (blobs && decide (e.type.core = .blob)) || (e.loosest 5 false).all (5 < ·)

mutual

/-- Casts that do nothing and type checks show no operator that is too loose for the operator they stand under, and the items of IN and of
CASE with an operand show no equality operator. -/
def Expr.parenSafe : Expr V → Bool
  | .null | .bit _ _ | .literal _ _ | .var _ _ => true
  | .unary _ e | .not e => e.parenSafe && (!e.type.notNull && e.knownNull || (e.loosest 10 false).isNone)
  | .binary op l r => decide ((Expr.binary op l r).type = ⟨.null, false⟩) ||
      (l.parenSafe && r.parenSafe && (elided l r || operandsTight (mathBinary op).prec l r))
  | .compare _ l r => l.parenSafe && r.parenSafe &&
      (decide (l.type.core = .text ∧ r.type.core = .text) || elided l r || operandsTight 6 l r)
  | .eqNe _ l r => l.parenSafe && r.parenSafe &&
      (decide (l.type.core = .text ∧ r.type.core = .text) || decide (l.type.core = .blob ∧ r.type.core = .blob) || elided l r ||
        operandsTight 5 l r)
  | .like _ l r => l.parenSafe && r.parenSafe
  | .logical op l r => l.parenSafe && r.parenSafe &&
      (!(bothNotNull l r && r.plain) || operandsTight (if op = .or then 1 else 2) l r)
  | .is _ l r =>
    if l.isNullLiteral then r.type.notNull && !isRef r.type.core || r.parenSafe
    else if r.isNullLiteral then l.type.notNull && !isRef l.type.core || l.parenSafe
    else l.parenSafe && r.parenSafe &&
      (decide (l.type.core = .text ∨ r.type.core = .text ∨ l.type.core = .blob ∨ r.type.core = .blob) || operandsTight 5 l r)
  | .isTruth _ _ e | .cast e _ | .typeCheck e => e.parenSafe
  | .between _ e test => e.isNullLiteral || (e.parenSafe && test.parenSafe)
  | .inPred _ e items => decide (e.type.core = .null) || (e.parenSafe && items.itemsSafe)
  | .caseExpr operand whens orElse => operand.parenSafe && (whens.parenSafe operand.isSome && orElse.parenSafe)
  | .coalesce args => args.parenSafe

def OptExpr.isSome : OptExpr V → Bool
  | .none => false
  | .some _ => true

def OptExpr.parenSafe : OptExpr V → Bool
  | .none => true
  | .some e => e.parenSafe

def Exprs.itemsSafe : Exprs V → Bool
  | .nil => true
  | .cons e rest => (e.isNullLiteral || (e.parenSafe && itemTight true e)) && rest.itemsSafe

def Exprs.parenSafe : Exprs V → Bool
  | .nil => true
  | .cons e rest => e.parenSafe && rest.parenSafe

def Whens.parenSafe (operand : Bool) : Whens V → Bool
  | .nil => true
  | .cons cond value rest =>
    cond.parenSafe && (!operand || itemTight false cond) && value.parenSafe && rest.parenSafe operand

end

end CgSql.CodeGen
