import CgSql.Bools

/-!
# Values of expressions

What the expressions of the code generator evaluate to in SQL, over any values of the variables, and the operations that make trouble on
the way. A rule for IN is a parameter.
-/

namespace CgSql.CodeGen

open Nullability

variable {V : Type}

/-! ## What the semantic analysis checks -/

mutual

/-- No expression that is stored has the type NULL, and operands and alternatives have types that are compatible. -/
def Expr.Checked : Expr V → Prop
  | .null => True
  | .bit core _ => core.isNumeric = true
  | .literal core _ => core ≠ .null
  | .var t _ => t.core ≠ .null
  | .unary _ e | .not e | .isTruth _ _ e | .typeCheck e => e.Checked
  | .binary _ l r => (l.type.core.isNumericCompat = true ∧ r.type.core.isNumericCompat = true) ∧ l.Checked ∧ r.Checked
  | .compare _ l r | .eqNe _ l r | .like _ l r | .logical _ l r => l.Checked ∧ r.Checked
  | .is _ l r => semVerifyCompat l.type.core r.type.core = true ∧ l.Checked ∧ r.Checked
  | .between _ e test => e.Checked ∧ test.Checked
  | .inPred _ e items => e.Checked ∧ items.ItemsChecked
  | .caseExpr operand whens orElse =>
    let t := (Expr.caseExpr operand whens orElse).type
    t.core ≠ .null ∧ operand.OperandChecked ∧ whens.Checked t ∧ orElse.Checked t
  | .coalesce args =>
    let t := (Expr.coalesce args).type
    t.core ≠ .null ∧ args.Checked t
  | .cast e core => (core ≠ .null ∧ (isRef core = true → e.type.core = .null ∨ e.type.core = core)) ∧ e.Checked

def OptExpr.OperandChecked : OptExpr V → Prop
  | .none => True
  | .some e => e.Checked

def OptExpr.Checked (t : SemType) : OptExpr V → Prop
  | .none => True
  | .some e => semVerifyCompat t.core e.type.core = true ∧ e.Checked

def Exprs.ItemsChecked : Exprs V → Prop
  | .nil => True
  | .cons e rest => e.Checked ∧ rest.ItemsChecked

/-- There is an argument. -/
def Exprs.Checked (t : SemType) : Exprs V → Prop
  | .nil => False
  | .cons e .nil => semVerifyCompat t.core e.type.core = true ∧ e.Checked
  | .cons e (.cons e' rest) => (semVerifyCompat t.core e.type.core = true ∧ e.Checked) ∧ (Exprs.cons e' rest).Checked t

def Whens.Checked (t : SemType) : Whens V → Prop
  | .nil => True
  | .cons cond value rest => cond.Checked ∧ (semVerifyCompat t.core value.type.core = true ∧ value.Checked) ∧ rest.Checked t

end

/-! ## Values and troubles -/

/-- Troubles: a type check of a null, a null text among the alternatives that something is compared with, a blob among those of a CASE,
and a zero divisor, which stands for every pair of operands without a result (the least integer by -1 among them). -/
inductive Trouble
  | typeCheckOfNull
  | nullText
  | blobAddress
  | zeroDivisor
  deriving DecidableEq

/-- A rule for IN: how a needle is in a list of items. -/
abbrev InRule (V : Type) := (V → V → Bool) → Option V → List (Option V) → Option Bool

variable (rt : Runtime V) (isIn : InRule V) (ρ : String → Option V)

/-- Values of variables of the given types: not null if they are NOT NULL, and `0` or `1` if they are BOOLs. -/
structure ValidValues (Γ : Types) : Prop where
  notNull : ∀ x, (Γ x).notNull = true → ρ x ≠ none
  bool : ∀ x v, (Γ x).core = .bool → ρ x = some v → ∃ b, v = rt.ofBool b

/-- The value of an operator on numbers, `a` if it has none. -/
def mathValue (op : MathOp) (a b : V) : V := (rt.math op a b).getD a

/-- A value of type `u` as a value of type `t`. -/
def convert (t u : SemType) (v : V) : V :=
  if t.core = .real ∧ u.core ≠ .real then rt.cast .real v
  else if t.core = .bool ∧ u.core ≠ .bool then rt.ofBool (rt.truth v)
  else v

/-- The truth of a value. -/
def truthOf (v : Option V) : Option Bool := v.map rt.truth

/-- AND and OR of values. -/
def logicalValue (op : LogicalOp) (a b : Option V) : Option V := (logical op (truthOf rt a) (truthOf rt b)).map rt.ofBool

/-- The left operand decides. -/
def decides (op : LogicalOp) (a : Option V) : Bool := truthOf rt a = some (decide (op = .or))

/-- Whether a WHEN with the value `c` is taken. -/
def whenTaken (operand : Option V) (c : Option V) : Bool :=
  match operand with
  | none => c.any rt.truth
  | some o => c.any (rt.equal o)

mutual

/-- The value of an expression. -/
def eval : Expr V → Option V
  | .null => none
  | .bit _ b => rt.bit b
  | .literal _ v => some v
  | .var _ name => ρ name
  | .unary op e => (eval e).map (rt.unaryMath op)
  | .not e => (eval e).map fun v => rt.ofBool !rt.truth v
  | .binary op l r => strict (mathValue rt op) (eval l) (eval r)
  | .compare op l r => strict (fun a b => rt.ofBool (rt.compare op a b)) (eval l) (eval r)
  | .eqNe negated l r => strict (fun a b => rt.ofBool (rt.equal a b ^^ negated)) (eval l) (eval r)
  | .like negated l r => strict (fun a b => rt.ofBool (rt.like a b ^^ negated)) (eval l) (eval r)
  | .logical op l r => logicalValue rt op (eval l) (eval r)
  | .is negated l r => rt.bit (rt.same (eval l) (eval r) ^^ negated)
  | .isTruth negated value e => rt.bit (decide (truthOf rt (eval e) = some value) ^^ negated)
  | .between _ e test => if e.isNullLiteral then none else eval test
  | .inPred negated e items => (isIn rt.equal (eval e) (evalItems items)).map fun b => rt.ofBool (b ^^ negated)
  | .caseExpr operand whens orElse =>
    let t := (Expr.caseExpr operand whens orElse).type
    match operand with
    | .none => (evalWhens t none whens).getD (evalElse t orElse)
    | .some e =>
      match eval e with
      | none => evalElse t orElse
      | some o => (evalWhens t (some o) whens).getD (evalElse t orElse)
  | .coalesce args => evalCoalesce (Expr.coalesce args).type args
  | .cast e core => if e.type.core = core then eval e else (eval e).map (rt.cast core)
  | .typeCheck e => eval e

/-- The values of items. -/
def evalItems : Exprs V → List (Option V)
  | .nil => []
  | .cons e rest => eval e :: evalItems rest

/-- The value of the first WHEN that is taken. -/
def evalWhens (t : SemType) (operand : Option V) : Whens V → Option (Option V)
  | .nil => none
  | .cons cond value rest =>
    if whenTaken rt operand (eval cond) then some ((eval value).map (convert rt t value.type)) else evalWhens t operand rest

def evalElse (t : SemType) : OptExpr V → Option V
  | .none => none
  | .some e => (eval e).map (convert rt t e.type)

/-- The first value that is not null. -/
def evalCoalesce (t : SemType) : Exprs V → Option V
  | .nil => none
  | .cons e rest =>
    match eval e with
    | some v => some (convert rt t e.type v)
    | none => evalCoalesce t rest

end

/-- The zero divisor of an operator on values. -/
def divisorTrouble (op : MathOp) : Option V → Option V → List Trouble
  | some a, some b => if (rt.math op a b).isNone then [.zeroDivisor] else []
  | _, _ => []

/-- The trouble of an alternative of type `u` and value `c`. Nothing compares blobs by address but CASE. -/
def alternativeTrouble (blobs : Bool) (u : SemType) (c : Option V) : List Trouble :=
  (if u.core = .text ∧ c = none then [.nullText] else []) ++ (if u.core = .blob ∧ !blobs then [.blobAddress] else [])

mutual

/-- The troubles on the way to the value of an expression. Operands that are not needed make none. -/
def troubles : Expr V → List Trouble
  | .null | .bit _ _ | .literal _ _ | .var _ _ => []
  | .unary _ e | .not e | .isTruth _ _ e | .cast e _ => troubles e
  | .binary op l r => troubles l ++ (troubles r ++ divisorTrouble rt op (eval rt isIn ρ l) (eval rt isIn ρ r))
  | .compare _ l r | .eqNe _ l r | .like _ l r | .is _ l r => troubles l ++ troubles r
  | .logical op l r => troubles l ++ if decides rt op (eval rt isIn ρ l) then [] else troubles r
  | .between _ e test => if e.isNullLiteral then [] else troubles e ++ troubles test
  | .inPred _ e items =>
    troubles e ++ match eval rt isIn ρ e with
      | none => []
      | some v => troublesItems v items
  | .caseExpr operand whens orElse =>
    match operand with
    | .none => troublesWhens none (troublesElse orElse) whens
    | .some e =>
      troubles e ++ match eval rt isIn ρ e with
        | none => troublesElse orElse
        | some o => troublesWhens (some o) (troublesElse orElse) whens
  | .coalesce args => troublesCoalesce args
  | .typeCheck e => troubles e ++ if (eval rt isIn ρ e).isNone then [.typeCheckOfNull] else []

/-- The troubles of items up to the one that is equal. -/
def troublesItems (v : V) : Exprs V → List Trouble
  | .nil => []
  | .cons e rest =>
    if e.isNullLiteral then troublesItems v rest
    else troubles e ++ (alternativeTrouble true e.type (eval rt isIn ρ e) ++
      if (eval rt isIn ρ e).any (rt.equal v) then [] else troublesItems v rest)

/-- The troubles of WHENs up to the one that is taken, and those of the ELSE if none is. -/
def troublesWhens (operand : Option V) (orElse : List Trouble) : Whens V → List Trouble
  | .nil => orElse
  | .cons cond value rest =>
    troubles cond ++ ((if operand.isSome then alternativeTrouble false cond.type (eval rt isIn ρ cond) else []) ++
      if whenTaken rt operand (eval rt isIn ρ cond) then troubles value else troublesWhens operand orElse rest)

def troublesElse : OptExpr V → List Trouble
  | .none => []
  | .some e => troubles e

/-- The troubles of arguments up to the one that is not null. -/
def troublesCoalesce : Exprs V → List Trouble
  | .nil => []
  | .cons e rest => troubles e ++ if (eval rt isIn ρ e).isSome then [] else troublesCoalesce rest

end

/-! ## Stores and values -/

/-- A cell of type `t` holds a value. -/
structure Cell.Holds (c : Cell V) (t : SemType) (a : Option V) : Prop where
  notNull : t.notNull = true → a ≠ none
  isNull : isRef t.core = false → t.notNull = false → c.isNull = a.isNone
  value : ∀ w, a = some w → c.value = some w
  null : isRef t.core = true → a = none → c.value = none

/-- The variables in scope hold their values. -/
def Represents (Γ : Types) (ρ : String → Option V) (scope : String → Prop) (σ : Store V) : Prop :=
  ∀ x, scope x → (σ (.user x)).Holds (Γ x) (ρ x)

mutual

/-- Variables are in scope, and the variable of a BETWEEN is the value of its operand. -/
def Expr.Scoped (scope : String → Prop) : Expr V → Prop
  | .null | .bit _ _ | .literal _ _ => True
  | .var _ name => scope name
  | .unary _ e | .not e | .isTruth _ _ e | .cast e _ | .typeCheck e => e.Scoped scope
  | .binary _ l r | .compare _ l r | .eqNe _ l r | .like _ l r | .logical _ l r | .is _ l r => l.Scoped scope ∧ r.Scoped scope
  | .between name e test =>
    e.isNullLiteral = true ∨ ρ name = eval rt isIn ρ e ∧ e.Scoped scope ∧ test.Scoped (fun x => x = name ∨ scope x)
  | .inPred _ e items => e.Scoped scope ∧ items.Scoped scope
  | .caseExpr operand whens orElse => operand.Scoped scope ∧ whens.Scoped scope ∧ orElse.Scoped scope
  | .coalesce args => args.Scoped scope

def OptExpr.Scoped (scope : String → Prop) : OptExpr V → Prop
  | .none => True
  | .some e => e.Scoped scope

def Exprs.Scoped (scope : String → Prop) : Exprs V → Prop
  | .nil => True
  | .cons e rest => e.Scoped scope ∧ rest.Scoped scope

def Whens.Scoped (scope : String → Prop) : Whens V → Prop
  | .nil => True
  | .cons cond value rest => cond.Scoped scope ∧ value.Scoped scope ∧ rest.Scoped scope

end

/-- `0` and `1` are equal only to themselves. -/
def Runtime.Lawful : Prop := ∀ a b, rt.equal (rt.ofBool a) (rt.ofBool b) = (a == b)

/-- The variable that is assigned. -/
def Ctx.targetVar (c : Ctx) : Option Var := c.target.map Prod.fst

/-- The variable that is assigned is one of the program. -/
def Ctx.TargetOk (c : Ctx) : Prop := ∀ x, c.targetVar = some x → ∃ n, x = .user n

/-- A value of type `u` can be assigned to a variable of type `t`. -/
structure Assignable (t u : SemType) : Prop where
  core : t.core ≠ .null
  compat : semVerifyCompat t.core u.core = true
  notNull : t.notNull = true → u.notNull = true

/-- Run the statements of an expression, and read its texts: whether it is null, and its value if it is not. -/
def runExpr (c : Ctx) (e : Expr V) (σ : Store V) : Except Fault (Option V × Option V) := do
  let E := cgExpr c e
  match ← E.code.run rt σ with
  | (.normal, τ) =>
    let n ← evalText rt τ E.isNull
    if rt.isTrue n then return (n, none) else return (n, ← evalText rt τ E.value)
  | _ => .error .stuck

/-- An expression that the semantic analysis accepts, and values of its variables. -/
structure Accepted (Γ : Types) (scope : String → Prop) (e : Expr V) : Prop where
  lawful : rt.Lawful
  values : ValidValues rt ρ Γ
  typed : e.Typed Γ
  checked : e.Checked
  inScope : e.Scoped rt cqlIn ρ scope

/-- C reads the texts rightly, numbers are not stored as BOOLs as they are, and no trouble is met but zero divisors. -/
structure Quiet (e : Expr V) : Prop where
  paren : e.parenSafe = true
  stores : e.storesSafe = true
  calm : ∀ x ∈ troubles rt cqlIn ρ e, x = .zeroDivisor

/-- Generated code computes the value that an expression has by a rule for IN, where no operand that is needed divides by zero. -/
def ImplementsSql (V : Type) (isIn : InRule V) : Prop :=
  ∀ (rt : Runtime V) (Γ : Types) (ρ : String → Option V) (scope : String → Prop) (σ : Store V) (c : Ctx) (e : Expr V),
    Accepted rt ρ Γ scope e → Represents Γ ρ scope σ → c.TargetOk → .zeroDivisor ∉ troubles rt isIn ρ e →
      runExpr rt c e σ = .ok (rt.bit (eval rt isIn ρ e).isNone, eval rt isIn ρ e)

end CgSql.CodeGen
