import CgSql.CRun
import CgSql.CodeShape

/-!
# Stores of booleans

The stores that generated code makes, and what normalizes the BOOL variables among them: `cg_store` converts a value to `0` or `1` unless
its text looks converted.
-/

namespace CgSql.CodeGen

open Nullability

variable {V : Type}

/-! ## Types -/

/-- The types of the variables of the program, parameters and fields of cursors among them. -/
abbrev Types := String → SemType

/-- The type a variable is declared with. -/
def Var.type (Γ : Types) : Var → SemType
  | .user name => Γ name
  | .temp t _ => t

mutual

/-- Variables have their types, and no literal is a BOOL but those of `bit`. -/
def Expr.Typed (Γ : Types) : Expr V → Prop
  | .null | .bit _ _ => True
  | .literal core _ => core ≠ .bool
  | .var t name => Γ name = t
  | .unary _ e | .not e | .isTruth _ _ e | .cast e _ | .typeCheck e => e.Typed Γ
  | .binary _ l r | .compare _ l r | .eqNe _ l r | .like _ l r | .logical _ l r | .is _ l r => l.Typed Γ ∧ r.Typed Γ
  | .between name e test => (Γ name = e.type ∧ test.type.core = .bool) ∧ e.Typed Γ ∧ test.Typed Γ
  | .inPred _ e items => e.Typed Γ ∧ items.Typed Γ
  | .caseExpr operand whens orElse => operand.Typed Γ ∧ whens.Typed Γ ∧ orElse.Typed Γ
  | .coalesce args => args.Typed Γ

def OptExpr.Typed (Γ : Types) : OptExpr V → Prop
  | .none => True
  | .some e => e.Typed Γ

def Exprs.Typed (Γ : Types) : Exprs V → Prop
  | .nil => True
  | .cons e rest => e.Typed Γ ∧ rest.Typed Γ

def Whens.Typed (Γ : Types) : Whens V → Prop
  | .nil => True
  | .cons cond value rest => cond.Typed Γ ∧ value.Typed Γ ∧ rest.Typed Γ

end

/-! ## What is stored -/

/-- Whether the text that tells if an expression is null starts with `!`: it does for references in variables. -/
def Expr.nullStartsNot : Expr V → Bool
  | .null | .bit _ _ | .literal _ _ | .is _ _ _ | .isTruth _ _ _ | .typeCheck _ => false
  | .var t _ => isRef t.core
  | .unary op e => !e.type.notNull && isRef (Expr.unary op e).type.core
  | .binary op l r => !bothNotNull l r && isRef (Expr.binary op l r).type.core
  | .not _ | .compare _ _ _ | .eqNe _ _ _ | .like _ _ _ | .logical _ _ _ | .inPred _ _ _ => false
  | .caseExpr operand whens orElse => isRef (Expr.caseExpr operand whens orElse).type.core
  | .coalesce args => isRef (Expr.coalesce args).type.core
  | .between _ e test => !e.isNullLiteral && test.nullStartsNot
  | .cast e core =>
    if e.type.core = .null then false
    else if e.type.core = core then e.nullStartsNot
    else !e.type.notNull && isRef core

/-- Whether the text of an expression starts with `!` in a context of priority `pri`. -/
def Expr.startsNot (pri : Nat) (right : Bool) : Expr V → Bool
  | .not e => e.type.notNull && (shown 10 pri right).isSome
  | .binary op l r => bothNotNull l r && (shown (mathBinary op).prec pri right).isSome && l.startsNot (mathBinary op).prec false
  | .compare _ l r =>
    if l.type.core = .text ∧ r.type.core = .text then false
    else bothNotNull l r && (shown 6 pri right).isSome && l.startsNot 6 false
  | .eqNe negated l r =>
    if l.type.core = .text ∧ r.type.core = .text then false
    else if l.type.core = .blob ∧ r.type.core = .blob then bothNotNull l r && (shown 5 pri right).isSome && negated
    else bothNotNull l r && (shown 5 pri right).isSome && l.startsNot 5 false
  | .logical op l r =>
    let own := if op = .or then 1 else 2
    bothNotNull l r && r.plain && (shown own pri right).isSome && l.startsNot own false
  | .is negated l r =>
    if l.isNullLiteral then !(r.type.notNull && !isRef r.type.core) && (negated || r.nullStartsNot)
    else if r.isNullLiteral then !(l.type.notNull && !isRef l.type.core) && (negated || l.nullStartsNot)
    else if l.type.core = .text ∨ r.type.core = .text then negated
    else if l.type.core = .blob ∨ r.type.core = .blob then negated
    else if bothNotNull l r || isRef l.type.core || isRef r.type.core then (shown 5 pri right).isSome && l.startsNot 5 false
    else negated
  | .isTruth negated _ e => e.type.notNull || negated
  | .between _ e test => !e.isNullLiteral && test.startsNot pri true
  | .cast e core => decide (e.type.core ≠ .null ∧ e.type.core = core) && e.startsNot 0 false
  | .typeCheck e => e.startsNot 0 false
  | _ => false

/-- A value that is stored as a BOOL and is none starts with something other than `!`. -/
def storeSafe (t : SemType) (pri : Nat) (right : Bool) (e : Expr V) : Bool :=
  decide (t.core ≠ .bool) || decide (e.type.core = .bool) || !e.startsNot pri right

mutual

/-- All stores that an expression makes are safe: the right operand of AND and OR if it is stored, and the alternatives of CASE and
COALESCE. -/
def Expr.storesSafe : Expr V → Bool
  | .null | .bit _ _ | .literal _ _ | .var _ _ => true
  | .unary _ e | .not e | .isTruth _ _ e | .cast e _ | .typeCheck e => e.storesSafe
  | .binary _ l r | .compare _ l r | .eqNe _ l r | .like _ l r | .is _ l r => l.storesSafe && r.storesSafe
  | .between _ e test => e.storesSafe && test.storesSafe
  | .logical op l r => l.storesSafe && r.storesSafe &&
      (!bothNotNull l r || r.plain || storeSafe ⟨.bool, true⟩ (if op = .or then 1 else 2) true r)
  | .inPred _ e items => e.storesSafe && items.itemsStoresSafe
  | .caseExpr operand whens orElse =>
    let t := (Expr.caseExpr operand whens orElse).type
    operand.operandStoresSafe && whens.storesSafe t && orElse.storesSafe t
  | .coalesce args => args.storesSafe (Expr.coalesce args).type

def OptExpr.operandStoresSafe : OptExpr V → Bool
  | .none => true
  | .some e => e.storesSafe

def OptExpr.storesSafe (t : SemType) : OptExpr V → Bool
  | .none => true
  | .some e => e.storesSafe && storeSafe t 0 false e

def Exprs.itemsStoresSafe : Exprs V → Bool
  | .nil => true
  | .cons e rest => e.storesSafe && rest.itemsStoresSafe

def Exprs.storesSafe (t : SemType) : Exprs V → Bool
  | .nil => true
  | .cons e rest => e.storesSafe && storeSafe t 0 false e && rest.storesSafe t

def Whens.storesSafe (t : SemType) : Whens V → Bool
  | .nil => true
  | .cons cond value rest => cond.storesSafe && (value.storesSafe && storeSafe t 0 false value) && rest.storesSafe t

end

/-! ## Programs -/

/-- `cg_emit_one_arg` for an IN parameter: the statements before the call, and what the callee finds in the parameter `p`. -/
def cgEmitOneArg (p : String) (t : SemType) (e : Expr V) : Code V :=
  let E := cgExpr (.root 0) e
  let x : Var := .user p
  E.code.andThen (if isRef e.type.core then .copy x E.value
     else if !t.notNull && (e.isNullLiteral || e.type.notNull || decide (e.type.core ≠ t.core)) then
       -- the argument is boxed
       let box : Var := .temp t E.level
       (store box t e.type E.isNull E.value).andThen (.setNullable x [(varTexts t box).1] (varTexts t box).2)
     else if t.core = .bool ∧ e.type.core ≠ .bool then .copy x (.paren (notText (notText (.paren E.value))))
     else if !t.notNull then .setNullable x [E.isNull] E.value
     else .copy x E.value)

/-- What a program stores in variables: SET and LET, fields of cursors, and arguments. -/
inductive Action (V : Type)
  | set (x : String) (e : Expr V)
  | field (x : String) (e : Expr V)
  | arg (p : String) (e : Expr V)

def Action.expr : Action V → Expr V
  | .set _ e | .field _ e | .arg _ e => e

/-- The variable that an action stores to. -/
def Action.name : Action V → String
  | .set x _ | .field x _ | .arg x _ => x

/-- All stores of an action are safe. An argument for a NOT NULL parameter is always converted. -/
def Action.safe (Γ : Types) (a : Action V) : Bool :=
  a.expr.parenSafe && a.expr.storesSafe && match a with
    | .arg p e => (Γ p).notNull || storeSafe (Γ p) 0 false e
    | .set x e | .field x e => storeSafe (Γ x) 0 false e

/-- The types of an action are those the semantic analysis lets pass. -/
def Action.Typed (Γ : Types) (a : Action V) : Prop :=
  a.expr.Typed Γ ∧ semVerifyCompat (Γ a.name).core a.expr.type.core = true

/-- The statements of an action. -/
def Action.code (Γ : Types) : Action V → Code V
  | .set x e => cgAssign x (Γ x) e
  | .field x e =>
    let E := cgExpr (.root 0) e
    E.code.andThen (store (.user x) (Γ x) e.type E.isNull E.value)
  | .arg p e => cgEmitOneArg p (Γ p) e

/-- Run actions one after another. Control flow only decides which actions come. -/
def runActions (rt : Runtime V) (Γ : Types) : List (Action V) → Store V → Except Fault (Store V)
  | [], σ => .ok σ
  | a :: rest, σ => do runActions rt Γ rest (← (a.code Γ).run rt σ).2

/-- Every BOOL holds `0` or `1`. -/
def Normalized (rt : Runtime V) (Γ : Types) (σ : Store V) : Prop := ∀ x : Var, (x.type Γ).core = .bool → ∃ b, (σ x).value = rt.bit b

/-- In every run of every program all BOOLs hold `0` or `1`, as they do at the start. -/
def BoolsNormalized (V : Type) : Prop :=
  ∀ (rt : Runtime V) (Γ : Types) (acts : List (Action V)) (σ τ : Store V), (∀ a ∈ acts, a.Typed Γ) →
    Normalized rt Γ σ → runActions rt Γ acts σ = .ok τ → Normalized rt Γ τ

end CgSql.CodeGen
