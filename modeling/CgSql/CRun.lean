import CgSql.CodeGen
import CgSql.SqlValues

/-!
# Running generated code

How the generated statements run, with their texts as C reads them. A store that C converts keeps the number that is stored.
-/

namespace CgSql.CodeGen

open Nullability Precedence

/-! ## Values -/

/-- What can go wrong: a null reference where the runtime asserts that there is none, a division by zero, or what no generated code
does. -/
inductive Fault
  | nullReference
  | divideByZero
  | stuck
  deriving DecidableEq

/-- SQL's operations on values, which those of C agree with, the comparisons of strings of the runtime, which are numbers, and whether two
blobs have the same address. -/
structure Runtime (V : Type) extends Sql V where
  stringCompare : V → V → V
  stringLike : V → V → V
  sameAddress : V → V → Bool
  truth_ofBool : ∀ b, truth (ofBool b) = b
  cast_bool : ∀ v, cast .bool v = ofBool (truth v)
  compare_stringCompare : ∀ op a b, compare op (stringCompare a b) (ofBool false) = compare op a b
  equal_stringCompare : ∀ a b, equal (stringCompare a b) (ofBool false) = equal a b
  equal_stringLike : ∀ a b, equal (stringLike a b) (ofBool false) = like a b

/-- A variable: its value, `none` for the null reference, and its field `is_null` if it has one. -/
structure Cell (V : Type) where
  isNull : Bool
  value : Option V
  deriving DecidableEq

abbrev Store (V : Type) := Var → Cell V

variable {V : Type} (rt : Runtime V)

/-- The values `0` and `1`. -/
def Runtime.bit (b : Bool) : Option V := some (rt.ofBool b)

/-- The truth of a value as a condition. -/
def Runtime.isTrue (v : Option V) : Bool := v.any rt.truth

def nonNull : Option V → Except Fault V
  | some v => .ok v
  | none => .error .stuck

/-- `==` on numbers or references, and the equality of the runtime for strings and blobs. -/
def Runtime.same : Option V → Option V → Bool
  | some a, some b => rt.equal a b
  | none, none => true
  | _, _ => false

def Runtime.sameRef : Option V → Option V → Bool
  | some a, some b => rt.sameAddress a b
  | none, none => true
  | _, _ => false

def mathOf : Binary → Option MathOp
  | .add => some .add
  | .sub => some .sub
  | .mul => some .mul
  | .div => some .div
  | .mod => some .mod
  | .bitAnd => some .bitAnd
  | .bitOr => some .bitOr
  | .lshift => some .lshift
  | .rshift => some .rshift
  | _ => none

def applyPrefix (op : Prefix) (v : Option V) : Except Fault (Option V) :=
  match op with
  | .not => .ok (rt.bit !rt.isTrue v)
  | .notRef => .ok (rt.bit v.isNone)
  | .neg => do return some (rt.unaryMath .neg (← nonNull v))
  | .complement => do return some (rt.unaryMath .complement (← nonNull v))
  | .cast core => do return some (rt.cast core (← nonNull v))

/-- An operator on numbers. Dividing by zero faults. -/
def applyMath (op : Option MathOp) (a b : Option V) : Except Fault (Option V) := do
  match op with
  | none => .error .stuck
  | some op =>
    match rt.math op (← nonNull a) (← nonNull b) with
    | some v => .ok (some v)
    | none => .error .divideByZero

def applyCompare (op : CompareOp) (a b : Option V) : Except Fault (Option V) := do
  return rt.bit (rt.compare op (← nonNull a) (← nonNull b))

def applyBinary (op : Binary) (a b : Option V) : Except Fault (Option V) :=
  match op with
  | .eq => .ok (rt.bit (rt.same a b))
  | .eqRef => .ok (rt.bit (rt.sameRef a b))
  | .ne => .ok (rt.bit !rt.same a b)
  | .lt => applyCompare rt .lt a b
  | .gt => applyCompare rt .gt a b
  | .le => applyCompare rt .le a b
  | .ge => applyCompare rt .ge a b
  | op => applyMath rt (mathOf op) a b

/-- A function of the runtime that asserts that its arguments are not null. -/
def applyStrict (f : V → V → V) : Option V → Option V → Except Fault (Option V)
  | some a, some b => .ok (some (f a b))
  | _, _ => .error .nullReference

def applyCall (f : Function) (a b : Option V) : Except Fault (Option V) :=
  match f with
  | .stringCompare => applyStrict rt.stringCompare a b
  | .stringLike => applyStrict rt.stringLike a b
  | _ => .ok (rt.bit (rt.same a b))

variable (σ : Store V)

def atomValue : Atom V → Option V
  | .null => none
  | .bool b => rt.bit b
  | .literal v => some v
  | .var x | .value x => (σ x).value
  | .isNull x => rt.bit (σ x).isNull

/-- The value of an expression. The operators `&&` and `||` and the macros for nullable conditions evaluate from left to right, as far as
needed. -/
def evalTree : Tree (Atom V) Prefix Binary Function → Except Fault (Option V)
  | .atom a => .ok (atomValue rt σ a)
  | .unary op t => do applyPrefix rt op (← evalTree t)
  | .binary .lor l r => do
    if rt.isTrue (← evalTree l) then return rt.bit true else return rt.bit (rt.isTrue (← evalTree r))
  | .binary .land l r => do
    if rt.isTrue (← evalTree l) then return rt.bit (rt.isTrue (← evalTree r)) else return rt.bit false
  | .binary op l r => do applyBinary rt op (← evalTree l) (← evalTree r)
  | .call .isNullableTrue n v => do
    if rt.isTrue (← evalTree n) then return rt.bit false else return rt.bit (rt.isTrue (← evalTree v))
  | .call .isNullableFalse n v => do
    if rt.isTrue (← evalTree n) then return rt.bit false else return rt.bit !rt.isTrue (← evalTree v)
  | .call f l r => do applyCall rt f (← evalTree l) (← evalTree r)

/-- The value of a text, as C reads it. -/
def evalText (t : Text V) : Except Fault (Option V) :=
  match t.read Binary.prec with
  | some T => evalTree rt σ T
  | none => .error .stuck

/-! ## Statements -/

/-- How a statement ends. -/
inductive End
  | normal
  | break
  | gotoElse
  deriving DecidableEq

def Store.set (σ : Store V) (x : Var) (c : Cell V) : Store V := fun y => if y = x then c else σ y

/-- Whether one of the texts is true, from left to right. -/
def anyTrue (σ : Store V) : List (Text V) → Except Fault Bool
  | [] => .ok false
  | t :: ts => do if rt.isTrue (← evalText rt σ t) then return true else anyTrue σ ts

/-- Run a statement. A null variable has the value `0`. -/
def Code.run : Code V → Store V → Except Fault (End × Store V)
  | .skip, σ => .ok (.normal, σ)
  | .seq a b, σ => do
    match ← a.run σ with
    | (.normal, τ) => b.run τ
    | r => .ok r
  | .setNull x, σ => .ok (.normal, σ.set x ⟨true, rt.bit false⟩)
  | .setNullable x isNull value, σ => do
    if ← anyTrue rt σ isNull then return (.normal, σ.set x ⟨true, rt.bit false⟩)
    else return (.normal, σ.set x ⟨false, ← evalText rt σ value⟩)
  | .copy x value, σ => do return (.normal, σ.set x ⟨(σ x).isNull, ← evalText rt σ value⟩)
  | .ite cond a b, σ => do
    if rt.isTrue (← evalText rt σ cond) then a.run σ else b.run σ
  | .block a, σ => do
    match ← a.run σ with
    | (.break, τ) => .ok (.normal, τ)
    | r => .ok r
  | .break, σ => .ok (.break, σ)
  | .caseElse a, σ => do
    match ← a.run σ with
    | (.gotoElse, τ) => .ok (.normal, τ)
    | r => .ok r
  | .gotoElse, σ => .ok (.gotoElse, σ)

end CgSql.CodeGen
