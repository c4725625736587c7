import CgSql.Eval
import CgSql.SymbolTable

/-!
# Enumerations

`sem_declare_enum_stmt`: the values of the members of an enumeration. The names of the members before are replaced in the tree of an
expression as the parser leaves it, then the tree is analysed and evaluated. What the analysis says of types is a parameter, and so is
what it finds under names that are neither members nor numbers.

The run ends at the first error that is reported, where the code goes on to look for more.
-/

namespace CgSql.Enums

open SymbolTable (Name Case)
open Eval (CoreType Doubles Value MathOp CompareOp UnaryOp)

/-- A name up to letter case. -/
def fold (name : Name) : List UInt8 := Case.insens.fold name

/-- `"iif"` -/
def iif : Name := ⟨[105, 105, 102], by decide⟩

/-! ## Trees -/

/-- The operators with two operands. -/
inductive BinaryOp
  | math (op : MathOp)
  | compare (op : CompareOp)
  | is
  | isNot
  | and
  | or
  /-- An operator that `eval` has no function for. -/
  | other (k : ℕ)
  deriving DecidableEq

/-- The type of a node. -/
inductive Kind
  | null
  | dot
  | binary (op : BinaryOp)
  | unary (op : UnaryOp)
  | castExpr
  /-- `type_int` and the like, with a kind on the left; the types that are not numeric are `none`. -/
  | type (t : Option CoreType)
  | caseExpr
  | connector
  | caseList
  | when
  | call
  | callArgList
  | argList
  deriving DecidableEq

/-- The literal of a number. -/
inductive Num (R : Type)
  | value (v : Value R)
  /-- The literal that `eval_uminus` knows by its text. -/
  | minLong
  deriving DecidableEq

/-- `ast_node` -/
inductive Ast (R : Type)
  | nil
  /-- A name. -/
  | str (name : Name)
  | strlit (text : List UInt8)
  | num (n : Num R)
  | node (kind : Kind) (left right : Ast R)
  deriving DecidableEq

/-- The tree is missing. -/
def Ast.isNil {R : Type} : Ast R → Bool
  | .nil => true
  | _ => false

variable {R T : Type} (D : Doubles R)

/-- `eval_set`: the tree that replaces a name or an expression. Its number may have a sign. -/
def literal : Value R → Ast R
  | .real r => .num (.value (.real (D.printed r)))
  | .long v => if v = -2 ^ 63 then .node (.unary .uminus) (.num .minLong) .nil else .num (.value (.long v))
  | v => .num (.value v)

/-! ## Values -/

mutual

/-- `eval` -/
def eval : Ast R → Option (Value R)
  | .num (.value v) => some v
  | .num .minLong => some (.long (2 ^ 63 - 1))
  | .node .null _ _ => some .null
  | .node (.binary (.math op)) left right => do
    let l ← eval left
    let r ← eval right
    Eval.binaryOp D op l r
  | .node (.binary (.compare op)) left right => do
    let l ← eval left
    let r ← eval right
    Eval.compareBinaryOp D op l r
  | .node (.binary .is) left right => do
    let l ← eval left
    let r ← eval right
    Eval.isOp D l r
  | .node (.binary .isNot) left right => do
    let l ← eval left
    let r ← eval right
    (Eval.isOp D l r).map fun
      | .bool b => .bool (!b)
      | v => v
  | .node (.binary .and) left right => do
    let l ← eval left
    if l.isError then return .error
    else if ← Eval.resultIsFalse D l then return .bool false
    else do
      let r ← eval right
      if r.isError then return .error
      else if ← Eval.resultIsFalse D r then return .bool false
      else if r.isNull || l.isNull then return .null
      else return .bool true
  | .node (.binary .or) left right => do
    let l ← eval left
    if l.isError then return .error
    else if ← Eval.resultIsTrue D l then return .bool true
    else do
      let r ← eval right
      if r.isError then return .error
      else if ← Eval.resultIsTrue D r then return .bool true
      else if r.isNull || l.isNull then return .null
      else return .bool false
  | .node (.unary .uminus) (.num .minLong) _ => some (.long (-2 ^ 63))
  | .node (.unary op) operand _ => do
    let v ← eval operand
    Eval.unaryOp D op v
  | .node .castExpr operand (.node (.type t) _ _) => do
    let v ← eval operand
    if v.isError || v.isNull then return v
    else t.bind fun t => Eval.evalCastTo D v t
  | .node .caseExpr .nil (.node .connector list otherwise) => do
    match ← evalCaseWhen list with
    | some v => return v
    | none => if otherwise.isNil then return .null else eval otherwise
  | .node .caseExpr test (.node .connector list otherwise) => do
    let v ← eval test
    if v.isError then return .error
    else
      match ← evalCaseOf v list with
      | some v => return v
      | none => if otherwise.isNil then return .null else eval otherwise
  | _ => some .error

/-- The loop of `eval_case_expr` with an expression to match, up to the branch that is taken. -/
def evalCaseOf (test : Value R) : Ast R → Option (Option (Value R))
  | .node .caseList (.node .when w t) rest => do
    let v ← eval w
    if v.isError then return some .error
    else if ← Eval.evalAreEqual D test v then return some (← eval t)
    else evalCaseOf test rest
  | _ => some none

/-- The loop without one. -/
def evalCaseWhen : Ast R → Option (Option (Value R))
  | .node .caseList (.node .when w t) rest => do
    let v ← eval w
    if v.isError then return some .error
    else if ← Eval.resultIsTrue D v then return some (← eval t)
    else evalCaseWhen rest
  | _ => some none

end

/-! ## Analysis -/

/-- The end of a step: a contract that fails or an operation that C leaves undefined, an error that is reported, or a result. -/
inductive Outcome (α : Type)
  | crash
  | reported
  | ok (result : α)

/-- An analysis, with the names of functions, types and kinds that it comes to. -/
structure Log (α : Type) where
  names : List Name
  out : Outcome α

/-- What follows an analysis that reports nothing. -/
def Log.bind {α β : Type} (x : Log α) (f : α → Log β) : Log β :=
  match x.out with
  | .crash => ⟨x.names, .crash⟩
  | .reported => ⟨x.names, .reported⟩
  | .ok a => ⟨x.names ++ (f a).names, (f a).out⟩

instance instMonadLog : Monad Log where
  pure a := ⟨[], .ok a⟩
  bind := Log.bind

def Log.crash {α : Type} : Log α := ⟨[], .crash⟩

/-- A check that reports an error or finds a type. -/
def Log.check {α : Type} (found : Option α) : Log α := ⟨[], found.elim .reported .ok⟩

/-- A global constant. -/
inductive Constant (R : Type)
  | number (v : Value R)
  | text (text : List UInt8)

/-- `enum_value`, with the tree of its expression if it has one. -/
structure Member (R : Type) where
  name : Name
  expr : Ast R
  deriving DecidableEq

/-- `enum_value`, with `enum_name_ast->sem->value`. -/
structure EnumValue (R : Type) extends Member R where
  value : Value R

/-- Each member has the value of its tree, or one more than the member before, in the type of the enumeration. -/
def Valued (t : CoreType) : Value R → List (EnumValue R) → Prop
  | _, [] => True
  | last, m :: ms =>
    ((if m.expr.isNil then Eval.evalAddOne D last else eval D m.expr).bind fun v => Eval.evalCastTo D v t) = some m.value ∧ Valued t m.value ms

/-- `declare_enum_stmt`, where it is found by its name. -/
structure Enum (D : Doubles R) where
  name : Name
  type : CoreType
  members : List (EnumValue R)
  valued : Valued D type (.integer 0) members
  nodup : (members.map fun m => fold m.name).Nodup

/-- What the analysis reads. `T` is what it knows of types. -/
structure Env (D : Doubles R) (T : Type) where
  /-- `find_enum` -/
  enums : Name → Option (Enum D)
  /-- What `add_named_type` finds: another type of the name. -/
  typeTaken : Name → Bool
  /-- `find_constant` -/
  constant : Name → Option (Constant R)
  /-- The resolvers before `sem_try_resolve_enum`, such as that of variables: a type or a report. -/
  earlier : Option Name → Name → Option (Option T)
  /-- The resolvers behind it, of qualified names. -/
  later : Name → Name → Option T
  /-- `find_named_type` -/
  namedType : Name → Option (Option CoreType)
  number : Value R → T
  strlit : T
  /-- The type of a member of an enumeration. -/
  member : Name → Value R → T
  /-- The type of a cast, or of its operand. -/
  type : Option CoreType → Option Name → T
  /-- What is checked of a node, from the types of what was analysed before. -/
  check : Kind → List T → Option T
  /-- What is checked of a call with a number of arguments, from the types of the first of them. -/
  call : Name → ℕ → List T → Option T

variable (Γ : Env D T)

/-- `EXTRACT_STRING` of the name of a function, a type or a kind. -/
def extractString : Ast R → Log Name
  | .str name => ⟨[name], .ok name⟩
  | _ => Log.crash

/-- `sem_resolve_id`, on a name that is not qualified. -/
def resolveId (name : Name) : Log (Ast R × T) :=
  match Γ.earlier none name with
  | some t => do
    let t ← Log.check t
    return (.str name, t)
  | none =>
    match Γ.constant name with
    | some (.number v) => return (literal D v, Γ.number v)
    | some (.text text) => return (.strlit text, Γ.strlit)
    | none => Log.check none

/-- `sem_try_resolve_enum` -/
def tryResolveEnum (members : List (EnumValue R)) (name : Name) : Option (Value R) :=
  (members.find? fun m => fold m.name = fold name).map EnumValue.value

/-- `sem_resolve_id`, on a qualified name. -/
def resolveDot (scope name : Name) : Log (Ast R × T) :=
  match Γ.earlier (some scope) name with
  | some t => do
    let t ← Log.check t
    return (.node .dot (.str scope) (.str name), t)
  | none =>
    match Γ.enums scope with
    | some enum => do
      let v ← Log.check (tryResolveEnum enum.members name)
      return (literal D v, Γ.member scope v)
    | none => do
      let t ← Log.check (Γ.later scope name)
      return (.node .dot (.str scope) (.str name), t)

/-- `sem_data_type_column` and `rewrite_data_type_if_needed`, in a cast. -/
def semDataType : Ast R → Log (Ast R × T)
  | .str name => do
    let name ← extractString (R := R) (.str name)
    let t ← Log.check (Γ.namedType name)
    return (.node (.type t) .nil .nil, Γ.type t (some name))
  | .node (.type t) .nil _ => return (.node (.type t) .nil .nil, Γ.type t none)
  | .node (.type t) kind _ => do
    let name ← extractString kind
    return (.node (.type t) (.str name) .nil, Γ.type t (some name))
  | _ => Log.crash

/-- The number of the arguments. -/
def argCount : Ast R → ℕ
  | .node .argList _ rest => argCount rest + 1
  | _ => 0

/-- The call, or what `rewrite_iif` makes of it. -/
def rewriteCall (name : Name) (args : List (Ast R)) : Ast R :=
  match args with
  | [a, b, c] =>
    if fold name = fold iif then .node .caseExpr .nil (.node .connector (.node .caseList (.node .when a b) .nil) c)
    else .node .call (.str name) (.node .callArgList .nil (args.foldr (.node .argList) .nil))
  | _ => .node .call (.str name) (.node .callArgList .nil (args.foldr (.node .argList) .nil))

/-- An expression that can be missing. -/
def optional (e : Ast R) (found : Log (Ast R × T)) : Log (Ast R × Option T) :=
  if e.isNil then return (.nil, none)
  else do
    let r ← found
    return (r.1, some r.2)

mutual

/-- `sem_expr`: the tree that it leaves, with its type. -/
def semExpr : Ast R → Log (Ast R × T)
  | .num (.value v) => return (.num (.value v), Γ.number v)
  | .num .minLong => return (.num .minLong, Γ.number (.long (2 ^ 63 - 1)))
  | .strlit text => return (.strlit text, Γ.strlit)
  | .str name => resolveId D Γ name
  | .node .null _ _ => do
    let t ← Log.check (Γ.check .null [])
    return (.node .null .nil .nil, t)
  | .node .dot (.str scope) (.str name) => resolveDot D Γ scope name
  | .node (.binary op) left right => do
    let l ← semExpr left
    let r ← semExpr right
    let t ← Log.check (Γ.check (.binary op) [l.2, r.2])
    return (.node (.binary op) l.1 r.1, t)
  -- `sem_unary_math` takes every number.
  | .node (.unary .uminus) (.num .minLong) _ => return (.node (.unary .uminus) (.num .minLong) .nil, Γ.number (.long (-2 ^ 63)))
  | .node (.unary op) operand _ => do
    let e ← semExpr operand
    let t ← Log.check (Γ.check (.unary op) [e.2])
    return (.node (.unary op) e.1 .nil, t)
  | .node .castExpr operand type => do
    let e ← semExpr operand
    let s ← semDataType D Γ type
    let t ← Log.check (Γ.check .castExpr [e.2, s.2])
    return (.node .castExpr e.1 s.1, t)
  | .node .caseExpr test (.node .connector list otherwise) => do
    let e ← optional test (semExpr test)
    let l ← semCaseList e.2 none list
    let o ← optional otherwise (semExpr otherwise)
    let t ← Log.check (Γ.check .caseExpr (l.2 :: o.2.toList))
    return (.node .caseExpr e.1 (.node .connector l.1 o.1), t)
  | .node .call name (.node .callArgList _ args) => do
    let name ← extractString name
    -- `sem_validate_arg_count`
    if fold name = fold iif ∧ argCount args ≠ 3 then Log.check none
    else
      let t ← Log.check (Γ.call name (argCount args) [])
      let r ← semArgList name (argCount args) [] t args
      return (rewriteCall name r.1, r.2)
  | _ => Log.crash

/-- `sem_case_list`, behind the branches that gave a type. -/
def semCaseList (test pending : Option T) : Ast R → Log (Ast R × T)
  | .nil => (fun t => (.nil, t)) <$> (pending.elim Log.crash pure)
  | .node .caseList (.node .when w t) rest => do
    let w ← semExpr w
    let _ ← Log.check (Γ.check .when (w.2 :: test.toList))
    let t ← semExpr t
    let p ← Log.check (Γ.check .caseList (t.2 :: pending.toList))
    let r ← semCaseList test (some p) rest
    return (.node .caseList (.node .when w.1 t.1) r.1, r.2)
  | _ => Log.crash

/-- The arguments of a call, behind those whose types are known. The type is that of the call. -/
def semArgList (name : Name) (count : ℕ) (before : List T) (t : T) : Ast R → Log (List (Ast R) × T)
  | .nil => return ([], t)
  | .node .argList arg rest => do
    let a ← semExpr arg
    let t ← Log.check (Γ.call name count (before ++ [a.2]))
    let r ← semArgList name count (before ++ [a.2]) t rest
    return (a.1 :: r.1, r.2)
  | _ => Log.crash

end

/-! ## The statement -/

/-- `sem_replace_seen_enum_values`, with the members before and the name of the one that is declared. It has no value yet: a contract fails. -/
def replaceSeen (self : Name) (seen : List (EnumValue R)) : Ast R → Option (Ast R)
  | .str name =>
    match tryResolveEnum seen name with
    | some v => some (literal D v)
    | none => if fold name = fold self then none else some (.str name)
  | .node .dot left right => some (.node .dot left right)
  | .node kind left right => do
    let l ← replaceSeen self seen left
    let r ← replaceSeen self seen right
    return .node kind l r
  | e => some e

/-- What the analysis of a name that is no longer in the tree leaves there: a constant that is a number comes in the place of the literal. -/
def refetch (tree : Ast R) : Ast R → Ast R
  | .num n => .num n
  | .node kind left right => .node kind left right
  | _ => tree

/-- `sem_root_expr` behind the replacement, with the tree that is there afterwards. -/
def semReplaced (seen : List (EnumValue R)) (tree : Ast R) : Ast R → Log (Ast R)
  | .str name =>
    if (tryResolveEnum seen name).isSome then do
      let r ← resolveId D Γ name
      return refetch tree r.1
    else do
      let r ← semExpr D Γ tree
      return r.1
  | _ => do
    let r ← semExpr D Γ tree
    return r.1

/-- The value of a tree in the type of the enumeration. -/
def evalMember (t : CoreType) (tree : Ast R) : Outcome (Ast R × Value R) :=
  match eval D tree with
  | none => .crash
  | some v =>
    -- `CQL0355`
    if v.isError || v.isNull then .reported
    else
      match Eval.evalCastTo D v t with
      | none => .crash
      | some v => .ok (tree, v)

/-- One more than the member before. -/
def nextMember (t : CoreType) (last : Value R) : Outcome (Ast R × Value R) :=
  match (Eval.evalAddOne D last).bind fun v => Eval.evalCastTo D v t with
  | none => .crash
  | some v => .ok (.nil, v)

/-- What follows the replacement in a member. -/
def memberValue (t : CoreType) (seen : List (EnumValue R)) (last : Value R) (m : Member R) (tree : Ast R) : Outcome (Ast R × Value R) :=
  if m.expr.isNil then nextMember D t last
  else
    match (semReplaced D Γ seen tree m.expr).out with
    | .crash => .crash
    | .reported => .reported
    | .ok tree => evalMember D t tree

/-- A member. -/
def semMember (t : CoreType) (last : Value R) (seen : List (EnumValue R)) (m : Member R) : Outcome (Ast R × Value R) :=
  match replaceSeen D m.name seen m.expr with
  | none => .crash
  | some tree => memberValue D Γ t seen last m tree

/-- The loop over the members, behind those that have their values. -/
def members (step : Value R → List (EnumValue R) → Member R → Outcome (Ast R × Value R)) :
    Value R → List (EnumValue R) → List (Member R) → Outcome (List (EnumValue R))
  | _, seen, [] => .ok seen
  | last, seen, m :: ms =>
    -- `CQL0354`
    if (tryResolveEnum seen m.name).isSome then .reported
    else
      match step last seen m with
      | .crash => .crash
      | .reported => .reported
      | .ok r => members step r.2 (seen ++ [⟨⟨m.name, r.1⟩, r.2⟩]) ms

/-- `sem_validate_identical_ddl`. It compares the texts, here the trees are compared. -/
def identical [DecidableEq R] (name : Name) (t : CoreType) (values : List (EnumValue R)) (existing : Enum D) : Bool :=
  name = existing.name ∧ t = existing.type ∧ values.map EnumValue.toMember = existing.members.map EnumValue.toMember

/-- The members that the name of the enumeration is left with, where nothing is reported. -/
def addEnum [DecidableEq R] (name : Name) (t : CoreType) (values : List (EnumValue R)) : Outcome (List (EnumValue R)) :=
  match Γ.enums name with
  -- `CQL0356`
  | some existing => if identical D name t values existing then .ok existing.members else .reported
  -- `CQL0359`
  | none => if Γ.typeTaken name then .reported else .ok values

/-- `sem_declare_enum_stmt` -/
def semDeclareEnumStmt [DecidableEq R] (inProc : Bool) (name : Name) (t : CoreType) (ms : List (Member R)) : Outcome (List (EnumValue R)) :=
  -- `CQL0358`
  if inProc then .reported
  else
    match members (semMember D Γ t) (.integer 0) [] ms with
    | .crash => .crash
    | .reported => .reported
    | .ok values => addEnum D Γ name t values

end CgSql.Enums
