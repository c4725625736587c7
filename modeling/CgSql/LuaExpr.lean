import CgSql.Lib.Writers

/-!
# Expressions in Lua

What `cg_lua_expr` emits for an expression, as far as variables go: the statements that are emitted, the text of the value, and the
level of the stack of scratch variables. Each operand that is stored in a variable is known by its place in the tree, and each text
knows whose values it reads.
-/

namespace CgSql.LuaExpr

open Writers

/-! ## Types and variables -/

inductive Core
  | null | bool | integer | longInteger | real | text | object | blob
  deriving DecidableEq

/-- What scratch variables know about a type: the core type and `SEM_TYPE_NOTNULL`. -/
structure SemType where
  core : Core
  notnull : Bool
  deriving DecidableEq

/-- `SEM_TYPE_BOOL`, which is nullable. -/
def semTypeBool : SemType := ⟨.bool, false⟩

/-- A scratch variable has a type and a level, as in `_tmp_n_bool_2`; variables of the program have other names. -/
inductive Var
  | scratch (t : SemType) (level : Nat)
  | user (name : String)
  deriving DecidableEq

/-- Where an operand is in the tree, from the inside out; the temporary of an operator is at place 0. -/
abbrev Place := List Nat

abbrev Code := Writers.Code Var Place

/-- A value that is expected in a variable. -/
abbrev Use := Var × Place

/-- The text of a value: `nil`, a name, or any other text with the variables in it that hold operands. -/
inductive Text
  | nil
  | ref (v : Var) (owner : Option Place)
  | other (uses : List Use)
  deriving DecidableEq

/-- Variables in a text that hold operands. -/
def Text.uses : Text → List Use
  | .nil | .ref _ none => []
  | .ref v (some o) => [(v, o)]
  | .other uses => uses

/-- `"nil"`. -/
def Text.isNil : Text → Bool
  | .nil => true
  | _ => false

/-- What is emitted for an expression: statements, the text of the value, and `lua_stack_level` after it. -/
structure Out where
  code : Code
  text : Text
  level : Nat

/-- Code generation at a place and a level. -/
abbrev Gen := Place → Nat → Out

/-- A read of a text's variables. -/
def readText (x : Text) : Code := .one (.read x.uses)

/-- `cg_lua_store`: nothing is emitted for a store of a variable into itself, which then holds the value. -/
def cgLuaStore (v : Var) (owner : Place) (x : Text) : Code :=
  if x = .ref v none then .one (.write v owner) else (readText x).seq (.one (.write v owner))

/-- The variable that is assigned by the statement around an expression, and its type. -/
abbrev Target := Option (String × SemType)

/-- The name that `cg_lua_scratch_var` gives a result: the target if `lua_is_assignment_target_reusable`. -/
def resultVar (target : Target) (t : SemType) (level : Nat) : Var :=
  match target with
  | some (name, type) => if type = t then .user name else .scratch t level
  | none => .scratch t level

/-! ## Operators whose value is a text -/

inductive UnaryOp
  | uminus | tilde | not
  | isTrue | isNotTrue | isFalse | isNotFalse
  | cast (t : Core)
  | typeCheck
  | sign | abs | cqlGetBlobSize
  | sensitive | nullable
  | ifnullThrow | ifnullCrash | cqlInferredNotnull

/-- The text for an operand of some type: `cg_lua_unary`, `cg_lua_expr_is_true` and its variants, `cg_lua_expr_cast`,
`cg_lua_expr_type_check`, and the functions of one argument. -/
def UnaryOp.text : UnaryOp → SemType → Text → Text
  | .uminus, _, x | .tilde, _, x | .not, _, x => .other x.uses
  | .isTrue, t, x | .isNotFalse, t, x => if t.notnull ∧ t.core = .bool then x else .other x.uses
  | .isNotTrue, _, x | .isFalse, _, x => .other x.uses
  | .cast _, t, x => if t.core = .null then .nil else .other x.uses
  | .typeCheck, _, x => x
  | .sign, _, x | .abs, _, x | .cqlGetBlobSize, _, x => .other x.uses
  | .sensitive, _, x | .nullable, _, x => x
  | .ifnullThrow, _, x | .ifnullCrash, _, x | .cqlInferredNotnull, _, x => x

/-- `cg_lua_func_attest_notnull` emits a test of the operand, unless the operand is known not to be null. -/
def UnaryOp.checks : UnaryOp → Bool
  | .ifnullThrow | .ifnullCrash => true
  | _ => false

def cgLuaUnary (op : UnaryOp) (t : SemType) (e : Gen) : Gen := fun place level =>
  let o := e (1 :: place) level
  { o with code := o.code.seq (if op.checks then readText o.text else .skip), text := op.text t o.text }

/-- Both operands are evaluated, the left one first. -/
def operands (l r : Gen) (text : Text → Text → Text) : Gen := fun place level =>
  let left := l (1 :: place) level
  let right := r (2 :: place) left.level
  { code := left.code.seq right.code, text := text left.text right.text, level := right.level }

/-- `cg_lua_binary`; without evaluation if the type of the result is `SEM_TYPE_NULL`. -/
def cgLuaBinary (isNull : Bool) (l r : Gen) : Gen :=
  if isNull then fun _ level => ⟨.skip, .nil, level⟩
  else operands l r fun x y => if x.isNil ∨ y.isNil then .nil else .other (x.uses ++ y.uses)

/-- `cg_lua_is_or_is_not`. -/
def cgLuaIsOrIsNot (l r : Gen) : Gen := operands l r fun x y => .other (x.uses ++ y.uses)

/-! ## Operators with a result variable -/

/-- `cg_lua_expr_and_or`; `bothNull` if both operands are the literal. The temporary for the left operand is made at the level that
the right operand leaves, and it is set before the statements of the right operand. -/
def cgLuaExprAndOr (target : Target) (t : SemType) (bothNull : Bool) (l r : Gen) : Gen := fun place level =>
  if bothNull then ⟨.skip, .nil, level⟩
  else
    let left := l (1 :: place) (level + 1)
    let right := r (2 :: place) left.level
    if right.code = .skip then ⟨left.code, .other (left.text.uses ++ right.text.uses), right.level⟩
    else
      let result := resultVar target t level
      let temp := Var.scratch semTypeBool right.level
      let owner := 0 :: place
      -- the result is set to the short circuit value, or to the value of `cql_logical_and` or `cql_logical_or`
      let short := Code.one (.write result place)
      let long := (right.code.seq (.one (.read ((temp, owner) :: right.text.uses)))).seq (.one (.write result place))
      { code := ((left.code.seq (cgLuaStore temp owner left.text)).seq (.one (.read [(temp, owner)]))).seq (short.choice long)
        text := .ref result (some place)
        level := level + 1 }

/-- `cg_lua_expr_in_pred_or_not_in`: the list is given the variable of the expression, and breaks off where an item is found. -/
def cgLuaExprInPredOrNotIn (t te : SemType) (e : Gen) (list : Use → Use → Place → Nat → Code) : Gen := fun place level =>
  if te.core = .null then ⟨.skip, .nil, level⟩
  else
    let result := Var.scratch t level
    let value := e (1 :: place) (level + 1)
    let temp := Var.scratch te value.level
    let owner := 0 :: place
    let tests := (Code.one (.write result place)).seq (list (temp, owner) (result, place) (2 :: place) (value.level + 1))
    let rest := if te.notnull then tests
      else (Code.one (.read [(temp, owner)])).seq ((Code.one (.write result place)).choice tests)
    { code := (value.code.seq (cgLuaStore temp owner value.text)).seq rest
      text := .ref result (some place)
      level := level + 1 }

/-- `cg_lua_expr_case`: the cases are given the variable of the expression, if there is one, and what is done when none of them
is taken. -/
def cgLuaExprCase (target : Target) (t : SemType) (e : Option (SemType × Gen))
    (cases : List Use → Use → Code → Place → Nat → Code) (els : Option Gen) : Gen := fun place level =>
  let result := resultVar target t level
  let otherwise := match els with
    | none => Code.one (.write result place)
    | some e =>
      let value := e (3 :: place) (level + 1)
      value.code.seq (cgLuaStore result place value.text)
  let code := match e with
    | none => cases [] (result, place) otherwise (2 :: place) (level + 1)
    | some (te, e) =>
      let temp := Var.scratch te (level + 1)
      let owner := 0 :: place
      let value := e (1 :: place) (level + 2)
      let tests := cases [(temp, owner)] (result, place) otherwise (2 :: place) (level + 2)
      -- `goto case_else` if the expression is null
      let rest := if te.notnull then tests else (Code.one (.read [(temp, owner)])).seq (otherwise.choice tests)
      (value.code.seq (cgLuaStore temp owner value.text)).seq rest
  { code := code, text := .ref result (some place), level := level + 1 }

/-- `cg_lua_func_coalesce`; the arguments but the last are given the variable of the result, and the last one. -/
def cgLuaFuncCoalesce (target : Target) (t : SemType) (args : Use → (Place → Nat → Code) → Place → Nat → Code) (last : Gen) : Gen :=
  fun place level =>
    let result := resultVar target t level
    let final := fun place' level' =>
      let value := last (1 :: place') level'
      value.code.seq (cgLuaStore result place value.text)
    { code := args (result, place) final (1 :: place) (level + 1), text := .ref result (some place), level := level + 1 }

/-- `cg_lua_expr_select`; the part before the row is fetched is the code for arguments and conditions of fragments. -/
def cgLuaExprSelect (target : Target) (t : SemType) (frags : Place → Nat → Code × Nat) : Gen := fun place level =>
  let result := resultVar target t level
  { code := (frags (1 :: place) (level + 1)).1.seq (.one (.write result place)), text := .ref result (some place), level := level + 1 }

/-- What `IF NOTHING` does without a row. -/
inductive IfNothing
  | default | orNullDefault | orNullThrow

/-- `cg_lua_expr_select_if_nothing`, `cg_lua_expr_select_if_nothing_or_null` and `cg_lua_expr_select_if_nothing_or_null_throw`: the
SELECT has a variable of its own type. An error leaves the path, which is then part of a longer one. -/
def cgLuaExprSelectIfNothing (target : Target) (t ts : SemType) (kind : IfNothing) (frags : Place → Nat → Code × Nat) (default : Gen) : Gen :=
  fun place level =>
    let result := resultVar target t level
    let row := Var.scratch ts (level + 1)
    let owner := 0 :: place
    let found := cgLuaStore result place (.ref row (some owner))
    let value := default (2 :: place) (level + 2)
    let useDefault := value.code.seq (cgLuaStore result place value.text)
    let fetch := Code.one (.write row owner)
    let test := Code.one (.read [(row, owner)])
    let rest := match kind with
      | .default => (fetch.seq found).choice useDefault
      | .orNullDefault => ((fetch.seq test).seq (useDefault.choice found)).choice useDefault
      | .orNullThrow => (fetch.seq test).seq found
    { code := (frags (1 :: place) (level + 2)).1.seq rest, text := .ref result (some place), level := level + 1 }

/-- `cg_lua_user_func` and `cg_lua_func_printf`: the call reads the arguments and sets OUT arguments and the result. -/
def cgLuaUserFunc (target : Target) (t : SemType) (args : Gen) (outs : List String) : Gen := fun place level =>
  let result := resultVar target t level
  let value := args (1 :: place) (level + 1)
  let sets := outs.foldr (fun name code => (Code.one (.write (.user name) (0 :: place))).seq code) (.one (.write result place))
  { code := (value.code.seq (readText value.text)).seq sets, text := .ref result (some place), level := level + 1 }

/-- `cg_lua_expr_between_rewrite`: the expression is stored in a variable of its own, and the test, which has AND or OR, is the value. -/
def cgLuaExprBetweenRewrite (isNull : Bool) (name : String) (e test : Gen) : Gen := fun place level =>
  if isNull then ⟨.skip, .nil, level⟩
  else
    let value := e (1 :: place) level
    let o := test (2 :: place) value.level
    { o with code := ((value.code.seq (readText value.text)).seq (.one (.write (.user name) (0 :: place)))).seq o.code }

/-! ## Expressions -/

mutual

/-- Expressions with the types that semantic analysis gives them. -/
inductive Expr
  | null
  | literal
  | name (x : String)
  | unary (op : UnaryOp) (t : SemType) (e : Expr)
  | binary (isNull : Bool) (l r : Expr)
  | isOrIsNot (l r : Expr)
  | andOr (t : SemType) (l r : Expr)
  | inPred (t te : SemType) (e : Expr) (items : Exprs)
  | caseWhen (t : SemType) (whens : Whens)
  | caseWhenElse (t : SemType) (whens : Whens) (els : Expr)
  | caseOf (t te : SemType) (e : Expr) (whens : Whens)
  | caseOfElse (t te : SemType) (e : Expr) (whens : Whens) (els : Expr)
  /-- `COALESCE` and `IFNULL`; the last argument is given apart. -/
  | coalesce (t : SemType) (args : Exprs) (last : Expr)
  | select (t : SemType) (frags : Frags)
  | selectIfNothingThrow (t : SemType) (frags : Frags)
  | selectIfNothing (t ts : SemType) (kind : IfNothing) (frags : Frags) (default : Expr)
  /-- A call with its IN and INOUT arguments, and the names of its OUT and INOUT arguments. -/
  | call (t : SemType) (args : Exprs) (outs : List String)
  | between (name : String) (e test : Expr)

inductive Exprs
  | nil
  | cons (e : Expr) (rest : Exprs)

inductive Whens
  | nil
  | cons (c e : Expr) (rest : Whens)

/-- Arguments of fragments, with the names of their local variables, and conditional fragments. -/
inductive Frags
  | nil
  | arg (aliasName : String) (e : Expr) (rest : Frags)
  | ite (c : Expr) (thn els rest : Frags)

end

/-- `is_ast_null`. -/
def Expr.isNull : Expr → Bool
  | .null => true
  | _ => false

mutual

/-- `cg_lua_expr`. -/
def Expr.gen : Expr → Target → Gen
  | .null, _ => fun _ level => ⟨.skip, .nil, level⟩
  | .literal, _ => fun _ level => ⟨.skip, .other [], level⟩
  | .name x, _ => fun _ level => ⟨.skip, .ref (.user x) none, level⟩
  | .unary op t e, _ => cgLuaUnary op t (e.gen none)
  | .binary isNull l r, _ => cgLuaBinary isNull (l.gen none) (r.gen none)
  | .isOrIsNot l r, _ => cgLuaIsOrIsNot (l.gen none) (r.gen none)
  | .andOr t l r, target => cgLuaExprAndOr target t (l.isNull && r.isNull) (l.gen none) (r.gen none)
  | .inPred t te e items, _ => cgLuaExprInPredOrNotIn t te (e.gen none) items.inList
  | .caseWhen t whens, target => cgLuaExprCase target t none whens.caseList none
  | .caseWhenElse t whens els, target => cgLuaExprCase target t none whens.caseList (some (els.gen none))
  | .caseOf t te e whens, target => cgLuaExprCase target t (some (te, e.gen none)) whens.caseList none
  | .caseOfElse t te e whens els, target =>
    cgLuaExprCase target t (some (te, e.gen none)) whens.caseList (some (els.gen none))
  | .coalesce t args last, target => cgLuaFuncCoalesce target t args.alternatives (last.gen none)
  | .select t frags, target => cgLuaExprSelect target t frags.gen
  | .selectIfNothingThrow t frags, _ => cgLuaExprSelect none t frags.gen
  | .selectIfNothing t ts kind frags default, target => cgLuaExprSelectIfNothing target t ts kind frags.gen (default.gen none)
  | .call t args outs, target => cgLuaUserFunc target t args.args outs
  | .between name e test, _ => cgLuaExprBetweenRewrite e.isNull name (e.gen none) (test.gen none)

/-- `cg_lua_in_or_not_in_expr_list`: nothing is emitted for NULL, and the level is restored after each item. -/
def Exprs.inList : Exprs → Use → Use → Place → Nat → Code
  | .nil, _, (result, owner), _, _ => .one (.write result owner)
  | .cons e rest, temp, result, place, level =>
    if e.isNull then rest.inList temp result (2 :: place) level
    else
      let item := e.gen none (1 :: place) level
      (item.code.seq (.one (.read (temp :: item.text.uses)))).seq (Code.skip.choice (rest.inList temp result (2 :: place) level))

/-- The loop of `cg_lua_func_coalesce`. -/
def Exprs.alternatives : Exprs → Use → (Place → Nat → Code) → Place → Nat → Code
  | .nil, _, last, place, level => last place level
  | .cons e rest, (result, owner), last, place, level =>
    let value := e.gen none (1 :: place) level
    (value.code.seq (readText value.text)).seq
      ((cgLuaStore result owner value.text).choice (rest.alternatives (result, owner) last (2 :: place) value.level))

/-- Arguments in order. -/
def Exprs.args : Exprs → Gen
  | .nil => fun _ level => ⟨.skip, .other [], level⟩
  | .cons e rest => operands (e.gen none) rest.args fun x y => .other (x.uses ++ y.uses)

/-- `cg_lua_case_list`; the level is restored after each condition and each value. -/
def Whens.caseList : Whens → List Use → Use → Code → Place → Nat → Code
  | .nil, _, _, otherwise, _, _ => otherwise
  | .cons c e rest, temp, (result, owner), otherwise, place, level =>
    let test := c.gen none (1 :: place) level
    let value := e.gen none (2 :: place) level
    (test.code.seq (.one (.read (temp ++ test.text.uses)))).seq ((value.code.seq (cgLuaStore result owner value.text)).choice
        (rest.caseList temp (result, owner) otherwise (3 :: place) level))

/-- Statements that are emitted while the text of a SELECT is made, and the level after them. -/
def Frags.gen : Frags → Place → Nat → Code × Nat
  | .nil, _, level => (.skip, level)
  | .arg aliasName e rest, place, level =>
    let value := e.gen none (1 :: place) level
    let others := rest.gen (2 :: place) value.level
    (((value.code.seq (readText value.text)).seq (.one (.write (.user aliasName) (0 :: place)))).seq others.1, others.2)
  | .ite c thn els rest, place, level =>
    let test := c.gen none (1 :: place) level
    let first := thn.gen (2 :: place) test.level
    let second := els.gen (3 :: place) first.2
    let others := rest.gen (4 :: place) second.2
    (((test.code.seq (readText test.text)).seq (first.1.choice second.1)).seq others.1, others.2)

end

/-! ## Levels and scratch variables -/

/-- Statements are emitted for an expression. -/
def Expr.emits : Expr → Bool
  | .null | .literal | .name _ => false
  | .unary op _ e => e.emits || op.checks
  | .binary isNull l r => !isNull && (l.emits || r.emits)
  | .isOrIsNot l r => l.emits || r.emits
  | .andOr _ l r => !(l.isNull && r.isNull) && (l.emits || r.emits)
  | .inPred _ te _ _ => te.core ≠ .null
  | .between _ e _ => !e.isNull
  | _ => true

/-- The level that an expression leaves: operators with a result variable leave only that. -/
def Expr.after : Expr → Nat → Nat
  | .null, level | .literal, level | .name _, level => level
  | .unary _ _ e, level => e.after level
  | .binary isNull l r, level => if isNull then level else r.after (l.after level)
  | .isOrIsNot l r, level => r.after (l.after level)
  | .andOr _ l r, level =>
    if l.isNull && r.isNull then level else if r.emits then level + 1 else r.after (l.after (level + 1))
  | .inPred _ te _ _, level => if te.core = .null then level else level + 1
  | .between _ e test, level => if e.isNull then level else test.after (e.after level)
  | _, level => level + 1

/-- The level that arguments leave. -/
def Exprs.after : Exprs → Nat → Nat
  | .nil, level => level
  | .cons e rest, level => rest.after (e.after level)

/-- The level that fragments leave. -/
def Frags.after : Frags → Nat → Nat
  | .nil, level => level
  | .arg _ e rest, level => rest.after (e.after level)
  | .ite c thn els rest, level => rest.after (els.after (thn.after (c.after level)))

/-- A scratch variable. -/
abbrev Slot := SemType × Nat

mutual

/-- The scratch variables that the statements for an operand set. -/
def Expr.slots : Expr → Nat → List Slot
  | .null, _ | .literal, _ | .name _, _ => []
  | .unary _ _ e, level => e.slots level
  | .binary isNull l r, level => if isNull then [] else l.slots level ++ r.slots (l.after level)
  | .isOrIsNot l r, level => l.slots level ++ r.slots (l.after level)
  | .andOr t l r, level =>
    if l.isNull && r.isNull then []
    else
      let start := l.after (level + 1)
      l.slots (level + 1) ++ r.slots start ++ if r.emits then [(t, level), (semTypeBool, r.after start)] else []
  | .inPred t te e items, level =>
    if te.core = .null then []
    else (t, level) :: (te, e.after (level + 1)) :: (e.slots (level + 1) ++ items.itemSlots (e.after (level + 1) + 1))
  | .caseWhen t whens, level => (t, level) :: whens.slots (level + 1)
  | .caseWhenElse t whens els, level => (t, level) :: (whens.slots (level + 1) ++ els.slots (level + 1))
  | .caseOf t te e whens, level => (t, level) :: (te, level + 1) :: (e.slots (level + 2) ++ whens.slots (level + 2))
  | .caseOfElse t te e whens els, level =>
    (t, level) :: (te, level + 1) :: (e.slots (level + 2) ++ whens.slots (level + 2) ++ els.slots (level + 1))
  | .coalesce t args last, level => (t, level) :: (args.slots (level + 1) ++ last.slots (args.after (level + 1)))
  | .select t frags, level | .selectIfNothingThrow t frags, level => (t, level) :: frags.slots (level + 1)
  | .selectIfNothing t ts kind frags default, level =>
    (t, level) :: (ts, level + 1) :: (frags.slots (level + 2) ++ match kind with
      | .orNullThrow => []
      | _ => default.slots (level + 2))
  | .call t args _, level => (t, level) :: args.slots (level + 1)
  | .between _ e test, level => if e.isNull then [] else e.slots level ++ test.slots (e.after level)

def Exprs.slots : Exprs → Nat → List Slot
  | .nil, _ => []
  | .cons e rest, level => e.slots level ++ rest.slots (e.after level)

/-- Those of the items of `IN`. -/
def Exprs.itemSlots : Exprs → Nat → List Slot
  | .nil, _ => []
  | .cons e rest, level => e.slots level ++ rest.itemSlots level

def Whens.slots : Whens → Nat → List Slot
  | .nil, _ => []
  | .cons c e rest, level => c.slots level ++ e.slots level ++ rest.slots level

def Frags.slots : Frags → Nat → List Slot
  | .nil, _ => []
  | .arg _ e rest, level => e.slots level ++ rest.slots (e.after level)
  | .ite c thn els rest, level =>
    c.slots level ++ thn.slots (c.after level) ++ els.slots (thn.after (c.after level)) ++ rest.slots (els.after (thn.after (c.after level)))

end

/-! ## The property and the condition -/

/-- The statements for an expression, and the read of its value. -/
def Expr.evaluated (e : Expr) (target : Target) (place : Place) (level : Nat) : Code :=
  let o := e.gen target place level
  o.code.seq (readText o.text)

/-- On no path through the statements, an operand is read from a variable that was set for something else since it was stored. -/
def NeverClobbered (e : Expr) (target : Target) (place : Place) (level : Nat) : Prop :=
  ∀ p ∈ e.evaluated target place level, ∀ σ, (run p σ).isSome = true

mutual

/-- Where AND or OR has its statement form, the statements of the right operand set no nullable bool at the level that this operand
leaves. -/
def Expr.Guarded : Expr → Nat → Prop
  | .null, _ | .literal, _ | .name _, _ => True
  | .unary _ _ e, level => e.Guarded level
  | .binary isNull l r, level => isNull = true ∨ l.Guarded level ∧ r.Guarded (l.after level)
  | .isOrIsNot l r, level => l.Guarded level ∧ r.Guarded (l.after level)
  | .andOr _ l r, level =>
    (l.isNull && r.isNull) = true ∨ let start := l.after (level + 1)
      l.Guarded (level + 1) ∧ r.Guarded start ∧ (r.emits = true → (semTypeBool, r.after start) ∉ r.slots start)
  | .inPred _ te e items, level => te.core = .null ∨ e.Guarded (level + 1) ∧ items.ItemsGuarded (e.after (level + 1) + 1)
  | .caseWhen _ whens, level => whens.Guarded (level + 1)
  | .caseWhenElse _ whens els, level => whens.Guarded (level + 1) ∧ els.Guarded (level + 1)
  | .caseOf _ _ e whens, level => e.Guarded (level + 2) ∧ whens.Guarded (level + 2)
  | .caseOfElse _ _ e whens els, level => e.Guarded (level + 2) ∧ whens.Guarded (level + 2) ∧ els.Guarded (level + 1)
  | .coalesce _ args last, level => args.Guarded (level + 1) ∧ last.Guarded (args.after (level + 1))
  | .select _ frags, level | .selectIfNothingThrow _ frags, level => frags.Guarded (level + 1)
  | .selectIfNothing _ _ kind frags default, level =>
    frags.Guarded (level + 2) ∧ match kind with
      | .orNullThrow => True
      | _ => default.Guarded (level + 2)
  | .call _ args _, level => args.Guarded (level + 1)
  | .between _ e test, level => e.isNull = true ∨ e.Guarded level ∧ test.Guarded (e.after level)

def Exprs.Guarded : Exprs → Nat → Prop
  | .nil, _ => True
  | .cons e rest, level => e.Guarded level ∧ rest.Guarded (e.after level)

/-- For the items of `IN`. -/
def Exprs.ItemsGuarded : Exprs → Nat → Prop
  | .nil, _ => True
  | .cons e rest, level => e.Guarded level ∧ rest.ItemsGuarded level

def Whens.Guarded : Whens → Nat → Prop
  | .nil, _ => True
  | .cons c e rest, level => c.Guarded level ∧ e.Guarded level ∧ rest.Guarded level

def Frags.Guarded : Frags → Nat → Prop
  | .nil, _ => True
  | .arg _ e rest, level => e.Guarded level ∧ rest.Guarded (e.after level)
  | .ite c thn els rest, level =>
    c.Guarded level ∧ thn.Guarded (c.after level) ∧ els.Guarded (thn.after (c.after level)) ∧ rest.Guarded (els.after (thn.after (c.after level)))

end

end CgSql.LuaExpr
