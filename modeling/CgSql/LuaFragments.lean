import Mathlib.Data.BitVec

/-!
# Conditional fragments in Lua

What `cg_lua_bound_sql_statement` emits for a statement with shared fragments: the text in chunks, and the code that fills two
tables of predicates, one for the chunks and one for the bound variables. A statement is given by what the echo of its tree does:
characters, variables, and calls of fragments with their bodies.
-/

namespace CgSql.LuaFragments

/-! ## Conditions -/

/-- Values of conditions; a real is its bits. -/
inductive Value
  | null
  | bool (b : Bool)
  | integer (v : Int)
  | real (bits : BitVec 64)

/-- Truth in SQL. -/
def Value.sqlTrue : Value → Bool
  | .null => false
  | .bool b => b
  | .integer v => v ≠ 0
  | .real bits => bits <<< 1 ≠ 0

/-- Truth in Lua, where all numbers are true. -/
def Value.luaTrue : Value → Bool
  | .null => false
  | .bool b => b
  | .integer _ | .real _ => true

/-- A condition; there is one for each time that its fragment is expanded. Its code can be a SELECT. -/
structure Cond where
  id : Nat
  hasSelect : Bool

/-- What the conditions evaluate to. -/
abbrev Env := Nat → Value

/-! ## Statements -/

mutual

/-- What the echo of a tree meets, in order. -/
inductive Pieces
  | nil
  | char (c : Char) (rest : Pieces)
  | var (name : String) (rest : Pieces)
  /-- A fragment that is used as a function, and the clause with its arguments. -/
  | inline (body tail rest : Pieces)
  /-- A fragment that is called, in FROM or in a CTE, and the SELECTs in its arguments. -/
  | call (inFrom : Bool) (args : Selects) (body : Body) (rest : Pieces)

/-- The body of a fragment; statements start with a character. -/
inductive Body
  | plain (first : Char) (stmt : Pieces)
  | cond (c : Cond) (first : Char) (stmt : Pieces) (alt : Alt)

/-- The ELSE IFs and the ELSE of a conditional fragment. -/
inductive Alt
  | otherwise (first : Char) (stmt : Pieces)
  | elseif (c : Cond) (first : Char) (stmt : Pieces) (alt : Alt)

/-- The SELECTs in the arguments of a call. -/
inductive Selects
  | nil
  | cons (stmt : Pieces) (rest : Selects)

end

/-! ## Classification -/

mutual

/-- `lua_has_conditional_fragments`. -/
def Pieces.hasCond : Pieces → Bool
  | .nil => false
  | .char _ rest | .var _ rest => rest.hasCond
  | .inline body tail rest => body.hasCond || tail.hasCond || rest.hasCond
  | .call _ args body rest => args.hasCond || body.hasCond || rest.hasCond

def Body.hasCond : Body → Bool
  | .plain _ stmt => stmt.hasCond
  | .cond .. => true

def Selects.hasCond : Selects → Bool
  | .nil => false
  | .cons stmt rest => stmt.hasCond || rest.hasCond

end

mutual

/-- `lua_has_variables`. -/
def Pieces.hasVars : Pieces → Bool
  | .nil => false
  | .char _ rest => rest.hasVars
  | .var _ _ => true
  | .inline body tail rest => body.hasVars || tail.hasVars || rest.hasVars
  | .call _ args body rest => args.hasVars || body.hasVars || rest.hasVars

def Body.hasVars : Body → Bool
  | .plain _ stmt => stmt.hasVars
  | .cond _ _ stmt alt => stmt.hasVars || alt.hasVars

def Alt.hasVars : Alt → Bool
  | .otherwise _ stmt => stmt.hasVars
  | .elseif _ _ stmt alt => stmt.hasVars || alt.hasVars

def Selects.hasVars : Selects → Bool
  | .nil => false
  | .cons stmt rest => stmt.hasVars || rest.hasVars

end

/-- `lua_has_shared_fragments`. -/
def Pieces.hasShared : Pieces → Bool
  | .nil => false
  | .char _ rest | .var _ rest => rest.hasShared
  | .inline .. | .call .. => true

/-! ## Emitted code -/

/-- The statements that are emitted about predicates; `none` as a source is `true`. -/
inductive Instr
  | newPreds (number : Nat)
  | newVpreds (number : Nat)
  | setPred (number index : Nat) (source : Option Nat)
  | setVpred (number index : Nat) (source : Option Nat)
  | ite (c : Nat) (thn els : List Instr)

/-- What is in a chunk: a variable is a `?`. -/
inductive Item
  | char (c : Char)
  | var (name : String)
  deriving DecidableEq

/-- The state of the generator. -/
structure Gen where
  /-- `lua_cur_bound_statement`. -/
  number : Nat
  hasCond : Bool
  hasVars : Bool
  /-- `lua_cur_fragment_predicate` and `lua_max_fragment_predicate`. -/
  cur : Nat
  max : Nat
  /-- `lua_prev_variable_count` and `lua_cur_variable_count`. -/
  prev : Nat
  vars : Nat
  /-- `lua_shared_fragment_strings`. -/
  strings : List (List Item)
  buf : List Item

/-- Part of the generator: the code it emits, and the state after it. -/
abbrev Action := Gen → Option (List Instr × Gen)

/-- One part after the other. -/
def Action.andThen (a b : Action) : Action := fun g => do
  let (code, g) ← a g
  let (code', g) ← b g
  return (code ++ code', g)

/-- Nothing. -/
def Action.skip : Action := fun g => some ([], g)

/-- Parts in order. -/
def Action.seq (actions : List Action) : Action := actions.foldr Action.andThen Action.skip

open Action

/-- Echo one item. -/
def put (item : Item) : Action := fun g => some ([], { g with buf := g.buf ++ [item] })

/-- `cg_lua_capture_variables`. -/
def captureVariable (name : String) : Action :=
  fun g => some ([], { g with buf := g.buf ++ [.var name], vars := g.vars + 1 })

/-- `cg_lua_flush_variable_predicates`. -/
def flushVariablePredicates : Action := fun g =>
  if g.hasCond then
    let source := if g.cur = 0 ∨ g.cur + 1 = g.max then none else some g.cur
    some ((List.range' g.prev (g.vars - g.prev)).map fun i => .setVpred g.number i source, { g with prev := g.vars })
  else some ([], g)

/-- `cg_lua_fragment_copy_pred`. -/
def copyPred : Action := fun g =>
  if ¬g.hasCond ∨ g.strings.length + 1 = g.max then some ([], g)
  else do
    let (code, g') ← flushVariablePredicates { g with max := g.max + 1 }
    return (.setPred g.number g.max (if g.cur = 0 then none else some g.cur) :: code, g')

/-- `cg_lua_emit_one_frag` for the text that is not yet emitted. -/
def emitOneFrag : Action := fun g =>
  if g.buf = [] then some ([], g)
  else do
    let (code, g) ← copyPred g
    return (code, { g with strings := g.strings ++ [g.buf], buf := [] })

/-- `cg_lua_emit_one_frag` for the text of a wrapper. -/
def emitWrapper (c : Char) : Action := fun g => do
  let (code, g) ← copyPred g
  return (code, { g with strings := g.strings ++ [[.char c]] })

/-- `cg_lua_fragment_stmt`. -/
def fragmentStmt (first : Char) (stmt : Action) : Action :=
  seq [put (.char first), stmt, emitOneFrag, flushVariablePredicates]

/-- `cg_lua_fragment_setpred`. -/
def setPred : Action := fun g =>
  if g.hasCond then some ([.setPred g.number g.max none], { g with cur := g.max, max := g.max + 1 })
  else some ([], { g with cur := g.max })

/-- The block of a condition: the predicate in use is restored after it. -/
def block (first : Char) (stmt : Action) : Action := fun g => do
  let (code, g') ← (setPred.andThen (fragmentStmt first stmt)) g
  return (code, { g' with cur := g.cur })

/-- `if … then … else … end`. The code of a SELECT in the condition would be emitted with the state of this statement, which is not
saved: then there is no meaningful code. -/
def ifThenElse (c : Cond) (thn els : Action) : Action := fun g =>
  if c.hasSelect then none
  else do
    let (code, g) ← thn g
    let (code', g) ← els g
    return ([.ite c.id code code'], g)

/-- `cg_lua_bound_sql_statement` up to the call that prepares the statement: the code, and the state that the call is emitted with. -/
def boundSqlStatement (hasCond hasVars hasShared : Bool) (stmt : Action) (number : Nat) : Option (List Instr × Gen) := do
  let n := number + 1
  let (code, g) ← (seq [stmt, if hasShared then emitOneFrag else skip])
    { number := n, hasCond := hasCond, hasVars := hasVars, cur := 0, max := 0, prev := 0, vars := 0, strings := [], buf := [] }
  let init := if hasCond then .newPreds n :: (if hasVars then [.newVpreds n] else []) else []
  return (init ++ code, g)

/-- A SELECT in an argument: the state is restored after it, except for the number of the statement. -/
def nestedSelect (hasCond hasVars hasShared : Bool) (stmt : Action) : Action := fun g => do
  let (code, g') ← boundSqlStatement hasCond hasVars hasShared stmt g.number
  return (code, { g with number := g'.number })

mutual

/-- The echo with the callbacks of `cg_lua_bound_sql_statement`; `inline` is `cg_lua_inline_func`, and `call` is
`cg_lua_call_in_cte`. -/
def Pieces.gen : Pieces → Action
  | .nil => skip
  | .char c rest => (put (.char c)).andThen rest.gen
  | .var name rest => (captureVariable name).andThen rest.gen
  | .inline body tail rest =>
    seq [emitOneFrag, put (.char '('), body.gen, emitOneFrag, flushVariablePredicates, tail.gen, put (.char ')'), emitOneFrag, rest.gen]
  | .call inFrom args body rest =>
    seq [args.gen, emitOneFrag, if inFrom then emitWrapper '(' else skip, body.gen, if inFrom then emitWrapper ')' else skip,
      rest.gen]

def Body.gen : Body → Action
  | .plain first stmt => fragmentStmt first stmt.gen
  | .cond c first stmt alt => ifThenElse c (block first stmt.gen) alt.gen

/-- `cg_lua_fragment_elseif_list`. -/
def Alt.gen : Alt → Action
  | .otherwise first stmt => block first stmt.gen
  | .elseif c first stmt alt => ifThenElse c (block first stmt.gen) alt.gen

def Selects.gen : Selects → Action
  | .nil => skip
  | .cons stmt rest => (nestedSelect stmt.hasCond stmt.hasVars stmt.hasShared stmt.gen).andThen rest.gen

end

/-- A statement. -/
def Pieces.statement (p : Pieces) (number : Nat) : Option (List Instr × Gen) :=
  boundSqlStatement p.hasCond p.hasVars p.hasShared p.gen number

/-! ## Running the code -/

/-- A table of predicates; what is `nil` is false. -/
abbrev Table := Nat → Bool

/-- The variables `_preds_n` and `_vpreds_n`. -/
structure Tables where
  preds : Nat → Option Table
  vpreds : Nat → Option Table

/-- Before the tables are made. -/
def Tables.init : Tables := { preds := fun _ => none, vpreds := fun _ => none }

/-- The value of an entry of `_preds_n`, or `true`. -/
def Tables.source (t : Tables) (number : Nat) : Option Nat → Option Bool
  | none => some true
  | some j => (t.preds number).map (· j)

/-- A store into a table; there is an error if it is `nil`. -/
def store (tables : Nat → Option Table) (number index : Nat) (b : Bool) : Option (Nat → Option Table) :=
  (tables number).map fun table n => if n = number then some fun i => if i = index then b else table i else tables n

mutual

/-- One statement. -/
def Instr.run (env : Env) : Instr → Tables → Option Tables
  | .newPreds number, t => some { t with preds := fun n => if n = number then some fun _ => false else t.preds n }
  | .newVpreds number, t => some { t with vpreds := fun n => if n = number then some fun _ => false else t.vpreds n }
  | .setPred number index source, t => do
    let b ← t.source number source
    return { t with preds := ← store t.preds number index b }
  | .setVpred number index source, t => do
    let b ← t.source number source
    return { t with vpreds := ← store t.vpreds number index b }
  | .ite c thn els, t => if (env c).luaTrue then run env thn t else run env els t

/-- Statements in order. -/
def run (env : Env) : List Instr → Tables → Option Tables
  | [], t => some t
  | i :: code, t => (i.run env t).bind (run env code)

end

/-! ## The calls of the runtime -/

/-- The loop of `cql_prepare_var`: the chunks whose predicate is true, or all if there are no predicates. -/
def prepareVar (preds : Option Table) (frags : List (List Item)) : List Item :=
  (frags.zipIdx.filter fun f => preds.elim true (· f.2)).flatMap Prod.fst

/-- The loop of `cql_multibind_var`. -/
def multibindVar (vpreds : Table) (values : List String) : List String :=
  (values.zipIdx.filter fun v => vpreds v.2).map Prod.fst

/-- The variables of items, in order. -/
def boundVariables (items : List Item) : List String :=
  items.filterMap fun
    | .char _ => none
    | .var name => some name

/-- All text of the statement, in order. -/
def Gen.frags (g : Gen) : List (List Item) := g.strings ++ if g.buf = [] then [] else [g.buf]

/-- What the statement is prepared with: the text without fragments as it is, and else `cql_prepare_var`. -/
def Gen.prepared (g : Gen) (t : Tables) : List Item :=
  prepareVar (if g.hasCond then t.preds g.number else none) g.frags

/-- What is bound; there is an error if there are variables and no predicates for them. -/
def Gen.bound (g : Gen) (t : Tables) : Option (List String) :=
  let values := boundVariables g.frags.flatten
  if g.hasCond ∧ values ≠ [] then (t.vpreds g.number).map fun vpreds => multibindVar vpreds values else some values

end CgSql.LuaFragments
