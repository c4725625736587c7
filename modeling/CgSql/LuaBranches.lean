import CgSql.Lemmas.LuaFragments

/-!
# Taken branches

What a statement with conditional fragments should be prepared with, and when it is.
-/

namespace CgSql.LuaFragments

/-! ## Taken branches -/

section

variable (truth : Nat → Bool)

mutual

/-- For each item in order: it is in taken branches only. -/
def Pieces.mask : Pieces → List Bool
  | .nil => []
  | .char _ rest | .var _ rest => true :: rest.mask
  | .inline body tail rest => true :: (body.mask ++ (tail.mask ++ true :: rest.mask))
  | .call inFrom _ body rest => (if inFrom then [true] else []) ++ (body.mask ++ ((if inFrom then [true] else []) ++ rest.mask))

def Body.mask : Body → List Bool
  | .plain _ stmt => true :: stmt.mask
  | .cond c _ stmt alt =>
    if truth c.id then true :: stmt.mask ++ alt.mask.map fun _ => false
    else false :: (stmt.mask.map fun _ => false) ++ alt.mask

def Alt.mask : Alt → List Bool
  | .otherwise _ stmt => true :: stmt.mask
  | .elseif c _ stmt alt =>
    if truth c.id then true :: stmt.mask ++ alt.mask.map fun _ => false
    else false :: (stmt.mask.map fun _ => false) ++ alt.mask

end

mutual

/-- For each variable in order: it is in taken branches only. -/
def Pieces.varMask : Pieces → List Bool
  | .nil => []
  | .char _ rest => rest.varMask
  | .var _ rest => true :: rest.varMask
  | .inline body tail rest => body.varMask ++ (tail.varMask ++ rest.varMask)
  | .call _ _ body rest => body.varMask ++ rest.varMask

def Body.varMask : Body → List Bool
  | .plain _ stmt => stmt.varMask
  | .cond c _ stmt alt =>
    if truth c.id then stmt.varMask ++ alt.varMask.map fun _ => false else (stmt.varMask.map fun _ => false) ++ alt.varMask

def Alt.varMask : Alt → List Bool
  | .otherwise _ stmt => stmt.varMask
  | .elseif c _ stmt alt =>
    if truth c.id then stmt.varMask ++ alt.varMask.map fun _ => false else (stmt.varMask.map fun _ => false) ++ alt.varMask

end

mutual

/-- The items of the taken branches. -/
def Pieces.taken : Pieces → List Item
  | .nil => []
  | .char c rest => .char c :: rest.taken
  | .var name rest => .var name :: rest.taken
  | .inline body tail rest => .char '(' :: (body.taken ++ (tail.taken ++ .char ')' :: rest.taken))
  | .call inFrom _ body rest =>
    (if inFrom then [.char '('] else []) ++ (body.taken ++ ((if inFrom then [.char ')'] else []) ++ rest.taken))

def Body.taken : Body → List Item
  | .plain first stmt => .char first :: stmt.taken
  | .cond c first stmt alt => if truth c.id then .char first :: stmt.taken else alt.taken

def Alt.taken : Alt → List Item
  | .otherwise first stmt => .char first :: stmt.taken
  | .elseif c first stmt alt => if truth c.id then .char first :: stmt.taken else alt.taken

end

end

/-! ## What the statement gets -/

/-- For each item: its chunk is in the text that is prepared. -/
def Gen.included (g : Gen) (t : Tables) : List Bool :=
  let preds := if g.hasCond then t.preds g.number else none
  g.frags.zipIdx.flatMap fun f => f.1.map fun _ => preds.elim true (· f.2)

/-- For each variable: its predicate. -/
def Gen.boundMask (g : Gen) (t : Tables) : Option (List Bool) :=
  let values := boundVariables g.frags.flatten
  if g.hasCond ∧ values ≠ [] then (t.vpreds g.number).map fun vpreds => (List.range values.length).map vpreds
  else some (values.map fun _ => true)

/-- The code runs without an error, and afterwards the statement is prepared with the text of the taken branches, in which its
variables are bound; the predicates that are used are those of the statement, and the predicate of a chunk or a variable says whether
its branch is taken. -/
structure ChoosesTaken (env : Env) (p : Pieces) (number : Nat) : Prop where
  runs : ∃ code g t, p.statement number = some (code, g) ∧ run env code .init = some t ∧ (p.hasCond = true → g.number = number + 1) ∧
    g.prepared t = p.taken (fun c => (env c).sqlTrue) ∧
    g.bound t = some (boundVariables (p.taken fun c => (env c).sqlTrue)) ∧
    g.included t = p.mask (fun c => (env c).sqlTrue) ∧
    g.boundMask t = some (p.varMask fun c => (env c).sqlTrue)

/-! ## The condition -/

mutual

/-- No argument of a fragment has a SELECT. -/
def Pieces.NoSelects : Pieces → Prop
  | .nil => True
  | .char _ rest | .var _ rest => rest.NoSelects
  | .inline body tail rest => body.NoSelects ∧ tail.NoSelects ∧ rest.NoSelects
  | .call _ args body rest => args = .nil ∧ body.NoSelects ∧ rest.NoSelects

def Body.NoSelects : Body → Prop
  | .plain _ stmt => stmt.NoSelects
  | .cond c _ stmt alt => c.hasSelect = false ∧ stmt.NoSelects ∧ alt.NoSelects

def Alt.NoSelects : Alt → Prop
  | .otherwise _ stmt => stmt.NoSelects
  | .elseif c _ stmt alt => c.hasSelect = false ∧ stmt.NoSelects ∧ alt.NoSelects

end

section

variable (env : Env)

mutual

/-- The conditions that decide which branches are taken are true in SQL when they are in Lua. -/
def Pieces.Agree : Pieces → Prop
  | .nil => True
  | .char _ rest | .var _ rest => rest.Agree
  | .inline body tail rest => body.Agree ∧ tail.Agree ∧ rest.Agree
  | .call _ _ body rest => body.Agree ∧ rest.Agree

def Body.Agree : Body → Prop
  | .plain _ stmt => stmt.Agree
  | .cond c _ stmt alt => ((env c.id).luaTrue = true → (env c.id).sqlTrue = true) ∧
    if (env c.id).sqlTrue then stmt.Agree else alt.Agree

def Alt.Agree : Alt → Prop
  | .otherwise _ stmt => stmt.Agree
  | .elseif c _ stmt alt => ((env c.id).luaTrue = true → (env c.id).sqlTrue = true) ∧
    if (env c.id).sqlTrue then stmt.Agree else alt.Agree

end

end

mutual

/-- Where the generator is after pieces. -/
def Pieces.after : Pieces → Point → Point
  | .nil, a => a
  | .char _ rest, a => rest.after a.put
  | .var _ rest, a => rest.after a.var
  | .inline body tail rest, a => rest.after (tail.after (body.after a.emit.put).emit.flush).put.emit
  | .call inFrom _ body rest, a =>
    let b := body.after (if inFrom then a.emit.wrap else a.emit)
    rest.after (if inFrom then b.wrap else b)

def Body.after : Body → Point → Point
  | .plain _ stmt, a => (stmt.after a.put).emit.flush
  | .cond .., _ => .done

end

section

variable (env : Env)

mutual

/-- When the first condition of a fragment is false, all variables before it have predicates. -/
def Pieces.Kept : Pieces → Point → Prop
  | .nil, _ => True
  | .char _ rest, a => rest.Kept a.put
  | .var _ rest, a => rest.Kept a.var
  | .inline body tail rest, a =>
    let b := (body.after a.emit.put).emit.flush
    body.Kept a.emit.put ∧ tail.Kept b ∧ rest.Kept (tail.after b).put.emit
  | .call inFrom _ body rest, a =>
    let start := if inFrom then a.emit.wrap else a.emit
    let b := body.after start
    body.Kept start ∧ rest.Kept (if inFrom then b.wrap else b)

def Body.Kept : Body → Point → Prop
  | .plain _ stmt, a => stmt.Kept a.put
  | .cond c _ stmt alt, a =>
    if (env c.id).luaTrue then stmt.Kept (Point.start a.pending).put else a.pending = false ∧ alt.Kept

/-- The first branch has set the predicates. -/
def Alt.Kept : Alt → Prop
  | .otherwise _ stmt => stmt.Kept (Point.start false).put
  | .elseif c _ stmt alt => if (env c.id).luaTrue then stmt.Kept (Point.start false).put else alt.Kept

end

end

/-! ## All items -/

mutual

/-- All items of a statement. -/
def Pieces.flat : Pieces → List Item
  | .nil => []
  | .char c rest => .char c :: rest.flat
  | .var name rest => .var name :: rest.flat
  | .inline body tail rest => .char '(' :: (body.flat ++ (tail.flat ++ .char ')' :: rest.flat))
  | .call inFrom _ body rest =>
    (if inFrom then [.char '('] else []) ++ (body.flat ++ ((if inFrom then [.char ')'] else []) ++ rest.flat))

def Body.flat : Body → List Item
  | .plain first stmt => .char first :: stmt.flat
  | .cond _ first stmt alt => .char first :: stmt.flat ++ alt.flat

def Alt.flat : Alt → List Item
  | .otherwise first stmt => .char first :: stmt.flat
  | .elseif _ first stmt alt => .char first :: stmt.flat ++ alt.flat

end

/-- The items that a mask has. -/
def select {α : Type} : List α → List Bool → List α
  | x :: xs, b :: mask => if b then x :: select xs mask else select xs mask
  | _, _ => []

end CgSql.LuaFragments
