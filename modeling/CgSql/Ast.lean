import CgSql.Flow

/-!
# Programs

The part of the language flow analysis is about: expressions over variables, cursors and cursor fields, and statements. Names are
resolved: the environment says which type word a name has and what its declaration put there. Types are reduced to what the
analysis reads: nullability, whether a value is a reference, and what is a cursor.
-/

namespace CgSql

/-- What a name refers to: a variable, a field of an auto cursor, or an auto cursor itself. -/
inductive Loc
  | var (v : Nat)
  | field (c i : Nat)
  | cursor (c : Nat)
  deriving DecidableEq

/-- `loop_analysis_state`: outside of loops, in the first pass over a loop, or in the second. -/
inductive LoopState
  | none
  | analyze
  | reanalyze
  deriving DecidableEq

/-- The declared part of a type word. LET declares a variable with the nullability of its expression, which the first pass over a
loop can see differently from the last. -/
inductive TypeWord
  | data (notNull isRef : Bool)
  | byLet (notNullFirst notNull : Bool)
  | cursor
  deriving DecidableEq

/-- The declarations in scope. `addr` gives the type word of a name, `word` what was declared there and `globalWord` whether that was
a global. A procedure is checked unless it was declared with NO CHECK. `strictAndOr` and `strictCursorHasRow` are the enforcement
options `strict_and_or_not_null_check` and `strict_cursor_has_row`. -/
structure Env where
  addr : Loc → SemPtr
  word : SemPtr → TypeWord
  globalWord : SemPtr → Bool
  fieldCount : Nat → Nat
  resultNotNull : Nat → Bool
  checked : Nat → Bool
  strictAndOr : Bool
  strictCursorHasRow : Bool

namespace Env

/-- The name is declared NOT NULL, as a pass sees it. -/
def notNull (Γ : Env) (pass : LoopState) (l : Loc) : Bool :=
  match Γ.word (Γ.addr l) with
  | .data notNull _ => notNull
  | .byLet notNullFirst notNull => if pass = .analyze then notNullFirst else notNull
  | .cursor => false

/-- The name is a global variable, a global cursor or a field of one. -/
def isGlobal (Γ : Env) (l : Loc) : Bool := Γ.globalWord (Γ.addr l)

/-- The name is an auto cursor. -/
def isCursor (Γ : Env) (c : Nat) : Bool := Γ.word (Γ.addr (.cursor c)) == .cursor

/-- `variable_should_require_initialization`: the name has a nonnull reference type, which has no default. -/
def requiresInit (Γ : Env) (l : Loc) : Bool := Γ.word (Γ.addr l) == .data true true

/-- The name resolves to a variable or to a field of its cursor. -/
def resolves (Γ : Env) (l : Loc) : Bool :=
  match l with
  | .var _ => Γ.word (Γ.addr l) != .cursor
  | .field c i => Γ.word (Γ.addr l) != .cursor && Γ.isCursor c && decide (i < Γ.fieldCount c)
  | .cursor _ => false

/-- The improvement of a name's nullability. -/
def notnullKey (Γ : Env) (l : Loc) : Key := (Γ.addr l, .inferredNotnull)

/-- The improvement of a variable's initialization. -/
def initKey (Γ : Env) (l : Loc) : Key := (Γ.addr l, .initComplete)

/-- The has-row improvement of a cursor. -/
def rowKey (Γ : Env) (c : Nat) : Key := (Γ.addr (.cursor c), .hasRow)

end Env

/-- The type recorded at the use of a name: none yet; nullable; NOT NULL as declared; NOT NULL by improvement, assumed in the first
pass over a loop; NOT NULL by improvement, the use rewritten as a call of `cql_inferred_notnull`. -/
inductive UseType
  | unanalyzed
  | nullable
  | notnull
  | optimistic
  | inferred
  deriving DecidableEq

/-- Arithmetic and comparison operators. -/
inductive BinOp
  | add | sub | mul | eq | ne | lt | le | gt | ge
  deriving DecidableEq

/-- `AND` and `OR`. -/
inductive LogicOp
  | and
  | or
  deriving DecidableEq

mutual

/-- Expressions. `isOp` is IS, or IS NOT when negated. The two forms of CASE are `caseWhen` and `caseMatch`, the second with an
expression to match. `between` is BETWEEN, or NOT BETWEEN when negated; `rewritten` says that analysis has turned the node into a
`between_rewrite`. -/
inductive Expr
  | null
  | num (n : Int)
  | name (l : Loc) (ty : UseType)
  | cursor (c : Nat)
  | not (e : Expr)
  | binary (op : BinOp) (l r : Expr)
  | logical (op : LogicOp) (l r : Expr)
  | isOp (negated : Bool) (l r : Expr)
  | call (p : Nat) (args : ExprList)
  | caseWhen (list : CaseList)
  | caseMatch (e : Expr) (list : CaseList)
  | between (negated rewritten : Bool) (e lo hi : Expr)

/-- The IN arguments of a procedure called as a function. -/
inductive ExprList
  | nil
  | cons (e : Expr) (rest : ExprList)

/-- A case list with its ELSE, if there is one. -/
inductive CaseList
  | done
  | orElse (e : Expr)
  | when (w t : Expr) (rest : CaseList)

end

/-- The arguments of a CALL: expressions for IN parameters, names for OUT and INOUT ones. -/
inductive Args
  | nil
  | input (e : Expr) (rest : Args)
  | output (l : Loc) (inout : Bool) (rest : Args)

/-- The statements that can change a variable, a cursor or a cursor's fields. -/
inductive Write
  | set (v : Nat) (e : Expr)
  | letVar (v : Nat) (e : Expr)
  | fetch (c : Nat)
  | fetchInto (c : Nat) (vs : List Nat)
  | fetchCall (c p : Nat) (args : Args)
  | fetchValues (c : Nat) (es : ExprList)
  | updateCursor (c : Nat) (fields : List Nat) (es : ExprList)
  | close (c : Nat)
  | call (p : Nat) (args : Args)
  | cursorFromBlob (c : Nat) (blob : Expr)

/-- The statements that leave a block: `is_control_stmt`. COMMIT RETURN and ROLLBACK RETURN leave as RETURN does. -/
inductive Control
  | leave
  | continue
  | return
  | throw
  deriving DecidableEq

mutual

/-- Statements. The body of each form is a statement list, `nil` where the source has none. A SWITCH with ALL VALUES comes with the
values of its enum. LOOP FETCH is the fetch of a cursor, into the cursor itself or into variables, and a body. -/
inductive Stmt
  | expr (e : Expr)
  | write (w : Write)
  | ifStmt (c : Expr) (body : Stmts) (alt : IfAlt)
  | switchStmt (allValues : Option (List Int)) (e : Expr) (cases : SwitchCase)
  | whileStmt (c : Expr) (body : Stmts)
  | forStmt (c : Expr) (update body : Stmts)
  | loopStmt (c : Nat) (into : Option (List Nat)) (body : Stmts)
  | tryCatch (body handler : Stmts)
  | control (k : Control)

/-- Statement lists. -/
inductive Stmts
  | nil
  | cons (t : Stmt) (rest : Stmts)

/-- What follows the first branch of an IF: ELSE IF branches, then ELSE or nothing. -/
inductive IfAlt
  | done
  | orElse (body : Stmts)
  | elseIf (c : Expr) (body : Stmts) (rest : IfAlt)

/-- The branches of a SWITCH: WHEN branches, then ELSE or nothing. -/
inductive SwitchCase
  | done
  | orElse (body : Stmts)
  | when (values : List Int) (body : Stmts) (rest : SwitchCase)

end

namespace Expr

/-- The expression has a NOT NULL type, as far as it was analysed. -/
def isNotNull (Γ : Env) : Expr → Bool
  | .null => false
  | .num _ => true
  | .name _ ty => ty == .notnull || ty == .optimistic || ty == .inferred
  | .cursor _ => true
  | .not e => e.isNotNull Γ
  | .binary _ l r => l.isNotNull Γ && r.isNotNull Γ
  | .logical _ l r => l.isNotNull Γ && r.isNotNull Γ
  | .isOp .. => true
  | .call p _ => Γ.resultNotNull p
  | .caseWhen list => caseNotNull Γ list
  | .caseMatch _ list => caseNotNull Γ list
  | .between _ _ e lo hi => e.isNotNull Γ && (lo.isNotNull Γ && hi.isNotNull Γ)
where
  /-- Every value a case list can yield is NOT NULL: there is an ELSE. -/
  caseNotNull (Γ : Env) : CaseList → Bool
  | .done => false
  | .orElse e => e.isNotNull Γ
  | .when _ t rest => t.isNotNull Γ && caseNotNull Γ rest

end Expr

end CgSql
