import CgSql.Ast
import CgSql.SymbolTable

/-!
# OUT arguments

`sem_validate_args_vs_formals` with its check that OUT and INOUT arguments are not used again, and DECLARE OUT CALL, which declares the variables
that are missing. What else a call is checked for is a parameter; so is what stands for a FROM in a list of arguments.
-/

namespace CgSql.OutArgs

open SymbolTable (Name Case strCmp)

/-- A name up to letter case, which is how variables are found. -/
def fold (name : Name) : List UInt8 := Case.insens.fold name

/-! ## Calls -/

/-- The mode of a parameter. -/
inductive Mode
  | in
  | out
  | inout
  deriving DecidableEq

/-- `is_out_parameter`. -/
def Mode.isOut : Mode → Bool
  | .in => false
  | _ => true

/-- `is_in_parameter`. -/
def Mode.isIn : Mode → Bool
  | .out => false
  | _ => true

/-- An argument. -/
inductive Arg
  /-- `is_id`, with its line, and whether the variable is improved where it is analysed for the last time -/
  | id (name : Name) (line : Nat) (improved : Bool)
  /-- A qualified name, with the variable it is resolved to if it is one: `LOCALS.x`, `ARGUMENTS.x`, and `b.x` for `b_x`. -/
  | dot (resolved : Option Name)
  /-- Any other expression, with the variable whose `sem_type` becomes its own if there is one: `nullable(x)`, `cql_inferred_notnull(x)`. -/
  | expr (passes : Option Name)

/-- The bare name that an argument is. -/
def Arg.bare : Arg → Option Name
  | .id name .. => some name
  | _ => none

/-- The variable whose `sem_type` an argument has. -/
def Arg.denotes : Arg → Option Name
  | .id name .. => some name
  | .dot x => x
  | .expr x => x

/-- An argument as its analysis leaves it: the name of an improved variable for an IN parameter becomes a call of `cql_inferred_notnull`, except
in the first analysis of a loop. -/
def Arg.resolved (state : LoopState) (mode : Mode) (arg : Arg) : Arg :=
  match arg with
  | .id name _ true => if state = .analyze ∨ mode.isOut then arg else .expr (some name)
  | _ => arg

/-- The arguments as their analysis leaves them. -/
def resolved (state : LoopState) : List Arg → List Mode → List Arg
  | arg :: args, mode :: modes => arg.resolved state mode :: resolved state args modes
  | args, _ => args

/-- A table of variables by their names up to case, each with its `SEM_TYPE_IMPLICIT`: `current_variables`, or the globals. -/
abbrev Scope := List UInt8 → Option Bool

/-- `find_local_or_global_variable`: behind `current_variables`, the globals in a procedure, and nothing at top level. -/
def find (globals scope : Scope) : Scope := fun x => scope x <|> globals x

/-- A variable is added, or its flag is set. -/
def Scope.set (scope : Scope) (name : Name) (implicit : Bool) : Scope := Function.update scope (fold name) (some implicit)

/-- What is reported. -/
inductive Diag
  /-- An argument is not right for its parameter. -/
  | argument (iarg : Nat)
  /-- `CQL0207` -/
  | notVariable
  /-- `CQL0211` -/
  | noTrailingOut
  /-- `CQL0212` -/
  | tooFew
  /-- `CQL0235` -/
  | tooMany
  /-- `CQL0390` -/
  | noMissingOut
  /-- `CQL0424` -/
  | inoutAsFunction
  /-- `CQL0425` -/
  | nonTrailingOut
  /-- `CQL0426` at the line, for the name -/
  | usedAgain (line : Nat) (name : Name)
  deriving DecidableEq

/-! ## The check for names used again -/

/-- A tagged pointer to a name among the arguments. -/
structure TaggedId where
  name : Name
  line : Nat
  /-- `is_id_out_tagged` -/
  out : Bool
  deriving DecidableEq

/-- `out_tagged_id_comparator`. -/
def outTaggedIdComparator (a b : TaggedId) : Int :=
  if strCmp a.name.1 b.name.1 = 0 then
    if a.line > b.line then 1 else if a.line < b.line then -1 else 0
  else strCmp a.name.1 b.name.1

/-- `qsort` with this comparator: a permutation in order. The order of what compares as equal is left open. -/
structure QSort where
  sort : List TaggedId → List TaggedId
  perm : ∀ ids, (sort ids).Perm ids
  sorted : ∀ ids, (sort ids).Pairwise fun a b => outTaggedIdComparator a b ≤ 0

/-- The names among the arguments that have a parameter. -/
def taggedIds : List Arg → List Mode → List TaggedId
  | .id name line _ :: args, mode :: modes => ⟨name, line, mode.isOut⟩ :: taggedIds args modes
  | _ :: args, _ :: modes => taggedIds args modes
  | _, _ => []

/-- The loop over neighbours. -/
def findUsedAgain : List TaggedId → Option Diag
  | previous :: id :: ids =>
    if (previous.out || id.out) && strCmp previous.name.1 id.name.1 = 0 then some (.usedAgain previous.line id.name)
    else findUsedAgain (id :: ids)
  | _ => none

/-- `sem_validate_out_args_are_unique`. -/
def validateOutArgsAreUnique (q : QSort) (args : List Arg) (modes : List Mode) : Option Diag :=
  if !(taggedIds args modes).any TaggedId.out || (taggedIds args modes).length < 2 then none
  else findUsedAgain (q.sort (taggedIds args modes))

/-- `sem_validate_arg_vs_formal`. What is passed for an OUT or INOUT parameter names a variable. -/
def validateArgVsFormal (scope : Scope) (others : Arg → Mode → Bool) (arg : Arg) (mode : Mode) : Bool :=
  (!mode.isOut ||
    match arg with
    | .id name .. => (scope (fold name)).isSome
    | .dot _ => true
    | .expr _ => false) && others arg mode

/-- The first loop of `sem_validate_args_vs_formals`: an error, or the arguments and the parameters that remain. -/
def validateArgs (scope : Scope) (others : Arg → Mode → Bool) (procAsFunc : Bool) :
    List Arg → List Mode → (iarg : Nat) → Except Diag (List Arg × List Mode)
  | arg :: args, mode :: modes, iarg =>
    if !validateArgVsFormal scope others arg mode then .error (.argument iarg)
    else if procAsFunc && mode.isOut && mode.isIn then .error .inoutAsFunction
    else if procAsFunc && mode.isOut && !modes.isEmpty then .error .nonTrailingOut
    else validateArgs scope others procAsFunc args modes (iarg + 1)
  | args, modes, _ => .ok (args, modes)

/-- `sem_validate_args_vs_formals`. -/
def validateArgsVsFormals (q : QSort) (scope : Scope) (others : Arg → Mode → Bool) (state : LoopState) (procAsFunc : Bool) (args : List Arg)
    (modes : List Mode) : Option Diag :=
  match validateArgs scope others procAsFunc args modes 1 with
  | .error e => some e
  | .ok (restArgs, restModes) =>
    if procAsFunc && restArgs.isEmpty && restModes.length = 1 then
      if restModes = [.out] then none else some .noTrailingOut
    else if !restModes.isEmpty then some .tooFew
    else if !restArgs.isEmpty || procAsFunc then some .tooMany
    else validateOutArgsAreUnique q (resolved state args modes) modes

/-! ## DECLARE OUT CALL -/

/-- An argument as it is written: `FROM shape` stands for the arguments that it is rewritten to. -/
inductive Written
  | arg (arg : Arg)
  | fromShape (args : List Arg)

/-- `rewrite_shape_forms_in_list_if_needed`. -/
def expand : List Written → List Arg
  | [] => []
  | .arg arg :: args => arg :: expand args
  | .fromShape items :: args => items ++ expand args

/-- How the analysis of a statement stops early. -/
inductive Stop
  /-- A Contract or an Invariant fails. -/
  | aborted
  | error (e : Diag)

/-- The first loop of `sem_declare_out_call_stmt`: the variables that are missing are added. The flag of an argument is the one that an earlier
analysis left in its `sem`, and `reanalyze` is `LOOP_ANALYSIS_STATE_REANALYZE`. -/
def declareArgs (reanalyze : Bool) : List Mode → List (Written × Bool) → Scope → (outArgs : Nat) → Except Stop (Scope × Nat)
  | mode :: modes, (arg, flag) :: args, scope, outArgs =>
    if mode.isIn then declareArgs reanalyze modes args scope outArgs
    else
      match arg with
      | .arg (.id name ..) =>
        if flag then
          if reanalyze && scope (fold name) = some false then declareArgs reanalyze modes args (scope.set name true) (outArgs + 1)
          else .error .aborted
        else if scope (fold name) = none then declareArgs reanalyze modes args (scope.set name true) (outArgs + 1)
        else declareArgs reanalyze modes args scope (outArgs + 1)
      | _ => .error (.error .notVariable)
  | _, _, scope, outArgs => .ok (scope, outArgs)

/-- An argument has the flag of its variable. -/
def Arg.implicit (scope : Scope) (arg : Arg) : Bool :=
  match arg.denotes with
  | some name => scope (fold name) = some true
  | none => false

/-- The arguments of a call after their analysis, with their flags. -/
def marked (scope : Scope) (args : List Arg) : List (Arg × Bool) := args.map fun arg => (arg, arg.implicit scope)

/-- The final walk of `sem_declare_out_call_stmt`, with its Invariants and the Contract of EXTRACT_STRING. -/
def undecorate : List (Arg × Bool) → Scope → Option Scope
  | [], scope => some scope
  | (arg, flag) :: args, scope =>
    if flag then
      match arg with
      | .id name .. => if scope (fold name) = some true then undecorate args (scope.set name false) else none
      | _ => none
    else undecorate args scope

/-- `sem_declare_out_call_stmt`: the variables and the arguments after it. -/
def declareOutCallStmt (q : QSort) (others : LoopState → Arg → Mode → Bool) (state : LoopState) (globals : Scope) (modes : List Mode)
    (args : List (Written × Bool)) (scope : Scope) : Except Stop (Scope × List (Arg × Bool)) :=
  match declareArgs (state = .reanalyze) modes args scope 0 with
  | .error stop => .error stop
  | .ok (scope, outArgs) =>
    if outArgs = 0 then .error (.error .noMissingOut)
    else
      match validateArgsVsFormals q (find globals scope) (others state) state false (expand (args.map Prod.fst)) modes with
      | some e => .error (.error e)
      | none =>
        match undecorate (marked (find globals scope) (resolved state (expand (args.map Prod.fst)) modes)) scope with
        | none => .error .aborted
        | some after => .ok (after, marked (find globals scope) (resolved state (expand (args.map Prod.fst)) modes))

/-- Where a statement stands: in a loop it is analysed again, after the rest of the loop, which declares some variables. -/
inductive Place
  | outside
  | loop (declares : List UInt8 → Bool)

/-- What the rest of an accepted loop does to the variables: it adds those that it declares, without the flag. -/
def Scope.afterRest (scope : Scope) (declares : List UInt8 → Bool) : Scope :=
  fun x => if scope x = none ∧ declares x then some false else scope x

/-- `current_loop_analysis_state` when the statement is analysed first. -/
def Place.first : Place → LoopState
  | .outside => .none
  | .loop _ => .analyze

/-- All of the analysis of a statement. -/
def analyze (q : QSort) (others : LoopState → Arg → Mode → Bool) (place : Place) (globals : Scope) (modes : List Mode) (args : List Written)
    (scope : Scope) : Except Stop (Scope × List (Arg × Bool)) :=
  match declareOutCallStmt q others place.first globals modes (args.map fun arg => (arg, false)) scope with
  | .error stop => .error stop
  | .ok (after, args) =>
    match place with
    | .outside => .ok (after, args)
    | .loop declares =>
      declareOutCallStmt q others .reanalyze globals modes (args.map fun arg => (.arg arg.1, arg.2)) (after.afterRest declares)

/-- The loop of `cg_declare_out_call_stmt`: the names that are declared. -/
def declarations : List (Arg × Bool) → List Name
  | [] => []
  | (.id name .., true) :: args => name :: declarations args
  | _ :: args => declarations args

end CgSql.OutArgs
