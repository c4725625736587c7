import CgSql.SqlTokens

/-!
# How SQL text is put together

`gen_printf`, `gen_literal` and the buffers of `gen_sql.c`: every line that `gen_printf` starts is indented, literals go around it, the
operand of a unary minus is printed to a buffer of its own first, and the callbacks of `cg_c.c` cut the text into fragments where the body
of a shared fragment stands.
-/

namespace CgSql

namespace GenPrintf

open Byte

/-! ## The tokens of a text -/

/-- Where a reader of SQL is: between tokens, in one with quotes, or behind the quote that ends a string literal if it is not doubled. -/
inductive Mode
  | plain
  | quoted (kind : Quoted) (text : Bytes)
  | closing (text : Bytes)
  deriving DecidableEq

namespace Mode

/-- A character between tokens: a token of its own, unless it is white or a quote. -/
def stepPlain (c : Byte) : List SqlToken × Mode :=
  if isWhite c then ([], plain)
  else
    match Quoted.opened c with
    | some kind => ([], quoted kind [c])
    | none => ([⟨none, [c]⟩], plain)

def step : Mode → Byte → List SqlToken × Mode
  | plain, c => stepPlain c
  | quoted kind text, c =>
    if c = kind.close then
      if kind = .string then ([], closing (text ++ [c])) else ([⟨some kind, text ++ [c]⟩], plain)
    else ([], quoted kind (text ++ [c]))
  | closing text, c =>
    if c = squote then ([], quoted .string (text ++ [c]))
    else (⟨some .string, text⟩ :: (stepPlain c).1, (stepPlain c).2)

/-- The token that the end of the text ends. -/
def finish : Mode → List SqlToken
  | plain => []
  | quoted kind text => [⟨some kind, text⟩]
  | closing text => [⟨some .string, text⟩]

/-- The mode, with literals taken as ended by every quote. -/
def state : Mode → SqlState
  | plain => .plain
  | quoted kind _ => kind.state
  | closing _ => .plain

/-- The tokens that end in a text, and the mode behind it. -/
def scan : Mode → Bytes → List SqlToken × Mode
  | m, [] => ([], m)
  | m, c :: cs => ((m.step c).1 ++ (scan (m.step c).2 cs).1, (scan (m.step c).2 cs).2)

/-- The tokens of the rest of a text. -/
def tokens (m : Mode) (text : Bytes) : List SqlToken := (m.scan text).1 ++ (m.scan text).2.finish

end Mode

/-- The tokens of a text: its string literals and quoted names byte for byte, and all other characters but white space. -/
def tokensOf (text : Bytes) : List SqlToken := Mode.plain.tokens text

/-- Every newline is outside of literals and quoted names. -/
def NoQuotedNewline (st : SqlState) : Bytes → Bool
  | [] => true
  | c :: cs => (c ≠ 10 || st = .plain) && NoQuotedNewline (st.next c) cs

/-- What `gen_printf` is called with: words, operators and names. It starts with no quote, and its quoted names are complete and have no
newline. -/
structure Words where
  bytes : Bytes
  head : ∃ c cs, bytes = c :: cs ∧ c ≠ squote
  closed : (Mode.plain.scan bytes).2 = .plain
  lines : NoQuotedNewline .plain bytes = true

/-- The lexeme of a string literal, with its quotes. -/
structure Literal where
  bytes : Bytes
  whole : Mode.plain.scan bytes = ([], .closing bytes)

/-! ## Printing -/

/-- The output: the buffer that `gen_output` points to, `pending_indent` and `gen_indent`, the fragments so far (`shared_fragment_strings`),
and the variables that were captured. `history` records the fragments at each call of `cg_emit_one_frag`, and `lost` is for a statement whose
buffers were taken by another one that was generated meanwhile. -/
structure State where
  out : Bytes
  pending : Nat
  indent : Nat
  fragments : List Bytes
  vars : List String
  history : List (List Bytes)
  lost : Bool

/-- The loop of `gen_printf`: what is printed, and `pending_indent` behind it. -/
def indented (indent : Nat) : Nat → Bytes → Bytes × Nat
  | pending, [] => ([], pending)
  | pending, c :: cs =>
    if c = 10 then (c :: (indented indent indent cs).1, (indented indent indent cs).2)
    else (List.replicate pending 32 ++ c :: (indented indent 0 cs).1, (indented indent 0 cs).2)

/-- `gen_printf` of a text. -/
def genPrintf (text : Bytes) (s : State) : State :=
  { s with out := s.out ++ (indented s.indent s.pending text).1, pending := (indented s.indent s.pending text).2 }

/-- `gen_literal`. -/
def genLiteral (literal : Bytes) (s : State) : State :=
  { s with out := s.out ++ (List.replicate s.pending 32 ++ literal), pending := 0 }

/-- What `pending_indent` is behind `GEN_BEGIN_INDENT`: the indentation, or what is assigned to it then: 0 or what it was. What
`gen_select_core` (1) and `gen_with_prefix` (2 less) assign is left out. -/
inductive Lead
  | indent
  | zero
  | saved

/-- `GEN_BEGIN_INDENT`, and the assignment of `pending_indent` that may follow. -/
def beginIndent (level : Nat) (lead : Lead) (s : State) : State :=
  { s with
    indent := s.indent + level
    pending :=
      match lead with
      | .indent => s.indent + level
      | .zero => 0
      | .saved => s.pending }

/-- `GEN_END_INDENT`, with the indentation that was saved. -/
def endIndent (saved : Nat) (s : State) : State := { s with indent := saved, pending := min s.pending saved }

/-- `cg_emit_one_frag` of the buffer that is being printed to. -/
def cgEmitOneFrag (s : State) : State :=
  let fragments := if s.out = [] then s.fragments else s.fragments ++ [s.out]
  { s with out := [], fragments := fragments, history := s.history ++ [fragments] }

/-- `cg_emit_one_frag` of a buffer with a text. -/
def cgEmitWrapper (text : Bytes) (s : State) : State :=
  let fragments := s.fragments ++ [text]
  { s with fragments := fragments, history := s.history ++ [fragments] }

/-- `cg_fragment_stmt`. -/
def cgFragmentStmt (genOneStmt : State → State) (s : State) : State := cgEmitOneFrag (genOneStmt s)

/-- The evaluation of a condition. A nested select in it is generated with the same `gen_output`, callbacks and `shared_fragment_strings`
(`cg_bound_sql_statement`), which are saved around arguments only. -/
def evalCondition (selects : Bool) (s : State) : State := { s with lost := s.lost || selects }

/-- `cg_fragment_cond_action`. -/
def cgFragmentCondAction (selects : Bool) (genOneStmt : State → State) (s : State) : State := cgFragmentStmt genOneStmt (evalCondition selects s)

/-- `(`. -/
def lparen : Byte := 40

/-- `)`. -/
def rparen : Byte := 41

/-- ` FROM (SELECT `. -/
def fromSelect : Bytes := [32, 70, 82, 79, 77, 32, 40, 83, 69, 76, 69, 67, 84, 32]

/-- `cg_inline_func`. -/
def cgInlineFunc (stmt : State → State) (args : Option (State → State)) (s : State) : State :=
  let s := cgEmitOneFrag s
  let s := cgFragmentStmt stmt (genPrintf [lparen] s)
  let s :=
    match args with
    | some args => genPrintf [rparen] (args (genPrintf fromSelect s))
    | none => s
  cgEmitOneFrag (genPrintf [rparen] s)

/-- `cg_call_in_cte`, where the body of the fragment is one statement, or those of the branches of an `IF`. -/
def cgCallInCte (isNestedSelect : Bool) (body : State → State) (s : State) : State :=
  let s := cgEmitOneFrag s
  if isNestedSelect then cgEmitWrapper [rparen] (cgFragmentStmt body (cgEmitWrapper [lparen] s)) else cgFragmentStmt body s

/-- `-`. -/
def minusSign : Byte := 45

/-- `gen_uminus`. -/
def genUminus (parens : Bool) (operand : State → State) (s : State) : State :=
  let s := if parens then genPrintf [lparen] s else s
  let s := genPrintf [minusSign] s
  let saved := s.out
  let s := operand { s with out := [] }
  let tmp := s.out
  let s := { s with out := saved }
  let s := if tmp.head? = some minusSign then genPrintf [32] s else s
  let s := genPrintf tmp s
  if parens then genPrintf [rparen] s else s

/-! ## Trees -/

/-- A tree of SQL, by what the `gen_` functions print for its nodes around and between their children. -/
inductive Tree
  | words (t : Words)
  | str (l : Literal)
  /-- A variable that is bound: `cg_capture_variables`. -/
  | bound (name : String)
  | before (t : Words) (x : Tree)
  | after (x : Tree) (t : Words)
  | cat (l : Tree) (between : Words) (r : Tree)
  | block (level : Nat) (lead : Lead) (x : Tree)
  | uminus (parens : Bool) (x : Tree)
  /-- A call of an inline function: the select of its body, and the arguments with their names where it has any. -/
  | inlineFunc (stmt : Tree)
  | inlineFuncWith (stmt args : Tree)
  | callInCte (isNestedSelect : Bool) (body : Tree)
  /-- The statements of the branches of an `IF` in the body of a fragment, and whether the condition of the first has a nested select. -/
  | branches (selects : Bool) (first rest : Tree)

/-- `?`. -/
def mark : Byte := 63

/-- Generating the text of a tree. -/
def gen : Tree → State → State
  | .words t, s => genPrintf t.bytes s
  | .str l, s => genLiteral l.bytes s
  | .bound name, s => genPrintf [mark] { s with vars := s.vars ++ [name] }
  | .before t x, s => gen x (genPrintf t.bytes s)
  | .after x t, s => genPrintf t.bytes (gen x s)
  | .cat l between r, s => gen r (genPrintf between.bytes (gen l s))
  | .block level lead x, s => endIndent s.indent (gen x (beginIndent level lead s))
  | .uminus parens x, s => genUminus parens (gen x) s
  | .inlineFunc stmt, s => cgInlineFunc (gen stmt) none s
  | .inlineFuncWith stmt args, s => cgInlineFunc (gen stmt) (some (gen args)) s
  | .callInCte isNestedSelect body, s => cgCallInCte isNestedSelect (gen body) s
  | .branches selects first rest, s => gen rest (cgFragmentCondAction selects (gen first) s)

/-! ## What the text should be -/

/-- The tokens of a tree in its order, cut at the boundaries of fragments, with the variables of the marks. `history` records the fragments
at each boundary. -/
structure Order where
  open_ : List SqlToken
  fragments : List (List SqlToken)
  vars : List String
  history : List (List (List SqlToken))

namespace Order

def add (ts : List SqlToken) (o : Order) : Order := { o with open_ := o.open_ ++ ts }

/-- A boundary: the tokens since the last one are a fragment, if there are any. -/
def boundary (o : Order) : Order :=
  let fragments := if o.open_ = [] then o.fragments else o.fragments ++ [o.open_]
  { o with open_ := [], fragments := fragments, history := o.history ++ [fragments] }

/-- A fragment of its own. -/
def fragment (ts : List SqlToken) (o : Order) : Order :=
  { o with fragments := o.fragments ++ [ts], history := o.history ++ [o.fragments ++ [ts]] }

end Order

/-- The token of a character. -/
def char (c : Byte) : SqlToken := ⟨none, [c]⟩

/-- The tokens of a tree in order: a literal is one token. -/
def order : Tree → Order → Order
  | .words t, o => o.add (tokensOf t.bytes)
  | .str l, o => o.add [⟨some .string, l.bytes⟩]
  | .bound name, o => Order.add [char mark] { o with vars := o.vars ++ [name] }
  | .before t x, o => order x (o.add (tokensOf t.bytes))
  | .after x t, o => (order x o).add (tokensOf t.bytes)
  | .cat l between r, o => order r ((order l o).add (tokensOf between.bytes))
  | .block _ _ x, o => order x o
  | .uminus parens x, o =>
    let o := order x ((o.add (if parens then [char lparen] else [])).add [char minusSign])
    o.add (if parens then [char rparen] else [])
  | .inlineFunc stmt, o => ((order stmt (o.boundary.add [char lparen])).boundary.add [char rparen]).boundary
  | .inlineFuncWith stmt args, o =>
    let o := (order stmt (o.boundary.add [char lparen])).boundary
    (((order args (o.add (tokensOf fromSelect))).add [char rparen]).add [char rparen]).boundary
  | .callInCte isNestedSelect body, o =>
    if isNestedSelect then (order body (o.boundary.fragment [char lparen])).boundary.fragment [char rparen]
    else (order body o.boundary).boundary
  | .branches _ first rest, o => order rest (order first o).boundary

/-- The fragments that are not blank. -/
def tokensOfAll (fragments : List Bytes) : List (List SqlToken) := (fragments.map tokensOf).filter (· ≠ [])

/-- Generated at an indentation, the text has the tokens of the tree in their order, with every literal byte for byte; boundaries are where
the tree has them, with what is before each of them in the fragments so far; the variables are in the order of the marks; and no buffer is lost. -/
def Survives (indent pending : Nat) (t : Tree) : Prop :=
  let s := gen t { out := [], pending := pending, indent := indent, fragments := [], vars := [], history := [], lost := false }
  let o := order t { open_ := [], fragments := [], vars := [], history := [] }
  tokensOfAll s.fragments = o.fragments ∧ tokensOf s.out = o.open_ ∧ s.vars = o.vars ∧ s.history.map tokensOfAll = o.history ∧
    s.lost = false

/-- The tree has no call of a fragment. -/
def Tree.fragmentFree : Tree → Bool
  | words _ | str _ | bound _ => true
  | before _ x | after x _ | block _ _ x | uminus _ x => x.fragmentFree
  | cat l _ r => l.fragmentFree && r.fragmentFree
  | inlineFunc _ | inlineFuncWith _ _ | callInCte _ _ | branches _ _ _ => false

/-- No literal of the tree has a newline. -/
def Tree.newlineFree : Tree → Bool
  | words _ | bound _ => true
  | str l => 10 ∉ l.bytes
  | before _ x | after x _ | block _ _ x | uminus _ x | inlineFunc x | callInCte _ x => x.newlineFree
  | cat l _ r | inlineFuncWith l r | branches _ l r => l.newlineFree && r.newlineFree

/-- No condition of a fragment has a nested select. -/
def Tree.selectFree : Tree → Bool
  | words _ | str _ | bound _ => true
  | before _ x | after x _ | block _ _ x | uminus _ x | inlineFunc x | callInCte _ x => x.selectFree
  | cat l _ r | inlineFuncWith l r => l.selectFree && r.selectFree
  | branches selects l r => !selects && l.selectFree && r.selectFree

/-- The operands of the unary minuses have no calls of fragments, and at an indentation they have no newlines in literals. -/
def Safe : Nat → Tree → Prop
  | _, .words _ | _, .str _ | _, .bound _ => True
  | i, .before _ x | i, .after x _ | i, .inlineFunc x | i, .callInCte _ x => Safe i x
  | i, .cat l _ r | i, .inlineFuncWith l r | i, .branches _ l r => Safe i l ∧ Safe i r
  | i, .block level _ x => Safe (i + level) x
  | i, .uminus _ x => x.fragmentFree = true ∧ (0 < i → x.newlineFree = true) ∧ Safe i x

end GenPrintf

end CgSql
