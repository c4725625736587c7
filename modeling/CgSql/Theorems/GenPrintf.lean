import CgSql.Lemmas.GenPrintf

/-!
# What survives the buffers

The text that is generated has the tokens of the tree exactly when no operand of a unary minus has a call of a fragment, and none at an
indentation has a newline in a literal. The characters that are not white tell, at each boundary, what is left behind in a buffer; the
characters of the literals tell what was added to them.
-/

namespace CgSql

namespace GenPrintf

open Byte QuoteAux TokenAux ScanAux

namespace GenAux

/-! ## What has been printed -/

/-- The characters of fragments that are not white. -/
def solidFragments (fragments : List Bytes) : Nat := (fragments.map solid).sum

/-- A count of the tokens of fragments. -/
def totalAll (μ : SqlToken → Nat) (fragments : List (List SqlToken)) : Nat := (fragments.map (total μ)).sum

/-- The characters that have been printed, but for those that a buffer holds back. -/
def printed (s : State) : Nat := solidFragments s.fragments + solid s.out

/-- The characters of a token that are not white. -/
def solidText (t : SqlToken) : Nat := solid t.text

def ordered (μ : SqlToken → Nat) (o : Order) : Nat := totalAll μ o.fragments + total μ o.open_

/-- The quoted characters that have been printed. -/
def printedQuoted (s : State) : Nat := (s.fragments.map countQuoted).sum + countQuoted s.out

/-- The tokens of a text have its solid characters. -/
theorem total_tokensOf (text : Bytes) : total solidText (tokensOf text) = solid text := solidAll_tokensOf text

/-- Tokens that are added count. -/
@[simp] theorem ordered_add (μ : SqlToken → Nat) (ts : List SqlToken) (o : Order) : ordered μ (o.add ts) = ordered μ o + total μ ts := by
  simp [ordered, Order.add, total_append, Nat.add_assoc]

/-- A boundary moves tokens only. -/
@[simp] theorem ordered_boundary (μ : SqlToken → Nat) (o : Order) : ordered μ o.boundary = ordered μ o := by
  unfold ordered Order.boundary
  split
  next h => rw [h]
  next => simp [totalAll, total]

/-- A fragment of its own counts. -/
@[simp] theorem ordered_fragment (μ : SqlToken → Nat) (ts : List SqlToken) (o : Order) :
    ordered μ (o.fragment ts) = ordered μ o + total μ ts := by
  simp only [ordered, Order.fragment, totalAll, List.map_append, List.map_singleton, List.sum_append, List.sum_singleton]
  omega

/-- Emitting a fragment moves characters only. -/
@[simp] theorem printed_emit (s : State) : printed (cgEmitOneFrag s) = printed s := by
  unfold printed cgEmitOneFrag
  by_cases h : s.out = [] <;> simp [h, solidFragments, solid]

/-- Also those in literals. -/
@[simp] theorem printedQuoted_emit (s : State) : printedQuoted (cgEmitOneFrag s) = printedQuoted s := by
  unfold printedQuoted cgEmitOneFrag
  by_cases h : s.out = [] <;> simp [h, countQuoted, along]

/-- Fewer characters in the fragments so far. -/
def Behind (h : List Bytes) (k : List (List SqlToken)) : Prop := solidFragments h < totalAll solidText k

/-- What a part of the generator does beside a part of the order: it keeps to the indentation, ends between tokens, prints the same
characters, and with quoted ones at least, and reaches as many boundaries, all of them behind if it starts behind. -/
structure Step (f : State → State) (g : Order → Order) : Prop where
  indent : ∀ s, (f s).indent = s.indent
  rest : ∀ s, stateAfter .plain s.out = .plain → stateAfter .plain (f s).out = .plain
  printed : ∀ s o, printed (f s) + ordered solidText o = printed s + ordered solidText (g o)
  quoted : ∀ s o, stateAfter .plain s.out = .plain → printedQuoted s + ordered quotedLength (g o) ≤ printedQuoted (f s) + ordered quotedLength o
  history : ∀ s o, ∃ H K, (f s).history = s.history ++ H ∧ (g o).history = o.history ++ K ∧ H.length = K.length ∧
    (GenAux.printed s < ordered solidText o → List.Forall₂ Behind H K)

variable {f : State → State} {g : Order → Order}

/-- Steps one after the other. -/
theorem Step.comp {f' : State → State} {g' : Order → Order} (h' : Step f' g') (h : Step f g) : Step (fun s => f' (f s)) (fun o => g' (g o)) where
  indent s := (h'.indent _).trans (h.indent s)
  rest s hs := h'.rest _ (h.rest s hs)
  printed s o := by
    have h₁ := h.printed s o
    have h₂ := h'.printed (f s) (g o)
    omega
  quoted s o hs := by
    have h₁ := h.quoted s o hs
    have h₂ := h'.quoted (f s) (g o) (h.rest s hs)
    omega
  history s o := by
    obtain ⟨H, K, hH, hK, hlen, hbehind⟩ := h.history s o
    obtain ⟨H', K', hH', hK', hlen', hbehind'⟩ := h'.history (f s) (g o)
    refine ⟨H ++ H', K ++ K', by rw [hH', hH, List.append_assoc], by rw [hK', hK, List.append_assoc], by simp [hlen, hlen'], ?_⟩
    intro hlt
    have hprinted := h.printed s o
    exact List.rel_append (hbehind hlt) (hbehind' (by omega))

variable {s : State} {o : Order} {t : Tree}

/-- A part that reaches no boundary. -/
theorem no_history {s' : State} {o' : Order} (hf : s'.history = s.history) (hg : o'.history = o.history) :
    ∃ H K, s'.history = s.history ++ H ∧ o'.history = o.history ++ K ∧ H.length = K.length ∧
      (printed s < ordered solidText o → List.Forall₂ Behind H K) :=
  ⟨[], [], by rw [hf, List.append_nil], by rw [hg, List.append_nil], rfl, fun _ => .nil⟩

/-! ## The parts -/

/-- The state that a scan ends in. -/
theorem stateAfter_scan (text : Bytes) : (Mode.plain.scan text).2.state = stateAfter .plain text := state_scan .plain text

/-- A text outside of literals splits the count. -/
theorem countQuoted_append {a : Bytes} (ha : stateAfter .plain a = .plain) (b : Bytes) :
    countQuoted (a ++ b) = countQuoted a + countQuoted b := by
  rw [countQuoted, along_append, ha]
  rfl

/-- Printing a text that ends outside of literals. -/
theorem step_printf (text : Bytes) (h : stateAfter .plain text = .plain) : Step (genPrintf text) (Order.add (tokensOf text)) where
  indent _ := rfl
  rest s hs := by
    show stateAfter .plain (s.out ++ _) = _
    rw [stateAfter_append, hs, stateAfter_indented, h]
  printed s o := by
    simp only [ordered_add, total_tokensOf, printed, genPrintf, solid_append, solid_indented]
    omega
  quoted s o hs := by
    have hle := along_indented_le s.indent s.pending .plain text
    have htokens := quoted_tokensOf text
    simp only [ordered_add, printedQuoted, genPrintf, countQuoted_append hs]
    simp only [countQuoted] at htokens ⊢
    omega
  history _ _ := no_history rfl rfl

theorem step_lparen : Step (genPrintf [lparen]) (Order.add [char lparen]) := step_printf [lparen] rfl

theorem step_rparen : Step (genPrintf [rparen]) (Order.add [char rparen]) := step_printf [rparen] rfl

theorem step_minus : Step (genPrintf [minusSign]) (Order.add [char minusSign]) := step_printf [minusSign] rfl

theorem step_mark : Step (genPrintf [mark]) (Order.add [char mark]) := step_printf [mark] rfl

theorem step_fromSelect : Step (genPrintf fromSelect) (Order.add (tokensOf fromSelect)) := step_printf fromSelect rfl

/-- A literal is closed. -/
theorem stateAfter_literal (l : Literal) : stateAfter .plain l.bytes = .plain := by
  rw [← stateAfter_scan, l.whole]
  rfl

/-- A literal is one token. -/
theorem tokensOf_literal (l : Literal) : tokensOf l.bytes = [⟨some .string, l.bytes⟩] := by
  rw [tokensOf, Mode.tokens, l.whole]
  rfl

/-- Printing a literal. -/
theorem step_literal (l : Literal) : Step (genLiteral l.bytes) (Order.add [⟨some .string, l.bytes⟩]) where
  indent _ := rfl
  rest s hs := by
    show stateAfter .plain (s.out ++ _) = _
    rw [stateAfter_append, hs, stateAfter_append, stateAfter_spaces, stateAfter_literal]
  printed s o := by
    have htokens := total_tokensOf l.bytes
    rw [tokensOf_literal] at htokens
    simp only [ordered_add, htokens, printed, genLiteral, solid_append, solid_replicate]
    omega
  quoted s o hs := by
    have htokens := quoted_tokensOf l.bytes
    rw [tokensOf_literal] at htokens
    have hspaces := along_spaces .plain s.pending
    simp only [ordered_add, htokens, printedQuoted, genLiteral, countQuoted_append hs, countQuoted_append (stateAfter_spaces .plain s.pending)]
    simp only [countQuoted] at hspaces ⊢
    omega
  history _ _ := no_history rfl rfl

/-- A bound variable. -/
theorem step_variable (name : String) : Step (fun s => { s with vars := s.vars ++ [name] }) (fun o => { o with vars := o.vars ++ [name] }) where
  indent _ := rfl
  rest _ hs := hs
  printed _ _ := rfl
  quoted _ _ _ := Nat.le_refl _
  history _ _ := no_history rfl rfl

/-- At a boundary of a run that is behind, the fragments are. -/
theorem behind_of_lt (hlt : printed s < ordered solidText o) : Behind (cgEmitOneFrag s).fragments o.boundary.fragments := by
  have hs := printed_emit s
  have ho := ordered_boundary solidText o
  unfold printed ordered at *
  have hout : solid (cgEmitOneFrag s).out = 0 := rfl
  have hopen : total solidText o.boundary.open_ = 0 := rfl
  unfold Behind
  omega

/-- The end of a fragment. -/
theorem step_emit : Step cgEmitOneFrag Order.boundary where
  indent _ := rfl
  rest _ _ := rfl
  printed s o := by rw [printed_emit, ordered_boundary]
  quoted s o _ := by rw [printedQuoted_emit, ordered_boundary]
  history s o := ⟨[(cgEmitOneFrag s).fragments], [o.boundary.fragments], rfl, rfl, rfl, fun hlt => .cons (behind_of_lt hlt) .nil⟩

/-- A fragment of its own, at a boundary. -/
theorem step_wrapper (text : Bytes) : Step (fun s => cgEmitWrapper text (cgEmitOneFrag s)) (fun o => o.boundary.fragment (tokensOf text)) where
  indent _ := rfl
  rest _ _ := rfl
  printed s o := by
    have hs := printed_emit s
    simp only [printed, cgEmitWrapper, solidFragments, List.map_append, List.map_singleton, List.sum_append, List.sum_singleton] at hs ⊢
    rw [ordered_fragment, ordered_boundary, total_tokensOf]
    omega
  quoted s o _ := by
    have hs := printedQuoted_emit s
    have htokens := quoted_tokensOf text
    simp only [printedQuoted, cgEmitWrapper, List.map_append, List.map_singleton, List.sum_append, List.sum_singleton] at hs ⊢
    rw [ordered_fragment, ordered_boundary, htokens]
    omega
  history s o := by
    refine ⟨[(cgEmitOneFrag s).fragments, (cgEmitOneFrag s).fragments ++ [text]],
      [o.boundary.fragments, o.boundary.fragments ++ [tokensOf text]], by simp [cgEmitWrapper, cgEmitOneFrag],
      by simp [Order.fragment, Order.boundary], rfl, fun hlt => ?_⟩
    have hbehind := behind_of_lt hlt
    refine .cons hbehind (.cons ?_ .nil)
    unfold Behind solidFragments totalAll at hbehind ⊢
    simpa [total_tokensOf] using hbehind

/-- An indented block. -/
theorem step_block (level : Nat) (lead : Lead) (h : Step f g) : Step (fun s => endIndent s.indent (f (beginIndent level lead s))) g where
  indent _ := rfl
  rest s hs := h.rest (beginIndent level lead s) hs
  printed s o := h.printed (beginIndent level lead s) o
  quoted s o hs := h.quoted (beginIndent level lead s) o hs
  history s o := h.history (beginIndent level lead s) o

/-- What is printed before the operand of a unary minus. -/
def openMinus (parens : Bool) (s : State) : State := genPrintf [minusSign] (if parens then genPrintf [lparen] s else s)

/-- The output with an empty buffer. -/
def emptied (s : State) : State := { s with out := [] }

theorem printed_emptied (s : State) : printed s = printed (emptied s) + solid s.out := rfl

theorem printedQuoted_emptied (s : State) : printedQuoted s = printedQuoted (emptied s) + countQuoted s.out := rfl

/-- The operand is printed again from its buffer. -/
def reprint (saved : Bytes) (s : State) : State :=
  genPrintf s.out (if s.out.head? = some minusSign then genPrintf [32] { s with out := saved } else { s with out := saved })

def closeMinus (parens : Bool) (s : State) : State := if parens then genPrintf [rparen] s else s

/-- The unary minus prints its operand anew. -/
theorem genUminus_eq (parens : Bool) (f : State → State) (s : State) : genUminus parens f s =
    closeMinus parens (reprint (openMinus parens s).out (f (emptied (openMinus parens s)))) := rfl

/-- Its sign leaves what was emitted. -/
theorem history_openMinus (parens : Bool) (s : State) : (openMinus parens s).history = s.history := by
  cases parens <;> rfl

/-- So does the text that is printed anew. -/
theorem history_reprint (saved : Bytes) (s : State) : (reprint saved s).history = s.history := by
  unfold reprint
  split <;> rfl

/-- It leaves the fragments. -/
theorem fragments_reprint (saved : Bytes) (s : State) : (reprint saved s).fragments = s.fragments := by
  unfold reprint
  split <;> rfl

/-- What is printed again is behind what was saved and a space at most. -/
theorem out_reprint (saved : Bytes) (s : State) : ∃ spaces pending, (reprint saved s).out =
    saved ++ (List.replicate spaces 32 ++ (indented s.indent pending s.out).1) := by
  unfold reprint
  split
  · refine ⟨s.pending + 1, (indented s.indent s.pending [32]).2, ?_⟩
    show saved ++ (List.replicate s.pending 32 ++ [32]) ++ (indented s.indent _ s.out).1 = _
    rw [← List.replicate_succ', List.append_assoc]
    rfl
  · exact ⟨0, s.pending, rfl⟩

/-- Indentation is outside of literals. -/
theorem countQuoted_spaces (n : Nat) (text : Bytes) : countQuoted (List.replicate n 32 ++ text) = countQuoted text := by
  rw [countQuoted_append (stateAfter_spaces .plain n), countQuoted, along_spaces, if_pos rfl, Nat.zero_add]

/-- What is printed again has at least the quoted characters of the buffer, and more where a newline in a token is indented. -/
theorem countQuoted_reprint {saved : Bytes} (hsaved : stateAfter .plain saved = .plain) (s : State) :
    countQuoted saved + countQuoted s.out ≤ countQuoted (reprint saved s).out ∧
      (0 < s.indent → stateAfter .plain s.out = .plain → NoQuotedNewline .plain s.out = false →
        countQuoted saved + countQuoted s.out < countQuoted (reprint saved s).out) := by
  obtain ⟨spaces, pending, hout⟩ := out_reprint saved s
  rw [hout, countQuoted_append hsaved, countQuoted_spaces]
  exact ⟨Nat.add_le_add_left (along_indented_le ..) _, fun hindent hend hnewline =>
    Nat.add_lt_add_left (along_indented_lt hindent pending hend hnewline) _⟩

/-- Its parenthesis leaves what was emitted. -/
theorem history_closeMinus (parens : Bool) (s : State) : (closeMinus parens s).history = s.history := by
  cases parens <;> rfl

/-- The operand of a unary minus: printed to a buffer, and again from there. -/
theorem step_reprint (h : Step f g) : Step (fun s => reprint s.out (f (emptied s))) g where
  indent s := by
    have hi := h.indent (emptied s)
    unfold reprint
    split <;> exact hi
  rest s hs := by
    obtain ⟨spaces, pending, hout⟩ := out_reprint s.out (f (emptied s))
    rw [hout, stateAfter_append, hs, stateAfter_append, stateAfter_spaces, stateAfter_indented]
    exact h.rest (emptied s) rfl
  printed s o := by
    have hp := h.printed (emptied s) o
    have hs := printed_emptied s
    obtain ⟨spaces, pending, hout⟩ := out_reprint s.out (f (emptied s))
    have hreprint : printed (reprint s.out (f (emptied s))) = printed (f (emptied s)) + solid s.out := by
      simp only [printed, fragments_reprint, hout, solid_append, solid_replicate, solid_indented]
      omega
    omega
  quoted s o hs := by
    have hq := h.quoted (emptied s) o rfl
    have hs' := printedQuoted_emptied s
    have hle := (countQuoted_reprint hs (f (emptied s))).1
    have hreprint : printedQuoted (f (emptied s)) + countQuoted s.out ≤ printedQuoted (reprint s.out (f (emptied s))) := by
      simp only [printedQuoted, fragments_reprint]
      omega
    omega
  history s o := by
    obtain ⟨H, K, hH, hK, hlen, hbehind⟩ := h.history (emptied s) o
    refine ⟨H, K, (history_reprint ..).trans hH, hK, hlen, fun hlt => hbehind ?_⟩
    have hs := printed_emptied s
    omega

@[simp] theorem add_nil (o : Order) : o.add [] = o := by
  simp [Order.add]

theorem step_id : Step id id where
  indent _ := rfl
  rest _ hs := hs
  printed _ _ := rfl
  quoted _ _ _ := Nat.le_refl _
  history _ _ := no_history rfl rfl

/-- The condition of a conditional fragment prints nothing that stays. -/
theorem step_condition (selects : Bool) : Step (evalCondition selects) id where
  indent _ := rfl
  rest _ hs := hs
  printed _ _ := rfl
  quoted _ _ _ := Nat.le_refl _
  history _ _ := no_history rfl rfl

/-- The sign. -/
theorem step_openMinus (parens : Bool) :
    Step (openMinus parens) (fun o => (o.add (if parens then [char lparen] else [])).add [char minusSign]) := by
  cases parens with
  | false =>
    have hid : (fun o : Order => (o.add (if false = true then [char lparen] else [])).add [char minusSign]) =
        fun o => Order.add [char minusSign] (id o) := funext fun o => by simp
    rw [hid]
    exact step_minus.comp step_id
  | true => exact step_minus.comp step_lparen

/-- The closing parenthesis. -/
theorem step_closeMinus (parens : Bool) : Step (closeMinus parens) (Order.add (if parens then [char rparen] else [])) := by
  cases parens with
  | false =>
    have hid : Order.add (if false = true then [char rparen] else []) = id := funext add_nil
    rw [hid]
    exact step_id
  | true => exact step_rparen

/-! ## Trees -/

/-- Words end outside of literals. -/
theorem Words.rest (t : Words) : stateAfter .plain t.bytes = .plain := by
  rw [← stateAfter_scan, t.closed]
  rfl

/-- What the generator does beside the order of a tree. -/
theorem step_gen : ∀ t, Step (gen t) (order t)
  | .words t => step_printf _ (Words.rest t)
  | .str l => step_literal l
  | .bound name => step_mark.comp (step_variable name)
  | .before t x => (step_gen x).comp (step_printf _ (Words.rest t))
  | .after x t => (step_printf _ (Words.rest t)).comp (step_gen x)
  | .cat l between r => (step_gen r).comp ((step_printf _ (Words.rest between)).comp (step_gen l))
  | .block level lead x => step_block level lead (step_gen x)
  | .uminus parens x => (step_closeMinus parens).comp ((step_reprint (step_gen x)).comp (step_openMinus parens))
  | .inlineFunc stmt =>
    step_emit.comp (step_rparen.comp (step_emit.comp ((step_gen stmt).comp (step_lparen.comp step_emit))))
  | .inlineFuncWith stmt args =>
    step_emit.comp (step_rparen.comp (step_rparen.comp ((step_gen args).comp
      (step_fromSelect.comp (step_emit.comp ((step_gen stmt).comp (step_lparen.comp step_emit)))))))
  | .callInCte isNestedSelect body => by
    cases isNestedSelect with
    | false => exact step_emit.comp ((step_gen body).comp step_emit)
    | true => exact (step_wrapper [rparen]).comp ((step_gen body).comp (step_wrapper [lparen]))
  | .branches selects first rest => (step_gen rest).comp (step_emit.comp ((step_gen first).comp (step_condition selects)))

/-- A tree with a fragment reaches a boundary. -/
theorem history_lt (h : t.fragmentFree = false) (s : State) : s.history.length < (gen t s).history.length := by
  have hle (t : Tree) (s : State) : s.history.length ≤ (gen t s).history.length := by
    obtain ⟨H, K, hH, -⟩ := (step_gen t).history s ⟨[], [], [], []⟩
    rw [hH, List.length_append]
    exact Nat.le_add_right _ _
  have hemit (s : State) : (cgEmitOneFrag s).history.length = s.history.length + 1 := by simp [cgEmitOneFrag]
  have hwrapper (text : Bytes) (s : State) : (cgEmitWrapper text s).history.length = s.history.length + 1 := by simp [cgEmitWrapper]
  have hprintf (text : Bytes) (s : State) : (genPrintf text s).history.length = s.history.length := rfl
  induction t generalizing s with
  | words t => cases h
  | str l => cases h
  | bound name => cases h
  | before t x ih => exact ih h (genPrintf t.bytes s)
  | after x t ih => exact ih h s
  | cat l between r ihl ihr =>
    have hl := hle l s
    have hr := hle r (genPrintf between.bytes (gen l s))
    rw [Tree.fragmentFree, Bool.and_eq_false_iff] at h
    rcases h with h | h
    · exact (ihl h s).trans_le hr
    · exact hl.trans_lt (ihr h (genPrintf between.bytes (gen l s)))
  | block level lead x ih => exact ih h (beginIndent level lead s)
  | uminus parens x ih =>
    rw [gen, genUminus_eq, history_closeMinus, history_reprint]
    have hlt := ih h (emptied (openMinus parens s))
    rwa [show (emptied (openMinus parens s)).history = s.history from history_openMinus parens s] at hlt
  | inlineFunc stmt =>
    have := hle stmt (genPrintf [lparen] (cgEmitOneFrag s))
    simp only [gen, cgInlineFunc, cgFragmentStmt, hemit, hprintf] at this ⊢
    omega
  | inlineFuncWith stmt args =>
    have hstmt := hle stmt (genPrintf [lparen] (cgEmitOneFrag s))
    have hargs := hle args (genPrintf fromSelect (cgEmitOneFrag (gen stmt (genPrintf [lparen] (cgEmitOneFrag s)))))
    simp only [gen, cgInlineFunc, cgFragmentStmt, hemit, hprintf] at hstmt hargs ⊢
    omega
  | callInCte isNestedSelect body =>
    unfold gen cgCallInCte cgFragmentStmt
    cases isNestedSelect with
    | false =>
      have := hle body (cgEmitOneFrag s)
      simp only [Bool.false_eq_true, if_false, hemit] at this ⊢
      omega
    | true =>
      have := hle body (cgEmitWrapper [lparen] (cgEmitOneFrag s))
      simp only [if_true, hemit, hwrapper] at this ⊢
      omega
  | branches selects first rest =>
    have hfirst := hle first (evalCondition selects s)
    have hrest := hle rest (cgEmitOneFrag (gen first (evalCondition selects s)))
    rw [show (evalCondition selects s).history = s.history from rfl] at hfirst
    simp only [gen, cgFragmentCondAction, cgFragmentStmt, hemit] at hrest ⊢
    omega

/-! ## Trees without fragments -/

/-- The tokens of a tree that has no fragments. -/
def treeTokens : Tree → List SqlToken
  | .words t => tokensOf t.bytes
  | .str l => [⟨some .string, l.bytes⟩]
  | .bound _ => [char mark]
  | .before t x => tokensOf t.bytes ++ treeTokens x
  | .after x t => treeTokens x ++ tokensOf t.bytes
  | .cat l between r => treeTokens l ++ (tokensOf between.bytes ++ treeTokens r)
  | .block _ _ x => treeTokens x
  | .uminus parens x =>
    (if parens then [char lparen] else []) ++ ([char minusSign] ++ (treeTokens x ++ if parens then [char rparen] else []))
  | _ => []

def treeVars : Tree → List String
  | .bound name => [name]
  | .before _ x | .after x _ | .block _ _ x | .uminus _ x => treeVars x
  | .cat l _ r => treeVars l ++ treeVars r
  | _ => []

/-- Without fragments only open tokens and variables are added. -/
theorem order_of_fragmentFree (h : t.fragmentFree = true) (o : Order) :
    order t o = { o with open_ := o.open_ ++ treeTokens t, vars := o.vars ++ treeVars t } := by
  induction t generalizing o with
  | inlineFunc | inlineFuncWith | callInCte | branches => cases h
  | cat l between r ihl ihr =>
    rw [Tree.fragmentFree, Bool.and_eq_true] at h
    simp [order, ihl h.1, ihr h.2, treeTokens, treeVars, Order.add]
  | words | str | bound => simp [order, treeTokens, treeVars, Order.add]
  | before t x ih => simp [order, ih h, treeTokens, treeVars, Order.add]
  | after x t ih => simp [order, ih h, treeTokens, treeVars, Order.add]
  | block level lead x ih => simp [order, ih h, treeTokens, treeVars]
  | uminus parens x ih => simp [order, ih h, treeTokens, treeVars, Order.add]

/-- The literals of a tree without fragments have no newlines exactly when its quoted tokens have none. -/
theorem inner_treeTokens (h : t.fragmentFree = true) : total TokenAux.inner (treeTokens t) = 0 ↔ t.newlineFree = true := by
  have hwords (t : Words) : total TokenAux.inner (tokensOf t.bytes) = 0 := (inner_tokensOf _).mpr t.lines
  have hchar (c : Byte) (ts : List SqlToken) : total TokenAux.inner (char c :: ts) = total TokenAux.inner ts := by simp [total, char, TokenAux.inner]
  have hnil : total TokenAux.inner [] = 0 := rfl
  induction t with
  | inlineFunc | inlineFuncWith | callInCte | branches => cases h
  | words t => simp [treeTokens, hwords, Tree.newlineFree]
  | str l => simp [treeTokens, total, TokenAux.inner, Tree.newlineFree, List.count_eq_zero]
  | bound name => simp [treeTokens, hchar, hnil, Tree.newlineFree]
  | before t x ih => simp [treeTokens, total_append, hwords, Tree.newlineFree, ih h]
  | after x t ih => simp [treeTokens, total_append, hwords, Tree.newlineFree, ih h]
  | cat l between r ihl ihr =>
    rw [Tree.fragmentFree, Bool.and_eq_true] at h
    simp [treeTokens, total_append, hwords, Tree.newlineFree, ihl h.1, ihr h.2]
  | block level lead x ih => exact ih h
  | uminus parens x ih => cases parens <;> simp [treeTokens, total_append, hchar, hnil, Tree.newlineFree, ih h]

/-! ## Safe trees -/

/-- The output is that of the order. -/
structure Rel (s : State) (o : Order) : Prop where
  fragments : tokensOfAll s.fragments = o.fragments
  out : tokensOf s.out = o.open_
  vars : s.vars = o.vars
  history : s.history.map tokensOfAll = o.history

/-- The output ends between tokens. -/
def Plain (s : State) : Prop := (Mode.plain.scan s.out).2 = .plain

/-- Nothing has been printed. -/
theorem Plain.rest (h : Plain s) : stateAfter .plain s.out = .plain := by
  rw [← stateAfter_scan, h]
  rfl

/-- Words keep the relation. -/
theorem rel_words (t : Words) (hrest : stateAfter .plain s.out = .plain) (h : Rel s o) :
    Rel (genPrintf t.bytes s) (o.add (tokensOf t.bytes)) ∧ Plain (genPrintf t.bytes s) := by
  obtain ⟨c, cs, hbytes, hc⟩ := t.head
  obtain ⟨c', cs', hprinted, hc'⟩ := head_indented hc s.indent s.pending cs
  have hscan : Mode.plain.scan (c' :: cs') = Mode.plain.scan t.bytes := by
    rw [← hprinted, ← hbytes]
    exact scan_indented s.indent (fun _ => rfl) t.lines
  have happend := tokensOf_append (a := s.out) (by rw [Resting, stateAfter_scan, hrest]) hc' cs'
  have hout : (genPrintf t.bytes s).out = s.out ++ c' :: cs' := by rw [← hprinted, ← hbytes]; rfl
  refine ⟨⟨h.fragments, ?_, h.vars, h.history⟩, ?_⟩
  · rw [hout, happend.1, h.out]
    show _ = o.open_ ++ tokensOf t.bytes
    rw [tokensOf, Mode.tokens, hscan]
    rfl
  · rw [Plain, hout, happend.2, hscan, t.closed]

/-- So do literals. -/
theorem rel_literal (l : Literal) (hplain : Plain s) (h : Rel s o) : Rel (genLiteral l.bytes s) (o.add [⟨some .string, l.bytes⟩]) := by
  refine ⟨h.fragments, ?_, h.vars, h.history⟩
  show tokensOf (s.out ++ (List.replicate s.pending 32 ++ l.bytes)) = o.open_ ++ [⟨some .string, l.bytes⟩]
  rw [(tokensOf_append_plain hplain _).1, h.out, ← tokensOf_literal, tokensOf, Mode.tokens, scan_spaces]
  rfl

/-- A fragment without tokens is none. -/
theorem tokensOfAll_append (fragments : List Bytes) (text : Bytes) :
    tokensOfAll (fragments ++ [text]) = tokensOfAll fragments ++ if tokensOf text = [] then [] else [tokensOf text] := by
  unfold tokensOfAll
  rw [List.map_append, List.filter_append, List.map_singleton, List.filter_singleton]
  by_cases h : tokensOf text = [] <;> simp [h]

/-- The end of a fragment keeps the relation. -/
theorem rel_emit (h : Rel s o) : Rel (cgEmitOneFrag s) o.boundary ∧ Plain (cgEmitOneFrag s) := by
  have hfragments : tokensOfAll (cgEmitOneFrag s).fragments = o.boundary.fragments := by
    unfold cgEmitOneFrag Order.boundary
    by_cases hout : s.out = []
    · have hopen : o.open_ = [] := by
        rw [← h.out, hout]
        rfl
      simp [hout, hopen, h.fragments]
    · simp only [if_neg hout, tokensOfAll_append, h.out, h.fragments]
      split <;> simp
  refine ⟨⟨hfragments, rfl, h.vars, ?_⟩, rfl⟩
  show (s.history ++ [(cgEmitOneFrag s).fragments]).map tokensOfAll = o.history ++ [o.boundary.fragments]
  rw [List.map_append, h.history, List.map_singleton, hfragments]

/-- So does a fragment of its own. -/
theorem rel_wrapper (text : Bytes) (htext : tokensOf text ≠ []) (hplain : Plain s) (h : Rel s o) :
    Rel (cgEmitWrapper text s) (o.fragment (tokensOf text)) ∧ Plain (cgEmitWrapper text s) := by
  have hfragments : tokensOfAll (s.fragments ++ [text]) = o.fragments ++ [tokensOf text] := by
    rw [tokensOfAll_append, if_neg htext, h.fragments]
  refine ⟨⟨hfragments, h.out, h.vars, ?_⟩, hplain⟩
  show (s.history ++ [s.fragments ++ [text]]).map tokensOfAll = o.history ++ [o.fragments ++ [tokensOf text]]
  rw [List.map_append, h.history, List.map_singleton, hfragments]

/-- The words that the generator has itself. -/
def lparenWords : Words := ⟨[lparen], ⟨_, _, rfl, by decide⟩, by decide, by decide⟩

def rparenWords : Words := ⟨[rparen], ⟨_, _, rfl, by decide⟩, by decide, by decide⟩

def minusWords : Words := ⟨[minusSign], ⟨_, _, rfl, by decide⟩, by decide, by decide⟩

def markWords : Words := ⟨[mark], ⟨_, _, rfl, by decide⟩, by decide, by decide⟩

def fromSelectWords : Words := ⟨fromSelect, ⟨_, _, rfl, by decide⟩, by decide, by decide⟩

/-- So does the sign. -/
theorem rel_openMinus (parens : Bool) (hrest : stateAfter .plain s.out = .plain) (h : Rel s o) :
    Rel (openMinus parens s) ((o.add (if parens then [char lparen] else [])).add [char minusSign]) ∧ Plain (openMinus parens s) := by
  cases parens with
  | false =>
    rw [if_neg (by simp), add_nil]
    exact rel_words minusWords hrest h
  | true =>
    have hopen := rel_words lparenWords hrest h
    exact rel_words minusWords hopen.2.rest hopen.1

/-- So does the closing parenthesis. -/
theorem rel_closeMinus (parens : Bool) (hrest : stateAfter .plain s.out = .plain) (h : Rel s o) :
    Rel (closeMinus parens s) (o.add (if parens then [char rparen] else [])) := by
  cases parens with
  | false =>
    rw [if_neg (by simp), add_nil]
    exact h
  | true => exact (rel_words rparenWords hrest h).1

/-- Without indentation, spaces are added in front at most. -/
theorem scan_indented_zero (pending : Nat) (text : Bytes) : Mode.plain.scan (indented 0 pending text).1 = Mode.plain.scan text := by
  cases text with
  | nil => rfl
  | cons c cs =>
    by_cases hc : c = 10
    · rw [hc, indented_newline, indented_zero]
    · rw [indented_other hc, scan_spaces, indented_zero]

/-- What is printed again has the tokens of the buffer. -/
theorem tokensOf_reprint {saved : Bytes} (hsaved : (Mode.plain.scan saved).2 = .plain) (h : 0 < s.indent → NoQuotedNewline .plain s.out = true) :
    tokensOf (reprint saved s).out = tokensOf saved ++ tokensOf s.out := by
  obtain ⟨spaces, pending, hout⟩ := out_reprint saved s
  have hscan : Mode.plain.scan (indented s.indent pending s.out).1 = Mode.plain.scan s.out := by
    rcases Nat.eq_zero_or_pos s.indent with hzero | hpos
    · rw [hzero, scan_indented_zero]
    · exact scan_indented s.indent (fun _ => rfl) (h hpos)
  rw [hout, (tokensOf_append_plain hsaved _).1, tokensOf, tokensOf, tokensOf, Mode.tokens, Mode.tokens, Mode.tokens, scan_spaces, hscan]

/-- Printing anew binds nothing. -/
theorem reprint_vars (saved : Bytes) (s : State) : (reprint saved s).vars = s.vars := by
  unfold reprint
  split <;> rfl

/-- A step ends outside of literals. -/
theorem Step.rest_of_plain (h : Step f g) (hs : Plain s) : stateAfter .plain (f s).out = .plain := h.rest s hs.rest

/-- A tree without fragments, printed to a buffer. -/
theorem rel_buffer (h : Rel s o) : Rel (emptied s) { o with open_ := [] } :=
  ⟨h.fragments, rfl, h.vars, h.history⟩

/-- The text of a safe tree has the tokens of the tree. -/
theorem gen_rel : ∀ (t : Tree) {s : State} {o : Order}, Safe s.indent t → Plain s → Rel s o → Rel (gen t s) (order t o)
  | .words t, s, o, _, hplain, h => (rel_words t hplain.rest h).1
  | .str l, s, o, _, hplain, h => rel_literal l hplain h
  | .bound name, s, o, _, hplain, h =>
    (rel_words markWords (s := { s with vars := s.vars ++ [name] }) (o := { o with vars := o.vars ++ [name] })
      hplain.rest ⟨h.fragments, h.out, congrArg (· ++ [name]) h.vars, h.history⟩).1
  | .before t x, s, o, hsafe, hplain, h => by
    have ht := rel_words t hplain.rest h
    exact gen_rel x (s := genPrintf t.bytes s) hsafe ht.2 ht.1
  | .after x t, s, o, hsafe, hplain, h => (rel_words t ((step_gen x).rest_of_plain hplain) (gen_rel x hsafe hplain h)).1
  | .cat l between r, s, o, hsafe, hplain, h => by
    have hl := rel_words between ((step_gen l).rest_of_plain hplain) (gen_rel l hsafe.1 hplain h)
    refine gen_rel r (s := genPrintf between.bytes (gen l s)) ?_ hl.2 hl.1
    rw [show (genPrintf between.bytes (gen l s)).indent = s.indent from (step_gen l).indent s]
    exact hsafe.2
  | .block level lead x, s, o, hsafe, hplain, h => by
    have hx := gen_rel x (s := beginIndent level lead s) hsafe hplain ⟨h.fragments, h.out, h.vars, h.history⟩
    exact ⟨hx.fragments, hx.out, hx.vars, hx.history⟩
  | .uminus parens x, s, o, hsafe, hplain, h => by
    obtain ⟨hfree, hlines, hx⟩ := hsafe
    obtain ⟨hopen, hopenPlain⟩ := rel_openMinus parens hplain.rest h
    have hindent : (openMinus parens s).indent = s.indent := by cases parens <;> rfl
    have hbuffer := gen_rel x (s := emptied (openMinus parens s)) (by rw [← hindent] at hx; exact hx) rfl (rel_buffer hopen)
    rw [order_of_fragmentFree hfree] at hbuffer
    have hout : tokensOf (gen x (emptied (openMinus parens s))).out = treeTokens x := hbuffer.out.trans (List.nil_append _)
    have hindentx : (gen x (emptied (openMinus parens s))).indent = s.indent := ((step_gen x).indent _).trans hindent
    have hnewlines : 0 < (gen x (emptied (openMinus parens s))).indent →
        NoQuotedNewline .plain (gen x (emptied (openMinus parens s))).out = true := by
      intro hpos
      rw [← inner_tokensOf, hout, inner_treeTokens hfree]
      exact hlines (hindentx ▸ hpos)
    have hreprint : Rel (reprint (openMinus parens s).out (gen x (emptied (openMinus parens s))))
        (order x ((o.add (if parens then [char lparen] else [])).add [char minusSign])) := by
      rw [order_of_fragmentFree hfree]
      refine ⟨(congrArg tokensOfAll (fragments_reprint ..)).trans hbuffer.fragments, ?_, (reprint_vars ..).trans hbuffer.vars,
        (congrArg (List.map tokensOfAll) (history_reprint ..)).trans hbuffer.history⟩
      rw [tokensOf_reprint hopenPlain hnewlines, hopen.out, hout]
    have hrest : stateAfter .plain (reprint (openMinus parens s).out (gen x (emptied (openMinus parens s)))).out = .plain :=
      (step_reprint (step_gen x)).rest_of_plain hopenPlain
    rw [gen, genUminus_eq]
    exact rel_closeMinus parens hrest hreprint
  | .inlineFunc stmt, s, o, hsafe, hplain, h => by
    have hopen := rel_words lparenWords rfl (rel_emit h).1
    have hstmt := rel_emit (gen_rel stmt (s := genPrintf [lparen] (cgEmitOneFrag s)) hsafe hopen.2 hopen.1)
    exact (rel_emit (rel_words rparenWords rfl hstmt.1).1).1
  | .inlineFuncWith stmt args, s, o, hsafe, hplain, h => by
    have hopen := rel_words lparenWords rfl (rel_emit h).1
    have hstmt := rel_emit (gen_rel stmt (s := genPrintf [lparen] (cgEmitOneFrag s)) hsafe.1 hopen.2 hopen.1)
    have hfrom := rel_words fromSelectWords rfl hstmt.1
    have hargs := gen_rel args (s := genPrintf fromSelect (cgEmitOneFrag (gen stmt (genPrintf [lparen] (cgEmitOneFrag s))))) (by
        rw [show (genPrintf fromSelect (cgEmitOneFrag (gen stmt (genPrintf [lparen] (cgEmitOneFrag s))))).indent = s.indent
          from (step_gen stmt).indent _]
        exact hsafe.2) hfrom.2 hfrom.1
    have hclose := rel_words rparenWords ((step_gen args).rest_of_plain hfrom.2) hargs
    exact (rel_emit (rel_words rparenWords hclose.2.rest hclose.1).1).1
  | .callInCte isNestedSelect body, s, o, hsafe, hplain, h => by
    have hemit := rel_emit h
    cases isNestedSelect with
    | false => exact (rel_emit (gen_rel body (s := cgEmitOneFrag s) hsafe hemit.2 hemit.1)).1
    | true =>
      have hopen := rel_wrapper [lparen] (by decide) hemit.2 hemit.1
      have hbody := rel_emit (gen_rel body (s := cgEmitWrapper [lparen] (cgEmitOneFrag s)) hsafe hopen.2 hopen.1)
      exact (rel_wrapper [rparen] (by decide) hbody.2 hbody.1).1
  | .branches selects first rest, s, o, hsafe, hplain, h => by
    have hcondition : Rel (evalCondition selects s) o := ⟨h.fragments, h.out, h.vars, h.history⟩
    have hfirst := rel_emit (gen_rel first (s := evalCondition selects s) hsafe.1 hplain hcondition)
    refine gen_rel rest (s := cgEmitOneFrag (gen first (evalCondition selects s))) ?_ hfirst.2 hfirst.1
    rw [show (cgEmitOneFrag (gen first (evalCondition selects s))).indent = s.indent from (step_gen first).indent (evalCondition selects s)]
    exact hsafe.2

/-! ## What the output tells -/

/-- A part of a run whose boundaries are those of the order, and which adds no quoted characters, has the property. -/
def Tells (i : Nat) (f : State → State) (g : Order → Order) (P : Prop) : Prop :=
  ∀ s o, s.indent = i → stateAfter .plain s.out = .plain → printed s = ordered solidText o → (f s).history.map tokensOfAll = (g o).history →
    printedQuoted (f s) + ordered quotedLength o ≤ printedQuoted s + ordered quotedLength (g o) → P

variable {i : Nat} {f' : State → State} {g' : Order → Order} {P Q : Prop} {x : Tree}

/-- Where the boundaries agree in the end, they agree from the start. -/
theorem Step.history_start (h : Step f g) (heq : (f s).history.map tokensOfAll = (g o).history) :
    s.history.map tokensOfAll = o.history ∧ ∃ H, (f s).history = s.history ++ H ∧ (g o).history = o.history ++ H.map tokensOfAll ∧
      (GenAux.printed s < ordered solidText o → List.Forall₂ Behind H (H.map tokensOfAll)) := by
  obtain ⟨H, K, hH, hK, hlen, hbehind⟩ := h.history s o
  rw [hH, hK, List.map_append] at heq
  obtain ⟨hstart, rfl⟩ := List.append_inj' heq (by simp [hlen])
  exact ⟨hstart, H, hH, hK, hbehind⟩

/-- A step behind it that tells nothing. -/
theorem Tells.after (h : Tells i f g P) (hf : Step f g) (h' : Step f' g') : Tells i (fun s => f' (f s)) (fun o => g' (g o)) P := by
  intro s o hi hs hprinted hhistory hquoted
  have hle := h'.quoted (f s) (g o) (hf.rest s hs)
  beta_reduce at hquoted
  exact h s o hi hs hprinted (h'.history_start hhistory).1 (by omega)

/-- A step in front of it that tells nothing. -/
theorem Tells.before (h : Tells i f g P) (h' : Step f' g') : Tells i (fun s => f (f' s)) (fun o => g (g' o)) P := by
  intro s o hi hs hprinted hhistory hquoted
  have hle := h'.quoted s o hs
  have heq := h'.printed s o
  beta_reduce at hquoted
  exact h (f' s) (g' o) ((h'.indent s).trans hi) (h'.rest s hs) (by omega) hhistory (by omega)

/-- Two conditions. -/
theorem Tells.and (h : Tells i f g P) (h' : Tells i f g Q) : Tells i f g (P ∧ Q) :=
  fun s o hi hs hprinted hhistory hquoted =>
    ⟨h s o hi hs hprinted hhistory hquoted, h' s o hi hs hprinted hhistory hquoted⟩

/-- In an indented block. -/
theorem Tells.block {level : Nat} (lead : Lead) (h : Tells (i + level) f g P) :
    Tells i (fun s => endIndent s.indent (f (beginIndent level lead s))) g P := by
  rintro s o rfl hs hprinted hhistory hquoted
  exact h (beginIndent level lead s) o rfl hs hprinted hhistory hquoted

/-- A count of all tokens of the fragments. -/
theorem totalAll_tokensOfAll {μ : SqlToken → Nat} {ν : Bytes → Nat} (h : ∀ text, total μ (tokensOf text) = ν text)
    (fragments : List Bytes) : totalAll μ (tokensOfAll fragments) = (fragments.map ν).sum := by
  unfold totalAll tokensOfAll
  induction fragments with
  | nil => rfl
  | cons text fragments ih =>
    rw [List.map_cons, List.map_cons, List.sum_cons, ← ih, ← h]
    by_cases hblank : tokensOf text = [] <;> simp [hblank, total]

/-- Fragments with the same tokens have the same characters. -/
theorem not_behind (fragments : List Bytes) : ¬Behind fragments (tokensOfAll fragments) := by
  unfold Behind
  rw [totalAll_tokensOfAll total_tokensOf]
  exact Nat.lt_irrefl _

/-- Related states have equally many characters. -/
theorem Rel.printed_eq (h : Rel s o) : printed s = ordered solidText o := by
  rw [printed, ordered, ← h.fragments, ← h.out, total_tokensOf, totalAll_tokensOfAll total_tokensOf]
  rfl

/-- Also in literals. -/
theorem Rel.quoted_eq (h : Rel s o) : printedQuoted s = ordered quotedLength o := by
  rw [printedQuoted, ordered, ← h.fragments, ← h.out, quoted_tokensOf, totalAll_tokensOfAll quoted_tokensOf]

/-- The order that an output stands for. -/
def orderOf (s : State) : Order := ⟨tokensOf s.out, tokensOfAll s.fragments, s.vars, s.history.map tokensOfAll⟩

theorem rel_orderOf (s : State) : Rel s (orderOf s) := ⟨rfl, rfl, rfl, rfl⟩

/-- An operand of a unary minus with a fragment leaves the minus behind. -/
theorem fragmentFree_of_history {saved : State} (hprinted : printed saved = ordered solidText o) (hsolid : 0 < solid saved.out)
    (hhistory : (gen x (emptied saved)).history.map tokensOfAll = (order x o).history) : x.fragmentFree = true := by
  by_contra hfree
  obtain ⟨-, H, hH, -, hbehind⟩ := (step_gen x).history_start hhistory
  have hlt := history_lt (Bool.eq_false_of_not_eq_true hfree) (emptied saved)
  have hless : printed (emptied saved) < ordered solidText o := by
    have hs := printed_emptied saved
    omega
  cases H with
  | nil => simp [hH] at hlt
  | cons fragments H => exact not_behind fragments (List.forall₂_cons.mp (hbehind hless)).1

/-- The operand of a unary minus adds no quoted characters, neither to the buffer nor when it is printed again. -/
theorem quoted_of_uminus {parens : Bool} (hfree : x.fragmentFree = true) {saved buffer : State}
    (hs : stateAfter .plain s.out = .plain) (hsaved : saved = openMinus parens s) (hbuffer : buffer = gen x (emptied saved))
    (hquoted : printedQuoted (closeMinus parens (reprint saved.out buffer)) + ordered quotedLength o ≤
      printedQuoted s + ordered quotedLength (order (.uminus parens x) o)) :
    printedQuoted buffer ≤ printedQuoted (emptied saved) + total quotedLength (treeTokens x) ∧
      countQuoted (reprint saved.out buffer).out ≤ countQuoted saved.out + countQuoted buffer.out := by
  have hplain : Plain saved := hsaved ▸ (rel_openMinus parens hs (rel_orderOf s)).2
  have htokens (o : Order) : ordered quotedLength (order x o) = ordered quotedLength o + total quotedLength (treeTokens x) := by
    rw [order_of_fragmentFree hfree]
    simp [ordered, total_append, Nat.add_assoc]
  have hrest : stateAfter .plain (reprint saved.out buffer).out = .plain :=
    hbuffer ▸ (step_reprint (step_gen x)).rest_of_plain hplain
  have hopen := (step_openMinus parens).quoted s o hs
  have hclose := (step_closeMinus parens).quoted (reprint saved.out buffer)
    (order x ((o.add (if parens then [char lparen] else [])).add [char minusSign])) hrest
  have hle := (step_gen x).quoted (emptied saved) (orderOf (emptied saved)) rfl
  have hreprint := (countQuoted_reprint hplain.rest buffer).1
  have hfragments : printedQuoted (reprint saved.out buffer) + countQuoted buffer.out =
      printedQuoted buffer + countQuoted (reprint saved.out buffer).out := by
    simp only [printedQuoted, fragments_reprint]
    omega
  have hsavedCount := printedQuoted_emptied saved
  rw [order] at hquoted
  rw [← hsaved] at hopen
  rw [← hbuffer] at hle
  simp only [ordered_add, htokens] at hopen hclose hle hquoted
  constructor <;> omega

/-- What the output tells of a unary minus. -/
theorem tells_uminus (parens : Bool) (ih : Tells i (gen x) (order x) (Safe i x)) :
    Tells i (gen (.uminus parens x)) (order (.uminus parens x)) (Safe i (.uminus parens x)) := by
  intro s o hi hs hprinted hhistory hquoted
  have hopen := step_openMinus parens
  have hindent : (openMinus parens s).indent = i := (hopen.indent s).trans hi
  have hplain : Plain (openMinus parens s) := (rel_openMinus parens hs (rel_orderOf s)).2
  have hprinted' := hopen.printed s o
  have hsolid : 0 < solid (openMinus parens s).out := by
    have hminus : solid [minusSign] = 1 := rfl
    simp only [openMinus, genPrintf, solid_append, solid_indented, hminus]
    omega
  -- the operand reaches no boundary, since the minus would be left behind
  rw [gen, genUminus_eq, history_closeMinus, history_reprint] at hhistory
  have hfree : x.fragmentFree = true := fragmentFree_of_history (by omega) hsolid hhistory
  have hsame : (gen x (emptied (openMinus parens s))).history = (openMinus parens s).history := by
    obtain ⟨-, H, hH, hK, -⟩ := (step_gen x).history_start hhistory
    rw [order_of_fragmentFree hfree] at hK
    have hnil : H.map tokensOfAll = [] := List.append_right_eq_self.mp hK.symm
    rw [hH, List.map_eq_nil_iff.mp hnil, List.append_nil]
    rfl
  -- no quoted character was added
  rw [gen, genUminus_eq] at hquoted
  obtain ⟨hbuffer, hreprint⟩ := quoted_of_uminus hfree hs rfl rfl hquoted
  have hrel : Rel (emptied (openMinus parens s)) (orderOf (emptied (openMinus parens s))) := rel_orderOf _
  have hsafe : Safe i x := by
    refine ih (emptied (openMinus parens s)) (orderOf (emptied (openMinus parens s))) hindent rfl hrel.printed_eq ?_ ?_
    · rw [order_of_fragmentFree hfree, hsame]
      rfl
    · rw [order_of_fragmentFree hfree]
      simp only [ordered, total_append] at hbuffer ⊢
      omega
  refine ⟨hfree, fun hpos => ?_, hsafe⟩
  by_contra hnewline
  have hout := (gen_rel x (s := emptied (openMinus parens s)) (hindent.symm ▸ hsafe) rfl hrel).out
  rw [order_of_fragmentFree hfree] at hout
  have hquotedNewline : NoQuotedNewline .plain (gen x (emptied (openMinus parens s))).out = false := by
    rw [← Bool.not_eq_true, ← inner_tokensOf, hout]
    exact fun h => hnewline ((inner_treeTokens hfree).mp h)
  have hindentx : (gen x (emptied (openMinus parens s))).indent = i := ((step_gen x).indent _).trans hindent
  exact absurd hreprint (Nat.not_le.mpr ((countQuoted_reprint hplain.rest _).2 (hindentx.symm ▸ hpos) ((step_gen x).rest _ rfl) hquotedNewline))

/-- Trees whose output has the boundaries of the order and no more quoted characters are safe. -/
theorem tells_gen : ∀ (t : Tree) (i : Nat), Tells i (gen t) (order t) (Safe i t)
  | .words _, _ => fun _ _ _ _ _ _ _ => trivial
  | .str _, _ => fun _ _ _ _ _ _ _ => trivial
  | .bound _, _ => fun _ _ _ _ _ _ _ => trivial
  | .before t x, i => (tells_gen x i).before (step_printf _ (Words.rest t))
  | .after x t, i => (tells_gen x i).after (step_gen x) (step_printf _ (Words.rest t))
  | .cat l between r, i =>
    have hbetween := step_printf _ (Words.rest between)
    ((tells_gen l i).after (step_gen l) ((step_gen r).comp hbetween)).and ((tells_gen r i).before (hbetween.comp (step_gen l)))
  | .block level lead x, i => (tells_gen x (i + level)).block lead
  | .uminus parens x, i => tells_uminus parens (tells_gen x i)
  | .inlineFunc stmt, i =>
    ((tells_gen stmt i).after (step_gen stmt) (step_emit.comp (step_rparen.comp step_emit))).before (step_lparen.comp step_emit)
  | .inlineFuncWith stmt args, i =>
    have hend := step_emit.comp (step_rparen.comp step_rparen)
    (((tells_gen stmt i).after (step_gen stmt) (hend.comp ((step_gen args).comp (step_fromSelect.comp step_emit)))).before
      (step_lparen.comp step_emit)).and
      (((tells_gen args i).after (step_gen args) hend).before
        (step_fromSelect.comp (step_emit.comp ((step_gen stmt).comp (step_lparen.comp step_emit)))))
  | .callInCte isNestedSelect body, i => by
    cases isNestedSelect with
    | false => exact ((tells_gen body i).after (step_gen body) step_emit).before step_emit
    | true => exact ((tells_gen body i).after (step_gen body) (step_wrapper [rparen])).before (step_wrapper [lparen])
  | .branches selects first rest, i =>
    (((tells_gen first i).after (step_gen first) ((step_gen rest).comp step_emit)).and
      ((tells_gen rest i).before (step_emit.comp (step_gen first)))).before (step_condition selects)

/-! ## Conditions -/

/-- The buffers are lost exactly where a condition has a nested select. -/
theorem lost_gen (t : Tree) (s : State) : (gen t s).lost = (s.lost || !t.selectFree) := by
  induction t generalizing s with
  | words t => simp [gen, genPrintf, Tree.selectFree]
  | str l => simp [gen, genLiteral, Tree.selectFree]
  | bound name => simp [gen, genPrintf, Tree.selectFree]
  | before t x ih => rw [gen, ih, Tree.selectFree, genPrintf]
  | after x t ih => rw [gen, genPrintf, ih, Tree.selectFree]
  | cat l between r ihl ihr => simp [gen, ihr, genPrintf, ihl, Tree.selectFree, Bool.or_assoc]
  | block level lead x ih => exact ih (beginIndent level lead s)
  | uminus parens x ih =>
    have hopen : (openMinus parens s).lost = s.lost := by cases parens <;> rfl
    have hreprint (saved : Bytes) (s : State) : (reprint saved s).lost = s.lost := by
      unfold reprint
      split <;> rfl
    have hclose (s : State) : (closeMinus parens s).lost = s.lost := by cases parens <;> rfl
    rw [gen, genUminus_eq, hclose, hreprint, ih, Tree.selectFree, ← hopen]
    rfl
  | inlineFunc stmt ih => simp [gen, cgInlineFunc, cgEmitOneFrag, cgFragmentStmt, genPrintf, ih, Tree.selectFree]
  | inlineFuncWith stmt args ihs iha =>
    simp [gen, cgInlineFunc, cgEmitOneFrag, cgFragmentStmt, genPrintf, ihs, iha, Tree.selectFree, Bool.or_assoc]
  | callInCte isNestedSelect body ih =>
    cases isNestedSelect <;> simp [gen, cgCallInCte, cgEmitOneFrag, cgEmitWrapper, cgFragmentStmt, ih, Tree.selectFree]
  | branches selects first rest ihf ihr =>
    simp [gen, cgFragmentCondAction, evalCondition, cgFragmentStmt, cgEmitOneFrag, ihf, ihr, Tree.selectFree, Bool.or_assoc]

end GenAux

open GenAux

/-- The literals, marks and boundaries of a tree survive exactly when no operand of a unary minus has a call of a fragment, none at an
indentation has a newline in a literal, and no condition of a fragment has a nested select. -/
theorem survives_iff (indent pending : Nat) (t : Tree) : Survives indent pending t ↔ Safe indent t ∧ t.selectFree = true := by
  let start : State := { out := [], pending := pending, indent := indent, fragments := [], vars := [], history := [], lost := false }
  have hstart : Rel start ⟨[], [], [], []⟩ := ⟨rfl, rfl, rfl, rfl⟩
  have hlost : (gen t start).lost = !t.selectFree := lost_gen t start
  constructor
  · rintro ⟨hfragments, hout, hvars, hhistory, hkept⟩
    refine ⟨?_, by simpa using hlost.symm.trans hkept⟩
    have hrel : Rel (gen t start) (order t ⟨[], [], [], []⟩) := ⟨hfragments, hout, hvars, hhistory⟩
    refine tells_gen t indent start ⟨[], [], [], []⟩ rfl rfl hstart.printed_eq hhistory ?_
    rw [hrel.quoted_eq, hstart.quoted_eq, Nat.add_comm]
  · rintro ⟨hsafe, hfree⟩
    have hrel : Rel (gen t start) (order t ⟨[], [], [], []⟩) := gen_rel t hsafe rfl hstart
    exact ⟨hrel.fragments, hrel.out, hrel.vars, hrel.history, by rw [hlost, hfree]; rfl⟩

/-! ## Unary minuses -/

/-- `SELECT `. -/
def selectWords : Words := ⟨[83, 69, 76, 69, 67, 84, 32], ⟨_, _, rfl, by decide⟩, by decide, by decide⟩

/-- `SELECT 1`, a newline and `  FROM `. -/
def selectFromWords : Words :=
  ⟨[83, 69, 76, 69, 67, 84, 32, 49, 10, 32, 32, 70, 82, 79, 77, 32], ⟨_, _, rfl, by decide⟩, by decide, by decide⟩

/-- `length(`. -/
def lengthWords : Words := ⟨[108, 101, 110, 103, 116, 104, 40], ⟨_, _, rfl, by decide⟩, by decide, by decide⟩

/-- The digit `1`. -/
def oneWords : Words := ⟨[49], ⟨_, _, rfl, by decide⟩, by decide, by decide⟩

/-- A literal of `a`, a newline and `b`. -/
def twoLines : Literal := ⟨[39, 97, 10, 98, 39], by decide⟩

/-- `SELECT 1 FROM (SELECT -length('a b'))`, with a newline in the literal. -/
def minusLiteral : Tree :=
  .before selectFromWords (.block 4 .zero (.before lparenWords (.after (.block 2 .zero
    (.before selectWords (.uminus false (.before lengthWords (.after (.str twoLines) rparenWords))))) rparenWords)))

/-- `SELECT -f()`, where the body of `f` is `SELECT 1`. -/
def minusCall : Tree := .before selectWords (.uminus false (.inlineFunc (.before selectWords (.words oneWords))))

/-- The literal in the operand of a unary minus is indented; and the fragment in one comes before the text that it stands in. -/
theorem survives_false : ¬Survives 0 0 minusLiteral ∧ ¬Survives 0 0 minusCall := by
  unfold Survives
  decide

end GenPrintf

end CgSql
