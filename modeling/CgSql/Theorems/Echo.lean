import CgSql.Echo
import CgSql.Theorems.GenSql

/-!
# Expressions that are read again

What is echoed is read again as the same tree where the operands are safe and the lexer joins nothing that was printed apart.
-/

namespace CgSql.GenSql

open Mixfix (Text Tree Token Reads)

/-! ## Tokens that stay apart -/

/-- The first token of an expression that is echoed at a place of the priority. -/
def firstToken (pri : Int) : Expr → Token (grammar false)
  | .atom a => .atom a
  | .binary op l _ => if op.pri < pri then .lparen else firstToken op.pri l
  | .concatLike _ l _ => if exprPriConcat < pri then .lparen else firstToken exprPriConcat l
  | .unary op _ => if op.pri < pri then .lparen else .pre op
  | .postfixed _ e => if exprPriEquality < pri then .lparen else firstToken exprPriEquality e
  | .collate e _ => if exprPriCollate < pri then .lparen else firstToken exprPriCollate e
  | .dot e _ => if exprPriReverseApply < pri then .lparen else firstToken exprPriReverseApply e
  | .between _ e _ _ => if exprPriEquality < pri then .lparen else firstToken exprPriEquality e
  | .bracketed op e _ => if op.pri < pri then .lparen else firstToken op.pri e
  | .closed form _ => .opening form
  | .elided f _ => .opening f.name
  | .typeCheck _ type => .opening ("TYPE_CHECK AS " ++ type)
  | .cast _ type _ => .opening ("CAST AS " ++ type)

/-- The expression is an integer. -/
def Expr.isInteger : Expr → Bool
  | .atom (.num value long) => isIntlit value long
  | _ => false

mutual

/-- No right operand of `IS` or `IS NOT` starts with `TRUE` or `FALSE`, no operand of `NOT` with a call of `glob` or `like`, and what is
before a dot is no integer. -/
def Lexes : Expr → Prop
  | .atom _ => True
  | .binary op l r => Lexes l ∧ join (.bin (.op op)) (firstToken (op.pri + 1) r) = none ∧ Lexes r
  | .concatLike _ l r => Lexes l ∧ Lexes r
  | .unary op e => join (.pre op) (firstToken op.pri e) = none ∧ Lexes e
  | .postfixed _ e | .collate e _ | .elided _ e | .typeCheck e _ | .cast e _ _ => Lexes e
  | .dot e _ => Lexes e ∧ e.isInteger = false
  | .between _ e low high => Lexes e ∧ Lexes low ∧ Lexes high
  | .bracketed _ e args => Lexes e ∧ LexesList args
  | .closed _ args => LexesList args

def LexesList : List Expr → Prop
  | [] => True
  | e :: es => Lexes e ∧ LexesList es

end

namespace EchoAux

/-! ## Joined tokens -/

/-- The number of neighbours that the lexer joins. -/
def joins : List (Token (grammar false)) → Nat
  | [] => 0
  | [_] => 0
  | t :: t' :: ts => (join t t').isSome.toNat + joins (t' :: ts)

/-- The neighbours where two texts meet. -/
def glue : Option (Token (grammar false)) → Option (Token (grammar false)) → Nat
  | some t, some t' => (join t t').isSome.toNat
  | _, _ => 0

theorem joins_append : ∀ a b, joins (a ++ b) = joins a + glue a.getLast? b.head? + joins b
  | [], b => by simp [joins, glue]
  | [t], [] => by simp [joins, glue]
  | [t], t' :: b => by simp [joins, glue]
  | t :: t' :: a, b => by
    have ih := joins_append (t' :: a) b
    simp only [List.cons_append] at ih
    simp only [List.cons_append, joins, ih, List.getLast?_cons_cons]
    omega

/-- The tokens that are gone when they are joined. -/
def isJoined : Token (grammar false) → Bool
  | .bin (.op .is) | .bin (.op .isNot) | .pre .not | .post (.dot _) => true
  | _ => false

variable {t t' first : Token (grammar false)} {ts : List (Token (grammar false))}

/-- Joining takes one of these tokens away, and the second token is not joined once more. -/
theorem join_some {r : List (Token (grammar false))} (h : join t t' = some r) :
    r.countP isJoined + 1 = [t, t'].countP isJoined ∧ ∀ t'', join t' t'' = none := by
  unfold join at h
  split at h
  · rename_i o b
    obtain ⟨p, hp, rfl⟩ := Option.map_eq_some_iff.mp h
    refine ⟨?_, fun _ => rfl⟩
    unfold truthToken at hp
    split at hp <;> first | rfl | cases hp
  · rename_i name
    obtain ⟨o, ho, rfl⟩ := Option.map_eq_some_iff.mp h
    refine ⟨?_, fun _ => rfl⟩
    unfold notToken at ho
    split at ho
    · cases ho
      rfl
    · split at ho
      · cases ho
        rfl
      · cases ho
  · split at h
    · cases h
      exact ⟨rfl, fun _ => rfl⟩
    · cases h
  · cases h

theorem joins_cons_of_join {r : List (Token (grammar false))} (h : join t t' = some r)
    (ts : List (Token (grammar false))) : joins (t' :: ts) = joins ts := by
  cases ts with
  | nil => rfl
  | cons t'' ts => simp [joins, (join_some h).2 t'']

theorem countP_lex (ts : List (Token (grammar false))) : (lex ts).countP isJoined + joins ts = ts.countP isJoined := by
  fun_induction lex ts with
  | case1 => rfl
  | case2 t => rfl
  | case3 t t' ts r h ih =>
    have hr := (join_some h).1
    rw [joins, joins_cons_of_join h, h, List.countP_append]
    simp only [List.countP_cons, List.countP_nil] at hr ⊢
    simp only [Option.isSome_some, Bool.toNat_true]
    omega
  | case4 t t' ts h ih =>
    rw [joins, h, List.countP_cons, List.countP_cons (a := t)]
    simp only [Option.isSome_none, Bool.toNat_false]
    omega

theorem lex_of_joins (h : joins ts = 0) : lex ts = ts := by
  fun_induction lex ts with
  | case1 => rfl
  | case2 t => rfl
  | case3 t t' ts r hr ih => simp [joins, hr] at h
  | case4 t t' ts hn ih =>
    rw [joins, hn] at h
    rw [ih (by simpa using h)]

/-! ## Places where nothing is joined -/

@[simp] theorem glue_bin (t : Option (Token (grammar false))) (o : BinToken) : glue t (some (.bin o)) = 0 := by
  cases t with
  | none => rfl
  | some t => cases t <;> simp [glue, join]

@[simp] theorem glue_tern (t : Option (Token (grammar false))) (o : Bool) : glue t (some (.tern o)) = 0 := by
  cases t with
  | none => rfl
  | some t => cases t <;> simp [glue, join]

@[simp] theorem glue_brk (t : Option (Token (grammar false))) (o : Bracket) : glue t (some (.brk o)) = 0 := by
  cases t with
  | none => rfl
  | some t => cases t <;> simp [glue, join]

@[simp] theorem glue_rparen (t : Option (Token (grammar false))) : glue t (some .rparen) = 0 := by
  cases t with
  | none => rfl
  | some t => cases t <;> simp [glue, join]

@[simp] theorem glue_truth (t : Option (Token (grammar false))) (o : PostfixOp) : glue t (some (.post (.truth o))) = 0 := by
  cases t with
  | none => rfl
  | some t => cases t <;> simp [glue, join]

@[simp] theorem glue_collate (t : Option (Token (grammar false))) (n : String) : glue t (some (.post (.collate n))) = 0 := by
  cases t with
  | none => rfl
  | some t => cases t <;> simp [glue, join]

/-- A token that is no operator to join is not joined with what follows. -/
theorem joins_cons (h : ∀ t', join t t' = none) (ts : List (Token (grammar false))) : joins (t :: ts) = joins ts := by
  cases ts with
  | nil => rfl
  | cons t' ts => simp [joins, h t']

theorem joins_cons_head (h : ts.head? = some t') : joins (t :: ts) = (join t t').isSome.toNat + joins ts := by
  cases ts with
  | nil => cases h
  | cons t'' ts =>
    cases h
    rfl

@[simp] theorem joins_wrap (priNew pri : Int) (t : Text (grammar false)) : joins (wrap priNew pri t).tokens = joins t.tokens := by
  by_cases h : priNew < pri
  · rw [wrap, if_pos h, Text.tokens, joins_cons (fun _ => rfl), joins_append]
    simp [joins]
  · rw [wrap, if_neg h]

theorem head_wrap {priNew pri : Int} {t : Text (grammar false)} (h : t.tokens.head? = some first) :
    (wrap priNew pri t).tokens.head? = some (if priNew < pri then .lparen else first) := by
  by_cases hp : priNew < pri
  · simp [wrap, hp, Text.tokens]
  · simp [wrap, hp, h]

theorem head_append {a b : List (Token (grammar false))} (h : a.head? = some first) : (a ++ b).head? = some first := by
  cases a with
  | nil => cases h
  | cons t a => exact h

/-- The first token that is echoed. -/
theorem head_genExpr (pri : Int) : ∀ e, Parsed e → (genExpr echo pri e).tokens.head? = some (firstToken pri e)
  | .atom a, _ => rfl
  | .binary op l r, h => head_wrap (head_append (head_genExpr _ l h.1))
  | .concatLike op l r, h => head_wrap (head_append (head_genExpr _ l h.1))
  | .unary op e, h => head_wrap rfl
  | .postfixed op e, h => head_wrap (head_append (head_genExpr _ e h))
  | .collate e name, h => head_wrap (head_append (head_genExpr _ e h))
  | .dot e name, h => head_wrap (head_append (head_genExpr _ e h))
  | .between (.between _) e low high, h => head_wrap (head_append (head_genExpr _ e h.1))
  | .bracketed op e args, h => head_wrap (head_append (head_genExpr _ e h.1))
  | .closed form args, _ => rfl
  | .elided f e, h => by simp [genExpr, Elided.isElided, echo, h.1, Text.tokens, firstToken]
  | .typeCheck e type, _ => rfl
  | .cast e type sameType, _ => rfl

/-- A text that ends with a parenthesis, brackets or an operator leaves a dot alone. -/
theorem glue_dot_of_last (last : Token (grammar false)) (h : ts.getLast? = some last)
    (hlast : ∀ t, join last t = none) (n : String) : glue ts.getLast? (some (.post (.dot n))) = 0 := by
  rw [h]
  simp [glue, hlast]

theorem last_wrap {priNew pri : Int} (h : priNew < pri) (t : Text (grammar false)) : (wrap priNew pri t).tokens.getLast? = some .rparen := by
  rw [wrap, if_pos h, Text.tokens, List.getLast?_cons, List.getLast?_append]
  simp

/-- Before a dot, only a number is printed so that it takes the dot. -/
theorem glue_dot (n : String) : ∀ e, Parsed e →
    glue (genExpr echo exprPriReverseApply e).tokens.getLast? (some (.post (.dot n))) = e.isInteger.toNat
  | .atom a, _ => by cases a <;> simp [genExpr, Text.tokens, glue, join, Expr.isInteger]; split <;> simp_all
  | .binary op l r, _ => glue_dot_of_last .rparen (last_wrap (by cases op <;> decide) _) (fun _ => rfl) n
  | .concatLike op l r, _ => glue_dot_of_last .rparen (last_wrap (by decide) _) (fun _ => rfl) n
  | .unary op e, _ => glue_dot_of_last .rparen (last_wrap (by cases op <;> decide) _) (fun _ => rfl) n
  | .postfixed op e, _ => glue_dot_of_last .rparen (last_wrap (by decide) _) (fun _ => rfl) n
  | .collate e name, _ => glue_dot_of_last .rparen (last_wrap (by decide) _) (fun _ => rfl) n
  | .dot e name, _ => by
    refine glue_dot_of_last (.post (.dot name)) ?_ (fun _ => rfl) n
    simp [genExpr, echo, wrap, Text.tokens]
  | .between (.between _) e low high, _ => glue_dot_of_last .rparen (last_wrap (by decide) _) (fun _ => rfl) n
  | .bracketed op e args, _ => by
    refine glue_dot_of_last .rparen ?_ (fun _ => rfl) n
    cases op <;> simp [genExpr, wrap, Text.tokens, Bracket.pri, exprPriReverseApply, exprPriEquality, List.getLast?_cons, List.getLast?_append]
  | .closed form args, _ => by
    refine glue_dot_of_last .rparen ?_ (fun _ => rfl) n
    simp [genExpr, Text.tokens, List.getLast?_cons, List.getLast?_append]
  | .elided f e, h => by
    refine glue_dot_of_last .rparen ?_ (fun _ => rfl) n
    simp [genExpr, Elided.isElided, echo, h.1, Text.tokens, List.getLast?_cons, List.getLast?_append]
  | .typeCheck e type, _ => by
    refine glue_dot_of_last .rparen ?_ (fun _ => rfl) n
    simp [genExpr, echo, Text.tokens, List.getLast?_cons, List.getLast?_append]
  | .cast e type sameType, _ => by
    refine glue_dot_of_last .rparen ?_ (fun _ => rfl) n
    simp [genExpr, echo, Text.tokens, List.getLast?_cons, List.getLast?_append]

/-! ## Texts that are lexed as they are printed -/

theorem joins_closed (form : String) (t : Text (grammar false)) : joins (Text.closed form t).tokens = joins t.tokens := by
  rw [Text.tokens, joins_cons (fun _ => rfl), joins_append]
  simp [joins]

theorem joins_bin {o : BinToken} {l r : Text (grammar false)} (h : r.tokens.head? = some first) :
    joins (Text.bin o l r).tokens = joins l.tokens + (join (.bin o) first).isSome.toNat + joins r.tokens := by
  simp only [Text.tokens, joins_append, List.head?_cons, glue_bin, joins_cons_head h]
  omega

/-- The `AND` of `BETWEEN` is not joined with what follows. -/
theorem joins_tern (negated : Bool) (l m r : Text (grammar false)) :
    joins (Text.tern negated l m r : Text (grammar false)).tokens = joins l.tokens + joins m.tokens + joins r.tokens := by
  have htokens : (Text.tern negated l m r : Text (grammar false)).tokens =
      l.tokens ++ .tern negated :: (m.tokens ++ .bin (.op .and) :: r.tokens) := rfl
  have htern : ∀ t, join (.tern negated) t = none := fun _ => rfl
  have hand : ∀ t, join (.bin (.op .and)) t = none := by
    intro t
    cases t with
    | atom a => cases a <;> rfl
    | _ => rfl
  rw [htokens, joins_append, List.head?_cons, glue_tern, joins_cons htern, joins_append, List.head?_cons, glue_bin, joins_cons hand]
  omega

theorem toNat_isSome_eq_zero {α : Type} {o : Option α} : o.isSome.toNat = 0 ↔ o = none := by
  cases o <;> simp

/-- The first token of a list that is not empty is that of an expression, and no separator is joined with it. -/
theorem joins_separator (l : Text (grammar false)) (r : Text (grammar false)) :
    joins (Text.bin BinToken.separator l r).tokens = joins l.tokens + joins r.tokens := by
  have hseparator : ∀ t, join (.bin .separator) t = none := fun _ => rfl
  simp only [Text.tokens, joins_append, List.head?_cons, glue_bin, joins_cons hseparator]
  omega

mutual

/-- The lexer joins no tokens exactly where the expression says so. -/
theorem joins_genExpr (pri : Int) : ∀ e, Parsed e → (joins (genExpr echo pri e).tokens = 0 ↔ Lexes e)
  | .atom a, _ => by simp [genExpr, Text.tokens, joins, Lexes]
  | .binary op l r, h => by
    rw [genExpr, joins_wrap, joins_bin (head_genExpr _ r h.2), Lexes, ← joins_genExpr op.pri l h.1,
      ← joins_genExpr (op.pri + 1) r h.2, ← toNat_isSome_eq_zero]
    omega
  | .concatLike op l r, h => by
    have hjoin : ∀ t, join (.bin (.concatLike op)) t = none := fun _ => rfl
    rw [genExpr, joins_wrap, joins_bin (head_genExpr _ r h.2), hjoin, Lexes, ← joins_genExpr exprPriConcat l h.1,
      ← joins_genExpr exprPriConcat r h.2]
    simp
  | .unary op e, h => by
    rw [genExpr, joins_wrap, Text.tokens, joins_cons_head (head_genExpr _ e h), Lexes, ← joins_genExpr op.pri e h, ← toNat_isSome_eq_zero]
    omega
  | .postfixed op e, h => by
    rw [genExpr, joins_wrap, Lexes, ← joins_genExpr exprPriEquality e h]
    simp [genPostfix, echo, Text.tokens, joins_append, joins]
  | .collate e name, h => by
    rw [genExpr, joins_wrap, Lexes, ← joins_genExpr exprPriCollate e h]
    simp [Text.tokens, joins_append, joins]
  | .dot e name, h => by
    have hdot : genExpr echo pri (.dot e name) =
        wrap exprPriReverseApply pri (.post (.dot name) (genExpr echo exprPriReverseApply e)) := by simp [genExpr, echo]
    rw [hdot, joins_wrap, Lexes, ← joins_genExpr exprPriReverseApply e h, Text.tokens, joins_append, List.head?_cons, glue_dot name e h]
    cases e.isInteger <;> simp [joins]
  | .between (.between negated) e low high, h => by
    rw [genExpr, joins_wrap, joins_tern, Lexes, ← joins_genExpr exprPriEquality e h.1, ← joins_genExpr exprPriEquality low h.2.1,
      ← joins_genExpr (Between.between negated).highPri high h.2.2]
    omega
  | .bracketed op e args, h => by
    rw [genExpr, joins_wrap, Lexes, ← joins_genExpr op.pri e h.1, ← joins_genList args h.2]
    simp only [Text.tokens, joins_append, List.head?_cons, glue_brk, joins_cons (t := .brk op) (fun _ => rfl), glue_rparen, joins]
    omega
  | .closed form args, h => by rw [genExpr, joins_closed, Lexes, joins_genList args h]
  | .elided f e, h => by
    have helided : genExpr echo pri (.elided f e) = .closed f.name (genExpr echo exprPriRoot e) := by
      simp [genExpr, Elided.isElided, echo, h.1]
    rw [helided, joins_closed, Lexes, joins_genExpr exprPriRoot e h.2]
  | .typeCheck e type, h => by
    have hcheck : genExpr echo pri (.typeCheck e type) = .closed ("TYPE_CHECK AS " ++ type) (genExpr echo exprPriRoot e) := by
      simp [genExpr, echo]
    rw [hcheck, joins_closed, Lexes, joins_genExpr exprPriRoot e h]
  | .cast e type sameType, h => by
    have hcast : genExpr echo pri (.cast e type sameType) = .closed ("CAST AS " ++ type) (genExpr echo exprPriRoot e) := by
      simp [genExpr, echo]
    rw [hcast, joins_closed, Lexes, joins_genExpr exprPriRoot e h]

theorem joins_genList : ∀ es, ParsedList es → (joins (genList echo es).tokens = 0 ↔ LexesList es)
  | [], _ => by simp [genList, Text.tokens, joins, LexesList]
  | e :: es, h => by
    rw [genList, joins_separator, LexesList, ← joins_genExpr exprPriRoot e h.1, ← joins_genList es h.2]
    omega

end

mutual

/-- Nothing is left out of what is echoed. -/
theorem denoted_echo : ∀ e, Parsed e → denoted echo e = structureOf e
  | .atom a, _ => rfl
  | .binary op l r, h => by rw [denoted, structureOf, denoted_echo l h.1, denoted_echo r h.2]
  | .concatLike op l r, h => by rw [denoted, structureOf, denoted_echo l h.1, denoted_echo r h.2]
  | .unary op e, h => by rw [denoted, structureOf, denoted_echo e h]
  | .postfixed op e, h => by simp [denoted, structureOf, echo, ← denoted_echo e h]
  | .collate e name, h => by rw [denoted, structureOf, denoted_echo e h]
  | .dot e name, h => by simp [denoted, structureOf, echo, ← denoted_echo e h]
  | .between (.between _) e low high, h => by
    rw [denoted, structureOf, denoted_echo e h.1, denoted_echo low h.2.1, denoted_echo high h.2.2]
  | .bracketed op e args, h => by rw [denoted, structureOf, denoted_echo e h.1, denotedList_echo args h.2]
  | .closed form args, h => by rw [denoted, structureOf, denotedList_echo args h]
  | .elided f e, h => by simp [denoted, structureOf, Elided.isElided, echo, h.1, ← denoted_echo e h.2]
  | .typeCheck e type, h => by simp [denoted, structureOf, echo, ← denoted_echo e h]
  | .cast e type sameType, h => by simp [denoted, structureOf, echo, ← denoted_echo e h]

theorem denotedList_echo : ∀ es, ParsedList es → denotedList echo es = structureOfList es
  | [], _ => rfl
  | e :: es, h => by rw [denotedList, structureOfList, denoted_echo e h.1, denotedList_echo es h.2]

end

end EchoAux

/-! ## Round trips -/

/-- The echo of an expression is lexed and read as its tree. -/
def EchoRoundTrips (e : Expr) : Prop := Reads (.expr 0) (lex (genExpr echo exprPriRoot e).tokens) (structureOf e) []

theorem EchoAux.roundTrips_iff {e : Expr} (h : Parsed e) : EchoRoundTrips e ↔ Safe echo e ∧ Lexes e := by
  have hsafe := readRightly_iff_safe echo e
  rw [ReadRightly, EchoAux.denoted_echo e h] at hsafe
  rw [EchoRoundTrips, ← hsafe, ← EchoAux.joins_genExpr exprPriRoot e h]
  constructor
  · intro hreads
    -- A text of the tree has as many tokens of each kind as what was printed, so none is gone.
    obtain ⟨t, -, -, htree, htokens, -⟩ := hreads.written
    have hcount := EchoAux.countP_lex (genExpr echo exprPriRoot e).tokens
    have hlexed : (lex (genExpr echo exprPriRoot e).tokens).countP EchoAux.isJoined = (structureOf e).count EchoAux.isJoined := by
      rw [htokens, List.append_nil, Mixfix.Text.countP_tokens rfl rfl, htree]
    have hprinted : (genExpr echo exprPriRoot e).tokens.countP EchoAux.isJoined = (structureOf e).count EchoAux.isJoined := by
      rw [Mixfix.Text.countP_tokens rfl rfl, GenSqlAux.tree_genExpr, EchoAux.denoted_echo e h]
    have hjoins : EchoAux.joins (genExpr echo exprPriRoot e).tokens = 0 := by omega
    rw [EchoAux.lex_of_joins hjoins] at hreads
    exact ⟨hreads, hjoins⟩
  · rintro ⟨hreads, hjoins⟩
    rw [EchoAux.lex_of_joins hjoins]
    exact hreads

theorem EchoAux.safe_of_roundTrips {e : Expr} (hreads : EchoRoundTrips e) (h : Parsed e) : Safe echo e ∧ Lexes e :=
  (EchoAux.roundTrips_iff h).mp hreads

/-- An expression of the parser is read again from its echo if and only if its operands are safe and the lexer joins nothing. -/
theorem echoRoundTrips_iff (e : Expr) (h : Parsed e) : EchoRoundTrips e ↔ Safe echo e ∧ Lexes e := EchoAux.roundTrips_iff h

/-- `NOT (a + b) * c IS NULL` is an expression of the parser. -/
theorem echoRoundTrips_iff_isNull :
    EchoRoundTrips (.unary .not (.binary .is (.binary .mul (.binary .add (named "a") (named "b")) (named "c")) (.atom .null))) ↔
      Safe echo (.unary .not (.binary .is (.binary .mul (.binary .add (named "a") (named "b")) (named "c")) (.atom .null))) ∧
      Lexes (.unary .not (.binary .is (.binary .mul (.binary .add (named "a") (named "b")) (named "c")) (.atom .null))) :=
  echoRoundTrips_iff (.unary .not (.binary .is (.binary .mul (.binary .add (named "a") (named "b")) (named "c")) (.atom .null)))
    ⟨⟨⟨trivial, trivial⟩, trivial⟩, trivial⟩

/-- It is read again, with the parentheses that the tree needs. -/
example : Safe echo (.unary .not (.binary .is (.binary .mul (.binary .add (named "a") (named "b")) (named "c")) (.atom .null))) := by
  simp [Safe, leads, yields, named, echo, BinaryOp.pri, BinaryOp.level, BinaryOp.rightLevel, UnaryOp.pri]

/-- Some expressions are not read again: `a IS (TRUE)`, `a = (b <> c)`, `a || (b || c)`, `a -> (b.c)`, `NOT (glob(a, b))` and `(1).x`. -/
theorem echoRoundTrips_false : ¬ EchoRoundTrips (.binary .is (named "a") (.atom (.bool true))) ∧
    ¬ EchoRoundTrips (.binary .eq (named "a") (.binary .ne (named "b") (named "c"))) ∧
    ¬ EchoRoundTrips (.concatLike .concat (named "a") (.concatLike .concat (named "b") (named "c"))) ∧
    ¬ EchoRoundTrips (.concatLike .jex1 (named "a") (.dot (named "b") "c")) ∧
    ¬ EchoRoundTrips (.unary .not (.closed "glob" [named "a", named "b"])) ∧
    ¬ EchoRoundTrips (.dot (.atom (.num "1" false)) "x") := by
  refine ⟨fun h => ?_, fun h => ?_, fun h => ?_, fun h => ?_, fun h => ?_, fun h => ?_⟩
  · have hlexes := (EchoAux.safe_of_roundTrips h ⟨trivial, trivial⟩).2
    cases hlexes.2.1
  · have hsafe := (EchoAux.safe_of_roundTrips h ⟨trivial, trivial, trivial⟩).1
    exact absurd hsafe.2.1 (by decide)
  · have hsafe := (EchoAux.safe_of_roundTrips h ⟨trivial, trivial, trivial⟩).1
    exact absurd hsafe.2.1 (by decide)
  · have hsafe := (EchoAux.safe_of_roundTrips h ⟨trivial, trivial⟩).1
    exact absurd hsafe.2.1 (by decide)
  · have hlexes := (EchoAux.safe_of_roundTrips h ⟨trivial, trivial, trivial⟩).2
    exact absurd hlexes.1 (by simp [join, firstToken, notToken])
  · have hlexes := (EchoAux.safe_of_roundTrips h trivial).2
    exact absurd hlexes.2 (by decide)

end CgSql.GenSql
