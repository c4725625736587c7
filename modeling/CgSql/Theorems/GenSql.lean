import CgSql.GenSql

/-!
# Texts that are read as the tree

The priorities that decide about parentheses are not those of the grammars, and what is left out of the text had brackets around it. Which
trees are printed so that they are read again is said operand by operand.
-/

namespace CgSql.GenSql

open Mixfix (Text Tree Reads)

/-! ## Operands that need no more parentheses -/

/-- Printed at a place of the priority, the expression shows no operator on its left edge that is looser than the level `n`. -/
def leads (m : Mode) (n : Nat) (pri : Int) : Expr → Bool
  | .binary op l _ => op.pri < pri || (n ≤ op.level && leads m n op.pri l)
  | .concatLike op l _ => exprPriConcat < pri || (n ≤ op.level m.forSqlite && leads m n exprPriConcat l)
  | .postfixed _ e => exprPriEquality < pri || (n ≤ 6 && leads m n exprPriEquality e)
  | .collate e _ => exprPriCollate < pri || (n ≤ 12 && leads m n exprPriCollate e)
  | .dot e _ => m.forSqlite && e.isSelectScope || exprPriReverseApply < pri || (n ≤ 14 && leads m n exprPriReverseApply e)
  | .unary op _ => op.pri < pri || n ≤ (grammar m.forSqlite).preLead op
  | .between _ e _ _ => exprPriEquality < pri || (n ≤ 6 && leads m n exprPriEquality e)
  | .bracketed op e _ => op.pri < pri || (n ≤ (grammar m.forSqlite).brkLevel op && leads m n op.pri e)
  | .elided f e => !f.isElided m || leads m n exprPriRoot e
  | .typeCheck e _ => !m.forSqlite || leads m n exprPriRoot e
  | _ => true

/-- Printed at a place of the priority, the expression shows no operator on its right edge that takes an operator of the level `k` that
follows. -/
def yields (m : Mode) (k : Nat) (pri : Int) : Expr → Bool
  | .binary op _ r => op.pri < pri || (k < op.rightLevel && yields m k (op.pri + 1) r)
  | .concatLike op _ r => exprPriConcat < pri || (k < op.level m.forSqlite + 1 && yields m k exprPriConcat r)
  | .unary op e => op.pri < pri || (k < (grammar m.forSqlite).preLevel op && yields m k op.pri e)
  | .postfixed _ _ => exprPriEquality < pri || (if m.forSqlite then k < 7 else k ≤ 13)
  | .collate _ _ => exprPriCollate < pri || k ≤ (if m.forSqlite then 15 else 13)
  | .dot e _ => m.forSqlite && e.isSelectScope || exprPriReverseApply < pri || k ≤ 15
  | .bracketed op _ _ => op.pri < pri || k ≤ (grammar m.forSqlite).brkCap op
  | .between form _ _ high => exprPriEquality < pri || (k < 7 && yields m k form.highPri high)
  | .elided f e => !f.isElided m || yields m k exprPriRoot e
  | .typeCheck e _ => !m.forSqlite || yields m k exprPriRoot e
  | _ => true

mutual

/-- Every operand is printed as tight as the grammar needs it at its place, and takes nothing of what follows. -/
def Safe (m : Mode) : Expr → Prop
  | .atom _ => True
  | .binary op l r => (yields m op.level op.pri l = true ∧ Safe m l) ∧ leads m op.rightLevel (op.pri + 1) r = true ∧ Safe m r
  | .concatLike op l r => (yields m (op.level m.forSqlite) exprPriConcat l = true ∧ Safe m l) ∧
      leads m (op.level m.forSqlite + 1) exprPriConcat r = true ∧ Safe m r
  | .unary op e => leads m ((grammar m.forSqlite).preLevel op) op.pri e = true ∧ Safe m e
  | .postfixed _ e => yields m 6 exprPriEquality e = true ∧ Safe m e
  | .collate e _ => yields m 12 exprPriCollate e = true ∧ Safe m e
  | .dot e _ => yields m 14 exprPriReverseApply e = true ∧ Safe m e
  | .between form e low high => (yields m 6 exprPriEquality e = true ∧ Safe m e) ∧
      (leads m 4 exprPriEquality low = true ∧ yields m 3 exprPriEquality low = true ∧ Safe m low) ∧
      leads m 7 form.highPri high = true ∧ Safe m high
  | .bracketed op e args => (yields m ((grammar m.forSqlite).brkLevel op) op.pri e = true ∧ Safe m e) ∧ SafeList m args
  | .closed _ args => SafeList m args
  | .elided _ e => Safe m e
  | .typeCheck e _ => Safe m e
  | .cast e _ _ => Safe m e

def SafeList (m : Mode) : List Expr → Prop
  | [] => True
  | e :: es => Safe m e ∧ SafeList m es

end

namespace GenSqlAux

variable {m : Mode}

/-! ## Parentheses -/

@[simp] theorem tree_wrap {sql : Bool} (priNew pri : Int) (t : Text (grammar sql)) : (wrap priNew pri t).tree = t.tree := by
  by_cases h : priNew < pri <;> simp [wrap, h, Text.tree]

@[simp] theorem lead_wrap {sql : Bool} (n : Nat) (priNew pri : Int) (t : Text (grammar sql)) :
    (wrap priNew pri t).lead n = (decide (priNew < pri) || t.lead n) := by
  by_cases h : priNew < pri <;> simp [wrap, h, Text.lead]

@[simp] theorem yields_wrap {sql : Bool} (k : Nat) (priNew pri : Int) (t : Text (grammar sql)) :
    (wrap priNew pri t).yields k = (decide (priNew < pri) || t.yields k) := by
  by_cases h : priNew < pri <;> simp [wrap, h, Text.yields]

@[simp] theorem fits_wrap {sql : Bool} (priNew pri : Int) (t : Text (grammar sql)) : (wrap priNew pri t).Fits ↔ t.Fits := by
  by_cases h : priNew < pri <;> simp [wrap, h, Text.Fits]

theorem eq_null {e : Expr} (h : e.isNull = true) : e = .atom .null := by
  unfold Expr.isNull at h
  split at h
  · rfl
  · cases h

theorem eq_name {e : Expr} (h : e.isSelectScope = true) : ∃ n, e = .atom (.name n) := by
  unfold Expr.isSelectScope at h
  split at h
  · exact ⟨_, rfl⟩
  · cases h

/-! ## Texts of expressions -/

mutual

/-- The text is one of the tree that it stands for. -/
theorem tree_genExpr (pri : Int) : ∀ e, (genExpr m pri e).tree = denoted m e
  | .atom a => rfl
  | .binary op l r => by simp [genExpr, denoted, Text.tree, tree_genExpr]
  | .concatLike op l r => by simp [genExpr, denoted, Text.tree, tree_genExpr]
  | .unary op e => by simp [genExpr, denoted, Text.tree, tree_genExpr]
  | .postfixed op e => by
    simp only [genExpr, denoted, genPostfix, tree_wrap]
    split <;> simp [Text.tree, tree_genExpr]
  | .collate e name => by simp [genExpr, denoted, Text.tree, tree_genExpr]
  | .dot e name => by
    simp only [genExpr, denoted]
    split <;> simp [Text.tree, tree_genExpr]
  | .between form e low high => by simp [genExpr, denoted, Text.tree, tree_genExpr]
  | .bracketed op e args => by simp [genExpr, denoted, Text.tree, tree_genExpr, tree_genList]
  | .closed form args => by simp [genExpr, denoted, Text.tree, tree_genList]
  | .elided f e => by
    simp only [genExpr, denoted]
    split <;> simp [Text.tree, tree_genExpr]
  | .typeCheck e type => by
    simp only [genExpr, denoted]
    split <;> simp [Text.tree, tree_genExpr]
  | .cast e type sameType => by
    by_cases hnull : (m.minifyCasts && e.isNull) = true
    · simp only [Bool.and_eq_true] at hnull
      simp [genExpr, denoted, hnull.1, eq_null hnull.2, Expr.isNull, Text.tree]
    · by_cases hsame : (m.minifyCasts && sameType) = true
      · rw [genExpr, denoted, if_neg hnull, if_pos hsame, if_pos (by rw [Bool.and_or_distrib_left, hsame, Bool.or_true])]
        simp [Text.tree, tree_genExpr]
      · rw [genExpr, denoted, if_neg hnull, if_neg hsame, if_neg (by rw [Bool.and_or_distrib_left]; simp [hnull, hsame])]
        simp [Text.tree, tree_genExpr]

theorem tree_genList : ∀ es, (genList m es).tree = denotedList m es
  | [] => rfl
  | e :: es => by simp [genList, denotedList, Text.tree, tree_genExpr, tree_genList]

end

/-- What the expression shows on its left edge is what its text does. -/
theorem lead_genExpr (n : Nat) (pri : Int) : ∀ e, (genExpr m pri e).lead n = leads m n pri e
  | .atom _ => rfl
  | .closed _ _ => rfl
  | .binary op l r => by simp [genExpr, leads, Text.lead, lead_genExpr]
  | .concatLike op l r => by simp [genExpr, leads, Text.lead, lead_genExpr]
  | .unary op e => by simp [genExpr, leads, Text.lead]
  | .postfixed op e => by
    simp only [genExpr, leads, genPostfix, lead_wrap]
    split
    · cases op <;> (simp [Text.lead, lead_genExpr, PostfixOp.words, BinaryOp.level]; rfl)
    · simp [Text.lead, lead_genExpr]
  | .collate e name => by simp [genExpr, leads, Text.lead, lead_genExpr]
  | .dot e name => by
    simp only [genExpr, leads]
    split
    · rename_i h
      simp [h, Text.lead]
    · rename_i h
      simp [h, Text.lead, lead_genExpr]
  | .between form e low high => by simp [genExpr, leads, Text.lead, lead_genExpr]
  | .bracketed op e args => by simp [genExpr, leads, Text.lead, lead_genExpr]
  | .elided f e => by
    simp only [genExpr, leads]
    split
    · rename_i h
      simp [h, lead_genExpr]
    · rename_i h
      simp [h, Text.lead]
  | .typeCheck e type => by
    simp only [genExpr, leads]
    split
    · rename_i h
      simp [h, lead_genExpr]
    · rename_i h
      simp [h, Text.lead]
  | .cast e type sameType => by
    simp only [genExpr, leads]
    split
    · rfl
    · split <;> rfl

/-- What the expression takes of what follows is what its text does. -/
theorem yields_genExpr (k : Nat) (pri : Int) : ∀ e, (genExpr m pri e).yields k = yields m k pri e
  | .atom _ => rfl
  | .closed _ _ => rfl
  | .binary op l r => by simp [genExpr, yields, Text.yields, yields_genExpr]
  | .concatLike op l r => by simp [genExpr, yields, Text.yields, yields_genExpr]
  | .unary op e => by simp [genExpr, yields, Text.yields, yields_genExpr]
  | .postfixed op e => by
    simp only [genExpr, yields, genPostfix, yields_wrap]
    split
    · rename_i h
      cases op <;> (simp [h, Text.yields, PostfixOp.words, BinaryOp.rightLevel, BinaryOp.level]; rfl)
    · rename_i h
      simp [h, Text.yields]
  | .collate e name => by simp [genExpr, yields, Text.yields]
  | .dot e name => by
    simp only [genExpr, yields]
    split
    · rename_i h
      simp [h, Text.yields]
    · rename_i h
      simp [h, Text.yields]
  | .between form e low high => by simp [genExpr, yields, Text.yields, yields_genExpr]
  | .bracketed op e args => by simp [genExpr, yields, Text.yields]
  | .elided f e => by
    simp only [genExpr, yields]
    split
    · rename_i h
      simp [h, yields_genExpr]
    · rename_i h
      simp [h, Text.yields]
  | .typeCheck e type => by
    simp only [genExpr, yields]
    split
    · rename_i h
      simp [h, yields_genExpr]
    · rename_i h
      simp [h, Text.yields]
  | .cast e type sameType => by
    simp only [genExpr, yields]
    split
    · rfl
    · split <;> rfl

/-- No expression takes a separator. -/
theorem yields_zero (pri : Int) : ∀ e, yields m 0 pri e = true
  | .atom _ | .closed _ _ | .cast _ _ _ => rfl
  | .collate _ _ | .dot _ _ | .bracketed _ _ _ => by simp [yields]
  | .binary op l r => by
    have h : 0 < op.rightLevel := by cases op <;> decide
    simp [yields, yields_zero, h]
  | .concatLike op l r => by simp [yields, yields_zero]
  | .unary op e => by
    have h : 0 < (grammar m.forSqlite).preLevel op := by cases op <;> simp
    simp only [yields, yields_zero, h]
    simp
  | .postfixed op e => by simp [yields]
  | .between form e low high => by simp [yields, yields_zero]
  | .elided f e => by simp [yields, yields_zero]
  | .typeCheck e type => by simp [yields, yields_zero]

mutual

/-- The text fits exactly where the operands are safe. -/
theorem fits_genExpr (pri : Int) : ∀ e, (genExpr m pri e).Fits ↔ Safe m e
  | .atom _ => Iff.rfl
  | .binary op l r => by simp [genExpr, Safe, Text.Fits, fits_genExpr, lead_genExpr, yields_genExpr]
  | .concatLike op l r => by simp [genExpr, Safe, Text.Fits, fits_genExpr, lead_genExpr, yields_genExpr]
  | .unary op e => by simp [genExpr, Safe, Text.Fits, fits_genExpr, lead_genExpr]
  | .postfixed op e => by
    simp only [genExpr, Safe, genPostfix, fits_wrap]
    split
    · cases op <;> simp [Text.Fits, Text.lead, fits_genExpr, yields_genExpr, PostfixOp.words, BinaryOp.level]
    · simp [Text.Fits, fits_genExpr, yields_genExpr]
  | .collate e name => by simp [genExpr, Safe, Text.Fits, fits_genExpr, yields_genExpr]
  | .dot e name => by
    simp only [genExpr, Safe]
    split
    · rename_i h
      simp only [Bool.and_eq_true] at h
      obtain ⟨n, rfl⟩ := eq_name h.2
      simp [Safe, yields, Text.Fits]
    · simp [Text.Fits, fits_genExpr, yields_genExpr]
  | .between form e low high => by
    simp [genExpr, Safe, Text.Fits, fits_genExpr, lead_genExpr, yields_genExpr, BinaryOp.level]
  | .bracketed op e args => by simp [genExpr, Safe, Text.Fits, fits_genExpr, yields_genExpr, fits_genList]
  | .closed form args => by simp [genExpr, Safe, Text.Fits, fits_genList]
  | .elided f e => by
    simp only [genExpr, Safe]
    split <;> simp [Text.Fits, fits_genExpr]
  | .typeCheck e type => by
    simp only [genExpr, Safe]
    split <;> simp [Text.Fits, fits_genExpr]
  | .cast e type sameType => by
    simp only [genExpr, Safe]
    split
    · rename_i h
      simp only [Bool.and_eq_true] at h
      simp [eq_null h.2, Safe, Text.Fits]
    · split <;> simp [Text.Fits, fits_genExpr]

theorem fits_genList : ∀ es, (genList m es).Fits ↔ SafeList m es
  | [] => Iff.rfl
  | e :: es => by
    have hlead : (genList m es).lead 0 = true := Text.lead_zero _
    simp [genList, SafeList, Text.Fits, fits_genExpr, fits_genList, yields_genExpr, yields_zero, hlead]

end

end GenSqlAux

/-! ## Texts that are read -/

/-- The text of an expression is read as the tree that it stands for, by the grammar that it is printed for. -/
def ReadRightly (m : Mode) (e : Expr) : Prop :=
  Reads (.expr 0) (genExpr m exprPriRoot e).tokens (denoted m e) []

/-- An expression is read rightly if and only if its operands are safe. -/
theorem readRightly_iff_safe (m : Mode) (e : Expr) : ReadRightly m e ↔ Safe m e := by
  rw [ReadRightly, ← GenSqlAux.tree_genExpr exprPriRoot e, Mixfix.Text.reads_iff_fits, GenSqlAux.fits_genExpr]

/-! ## The text that is sent to SQLite -/

/-- An expression that is sent to SQLite is read there as the tree it stands for if and only if its operands are safe. -/
theorem sql_readRightly_iff_safe (minifyCasts : Bool) (e : Expr) : ReadRightly ⟨true, minifyCasts⟩ e ↔ Safe ⟨true, minifyCasts⟩ e :=
  readRightly_iff_safe _ e

/-- A name. -/
def named (n : String) : Expr := .atom (.name n)

/-- Some expressions are read as other trees: `a = (b <> c)`, `a -> (b -> c)`, `nullable(a + b) * c`, and a rewritten `BETWEEN` whose last
operand is an equality. -/
theorem sql_readRightly_false : ¬ ReadRightly ⟨true, false⟩ (.binary .eq (named "a") (.binary .ne (named "b") (named "c"))) ∧
    ¬ ReadRightly ⟨true, false⟩ (.concatLike .jex1 (named "a") (.concatLike .jex1 (named "b") (named "c"))) ∧
    ¬ ReadRightly ⟨true, false⟩ (.binary .mul (.elided .nullable (.binary .add (named "a") (named "b"))) (named "c")) ∧
    ¬ ReadRightly ⟨true, false⟩ (.between (.rewrite false) (named "a") (named "b") (.binary .eq (named "c") (named "d"))) := by
  simp only [readRightly_iff_safe]
  refine ⟨fun h => ?_, fun h => ?_, fun h => ?_, fun h => ?_⟩
  · exact absurd h.2.1 (by decide)
  · exact absurd h.2.1 (by decide)
  · exact absurd h.1.1 (by decide)
  · exact absurd h.2.2.1 (by decide)

end CgSql.GenSql
