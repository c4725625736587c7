import CgSql.CodeShape

/-!
# Lemmas about the shape of generated texts

What the generator gives for an expression is described by the expression alone, and all of its texts fit if and only if it is safe.
-/

namespace CgSql.CodeGen

open Nullability Precedence

variable {V : Type}

/-! ## Texts -/

namespace RenderingAux

/-- The operator that a text shows outside of parentheses. -/
def loosestOf : Text V → Option Nat
  | .binary op _ _ => some op.prec
  | _ => none

/-- A text binds at `n` when its loosest operator does. -/
theorem binds_eq (t : Text V) (n : Nat) : t.binds Binary.prec n = (loosestOf t).all (n ≤ ·) := by
  cases t <;> rfl

/-- A prefix has no operator outside of parentheses. -/
theorem isPrefix_eq (t : Text V) : t.isPrefix = (loosestOf t).isNone := by
  cases t <;> rfl

abbrev Fits (t : Text V) : Prop := Precedence.Text.Fits Binary.prec t

/-- All texts of a list fit. -/
def AllFit (ts : List (Text V)) : Prop := ∀ t ∈ ts, Fits t

@[simp] theorem allFit_nil : AllFit ([] : List (Text V)) := nofun

/-- A head and a tail. -/
@[simp] theorem allFit_cons {t : Text V} {ts : List (Text V)} : AllFit (t :: ts) ↔ Fits t ∧ AllFit ts := List.forall_mem_cons

/-- Two lists. -/
@[simp] theorem allFit_append {ts us : List (Text V)} : AllFit (ts ++ us) ↔ AllFit ts ∧ AllFit us := List.forall_mem_append

@[simp] theorem fits_zero : Fits (zero : Text V) := trivial

@[simp] theorem fits_one : Fits (one : Text V) := trivial

@[simp] theorem fits_paren {t : Text V} : Fits (.paren t) ↔ Fits t := Iff.rfl

@[simp] theorem fits_call {f : Function} {l r : Text V} : Fits (.call f l r) ↔ Fits l ∧ Fits r := Iff.rfl

/-- A prefix operator needs an operand without operators. -/
@[simp] theorem fits_unary {op : Prefix} {t : Text V} : Fits (.unary op t) ↔ loosestOf t = none ∧ Fits t := by
  rw [← Option.isNone_iff_eq_none, ← isPrefix_eq]
  rfl

@[simp] theorem fits_notText {t : Text V} : Fits (notText t) ↔ loosestOf t = none ∧ Fits t := fits_unary

/-- Operators group to the left. -/
@[simp] theorem fits_binary {op : Binary} {l r : Text V} : Fits (.binary op l r) ↔
    ((loosestOf l).all (op.prec ≤ ·) = true ∧ Fits l) ∧ (loosestOf r).all (op.prec < ·) = true ∧ Fits r := by
  have h : ∀ t : Text V, (loosestOf t).all (op.prec < ·) = t.binds Binary.prec (op.prec + 1) := fun t => by
    rw [binds_eq]
    rfl
  rw [← binds_eq, h]
  rfl

/-- Parentheses change nothing inside of them. -/
@[simp] theorem fits_parenIf {b : Bool} {t : Text V} : Fits (parenIf b t) ↔ Fits t := by
  cases b <;> rfl

/-- Parentheses hide operators. -/
@[simp] theorem loosestOf_parenIf {b : Bool} {t : Text V} : loosestOf (parenIf b t) = if b then none else loosestOf t := by
  cases b <;> rfl

@[simp] theorem loosestOf_notText (t : Text V) : loosestOf (notText t) = none := rfl

@[simp] theorem loosestOf_paren (t : Text V) : loosestOf (.paren t : Text V) = none := rfl

@[simp] theorem loosestOf_call (f : Function) (l r : Text V) : loosestOf (.call f l r : Text V) = none := rfl

@[simp] theorem loosestOf_unary (op : Prefix) (t : Text V) : loosestOf (.unary op t : Text V) = none := rfl

@[simp] theorem loosestOf_atom (a : Atom V) : loosestOf (.atom a : Text V) = none := rfl

@[simp] theorem loosestOf_zero : loosestOf (zero : Text V) = none := rfl

@[simp] theorem loosestOf_one : loosestOf (one : Text V) = none := rfl

@[simp] theorem loosestOf_binary (op : Binary) (l r : Text V) : loosestOf (.binary op l r : Text V) = some op.prec := rfl

/-! ## Statements -/

/-- The texts of a sequence. -/
@[simp] theorem texts_andThen (a b : Code V) : (a.andThen b).texts = a.texts ++ b.texts := by
  cases a <;> cases b <;> simp [Code.andThen, Code.texts]

/-- A sequence is empty when both parts are. -/
@[simp] theorem isSkip_andThen (a b : Code V) : (a.andThen b).isSkip = (a.isSkip && b.isSkip) := by
  cases a <;> cases b <;> rfl

/-- The texts that tell whether something is null: a prefix that fits. -/
def Plain (t : Text V) : Prop := loosestOf t = none ∧ Fits t

/-- The texts of a variable have no operators. -/
theorem varTexts_plain (t : SemType) (x : Var) : Plain (varTexts (V := V) t x).1 ∧ Plain (varTexts (V := V) t x).2 := by
  unfold varTexts
  split
  · exact ⟨⟨rfl, rfl, trivial⟩, rfl, trivial⟩
  · split <;> exact ⟨⟨rfl, trivial⟩, rfl, trivial⟩

/-- A variable is never known to be null. -/
theorem isOne_varTexts (t : SemType) (x : Var) : isOne (varTexts (V := V) t x).1 = false := by
  unfold varTexts
  split
  · rfl
  · split <;> rfl

variable {x : Var}

/-- The value is dropped where an operand is known to be null. -/
theorem allFit_combineNullables {l r v : Text V} (hl : Fits l) (hr : Fits r) :
    AllFit (combineNullables x l r v).texts ↔ (isOne l || isOne r) = true ∨ Fits v := by
  unfold combineNullables
  split
  · rename_i h
    simp [Code.texts, h]
  · rename_i h
    have hf : AllFit ([l, r].filter fun t => !isZero t) := fun t ht => by
      rcases List.mem_cons.mp (List.mem_of_mem_filter ht) with rfl | ht
      · exact hl
      · exact List.mem_singleton.mp ht ▸ hr
    simp [Code.texts, h, hf]

/-- It is always a statement. -/
theorem isSkip_combineNullables (x : Var) (l r v : Text V) : (combineNullables x l r v).isSkip = false := by
  unfold combineNullables
  split <;> rfl

variable {t : SemType} {c : Ctx} {E : Out V} {r : SemType} {u : SemType} {l : SemType} {code : Code V} {ts : List (Text V)} {negated : Bool}

/-- The normalization of a BOOL keeps its text fit. -/
theorem fits_storedValue {v : Text V} (h : Fits v) : Fits (storedValue t u v) := by
  unfold storedValue
  split
  · exact ⟨rfl, h⟩
  · split
    · exact ⟨rfl, rfl, h⟩
    · exact h

/-- A store of texts that fit. -/
theorem allFit_store {n v : Text V} (hn : Fits n) (hv : Fits v) : AllFit (store x t u n v).texts := by
  dsimp only [store]
  split
  · exact allFit_nil
  · split
    · exact allFit_cons.mpr ⟨fits_storedValue hv, allFit_nil⟩
    · exact (allFit_combineNullables hn fits_zero).mpr (.inr (fits_storedValue hv))

/-- A store to a scratch variable. -/
theorem allFit_storeNew {n v : Text V} (hn : Fits n) (hv : Fits v) : AllFit (storeNew x t n v).texts := by
  unfold storeNew
  split
  · exact allFit_cons.mpr ⟨hv, allFit_nil⟩
  · exact (allFit_combineNullables hn fits_zero).mpr (.inr hv)

/-- It is a statement too. -/
theorem isSkip_storeNew (x : Var) (t : SemType) (n v : Text V) : (storeNew x t n v).isSkip = false := by
  unfold storeNew
  split
  · rfl
  · exact isSkip_combineNullables x n zero v

/-- NULL fits everywhere. -/
theorem allFit_setNullCode (x : Var) (t : SemType) : AllFit (setNullCode (V := V) x t).texts := by
  unfold setNullCode
  split
  · exact allFit_cons.mpr ⟨trivial, allFit_nil⟩
  · split <;> exact allFit_nil

/-- The test for true fits. -/
theorem fits_ifTrue {n v : Text V} (hn : Fits n) (hv : Fits v) : Fits (ifTrue n v) := by
  unfold ifTrue
  split
  · exact hv
  · split
    · exact fits_zero
    · exact ⟨hn, hv⟩

/-- The test for false fits. -/
theorem fits_ifFalse {n v : Text V} (hn : Fits n) (hv : Fits v) : Fits (ifFalse n v) := by
  unfold ifFalse
  split
  · exact ⟨rfl, hv⟩
  · split
    · exact fits_zero
    · exact ⟨hn, hv⟩

/-! ## What a call gives -/

/-- The texts of a call are among those given; the null text is a prefix. -/
structure Shaped (E : Out V) : Prop where
  isNull : Plain E.isNull
  mem : E.value ∈ E.produced

/-- All texts of a call fit. -/
def OutFit (E : Out V) : Prop := AllFit E.produced ∧ AllFit E.code.texts

/-- The value is among the texts. -/
theorem Shaped.fits (h : Shaped E) (hE : OutFit E) : Fits E.value := hE.1 _ h.mem

/-- Plain null texts give a shape. -/
theorem shaped_out {n v : Text V} {level : Nat} (hn : Plain n) : Shaped (out n v code level ts) := ⟨hn, .tail _ (.head _)⟩

/-- The result in a variable. -/
theorem shaped_outVar : Shaped (outVar c t x code ts) :=
  shaped_out (varTexts_plain t x).1

theorem plain_zero : Plain (zero : Text V) := ⟨rfl, trivial⟩

theorem plain_one : Plain (one : Text V) := ⟨rfl, trivial⟩

/-- What has to fit of a result. -/
theorem outFit_out {n v : Text V} {level : Nat} (hn : Plain n) : OutFit (out n v code level ts) ↔ Fits v ∧ AllFit ts ∧ AllFit code.texts := by
  simp [OutFit, out, hn.2, and_assoc]

/-- Of a result in a variable, the statements. -/
theorem outFit_outVar : OutFit (outVar c t x code ts) ↔ AllFit ts ∧ AllFit code.texts := by
  unfold outVar
  rw [outFit_out (varTexts_plain t x).1]
  exact and_iff_right (varTexts_plain t x).2.2

/-- A variable has no operators. -/
theorem loosestOf_outVar (c : Ctx) (t : SemType) (x : Var) (code : Code V) (ts : List (Text V)) :
    loosestOf (outVar c t x code ts).value = none := (varTexts_plain t x).2.1

/-- It is not known to be null. -/
theorem isOne_outVar (c : Ctx) (t : SemType) (x : Var) (code : Code V) (ts : List (Text V)) :
    isOne (outVar c t x code ts).isNull = false := isOne_varTexts t x

/-- The null value of a type is plain. -/
theorem plain_nullZero (t : SemType) : Plain (nullZero (V := V) t) := by
  unfold nullZero
  split <;> exact ⟨rfl, trivial⟩

/-- What the four parts of a call's result look like. -/
structure Described (e : Expr V) (c : Ctx) : Prop where
  shaped : Shaped (cgExpr c e)
  isOne : isOne (cgExpr c e).isNull = e.knownNull
  loosest : loosestOf (cgExpr c e).value = e.loosest c.pri c.right
  isSkip : (cgExpr c e).code.isSkip = e.plain

/-- The operator that a context sees. -/
theorem shown_eq (c : Ctx) (own : Nat) : (if c.needsParen own = true then none else some own) = shown own c.pri c.right := by
  simp only [Ctx.needsParen, shown]
  split <;> rfl

/-- The result of a unary operator. -/
theorem unaryOut_described {op : Prefix} {plain : Bool} (hE : E.code.isSkip = plain) :
    Shaped (unaryOut c t u op E) ∧ isOne (unaryOut c t u op E).isNull = false ∧ loosestOf (unaryOut c t u op E).value = none ∧
      (unaryOut c t u op E).code.isSkip = (u.notNull && plain) := by
  dsimp only [unaryOut]
  split
  · rename_i hu
    exact ⟨shaped_out plain_zero, rfl, by simp [out], by simp [out, hu, hE]⟩
  · rename_i hu
    exact ⟨shaped_outVar, isOne_outVar .., loosestOf_outVar .., by simp [outVar, out, hu, isSkip_combineNullables]⟩

/-- The result of an operator on two operands. -/
theorem strictOut_described {plain boxed : Text V} {L R : Out V} :
    Shaped (strictOut c t l r plain boxed L R) ∧ isOne (strictOut c t l r plain boxed L R).isNull = false ∧
      loosestOf (strictOut c t l r plain boxed L R).value = (if l.notNull && r.notNull then loosestOf plain else none) ∧
      (strictOut c t l r plain boxed L R).code.isSkip = (l.notNull && r.notNull && (L.code.isSkip && R.code.isSkip)) := by
  dsimp only [strictOut]
  split
  · rename_i h
    refine ⟨shaped_out plain_zero, rfl, rfl, ?_⟩
    rw [h, Bool.true_and]
    exact isSkip_andThen ..
  · rename_i h
    refine ⟨shaped_outVar, isOne_outVar .., loosestOf_outVar .., ?_⟩
    rw [eq_false_of_ne_true h, Bool.false_and]
    simp [outVar, out, isSkip_combineNullables]

/-- Results of binary operators. -/
theorem binaryOut_described {op : Binary} {L R : Out V} : Shaped (binaryOut c t l r op L R) ∧ isOne (binaryOut c t l r op L R).isNull = false ∧
      loosestOf (binaryOut c t l r op L R).value = (if l.notNull && r.notNull then shown op.prec c.pri c.right else none) ∧
      (binaryOut c t l r op L R).code.isSkip = (l.notNull && r.notNull && (L.code.isSkip && R.code.isSkip)) := by
  obtain ⟨h₁, h₂, h₃, h₄⟩ := strictOut_described (c := c) (t := t) (l := l) (r := r) (L := L) (R := R)
  refine ⟨h₁, h₂, h₃.trans ?_, h₄⟩
  rw [loosestOf_parenIf, loosestOf_binary, shown_eq]

/-- Only a NOT NULL number is not set. -/
theorem isSkip_setNullCode (x : Var) (t : SemType) : (setNullCode (V := V) x t).isSkip = (!isRef t.core && t.notNull) := by
  unfold setNullCode
  split
  · rename_i h
    simp [Code.isSkip, h]
  · rename_i h
    split <;> simp_all [Code.isSkip]

/-- The result of IS [NOT] NULL. -/
theorem isNullOut_described (hE : Shaped E) :
    Shaped (isNullOut negated E) ∧ isOne (isNullOut negated E).isNull = false ∧ loosestOf (isNullOut negated E).value = none ∧
      (isNullOut negated E).code.isSkip = E.code.isSkip := by
  refine ⟨shaped_out plain_zero, rfl, ?_, rfl⟩
  cases negated
  · exact hE.isNull.1
  · rfl

/-- Every expression has the result that is described, by induction. -/
theorem described : ∀ (e : Expr V) (c : Ctx), Described e c
  | .null, c => ⟨shaped_out plain_one, rfl, rfl, rfl⟩
  | .bit _ _, c => ⟨shaped_out plain_zero, rfl, rfl, rfl⟩
  | .literal _ _, c => ⟨shaped_out plain_zero, rfl, rfl, rfl⟩
  | .var t x, c => ⟨shaped_out (varTexts_plain _ _).1, isOne_varTexts _ _, (varTexts_plain _ _).2.1, rfl⟩
  | .unary op e, c => by
    obtain ⟨h₁, h₂, h₃, h₄⟩ := unaryOut_described (described e (.left 10 (c.level + 1))).isSkip
    exact ⟨h₁, h₂, h₃, h₄⟩
  | .not e, c => by
    obtain ⟨h₁, h₂, h₃, h₄⟩ := unaryOut_described (described e (.left 10 (c.level + 1))).isSkip
    exact ⟨h₁, h₂, h₃, h₄⟩
  | .binary op l r, c => by
    by_cases ht : (Expr.binary op l r).type = ⟨.null, false⟩
    · have hb : bothNotNull l r = false := congrArg SemType.notNull ht
      constructor <;> simp only [cgExpr, Expr.knownNull, Expr.loosest, Expr.plain, ht, hb, if_true, decide_true, Bool.true_or]
      · exact shaped_out plain_one
      · rfl
      · rfl
      · rfl
    · have hL := described l (.left (mathBinary op).prec (c.level + 1))
      have hR := described r (.rightOf (mathBinary op).prec (cgExpr (.left (mathBinary op).prec (c.level + 1)) l).level)
      constructor <;> simp only [cgExpr, Expr.knownNull, Expr.loosest, Expr.plain, ht, if_false, decide_false, Bool.false_or]
      · exact binaryOut_described.1
      · exact binaryOut_described.2.1
      · exact binaryOut_described.2.2.1
      · rw [binaryOut_described.2.2.2, hL.isSkip, hR.isSkip]
        rfl
  | .compare op l r, c => by
    have hL := described l (.left 6 (c.level + 1))
    have hR := described r (.rightOf 6 (cgExpr (.left 6 (c.level + 1)) l).level)
    constructor <;> simp only [cgExpr, Expr.knownNull, Expr.loosest, Expr.plain] <;> split
    · exact strictOut_described.1
    · exact binaryOut_described.1
    · exact strictOut_described.2.1
    · exact binaryOut_described.2.1
    · refine strictOut_described.2.2.1.trans ?_
      rw [loosestOf_parenIf, loosestOf_binary, show (compareBinary op).prec = 6 by cases op <;> rfl, shown_eq]
      rfl
    · refine binaryOut_described.2.2.1.trans ?_
      rw [show (compareBinary op).prec = 6 by cases op <;> rfl]
      rfl
    · rw [compareOut, strictOut_described.2.2.2, hL.isSkip, hR.isSkip]
      rfl
    · rw [binaryOut_described.2.2.2, hL.isSkip, hR.isSkip]
      rfl
  | .eqNe negated l r, c => by
    have hL := described l (.left 5 (c.level + 1))
    have hR := described r (.rightOf 5 (cgExpr (.left 5 (c.level + 1)) l).level)
    have hp : (eqBinary negated).prec = 5 := by cases negated <;> rfl
    by_cases htext : l.type.core = .text ∧ r.type.core = .text
    · constructor <;> simp only [cgExpr, Expr.knownNull, Expr.loosest, Expr.plain, htext, and_self, if_true]
      · exact strictOut_described.1
      · exact strictOut_described.2.1
      · refine strictOut_described.2.2.1.trans ?_
        rw [loosestOf_parenIf, loosestOf_binary, hp, shown_eq]
        simp [bothNotNull]
      · rw [compareOut, strictOut_described.2.2.2, hL.isSkip, hR.isSkip]
        rfl
    by_cases hblob : l.type.core = .blob ∧ r.type.core = .blob
    · constructor <;> simp only [cgExpr, Expr.knownNull, Expr.loosest, Expr.plain, if_neg htext, if_pos hblob]
      · exact strictOut_described.1
      · exact strictOut_described.2.1
      · refine strictOut_described.2.2.1.trans ?_
        cases negated <;> simp [hblob]
      · rw [compareOut, strictOut_described.2.2.2, hL.isSkip, hR.isSkip]
        rfl
    · constructor <;> simp only [cgExpr, Expr.knownNull, Expr.loosest, Expr.plain, htext, hblob, if_false]
      · exact binaryOut_described.1
      · exact binaryOut_described.2.1
      · refine binaryOut_described.2.2.1.trans ?_
        rw [hp]
        simp [bothNotNull]
      · rw [binaryOut_described.2.2.2, hL.isSkip, hR.isSkip]
        rfl
  | .like negated l r, c => by
    have hL := described l (.left 5 (c.level + 1))
    have hR := described r (.rightOf 5 (cgExpr (.left 5 (c.level + 1)) l).level)
    constructor <;> simp only [cgExpr, Expr.knownNull, Expr.loosest, Expr.plain]
    · exact strictOut_described.1
    · exact strictOut_described.2.1
    · refine strictOut_described.2.2.1.trans ?_
      rw [loosestOf_parenIf, loosestOf_binary, show (eqBinary negated).prec = 5 by cases negated <;> rfl, shown_eq]
      rfl
    · rw [compareOut, strictOut_described.2.2.2, hL.isSkip, hR.isSkip]
      rfl
  | .logical op l r, c => by
    have hL := described l (.left (if op = .or then 1 else 2) (c.level + 1))
    have hR := described r (.rightOf (if op = .or then 1 else 2)
      (cgExpr (.left (if op = .or then 1 else 2) (c.level + 1)) l).level)
    have hp : (if op = .or then Binary.lor else Binary.land).prec = if op = .or then 1 else 2 := by cases op <;> rfl
    constructor <;> simp only [cgExpr, logicalOut, Expr.knownNull, Expr.loosest, Expr.plain, hR.isSkip] <;> split
    · exact shaped_out plain_zero
    · exact shaped_outVar
    · rfl
    · exact isOne_outVar ..
    · rename_i h
      rw [if_pos (show (bothNotNull l r && r.plain) = true from h)]
      simp only [out, loosestOf_parenIf, loosestOf_binary, shown_eq, hp]
    · rename_i h
      rw [if_neg (show ¬(bothNotNull l r && r.plain) = true from h)]
      exact loosestOf_outVar ..
    · rename_i h
      have h : (bothNotNull l r && r.plain) = true := h
      rw [Bool.and_eq_true] at h
      simp only [out, hL.isSkip, h.1, h.2, Bool.true_and, Bool.and_true]
    · rename_i h
      have h : ¬(bothNotNull l r && r.plain) = true := h
      have hlogical : ∀ x, (if (l.isNullLiteral && r.isNullLiteral) = true then Code.setNull x
          else logicalCode op x (Expr.logical op l r).type r.type (cgExpr (.left (if op = .or then 1 else 2) (c.level + 1)) l)
            (cgExpr (.rightOf (if op = .or then 1 else 2)
              (cgExpr (.left (if op = .or then 1 else 2) (c.level + 1)) l).level) r)).isSkip = false := fun x => by
        split <;> rfl
      simp only [outVar, out, isSkip_andThen, hlogical, Bool.and_false]
      cases hb : bothNotNull l r <;> cases hr : r.plain <;> simp_all
  | .is negated l r, c => by
    by_cases hl : l.isNullLiteral = true
    · by_cases hf : (r.type.notNull && !isRef r.type.core) = true
      · constructor <;> simp only [cgExpr, Expr.knownNull, Expr.loosest, Expr.plain, hl, hf, if_true, Bool.true_or]
        · exact shaped_out plain_zero
        · rfl
        · rfl
        · rfl
      · have hR := described r (.root c.level)
        have hf : (r.type.notNull && !isRef r.type.core) = false := eq_false_of_ne_true hf
        constructor <;> simp only [cgExpr, Expr.knownNull, Expr.loosest, Expr.plain, hl, hf, if_true, Bool.true_or, Bool.false_or,
          Bool.false_eq_true, if_false]
        · exact (isNullOut_described hR.shaped).1
        · exact (isNullOut_described hR.shaped).2.1
        · exact (isNullOut_described hR.shaped).2.2.1
        · exact (isNullOut_described hR.shaped).2.2.2.trans hR.isSkip
    by_cases hr : r.isNullLiteral = true
    · by_cases hf : (l.type.notNull && !isRef l.type.core) = true
      · constructor <;> simp only [cgExpr, Expr.knownNull, Expr.loosest, Expr.plain, hl, hr, hf, if_true, Bool.true_or, Bool.or_true,
          if_false, Bool.false_eq_true]
        · exact shaped_out plain_zero
        · rfl
        · rfl
        · rfl
      · have hL := described l (.root c.level)
        have hf : (l.type.notNull && !isRef l.type.core) = false := eq_false_of_ne_true hf
        constructor <;> simp only [cgExpr, Expr.knownNull, Expr.loosest, Expr.plain, hl, hr, hf, if_true, Bool.or_true, Bool.false_or,
          Bool.false_eq_true, if_false]
        · exact (isNullOut_described hL.shaped).1
        · exact (isNullOut_described hL.shaped).2.1
        · exact (isNullOut_described hL.shaped).2.2.1
        · exact (isNullOut_described hL.shaped).2.2.2.trans hL.isSkip
    · have hL := described l (.left 5 c.level)
      have hR := described r (.rightOf 5 (cgExpr (.left 5 c.level) l).level)
      have hl : l.isNullLiteral = false := eq_false_of_ne_true hl
      have hr : r.isNullLiteral = false := eq_false_of_ne_true hr
      constructor <;> simp only [cgExpr, isOut, Expr.knownNull, Expr.loosest, Expr.plain, hl, hr, Bool.false_eq_true, if_false, Bool.or_self]
      · exact shaped_out plain_zero
      · rfl
      · simp only [out]
        have hcalls : (l.type.core = .text ∨ r.type.core = .text ∨ l.type.core = .blob ∨ r.type.core = .blob) ↔
            (l.type.core = .text ∨ r.type.core = .text) ∨ l.type.core = .blob ∨ r.type.core = .blob := or_assoc.symm
        by_cases htext : l.type.core = .text ∨ r.type.core = .text
        · simp only [if_pos htext, if_pos (hcalls.mpr (.inl htext))]
          cases negated <;> rfl
        by_cases hblob : l.type.core = .blob ∨ r.type.core = .blob
        · simp only [if_neg htext, if_pos hblob, if_pos (hcalls.mpr (.inr hblob))]
          cases negated <;> rfl
        simp only [if_neg htext, if_neg hblob, if_neg fun h => (hcalls.mp h).elim htext hblob]
        by_cases hn : (bothNotNull l r || isRef l.type.core || isRef r.type.core) = true
        · rw [if_pos hn, if_pos (show (l.type.notNull && r.type.notNull || isRef l.type.core || isRef r.type.core) = true from hn),
            loosestOf_parenIf, loosestOf_binary, show (eqBinary negated).prec = 5 by cases negated <;> rfl, shown_eq]
        · rw [if_neg hn, if_neg (show ¬(l.type.notNull && r.type.notNull || isRef l.type.core || isRef r.type.core) = true from hn)]
          cases negated <;> rfl
      · simp only [out, isSkip_andThen, hL.isSkip, hR.isSkip]
  | .isTruth negated value e, c => by
    have hE := described e (.root c.level)
    refine ⟨shaped_out plain_zero, rfl, ?_, hE.isSkip⟩
    simp only [cgExpr, isTruthOut, out, Expr.loosest]
    split <;> split <;> rfl
  | .between name e test, c => by
    by_cases h : e.isNullLiteral = true
    · constructor <;> simp only [cgExpr, Expr.knownNull, Expr.loosest, Expr.plain, h, if_true, Bool.true_or]
      · exact shaped_out plain_one
      · rfl
      · rfl
      · rfl
    · have h : e.isNullLiteral = false := eq_false_of_ne_true h
      have hT := described test ⟨c.pri, true, none, (cgExpr (.root c.level) e).level⟩
      constructor <;> simp only [cgExpr, Expr.knownNull, Expr.loosest, Expr.plain, h, Bool.false_eq_true, if_false, Bool.false_or]
      · exact shaped_out hT.shaped.isNull
      · exact hT.isOne
      · exact hT.loosest
      · simp only [out, isSkip_andThen, isSkip_storeNew, Bool.false_and, Bool.and_false]
  | .inPred negated e items, c => by
    by_cases h : e.type.core = .null
    · constructor <;> simp only [cgExpr, Expr.knownNull, Expr.loosest, Expr.plain, h, if_true, decide_true, Bool.true_and]
      · exact shaped_outVar
      · exact isOne_outVar ..
      · exact loosestOf_outVar ..
      · simp [outVar, out, isSkip_setNullCode, Expr.type, isRef]
    · constructor <;> simp only [cgExpr, Expr.knownNull, Expr.loosest, Expr.plain, h, if_false, decide_false, Bool.false_and]
      · exact shaped_outVar
      · exact isOne_outVar ..
      · exact loosestOf_outVar ..
      · rfl
  | .caseExpr _ _ _, c => ⟨shaped_outVar, isOne_outVar .., loosestOf_outVar .., rfl⟩
  | .coalesce _, c => ⟨shaped_outVar, isOne_outVar .., loosestOf_outVar .., rfl⟩
  | .cast e core, c => by
    have hE := described e (.root (c.level + 1))
    by_cases hn : e.type.core = .null
    · constructor <;> simp only [cgExpr, castOut, Expr.knownNull, Expr.loosest, Expr.plain, hn, if_true, true_or, ne_eq,
        not_true_eq_false, false_and, if_false]
      · exact shaped_out plain_one
      · rfl
      · exact (plain_nullZero _).1
      · exact hE.isSkip
    by_cases hc : e.type.core = core
    · obtain rfl := hc
      constructor <;> simp only [cgExpr, castOut, Expr.type, Expr.knownNull, Expr.loosest, Expr.plain, hn, if_true, or_true, ne_eq,
        not_false_eq_true, and_self, if_false]
      · exact shaped_out hE.shaped.isNull
      · exact hE.isOne
      · exact hE.loosest
      · exact hE.isSkip
    · constructor <;> simp only [cgExpr, castOut, Expr.type, Expr.knownNull, Expr.loosest, Expr.plain, hn, hc, or_self, and_false,
        if_false] <;> split
      · exact shaped_out plain_zero
      · exact shaped_outVar
      · rfl
      · exact isOne_outVar ..
      · rfl
      · exact loosestOf_outVar ..
      · rename_i h
        simp only [out, h, hE.isSkip, Bool.true_and]
      · rename_i h
        simp [outVar, out, h, isSkip_combineNullables]
  | .typeCheck e, c => by
    have hE := described e (.root c.level)
    exact ⟨shaped_out plain_zero, rfl, hE.loosest, hE.isSkip⟩

/-! ## When all texts fit -/

/-- A unary operator fits when its operand is null or has no operators. -/
theorem unaryOut_fit {op : Prefix} (hE : Shaped E) :
    OutFit (unaryOut c t u op E) ↔ OutFit E ∧ ((!u.notNull && isOne E.isNull) = true ∨ loosestOf E.value = none) := by
  have hv := hE.fits
  dsimp only [unaryOut]
  split
  · rename_i hu
    rw [outFit_out plain_zero, fits_parenIf, fits_unary, hu]
    unfold OutFit at *
    simp only [Bool.not_true, Bool.false_and, Bool.false_eq_true, false_or]
    tauto
  · rename_i hu
    rw [outFit_outVar, texts_andThen, allFit_append, allFit_combineNullables hE.isNull.2 fits_zero, fits_parenIf, fits_unary,
      eq_false_of_ne_true hu]
    unfold OutFit at *
    simp only [Bool.not_false, Bool.true_and, show isOne (zero : Text V) = false from rfl, Bool.or_false]
    tauto

/-- An operator that is null when an operand is. -/
theorem strictOut_fit {plain boxed : Text V} {L R : Out V} (hL : Shaped L) (hR : Shaped R) :
    OutFit (strictOut c t l r plain boxed L R) ↔ (OutFit L ∧ OutFit R) ∧
      (if l.notNull && r.notNull then Fits plain else (isOne L.isNull || isOne R.isNull) = true ∨ Fits boxed) := by
  dsimp only [strictOut]
  split
  · rw [outFit_out plain_zero, texts_andThen, allFit_append, allFit_append]
    unfold OutFit
    tauto
  · rw [outFit_outVar, texts_andThen, texts_andThen, allFit_append, allFit_append, allFit_append, allFit_combineNullables hL.isNull.2 hR.isNull.2]
    unfold OutFit
    tauto

/-- Where a text fits whenever those of the operands do, nothing more is asked for. -/
theorem strictOut_fit_of_fits {text : Text V} {L R : Out V} (hL : Shaped L) (hR : Shaped R)
    (htext : Fits L.value → Fits R.value → Fits text) : OutFit (strictOut c t l r text text L R) ↔ OutFit L ∧ OutFit R := by
  rw [strictOut_fit hL hR]
  refine and_iff_left_of_imp fun h => ?_
  have h := htext (hL.fits h.1) (hR.fits h.2)
  split
  · exact h
  · exact .inr h

/-- A binary operator on two results. -/
theorem binaryOut_fit {op : Binary} {L R : Out V} (hL : Shaped L) (hR : Shaped R) :
    OutFit (binaryOut c t l r op L R) ↔ (OutFit L ∧ OutFit R) ∧ ((!(l.notNull && r.notNull) && (isOne L.isNull || isOne R.isNull)) = true ∨
        ((loosestOf L.value).all (op.prec ≤ ·) && (loosestOf R.value).all (op.prec < ·)) = true) := by
  unfold binaryOut
  rw [strictOut_fit hL hR, fits_parenIf, fits_binary, Bool.and_eq_true ((loosestOf L.value).all _)]
  have hl := hL.fits
  have hr := hR.fits
  split
  · rename_i h
    simp only [h, Bool.not_true, Bool.false_and, Bool.false_eq_true, false_or]
    tauto
  · rename_i h
    simp only [eq_false_of_ne_true h, Bool.not_false, Bool.true_and]
    tauto

/-- The test of an item of IN or of a WHEN. -/
theorem fits_itemTest {blobs : Bool} {operand : Text V} (ho : Plain operand) (hE : Shaped E)
    (hv : Fits E.value) : Fits (itemTest blobs operand u E) ↔
      (decide (u.core = .text) || (blobs && decide (u.core = .blob)) || (loosestOf E.value).all (5 < ·)) = true := by
  have hp : (if u.core = .blob then Binary.eqRef else Binary.eq).prec = 5 := by split <;> rfl
  have hbinary : Fits (.binary (if u.core = .blob then .eqRef else .eq) operand E.value : Text V) ↔
      (loosestOf E.value).all (5 < ·) = true := by
    rw [fits_binary, ho.1, hp]
    exact ⟨fun h => h.2.1, fun h => ⟨⟨rfl, ho.2⟩, h, hv⟩⟩
  dsimp only [itemTest]
  split
  · rename_i h
    simp [h, ho.2, hv]
  · rename_i htext
    split
    · rename_i h
      simp [h, ho.2, hv]
    · rename_i hblob
      have hb : (blobs && decide (u.core = .blob)) = false := by
        rw [Bool.eq_false_iff, Ne, Bool.and_eq_true, decide_eq_true_eq]
        exact hblob
      rw [decide_eq_false htext, hb, Bool.or_self, Bool.false_or]
      split
      · exact hbinary
      · exact (and_iff_right hE.isNull.2).trans hbinary

/-- The statements of AND and OR. -/
theorem allFit_logicalCode {op : LogicalOp} {L R : Out V} (hL : Shaped L) (hR : Shaped R) (hvL : Fits L.value)
    (hvR : Fits R.value) : AllFit (logicalCode op x t r L R).texts ↔ AllFit R.code.texts := by
  have hshort : ∀ o : Out V, Shaped o → Fits o.value →
      Fits (if op = .or then ifTrue o.isNull o.value else ifFalse o.isNull o.value) := fun o ho hv => by
    split
    · exact fits_ifTrue ho.isNull.2 hv
    · exact fits_ifFalse ho.isNull.2 hv
  have hbit : ∀ a b : Text V, Fits a → Fits b → Fits (if op = .or then a else b) := fun a b ha hb => by
    split <;> assumption
  have hdecided : AllFit (store x t t zero (if op = .or then one else zero : Text V)).texts :=
    allFit_store fits_zero (hbit _ _ fits_one fits_zero)
  have hrest : AllFit (if t.notNull then store x t r zero R.value
      else Code.ite (if op = .or then ifTrue R.isNull R.value else ifFalse R.isNull R.value)
        (store x t t zero (if op = .or then one else zero))
        (combineNullables x L.isNull R.isNull (if op = .or then zero else one))).texts := by
    split
    · exact allFit_store fits_zero hvR
    · simp only [Code.texts, allFit_cons, allFit_append]
      exact ⟨hshort R hR hvR, hdecided, (allFit_combineNullables hL.isNull.2 hR.isNull.2).mpr (.inr (hbit _ _ fits_zero fits_one))⟩
  simp only [logicalCode, Code.texts, allFit_cons, allFit_append, texts_andThen]
  exact ⟨fun h => h.2.2.1, fun h => ⟨hshort L hL hvL, hdecided, h, hrest⟩⟩

/-- AND and OR on two results. -/
theorem logicalOut_fit {op : LogicalOp} {bothNull : Bool} {L R : Out V} (hL : Shaped L) (hR : Shaped R)
    (hboth : bothNull = true → R.code.isSkip = true) :
    OutFit (logicalOut c t r op bothNull L R) ↔ (OutFit L ∧ OutFit R) ∧ ((!(t.notNull && R.code.isSkip)) = true ∨
      ((loosestOf L.value).all ((if op = .or then 1 else 2) ≤ ·) && (loosestOf R.value).all ((if op = .or then 1 else 2) < ·)) = true) := by
  have hl := hL.fits
  have hr := hR.fits
  have hskip : R.code.isSkip = true → AllFit R.code.texts := fun h => by
    cases hc : R.code <;> rw [hc] at h <;> first | exact allFit_nil | cases h
  have hp : (if op = .or then Binary.lor else Binary.land).prec = if op = .or then 1 else 2 := by cases op <;> rfl
  dsimp only [logicalOut]
  split
  · rename_i h
    rw [outFit_out plain_zero, fits_parenIf, fits_binary, hp, allFit_append, h, Bool.and_eq_true ((loosestOf L.value).all _)]
    have hskip := hskip ((Bool.and_eq_true _ _).mp h).2
    unfold OutFit at *
    simp only [Bool.not_true, Bool.false_eq_true, false_or]
    tauto
  · rename_i h
    rw [outFit_outVar, texts_andThen, allFit_append, allFit_append, eq_false_of_ne_true h, Bool.not_false]
    simp only [true_or, and_true]
    split
    · rename_i hb
      have hskip := hskip (hboth hb)
      unfold OutFit
      simp only [Code.texts, allFit_nil, and_true]
      tauto
    · have hvL : AllFit L.produced → Fits L.value := fun h => h _ hL.mem
      have hvR : AllFit R.produced → Fits R.value := fun h => h _ hR.mem
      have hcode : AllFit L.produced → AllFit R.produced →
          (AllFit (logicalCode op (c.resultVar t) t r L R).texts ↔ AllFit R.code.texts) := fun h₁ h₂ =>
        allFit_logicalCode hL hR (hvL h₁) (hvR h₂)
      unfold OutFit
      constructor
      · rintro ⟨⟨h₁, h₂⟩, h₃, h₄⟩
        exact ⟨⟨h₁, h₃⟩, h₂, (hcode h₁ h₂).mp h₄⟩
      · rintro ⟨⟨h₁, h₃⟩, h₂, h₄⟩
        exact ⟨⟨h₁, h₂⟩, h₃, (hcode h₁ h₂).mpr h₄⟩

/-- IS NULL adds no condition. -/
theorem isNullOut_fit (hE : Shaped E) : OutFit (isNullOut negated E) ↔ OutFit E := by
  unfold isNullOut
  rw [outFit_out plain_zero]
  refine and_iff_right ?_
  cases negated
  · exact hE.isNull.2
  · exact ⟨(isPrefix_eq _).trans (by rw [hE.isNull.1]; rfl), hE.isNull.2⟩

/-- Nor do IS TRUE and IS FALSE. -/
theorem isTruthOut_fit {value : Bool} (hE : Shaped E) : OutFit (isTruthOut negated value u E) ↔ OutFit E := by
  dsimp only [isTruthOut]
  rw [outFit_out plain_zero]
  refine and_iff_right_of_imp fun h => ?_
  have hv := hE.fits h
  have hn := hE.isNull.2
  split <;> split <;> simp [hv, hn]

/-- Nor does a cast. -/
theorem castOut_fit (hE : Shaped E) : OutFit (castOut c t u E) ↔ OutFit E := by
  have hv := hE.fits
  dsimp only [castOut]
  split
  · rw [outFit_out plain_one]
    exact and_iff_right (plain_nullZero t).2
  split
  · rw [outFit_out hE.isNull]
    exact and_iff_right_of_imp hv
  · have harg : Fits E.value → Fits (.paren (.unary (.cast t.core)
        (if u.core = .bool ∨ t.core = .bool then notText (notText (.paren E.value)) else .paren E.value)) : Text V) := fun h => by
      split <;> simp [h]
    split
    · rw [outFit_out plain_zero]
      exact and_iff_right_of_imp fun h => harg (hv h)
    · rw [outFit_outVar, texts_andThen, allFit_append]
      refine and_congr_right fun h => ?_
      refine and_iff_left_of_imp fun _ => ?_
      exact (allFit_combineNullables hE.isNull.2 fits_zero).mpr (.inr (harg (h _ hE.mem)))

/-- IS on two results. -/
theorem isOut_fit {L R : Out V} (hL : Shaped L) (hR : Shaped R) :
    OutFit (isOut c negated l r L R) ↔ (OutFit L ∧ OutFit R) ∧ ((l.core = .text ∨ r.core = .text ∨ l.core = .blob ∨ r.core = .blob) ∨
        ((loosestOf L.value).all (5 ≤ ·) && (loosestOf R.value).all (5 < ·)) = true) := by
  have hl := hL.fits
  have hr := hR.fits
  have hnegate : ∀ t : Text V, loosestOf t = none → (Fits (if negated = true then notText t else t) ↔ Fits t) := fun t ht => by
    split
    · exact fits_notText.trans (and_iff_right ht)
    · rfl
  have hp : (eqBinary negated).prec = 5 := by cases negated <;> rfl
  dsimp only [isOut]
  rw [outFit_out plain_zero, texts_andThen, allFit_append, allFit_append, Bool.and_eq_true ((loosestOf L.value).all _)]
  have hop : ∀ T : Text V, (Fits L.value → Fits R.value → (Fits T ↔ (l.core = .text ∨ r.core = .text ∨ l.core = .blob ∨ r.core = .blob) ∨
        (loosestOf L.value).all (5 ≤ ·) = true ∧ (loosestOf R.value).all (5 < ·) = true)) →
      (Fits T → Fits L.value ∧ Fits R.value) →
      (Fits T ∧ (AllFit L.produced ∧ AllFit R.produced) ∧ AllFit L.code.texts ∧ AllFit R.code.texts ↔
        (OutFit L ∧ OutFit R) ∧ ((l.core = .text ∨ r.core = .text ∨ l.core = .blob ∨ r.core = .blob) ∨
          (loosestOf L.value).all (5 ≤ ·) = true ∧ (loosestOf R.value).all (5 < ·) = true)) := fun T h h' => by
    unfold OutFit at *
    tauto
  by_cases htext : l.core = .text ∨ r.core = .text
  · rw [if_pos htext]
    refine hop _ (fun h₁ h₂ => ?_) fun h => ?_
    · rw [hnegate _ rfl]
      exact iff_of_true ⟨h₁, h₂⟩ (.inl (or_assoc.mp (.inl htext)))
    · exact (hnegate _ rfl).mp h
  by_cases hblob : l.core = .blob ∨ r.core = .blob
  · rw [if_neg htext, if_pos hblob]
    refine hop _ (fun h₁ h₂ => ?_) fun h => ?_
    · rw [hnegate _ rfl]
      exact iff_of_true ⟨h₁, h₂⟩ (.inl (or_assoc.mp (.inr hblob)))
    · exact (hnegate _ rfl).mp h
  have hcalls : ¬(l.core = .text ∨ r.core = .text ∨ l.core = .blob ∨ r.core = .blob) := fun h =>
    (or_assoc.mpr h).elim htext hblob
  rw [if_neg htext, if_neg hblob]
  split
  · refine hop _ (fun h₁ h₂ => ?_) fun h => ?_
    · rw [fits_parenIf, fits_binary, hp]
      tauto
    · rw [fits_parenIf, fits_binary] at h
      exact ⟨h.1.2, h.2.2⟩
  · have hfit : Fits (.paren (.binary .land (.paren (.binary .eq L.isNull R.isNull))
        (.paren (.binary .lor R.isNull (.binary .eq L.value R.value)))) : Text V) ↔
        ((loosestOf L.value).all (5 ≤ ·) = true ∧ Fits L.value) ∧ (loosestOf R.value).all (5 < ·) = true ∧ Fits R.value := by
      simp only [fits_paren, fits_binary, loosestOf_paren, loosestOf_binary, hL.isNull.1, hR.isNull.1, hL.isNull.2, hR.isNull.2,
        Option.all_none, Option.all_some, Binary.prec, and_self, true_and]
      exact and_iff_right rfl
    refine hop _ (fun h₁ h₂ => ?_) fun h => ?_
    · rw [hnegate _ rfl, hfit]
      tauto
    · have h := hfit.mp ((hnegate _ rfl).mp h)
      exact ⟨h.1.2, h.2.2⟩

/-- The literal NULL is safe. -/
theorem plain_of_isNullLiteral {e : Expr V} (h : e.isNullLiteral = true) : e.plain = true ∧ e.parenSafe = true := by
  cases e <;> first | exact ⟨rfl, rfl⟩ | cases h

/-- The texts of both operands of an operator fit if and only if those operands are safe. -/
theorem operandsTight_eq {l r : Expr V} {pri m n : Nat} : operandsTight pri l r =
    ((loosestOf (cgExpr (.left pri m) l).value).all (pri ≤ ·) && (loosestOf (cgExpr (.rightOf pri n) r).value).all (pri < ·)) := by
  rw [(described l _).loosest, (described r _).loosest]
  rfl

/-- When the value of an operator is dropped. -/
theorem elided_eq {l r : Expr V} {d : Ctx} : elided l r =
    (!(l.type.notNull && r.type.notNull) && (isOne (cgExpr c l).isNull || isOne (cgExpr d r).isNull)) := by
  rw [(described l c).isOne, (described r d).isOne]
  rfl

mutual

/-- All texts of an expression fit if and only if it is safe. -/
theorem cgExpr_fit : ∀ (e : Expr V) (c : Ctx), OutFit (cgExpr c e) ↔ e.parenSafe = true
  | .null, c => iff_of_true ((outFit_out plain_one).mpr ⟨trivial, allFit_nil, allFit_nil⟩) rfl
  | .bit _ _, c => iff_of_true ((outFit_out plain_zero).mpr ⟨trivial, allFit_nil, allFit_nil⟩) rfl
  | .literal _ _, c => iff_of_true ((outFit_out plain_zero).mpr ⟨trivial, allFit_nil, allFit_nil⟩) rfl
  | .var t x, c =>
    iff_of_true ((outFit_out (varTexts_plain _ _).1).mpr ⟨(varTexts_plain _ _).2.2, allFit_nil, allFit_nil⟩) rfl
  | .unary op e, c => by
    have hE := described e (.left 10 (c.level + 1))
    have ih := cgExpr_fit e (.left 10 (c.level + 1))
    rw [cgExpr, unaryOut_fit hE.shaped, ih, hE.isOne, hE.loosest, Expr.parenSafe, Bool.and_eq_true e.parenSafe, Bool.or_eq_true,
      Option.isNone_iff_eq_none]
    rfl
  | .not e, c => by
    have hE := described e (.left 10 (c.level + 1))
    have ih := cgExpr_fit e (.left 10 (c.level + 1))
    rw [cgExpr, unaryOut_fit hE.shaped, ih, hE.isOne, hE.loosest, Expr.parenSafe, Bool.and_eq_true e.parenSafe, Bool.or_eq_true,
      Option.isNone_iff_eq_none]
    rfl
  | .binary op l r, c => by
    by_cases ht : (Expr.binary op l r).type = ⟨.null, false⟩
    · simp only [cgExpr, Expr.parenSafe, ht, if_true, decide_true, Bool.true_or, iff_true]
      exact (outFit_out plain_one).mpr ⟨trivial, allFit_nil, allFit_nil⟩
    · simp only [cgExpr, Expr.parenSafe, ht, if_false, decide_false, Bool.false_or, Bool.and_eq_true, Bool.or_eq_true]
      rw [binaryOut_fit (described l _).shaped (described r _).shaped, cgExpr_fit l, cgExpr_fit r, ← elided_eq, ← operandsTight_eq]
  | .compare op l r, c => by
    simp only [cgExpr, Expr.parenSafe, Bool.and_eq_true, Bool.or_eq_true, decide_eq_true_eq]
    split
    · rename_i h
      rw [compareOut, strictOut_fit_of_fits (described l _).shaped (described r _).shaped, cgExpr_fit l, cgExpr_fit r]
      · simp [h]
      · intro hl hr
        simp [hl, hr]
    · rename_i h
      rw [binaryOut_fit (described l _).shaped (described r _).shaped, cgExpr_fit l, cgExpr_fit r, ← elided_eq,
        show (compareBinary op).prec = 6 by cases op <;> rfl, ← operandsTight_eq]
      simp only [h, false_or]
  | .eqNe negated l r, c => by
    simp only [cgExpr, Expr.parenSafe, Bool.and_eq_true, Bool.or_eq_true, decide_eq_true_eq]
    split
    · rename_i h
      rw [compareOut, strictOut_fit_of_fits (described l _).shaped (described r _).shaped, cgExpr_fit l, cgExpr_fit r]
      · simp [h]
      · intro hl hr
        simp [hl, hr]
    split
    · rename_i h
      rw [compareOut, strictOut_fit_of_fits (described l _).shaped (described r _).shaped, cgExpr_fit l, cgExpr_fit r]
      · simp [h]
      · intro hl hr
        cases negated <;> simp [hl, hr]
    · rename_i htext hblob
      rw [binaryOut_fit (described l _).shaped (described r _).shaped, cgExpr_fit l, cgExpr_fit r, ← elided_eq,
        show (eqBinary negated).prec = 5 by cases negated <;> rfl, ← operandsTight_eq]
      simp only [htext, hblob, false_or]
  | .like negated l r, c => by
    rw [cgExpr, compareOut, strictOut_fit_of_fits (described l _).shaped (described r _).shaped, cgExpr_fit l, cgExpr_fit r,
      Expr.parenSafe, Bool.and_eq_true]
    intro hl hr
    simp [hl, hr]
  | .logical op l r, c => by
    have hR := described r (.rightOf (if op = .or then 1 else 2)
      (cgExpr (.left (if op = .or then 1 else 2) (c.level + 1)) l).level)
    rw [cgExpr, logicalOut_fit (described l _).shaped hR.shaped, cgExpr_fit l, cgExpr_fit r, hR.isSkip, ← operandsTight_eq,
      Expr.parenSafe, Bool.and_eq_true, Bool.and_eq_true, Bool.or_eq_true]
    · rfl
    · intro h
      rw [hR.isSkip]
      exact (plain_of_isNullLiteral ((Bool.and_eq_true _ _).mp h).2).1
  | .is negated l r, c => by
    simp only [cgExpr, Expr.parenSafe]
    split
    · split
      · rename_i h
        simp only [h, Bool.true_or, iff_true]
        exact (outFit_out plain_zero).mpr ⟨trivial, allFit_nil, allFit_nil⟩
      · rename_i h
        rw [isNullOut_fit (described r _).shaped, cgExpr_fit r, eq_false_of_ne_true h, Bool.false_or]
    split
    · split
      · rename_i h
        simp only [h, Bool.true_or, iff_true]
        exact (outFit_out plain_zero).mpr ⟨trivial, allFit_nil, allFit_nil⟩
      · rename_i h
        rw [isNullOut_fit (described l _).shaped, cgExpr_fit l, eq_false_of_ne_true h, Bool.false_or]
    · rw [isOut_fit (described l _).shaped (described r _).shaped, cgExpr_fit l, cgExpr_fit r, ← operandsTight_eq, Bool.and_eq_true,
        Bool.and_eq_true, Bool.or_eq_true, decide_eq_true_eq]
  | .isTruth negated value e, c => by
    rw [cgExpr, isTruthOut_fit (described e _).shaped, cgExpr_fit e, Expr.parenSafe]
  | .between name e test, c => by
    simp only [cgExpr, Expr.parenSafe]
    split
    · rename_i h
      simp only [h, Bool.true_or, iff_true]
      exact (outFit_out plain_one).mpr ⟨trivial, allFit_nil, allFit_nil⟩
    · rename_i h
      have hE := (described e (.root c.level)).shaped
      have hT := (described test ⟨c.pri, true, none, (cgExpr (.root c.level) e).level⟩).shaped
      rw [outFit_out hT.isNull, eq_false_of_ne_true h, Bool.false_or, Bool.and_eq_true, ← cgExpr_fit e (.root c.level),
        ← cgExpr_fit test ⟨c.pri, true, none, (cgExpr (.root c.level) e).level⟩]
      simp only [texts_andThen, allFit_append]
      unfold OutFit
      constructor
      · rintro ⟨-, ⟨h₁, h₂⟩, h₃, -, h₄⟩
        exact ⟨⟨h₁, h₃⟩, h₂, h₄⟩
      · rintro ⟨⟨h₁, h₃⟩, h₂, h₄⟩
        exact ⟨h₂ _ hT.mem, ⟨h₁, h₂⟩, h₃, allFit_storeNew hE.isNull.2 (h₁ _ hE.mem), h₄⟩
  | .inPred negated e items, c => by
    by_cases h : e.type.core = .null
    · simp only [cgExpr, Expr.parenSafe, h, if_true, decide_true, Bool.true_or, iff_true]
      exact outFit_outVar.mpr ⟨allFit_nil, allFit_setNullCode _ _⟩
    · have hE := (described e (.root (c.level + 1))).shaped
      have ih := cgExpr_fit e (.root (c.level + 1))
      have hitems := cgItems_fit items (varTexts e.type (.temp e.type (cgExpr (.root (c.level + 1)) e).level)).2
        ((cgExpr (.root (c.level + 1)) e).level + 1) (varTexts_plain _ _).2
      have htest : AllFit (if e.type.notNull then Code.skip else
          .ite (varTexts (V := V) e.type (.temp e.type (cgExpr (.root (c.level + 1)) e).level)).1
            ((setNullCode (.temp (Expr.inPred negated e items).type c.level) (Expr.inPred negated e items).type).andThen .break)
            .skip).texts := by
        split
        · exact allFit_nil
        · simp [Code.texts, (varTexts_plain _ _).1.2, allFit_setNullCode]
      have hbit : ∀ b, AllFit (store (.temp (Expr.inPred negated e items).type c.level) (Expr.inPred negated e items).type
          (Expr.inPred negated e items).type zero (.atom (.bool b) : Text V)).texts := fun b => allFit_store fits_zero trivial
      simp only [cgExpr, Expr.parenSafe, h, if_false, decide_false, Bool.false_or, Bool.and_eq_true]
      rw [outFit_outVar, ← ih, ← hitems]
      simp only [Code.texts, texts_andThen, allFit_append, htest, hbit, true_and, and_true]
      unfold OutFit
      constructor
      · rintro ⟨⟨h₁, h₂⟩, h₃, -, h₄⟩
        exact ⟨⟨h₁, h₃⟩, h₂, h₄⟩
      · rintro ⟨⟨h₁, h₃⟩, h₂, h₄⟩
        exact ⟨⟨h₁, h₂⟩, h₃, allFit_store hE.isNull.2 (h₁ _ hE.mem), h₄⟩
  | .caseExpr operand whens orElse, c => by
    have hO := cgOperand_fit operand (c.level + 1)
    have hW := cgWhens_fit whens (c.resultVar (Expr.caseExpr operand whens orElse).type) (Expr.caseExpr operand whens orElse).type
      (cgOperand (c.level + 1) operand).1 (if (cgOperand (c.level + 1) operand).1.isSome then c.level + 2 else c.level + 1)
      hO.1
    have hD := cgElse_fit orElse (c.resultVar (Expr.caseExpr operand whens orElse).type) (Expr.caseExpr operand whens orElse).type (c.level + 1)
    simp only [cgExpr, Expr.parenSafe, Bool.and_eq_true]
    rw [outFit_outVar, ← hO.2.2, ← hO.2.1, ← hW, ← hD]
    simp only [Code.texts, texts_andThen, allFit_append]
    tauto
  | .coalesce args, c => by
    rw [cgExpr, outFit_outVar, Expr.parenSafe]
    exact cgCoalesce_fit args _ _ _
  | .cast e core, c => by
    rw [cgExpr, castOut_fit (described e _).shaped, cgExpr_fit e, Expr.parenSafe]
  | .typeCheck e, c => by
    have hE := (described e (.root c.level)).shaped
    rw [cgExpr, outFit_out plain_zero, Expr.parenSafe, ← cgExpr_fit e (.root c.level)]
    exact and_iff_right_of_imp hE.fits

/-- The items of IN, one by one. -/
theorem cgItems_fit : ∀ (items : Exprs V) (operand : Text V) (level : Nat), Plain operand →
    (AllFit (cgItems operand level items).2 ∧ AllFit (cgItems operand level items).1.texts ↔ items.itemsSafe = true)
  | .nil, operand, level, _ => iff_of_true ⟨allFit_nil, allFit_nil⟩ rfl
  | .cons e rest, operand, level, ho => by
    have ih := cgItems_fit rest operand level ho
    have hE := described e (.left 5 level)
    have he := cgExpr_fit e (.left 5 level)
    have htest : Fits (cgExpr (.left 5 level) e).value → (Fits (itemTest true operand e.type (cgExpr (.left 5 level) e)) ↔ _) :=
      fits_itemTest ho hE.shaped
    rw [hE.loosest] at htest
    by_cases hnull : e.isNullLiteral = true
    · simp only [cgItems, hnull, if_true, Exprs.itemsSafe, Bool.true_or, Bool.true_and]
      exact ih
    · simp only [cgItems, hnull, Bool.false_eq_true, if_false, Exprs.itemsSafe, Bool.false_or, Bool.and_eq_true, texts_andThen, Code.texts,
        allFit_append, allFit_cons, allFit_nil, List.append_nil, and_true]
      rw [← ih, ← he]
      have hv := hE.shaped.fits
      constructor
      · rintro ⟨⟨h₁, h₂⟩, h₃, h₄, h₅⟩
        exact ⟨⟨⟨h₁, h₃⟩, (htest (hv ⟨h₁, h₃⟩)).mp h₄⟩, h₂, h₅⟩
      · rintro ⟨⟨⟨h₁, h₃⟩, h₄⟩, h₂, h₅⟩
        exact ⟨⟨h₁, h₂⟩, h₃, (htest (hv ⟨h₁, h₃⟩)).mpr h₄, h₅⟩

/-- The operand of a CASE. -/
theorem cgOperand_fit : ∀ (operand : OptExpr V) (level : Nat), (∀ o, (cgOperand level operand).1 = some o → Plain o) ∧
    (cgOperand level operand).1.isSome = operand.isSome ∧
      (AllFit (cgOperand level operand).2.2 ∧ AllFit (cgOperand level operand).2.1.texts ↔ operand.parenSafe = true)
  | .none, level => ⟨nofun, rfl, iff_of_true ⟨allFit_nil, allFit_nil⟩ rfl⟩
  | .some e, level => by
    have hE := (described e (.left 5 (level + 1))).shaped
    refine ⟨fun o ho => ?_, rfl, ?_⟩
    · cases ho
      exact (varTexts_plain _ _).2
    · have htest : AllFit (if e.type.notNull then Code.skip
          else .ite (varTexts (V := V) e.type (.temp e.type level)).1 .gotoElse .skip).texts := by
        split
        · exact allFit_nil
        · simp [Code.texts, (varTexts_plain _ _).1.2]
      rw [OptExpr.parenSafe, ← cgExpr_fit e (.left 5 (level + 1))]
      simp only [cgOperand, texts_andThen, allFit_append, htest, and_true]
      unfold OutFit
      exact ⟨fun h => ⟨h.1, h.2.1⟩, fun h => ⟨h.1, h.2, allFit_store hE.isNull.2 (h.1 _ hE.mem)⟩⟩

/-- The WHENs of a CASE, one by one. -/
theorem cgWhens_fit : ∀ (whens : Whens V) (x : Var) (t : SemType) (operand : Option (Text V)) (level : Nat),
    (∀ o, operand = some o → Plain o) → (AllFit (cgWhens x t operand level whens).2 ∧
      AllFit (cgWhens x t operand level whens).1.texts ↔ whens.parenSafe operand.isSome = true)
  | .nil, x, t, operand, level, _ => iff_of_true ⟨allFit_nil, allFit_nil⟩ rfl
  | .cons cond value rest, x, t, operand, level, ho => by
    have ih := cgWhens_fit rest x t operand level ho
    have hC := described cond (.left 5 level)
    have hE := (described value (.root level)).shaped
    have hc := cgExpr_fit cond (.left 5 level)
    have he := cgExpr_fit value (.root level)
    have hcond : Fits (cgExpr (.left 5 level) cond).value → (Fits (whenCond operand cond.type (cgExpr (.left 5 level) cond)) ↔
        (!operand.isSome || itemTight false cond) = true) := fun hv => by
      cases operand with
      | none =>
        refine iff_of_true ?_ rfl
        simp only [whenCond]
        split
        · exact hv
        · exact ⟨hC.shaped.isNull.2, hv⟩
      | some o =>
        have htest : Fits (itemTest false o cond.type (cgExpr (.left 5 level) cond)) ↔ _ := fits_itemTest (ho o rfl) hC.shaped hv
        rw [hC.loosest] at htest
        exact htest
    simp only [cgWhens, texts_andThen, Code.texts, allFit_append, allFit_cons, List.append_nil, Whens.parenSafe, Bool.and_eq_true]
    rw [← ih, ← hc, ← he]
    have hvC := hC.shaped.fits
    constructor
    · rintro ⟨⟨h₁, h₂, h₃⟩, h₄, ⟨h₅, h₆, -⟩, h₇⟩
      exact ⟨⟨⟨⟨h₁, h₄⟩, (hcond (hvC ⟨h₁, h₄⟩)).mp h₅⟩, h₂, h₆⟩, h₃, h₇⟩
    · rintro ⟨⟨⟨⟨h₁, h₄⟩, h₅⟩, h₂, h₆⟩, h₃, h₇⟩
      exact ⟨⟨h₁, h₂, h₃⟩, h₄, ⟨(hcond (hvC ⟨h₁, h₄⟩)).mpr h₅, h₆, allFit_store hE.isNull.2 (h₂ _ hE.mem)⟩, h₇⟩

/-- Its ELSE. -/
theorem cgElse_fit : ∀ (orElse : OptExpr V) (x : Var) (t : SemType) (level : Nat),
    (AllFit (cgElse x t level orElse).2 ∧ AllFit (cgElse x t level orElse).1.texts ↔ orElse.parenSafe = true)
  | .none, x, t, level => iff_of_true ⟨allFit_nil, allFit_setNullCode x t⟩ rfl
  | .some e, x, t, level => by
    have hE := (described e (.root level)).shaped
    rw [OptExpr.parenSafe, ← cgExpr_fit e (.root level)]
    simp only [cgElse, texts_andThen, allFit_append]
    exact ⟨fun h => ⟨h.1, h.2.1⟩, fun h => ⟨h.1, h.2, allFit_store hE.isNull.2 (h.1 _ hE.mem)⟩⟩

/-- The arguments of COALESCE, one by one. -/
theorem cgCoalesce_fit : ∀ (args : Exprs V) (x : Var) (t : SemType) (level : Nat),
    (AllFit (cgCoalesce x t level args).2 ∧ AllFit (cgCoalesce x t level args).1.texts ↔ args.parenSafe = true)
  | .nil, x, t, level => iff_of_true ⟨allFit_nil, allFit_nil⟩ rfl
  | .cons e .nil, x, t, level => by
    have hE := (described e (.root level)).shaped
    rw [Exprs.parenSafe, Exprs.parenSafe, Bool.and_true, ← cgExpr_fit e (.root level)]
    simp only [cgCoalesce, texts_andThen, allFit_append]
    exact ⟨fun h => ⟨h.1, h.2.1⟩, fun h => ⟨h.1, h.2, allFit_store hE.isNull.2 (h.1 _ hE.mem)⟩⟩
  | .cons e (.cons e' rest), x, t, level => by
    have hE := (described e (.root level)).shaped
    have ih := cgCoalesce_fit (.cons e' rest) x t (cgExpr (.root level) e).level
    rw [Exprs.parenSafe, Bool.and_eq_true, ← ih, ← cgExpr_fit e (.root level)]
    simp only [cgCoalesce, texts_andThen, Code.texts, allFit_append, allFit_cons, List.append_nil, and_true, fits_notText,
      hE.isNull.1, hE.isNull.2, true_and]
    constructor
    · rintro ⟨⟨h₁, h₂⟩, h₃, -, h₄⟩
      exact ⟨⟨h₁, h₃⟩, h₂, h₄⟩
    · rintro ⟨⟨h₁, h₃⟩, h₂, h₄⟩
      exact ⟨⟨h₁, h₂⟩, h₃, allFit_store fits_zero (h₁ _ hE.mem), h₄⟩

end

end RenderingAux

end CgSql.CodeGen
