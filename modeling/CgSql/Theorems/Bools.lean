import CgSql.Bools
import CgSql.Lemmas.CRun

/-!
# Main results about booleans

When all BOOLs of the generated code hold `0` or `1`.
-/

namespace CgSql.CodeGen

open Nullability Precedence RenderingAux RunAux

namespace BoolsAux

variable {V : Type} {rt : Runtime V} {Γ : Types} {t r u l : SemType} {c : Ctx} {x : Var} {E : Out V} {op : Prefix} {negated : Bool}

/-! ## Running -/

/-- A store of a bit keeps BOOLs normalized. -/
theorem normalized_set {σ : Store V} {c : Cell V} (hσ : Normalized rt Γ σ)
    (hc : (x.type Γ).core = .bool → ∃ b, c.value = rt.bit b) : Normalized rt Γ (σ.set x c) := by
  intro y hy
  unfold Store.set
  split
  · rename_i h
    subst h
    exact hc hy
  · exact hσ y hy

/-- The text of a value that is `0` or `1` while the BOOLs are. -/
def isBool (Γ : Types) : Text V → Bool
  | .atom (.bool _) | .atom (.isNull _) => true
  | .atom (.var x) | .atom (.value x) => (x.type Γ).core = .bool
  | .atom _ => false
  | .unary op _ => op = .not ∨ op = .notRef ∨ op = .cast .bool
  | .binary op _ _ => (mathOf op).isNone
  | .call f _ _ => f ≠ .stringCompare ∧ f ≠ .stringLike
  | .paren t => isBool Γ t

theorem applyBinary_bool {op : Binary} {a b v : Option V} (hop : (mathOf op).isNone = true) (h : applyBinary rt op a b = .ok v) :
    ∃ b, v = rt.bit b := by
  have hcompare : ∀ op, applyCompare rt op a b = .ok v → ∃ b, v = rt.bit b := fun op h => by
    obtain ⟨a, -, h⟩ := of_bind_ok h
    obtain ⟨b, -, h⟩ := of_bind_ok h
    cases h
    exact ⟨_, rfl⟩
  cases op with
  | eq | eqRef | ne =>
    cases h
    exact ⟨_, rfl⟩
  | lt => exact hcompare _ h
  | gt => exact hcompare _ h
  | le => exact hcompare _ h
  | ge => exact hcompare _ h
  | lor | land => cases h
  | _ => cases hop

theorem evalTree_bool {σ : Store V} (hσ : Normalized rt Γ σ) : ∀ {t : Text V} {v : Option V}, isBool Γ t = true →
    evalTree rt σ t.tree = .ok v → ∃ b, v = rt.bit b
  | .atom a, v, ht, h => by
    cases h
    cases a with
    | bool b => exact ⟨b, rfl⟩
    | isNull x => exact ⟨_, rfl⟩
    | var x => exact hσ x (of_decide_eq_true ht)
    | value x => exact hσ x (of_decide_eq_true ht)
    | _ => cases ht
  | .unary op t, v, ht, h => by
    obtain ⟨a, -, h⟩ := of_bind_ok h
    rcases of_decide_eq_true ht with rfl | rfl | rfl
    · cases h
      exact ⟨_, rfl⟩
    · cases h
      exact ⟨_, rfl⟩
    · obtain ⟨a, -, h⟩ := of_bind_ok h
      cases h
      exact ⟨rt.truth a, congrArg some (rt.cast_bool a)⟩
  | .binary op l r, v, ht, h => by
    cases op with
    | lor =>
      obtain ⟨a, -, h⟩ := of_bind_ok h
      split at h
      · cases h
        exact ⟨_, rfl⟩
      · obtain ⟨b, -, h⟩ := of_bind_ok h
        cases h
        exact ⟨_, rfl⟩
    | land =>
      obtain ⟨a, -, h⟩ := of_bind_ok h
      split at h
      · obtain ⟨b, -, h⟩ := of_bind_ok h
        cases h
        exact ⟨_, rfl⟩
      · cases h
        exact ⟨_, rfl⟩
    | _ =>
      obtain ⟨a, -, h⟩ := of_bind_ok h
      obtain ⟨b, -, h⟩ := of_bind_ok h
      exact applyBinary_bool ht h
  | .call f l r, v, ht, h => by
    cases f with
    | isNullableTrue | isNullableFalse =>
      obtain ⟨a, -, h⟩ := of_bind_ok h
      split at h
      · cases h
        exact ⟨_, rfl⟩
      · obtain ⟨b, -, h⟩ := of_bind_ok h
        cases h
        exact ⟨_, rfl⟩
    | stringEqual | blobEqual =>
      obtain ⟨a, -, h⟩ := of_bind_ok h
      obtain ⟨b, -, h⟩ := of_bind_ok h
      cases h
      exact ⟨_, rfl⟩
    | _ => cases ht
  | .paren t, v, ht, h => evalTree_bool (t := t) hσ ht h

/-- Every store to a BOOL is of the text of a value that is `0` or `1`. -/
def BoolStores (Γ : Types) : Code V → Prop
  | .seq a b | .ite _ a b => BoolStores Γ a ∧ BoolStores Γ b
  | .setNullable x _ v | .copy x v => (x.type Γ).core = .bool → isBool Γ v = true
  | .block a | .caseElse a => BoolStores Γ a
  | .skip | .setNull _ | .break | .gotoElse => True

/-- Such code keeps the BOOLs normalized, however it ends. -/
theorem run_normalized : ∀ {k : Code V} {σ τ : Store V} {e : End}, AllFit k.texts → BoolStores Γ k → Normalized rt Γ σ →
    k.run rt σ = .ok (e, τ) → Normalized rt Γ τ
  | .skip, σ, τ, e, _, _, hσ, h => by
    cases h
    exact hσ
  | .seq a b, σ, τ, e, hf, hb, hσ, h => by
    have hf := allFit_append.mp hf
    obtain ⟨⟨e', σ'⟩, ha, h⟩ := of_bind_ok h
    have hσ' := run_normalized hf.1 hb.1 hσ ha
    cases e' with
    | normal => exact run_normalized hf.2 hb.2 hσ' h
    | _ =>
      cases h
      exact hσ'
  | .setNull x, σ, τ, e, _, _, hσ, h => by
    cases h
    exact normalized_set hσ fun _ => ⟨false, rfl⟩
  | .setNullable x n v, σ, τ, e, hf, hb, hσ, h => by
    obtain ⟨c, -, h⟩ := of_bind_ok h
    split at h
    · cases h
      exact normalized_set hσ fun _ => ⟨false, rfl⟩
    · obtain ⟨a, ha, h⟩ := of_bind_ok h
      cases h
      rw [evalText_of_fits (hf v (List.mem_append_right _ (.head _)))] at ha
      exact normalized_set hσ fun hx => evalTree_bool hσ (hb hx) ha
  | .copy x v, σ, τ, e, hf, hb, hσ, h => by
    obtain ⟨a, ha, h⟩ := of_bind_ok h
    cases h
    rw [evalText_of_fits (hf v (.head _))] at ha
    exact normalized_set hσ fun hx => evalTree_bool hσ (hb hx) ha
  | .ite cond a b, σ, τ, e, hf, hb, hσ, h => by
    have hf := allFit_append.mp (allFit_cons.mp hf).2
    obtain ⟨c, -, h⟩ := of_bind_ok h
    split at h
    · exact run_normalized hf.1 hb.1 hσ h
    · exact run_normalized hf.2 hb.2 hσ h
  | .block a, σ, τ, e, hf, hb, hσ, h => by
    obtain ⟨⟨e', σ'⟩, ha, h⟩ := of_bind_ok h
    have hσ' := run_normalized (k := a) hf hb hσ ha
    cases e' <;> cases h <;> exact hσ'
  | .break, σ, τ, e, _, _, hσ, h => by
    cases h
    exact hσ
  | .caseElse a, σ, τ, e, hf, hb, hσ, h => by
    obtain ⟨⟨e', σ'⟩, ha, h⟩ := of_bind_ok h
    have hσ' := run_normalized (k := a) hf hb hσ ha
    cases e' <;> cases h <;> exact hσ'
  | .gotoElse, σ, τ, e, _, _, hσ, h => by
    cases h
    exact hσ

/-! ## Stores -/

theorem boolStores_andThen {a b : Code V} : BoolStores Γ (a.andThen b) ↔ BoolStores Γ a ∧ BoolStores Γ b := by
  cases a <;> cases b <;> simp [Code.andThen, BoolStores]

theorem boolStores_combineNullables {l r v : Text V} (h : (x.type Γ).core = .bool → isBool Γ v = true) :
    BoolStores Γ (combineNullables x l r v) := by
  unfold combineNullables
  split
  · trivial
  · exact h

/-- What `cg_store` stores in a BOOL is `0` or `1`: it was a BOOL, is converted, or does not look converted without being. -/
theorem isBool_storedValue {v : Text V} (ht : t.core = .bool) (hu : u.core = .bool → isBool Γ v = true)
    (hv : u.core = .bool ∨ startsWithNot v = false) : isBool Γ (storedValue t u v) = true := by
  unfold storedValue
  rw [if_neg (by simp [ht])]
  split
  · rfl
  · rename_i h
    by_cases hb : u.core = .bool
    · exact hu hb
    · have hv := hv.resolve_left hb
      simp only [ht, hb, hv, ne_eq, not_false_eq_true, Bool.not_false, Bool.and_true, true_and] at h
      cases v with
      | atom a =>
        cases a with
        | bool b => rfl
        | _ => exact absurd rfl h
      | _ => exact absurd rfl h

theorem boolStores_store {n v : Text V} (hx : x.type Γ = t) (hu : u.core = .bool → isBool Γ v = true)
    (hv : t.core = .bool → u.core = .bool ∨ startsWithNot v = false) : BoolStores Γ (store x t u n v) := by
  have hstored : (x.type Γ).core = .bool → isBool Γ (storedValue t u v) = true := fun h => by
    rw [hx] at h
    exact isBool_storedValue h hu (hv h)
  dsimp only [store]
  split
  · trivial
  · split
    · exact hstored
    · exact boolStores_combineNullables hstored

/-- A store of a text of the variable's own type. -/
theorem boolStores_store_same {n v : Text V} (hx : x.type Γ = t) (hv : t.core = .bool → isBool Γ v = true) :
    BoolStores Γ (store x t t n v) := boolStores_store hx hv .inl

theorem boolStores_storeNew {n v : Text V} (hx : x.type Γ = t) (hv : t.core = .bool → isBool Γ v = true) : BoolStores Γ (storeNew x t n v) := by
  have hv : (x.type Γ).core = .bool → isBool Γ v = true := fun h => hv (hx ▸ h)
  unfold storeNew
  split
  · exact hv
  · exact boolStores_combineNullables hv

theorem boolStores_setNullCode (hx : x.type Γ = t) : BoolStores Γ (setNullCode (V := V) x t) := by
  unfold setNullCode
  split
  · rename_i h
    intro hb
    rw [hx] at hb
    rw [hb] at h
    cases h
  · split <;> trivial

theorem isBool_parenIf {b : Bool} {t : Text V} : isBool Γ (parenIf b t) = isBool Γ t := by
  cases b <;> rfl

theorem isBool_varTexts (hx : x.type Γ = t) (ht : t.core = .bool) : isBool Γ (varTexts (V := V) t x).2 = true := by
  have hx : (x.type Γ).core = .bool := hx ▸ ht
  unfold varTexts
  split
  · exact decide_eq_true hx
  · split <;> exact decide_eq_true hx

/-- The variable that is assigned has the type that is given. -/
def Ctx.Typed (Γ : Types) (c : Ctx) : Prop := ∀ x t, c.target = some (x, t) → x.type Γ = t

theorem resultVar_type (hc : Ctx.Typed Γ c) (t : SemType) : (c.resultVar t).type Γ = t := by
  unfold Ctx.resultVar
  split
  · rename_i x u h
    split
    · rename_i hu
      exact hu ▸ hc x u h
    · rfl
  · rfl

/-! ## Texts that start with `!` -/

theorem startsWithNot_parenIf {b : Bool} {t : Text V} : startsWithNot (parenIf b t) = (!b && startsWithNot t) := by
  cases b <;> rfl

theorem shown_isSome (c : Ctx) (own : Nat) : (shown own c.pri c.right).isSome = !c.needsParen own := by
  rw [← shown_eq]
  cases c.needsParen own <;> rfl

theorem startsWithNot_varTexts (t : SemType) (x : Var) : startsWithNot (varTexts (V := V) t x).1 = isRef t.core ∧
    startsWithNot (varTexts (V := V) t x).2 = false := by
  unfold varTexts
  split
  · rename_i h
    exact ⟨h.symm, rfl⟩
  · rename_i h
    rw [eq_false_of_ne_true h]
    split <;> exact ⟨rfl, rfl⟩

theorem startsWithNot_nullZero (t : SemType) : startsWithNot (nullZero (V := V) t) = false := by
  unfold nullZero
  split <;> rfl

theorem starts_strictOut {plain boxed : Text V} {L R : Out V} :
    startsWithNot (strictOut c t l r plain boxed L R).value = (l.notNull && r.notNull && startsWithNot plain) ∧
      startsWithNot (strictOut c t l r plain boxed L R).isNull = (!(l.notNull && r.notNull) && isRef t.core) := by
  dsimp only [strictOut]
  split
  · rename_i h
    rw [h]
    exact ⟨rfl, rfl⟩
  · rename_i h
    rw [eq_false_of_ne_true h]
    exact ⟨(startsWithNot_varTexts t _).2, (startsWithNot_varTexts t _).1⟩

theorem starts_unaryOut : startsWithNot (unaryOut c t u op E).value = (u.notNull && !c.needsParen 10 && decide (op = .not ∨ op = .notRef)) ∧
      startsWithNot (unaryOut c t u op E).isNull = (!u.notNull && isRef t.core) := by
  dsimp only [unaryOut]
  split
  · rename_i h
    rw [h]
    refine ⟨?_, rfl⟩
    rw [out, startsWithNot_parenIf, Bool.true_and]
    cases op <;> rfl
  · rename_i h
    rw [eq_false_of_ne_true h]
    exact ⟨(startsWithNot_varTexts t _).2, (startsWithNot_varTexts t _).1⟩

theorem starts_outVar {code : Code V} {ts : List (Text V)} :
    startsWithNot (outVar c t x code ts).value = false ∧ startsWithNot (outVar c t x code ts).isNull = isRef t.core :=
  ⟨(startsWithNot_varTexts t x).2, (startsWithNot_varTexts t x).1⟩

/-- Whether the texts of an expression start with `!` is seen from the expression. -/
theorem starts_eq : ∀ (e : Expr V) (c : Ctx), startsWithNot (cgExpr c e).value = e.startsNot c.pri c.right ∧
    startsWithNot (cgExpr c e).isNull = e.nullStartsNot
  | .null, ⟨_, _, _, _⟩ => ⟨rfl, rfl⟩
  | .bit _ _, c => ⟨rfl, rfl⟩
  | .literal _ _, c => ⟨rfl, rfl⟩
  | .var t x, c => ⟨(startsWithNot_varTexts t _).2, (startsWithNot_varTexts t _).1⟩
  | .unary op e, c => by
    refine ⟨starts_unaryOut.1.trans ?_, starts_unaryOut.2⟩
    cases op <;> exact Bool.and_false _
  | .not e, c => by
    refine ⟨starts_unaryOut.1.trans ?_, starts_unaryOut.2.trans (Bool.and_false _)⟩
    rw [Expr.startsNot, shown_isSome]
    exact Bool.and_true _
  | .binary op l r, c => by
    by_cases ht : (Expr.binary op l r).type = ⟨.null, false⟩
    · have hb : bothNotNull l r = false := congrArg SemType.notNull ht
      constructor <;> simp [cgExpr, ht, Expr.startsNot, Expr.nullStartsNot, hb, out, isRef, startsWithNot, startsWithNot_nullZero, one]
    · have hL := (starts_eq l (.left (mathBinary op).prec (c.level + 1))).1
      constructor <;> simp only [cgExpr, Expr.startsNot, Expr.nullStartsNot, if_neg ht, binaryOut, starts_strictOut]
      · rw [startsWithNot_parenIf, startsWithNot, hL, shown_isSome, ← Bool.and_assoc]
        rfl
      · rfl
  | .compare op l r, c => by
    have hL := (starts_eq l (.left 6 (c.level + 1))).1
    constructor <;> simp only [cgExpr, Expr.startsNot, Expr.nullStartsNot] <;> split
    · simp [compareOut, starts_strictOut, startsWithNot_parenIf, startsWithNot]
    · simp only [binaryOut, starts_strictOut]
      rw [startsWithNot_parenIf, startsWithNot, hL, show (compareBinary op).prec = 6 by cases op <;> rfl, shown_isSome, ← Bool.and_assoc]
      rfl
    · simp [compareOut, starts_strictOut, Expr.type, isRef]
    · simp [binaryOut, starts_strictOut, Expr.type, isRef]
  | .eqNe negated l r, c => by
    have hL := (starts_eq l (.left 5 (c.level + 1))).1
    constructor <;> simp only [cgExpr, Expr.startsNot, Expr.nullStartsNot]
    · split
      · simp [compareOut, starts_strictOut, startsWithNot_parenIf, startsWithNot]
      split
      · simp only [compareOut, starts_strictOut, startsWithNot_parenIf, shown_isSome, bothNotNull]
        cases negated <;> simp [startsWithNot, notText]
      · simp only [binaryOut, starts_strictOut]
        rw [startsWithNot_parenIf, startsWithNot, hL, show (eqBinary negated).prec = 5 by cases negated <;> rfl, shown_isSome, ← Bool.and_assoc]
        rfl
    · split
      · simp [compareOut, starts_strictOut, Expr.type, isRef]
      split
      · simp [compareOut, starts_strictOut, Expr.type, isRef]
      · simp [binaryOut, starts_strictOut, Expr.type, isRef]
  | .like negated l r, c => by
    constructor
    · simp [cgExpr, Expr.startsNot, compareOut, starts_strictOut, startsWithNot_parenIf, startsWithNot]
    · simp [cgExpr, Expr.nullStartsNot, compareOut, starts_strictOut, Expr.type, isRef]
  | .logical op l r, c => by
    have hL := (starts_eq l (.left (if op = .or then 1 else 2) (c.level + 1))).1
    have hR := (described r (.rightOf (if op = .or then 1 else 2)
      (cgExpr (.left (if op = .or then 1 else 2) (c.level + 1)) l).level)).isSkip
    have hp : (if op = .or then Binary.lor else Binary.land).prec = if op = .or then 1 else 2 := by cases op <;> rfl
    simp only [cgExpr, Expr.startsNot, Expr.nullStartsNot, logicalOut, hR]
    split
    · rename_i h
      have h : (bothNotNull l r && r.plain) = true := h
      refine ⟨?_, rfl⟩
      rw [h, out, startsWithNot_parenIf, startsWithNot, hL, hp, shown_isSome, Bool.true_and]
      rfl
    · rename_i h
      have h : ¬(bothNotNull l r && r.plain) = true := h
      rw [eq_false_of_ne_true h, Bool.false_and, Bool.false_and]
      exact starts_outVar
  | .is negated l r, c => by
    constructor
    · simp only [cgExpr, Expr.startsNot]
      split
      · have hR := (starts_eq r (.root c.level)).2
        split
        · rename_i h
          rw [h]
          rfl
        · rename_i h
          rw [eq_false_of_ne_true h]
          cases negated
          · exact hR
          · rfl
      split
      · have hL := (starts_eq l (.root c.level)).2
        split
        · rename_i h
          rw [h]
          rfl
        · rename_i h
          rw [eq_false_of_ne_true h]
          cases negated
          · exact hL
          · rfl
      · have hL := (starts_eq l (.left 5 c.level)).1
        simp only [isOut, out]
        split
        · cases negated <;> rfl
        split
        · cases negated <;> rfl
        by_cases hn : (bothNotNull l r || isRef l.type.core || isRef r.type.core) = true
        · rw [if_pos hn, if_pos (show (l.type.notNull && r.type.notNull || isRef l.type.core || isRef r.type.core) = true from hn),
            startsWithNot_parenIf, startsWithNot, hL, show (5 : Nat) = 5 from rfl, shown_isSome]
          rfl
        · rw [if_neg hn, if_neg (show ¬(l.type.notNull && r.type.notNull || isRef l.type.core || isRef r.type.core) = true from hn)]
          cases negated <;> rfl
    · simp only [cgExpr, Expr.nullStartsNot]
      split
      · split <;> rfl
      split
      · split <;> rfl
      · rfl
  | .isTruth negated value e, c => by
    refine ⟨?_, rfl⟩
    simp only [cgExpr, isTruthOut, out, Expr.startsNot]
    split
    · rename_i h
      rw [h]
      split <;> rfl
    · rename_i h
      rw [eq_false_of_ne_true h]
      cases negated <;> rfl
  | .between name e test, c => by
    simp only [cgExpr, Expr.startsNot, Expr.nullStartsNot]
    split
    · rename_i h
      rw [h]
      exact ⟨rfl, rfl⟩
    · rename_i h
      rw [eq_false_of_ne_true h]
      exact starts_eq test ⟨c.pri, true, none, (cgExpr (.root c.level) e).level⟩
  | .inPred negated e items, c => by
    simp only [cgExpr, Expr.startsNot, Expr.nullStartsNot]
    split <;> exact starts_outVar
  | .caseExpr _ _ _, c => starts_outVar
  | .coalesce _, c => starts_outVar
  | .cast e core, c => by
    have hE := starts_eq e (.root (c.level + 1))
    simp only [cgExpr, castOut, Expr.type, Expr.startsNot, Expr.nullStartsNot]
    split
    · rename_i h
      refine ⟨(startsWithNot_nullZero _).trans ?_, rfl⟩
      simp [h]
    rename_i hn
    split
    · rename_i h
      rw [decide_eq_true (show e.type.core ≠ .null ∧ e.type.core = core from ⟨hn, h⟩), Bool.true_and]
      exact hE
    · rename_i h
      rw [decide_eq_false (show ¬(e.type.core ≠ .null ∧ e.type.core = core) from fun h' => h h'.2), Bool.false_and]
      split
      · rename_i h
        rw [h]
        exact ⟨rfl, rfl⟩
      · rename_i h
        rw [eq_false_of_ne_true h]
        exact starts_outVar
  | .typeCheck e, c => ⟨(starts_eq e (.root c.level)).1, rfl⟩

/-! ## What is generated -/

/-- What a call gives for an expression of type `t`: its stores keep BOOLs normalized, and its value is normalized if it is a BOOL. -/
structure Bools (Γ : Types) (t : SemType) (E : Out V) : Prop where
  code : BoolStores Γ E.code
  value : t.core = .bool → isBool Γ E.value = true

theorem Ctx.typed_of_none (h : c.target = none) : Ctx.Typed Γ c := fun x t hc => by
  rw [h] at hc
  cases hc

theorem bools_outVar {code : Code V} {ts : List (Text V)} (hx : x.type Γ = t)
    (h : BoolStores Γ code) : Bools Γ t (outVar c t x code ts) := ⟨h, isBool_varTexts hx⟩

theorem bools_unaryOut (hc : Ctx.Typed Γ c) (hE : BoolStores Γ E.code) (hop : t.core = .bool → op = .not) : Bools Γ t (unaryOut c t u op E) := by
  have htext : t.core = .bool → isBool Γ (parenIf (c.needsParen 10) (.unary op E.value)) = true := fun h => by
    rw [isBool_parenIf, hop h]
    rfl
  dsimp only [unaryOut]
  split
  · exact ⟨hE, htext⟩
  · refine bools_outVar (resultVar_type hc t) (boolStores_andThen.mpr ⟨hE, boolStores_combineNullables fun h => htext ?_⟩)
    rwa [resultVar_type hc] at h

theorem bools_strictOut {plain boxed : Text V} {L R : Out V} (hc : Ctx.Typed Γ c)
    (hL : BoolStores Γ L.code) (hR : BoolStores Γ R.code) (hplain : t.core = .bool → isBool Γ plain = true)
    (hboxed : t.core = .bool → isBool Γ boxed = true) : Bools Γ t (strictOut c t l r plain boxed L R) := by
  dsimp only [strictOut]
  split
  · exact ⟨boolStores_andThen.mpr ⟨hL, hR⟩, hplain⟩
  · refine bools_outVar (resultVar_type hc t) (boolStores_andThen.mpr ⟨boolStores_andThen.mpr ⟨hL, hR⟩,
      boolStores_combineNullables fun h => hboxed ?_⟩)
    rwa [resultVar_type hc] at h

theorem bools_binaryOut {op : Binary} {L R : Out V} (hc : Ctx.Typed Γ c) (hL : BoolStores Γ L.code)
    (hR : BoolStores Γ R.code) (hop : t.core = .bool → (mathOf op).isNone = true) : Bools Γ t (binaryOut c t l r op L R) :=
  bools_strictOut hc hL hR (fun h => isBool_parenIf.trans (hop h)) hop

theorem bools_compareOut {pri : Nat} {text : Text V} {L R : Out V} (hc : Ctx.Typed Γ c)
    (hL : BoolStores Γ L.code) (hR : BoolStores Γ R.code) (htext : isBool Γ text = true) : Bools Γ t (compareOut c t l r pri text L R) :=
  bools_strictOut hc hL hR (fun _ => isBool_parenIf.trans htext) (fun _ => isBool_parenIf.trans htext)

theorem boolStores_logicalCode {op : LogicalOp} {L R : Out V} (hx : x.type Γ = t)
    (hR : BoolStores Γ R.code) (hvalue : r.core = .bool → isBool Γ R.value = true)
    (hstart : t.notNull = true → r.core = .bool ∨ startsWithNot R.value = false) : BoolStores Γ (logicalCode op x t r L R) := by
  have hbit : ∀ b c : Bool, isBool Γ (if op = .or then (.atom (.bool b) : Text V) else .atom (.bool c)) = true := fun b c => by
    split <;> rfl
  have hdecided : BoolStores Γ (store x t t zero (if op = .or then one else zero : Text V)) :=
    boolStores_store_same hx fun _ => hbit true false
  refine ⟨hdecided, boolStores_andThen.mpr ⟨hR, ?_⟩⟩
  split
  · rename_i h
    exact boolStores_store hx hvalue fun _ => hstart h
  · exact ⟨hdecided, boolStores_combineNullables fun _ => hbit false true⟩

theorem bools_castOut (hc : Ctx.Typed Γ c) (hE : Bools Γ u E) : Bools Γ t (castOut c t u E) := by
  dsimp only [castOut]
  split
  · refine ⟨hE.code, fun ht => ?_⟩
    simp [out, nullZero, ht, isRef, isBool, zero]
  split
  · rename_i h
    exact ⟨hE.code, fun ht => hE.value (h.trans ht)⟩
  · have htext : t.core = .bool → isBool Γ (.paren (.unary (.cast t.core)
        (if u.core = .bool ∨ t.core = .bool then notText (notText (.paren E.value)) else .paren E.value))) = true := fun h => by
      rw [h]
      rfl
    split
    · exact ⟨hE.code, htext⟩
    · refine bools_outVar (resultVar_type hc t) (boolStores_andThen.mpr ⟨hE.code, boolStores_combineNullables fun h => htext ?_⟩)
      rwa [resultVar_type hc] at h

theorem isBool_varTexts_isNull (t : SemType) (x : Var) : isBool Γ (varTexts (V := V) t x).1 = true := by
  unfold varTexts
  split
  · rfl
  · split <;> rfl

theorem isBool_unaryOut : isBool Γ (unaryOut c t u op E).isNull = true := by
  dsimp only [unaryOut]
  split
  · rfl
  · exact isBool_varTexts_isNull _ _

theorem isBool_strictOut {plain boxed : Text V} {L R : Out V} : isBool Γ (strictOut c t l r plain boxed L R).isNull = true := by
  dsimp only [strictOut]
  split
  · rfl
  · exact isBool_varTexts_isNull _ _

theorem isBool_logicalOut {op : LogicalOp} {bothNull : Bool} {L R : Out V} : isBool Γ (logicalOut c t r op bothNull L R).isNull = true := by
  dsimp only [logicalOut]
  split
  · rfl
  · exact isBool_varTexts_isNull _ _

/-- The text that tells whether an expression is null has the value `0` or `1`. -/
theorem isBool_isNull : ∀ (e : Expr V) (c : Ctx), isBool Γ (cgExpr c e).isNull = true
  | .null, ⟨_, _, _, _⟩ => rfl
  | .bit _ _, c => rfl
  | .literal _ _, c => rfl
  | .var t x, c => isBool_varTexts_isNull t _
  | .unary op e, c => isBool_unaryOut
  | .not e, c => isBool_unaryOut
  | .binary op l r, c => by
    rw [cgExpr]
    split
    · rfl
    · exact isBool_strictOut
  | .compare op l r, c => by
    rw [cgExpr]
    split <;> exact isBool_strictOut
  | .eqNe negated l r, c => by
    rw [cgExpr]
    split
    · exact isBool_strictOut
    split <;> exact isBool_strictOut
  | .like negated l r, c => isBool_strictOut
  | .logical op l r, c => isBool_logicalOut
  | .is negated l r, c => by
    rw [cgExpr]
    split
    · split <;> rfl
    split
    · split <;> rfl
    · rfl
  | .isTruth negated value e, c => rfl
  | .between name e test, c => by
    rw [cgExpr]
    split
    · rfl
    · exact isBool_isNull test ⟨c.pri, true, none, _⟩
  | .inPred negated e items, c => by
    rw [cgExpr]
    split <;> exact isBool_varTexts_isNull _ _
  | .caseExpr _ _ _, c => isBool_varTexts_isNull _ _
  | .coalesce _, c => isBool_varTexts_isNull _ _
  | .cast e core, c => by
    dsimp only [cgExpr, castOut]
    split
    · rfl
    split
    · exact isBool_isNull e _
    split
    · rfl
    · exact isBool_varTexts_isNull _ _
  | .typeCheck e, c => rfl

theorem bools_isNullOut {e : Expr V} (hE : BoolStores Γ (cgExpr c e).code) : Bools Γ t (isNullOut negated (cgExpr c e)) := by
  refine ⟨hE, fun _ => ?_⟩
  cases negated
  · exact isBool_isNull e c
  · rfl

theorem bools_logicalOut {op : LogicalOp} {bothNull : Bool} {L R : Out V} (hc : Ctx.Typed Γ c) (hL : BoolStores Γ L.code) (hR : Bools Γ r R)
    (hstart : (t.notNull && !R.code.isSkip) = true → r.core = .bool ∨ startsWithNot R.value = false) :
    Bools Γ t (logicalOut c t r op bothNull L R) := by
  dsimp only [logicalOut]
  split
  · refine ⟨hL, fun _ => isBool_parenIf.trans ?_⟩
    cases op <;> rfl
  · rename_i h
    refine bools_outVar (resultVar_type hc t) (boolStores_andThen.mpr ⟨hL, ?_⟩)
    split
    · trivial
    · refine boolStores_logicalCode (resultVar_type hc t) hR.code hR.value fun hn => hstart ?_
      rw [hn] at h ⊢
      simpa using h

theorem bools_isOut {L R : Out V} (hL : BoolStores Γ L.code) (hR : BoolStores Γ R.code) : Bools Γ t (isOut c negated l r L R) := by
  refine ⟨boolStores_andThen.mpr ⟨hL, hR⟩, fun _ => ?_⟩
  simp only [isOut, out]
  split
  · cases negated <;> rfl
  split
  · cases negated <;> rfl
  split
  · rw [isBool_parenIf]
    cases negated <;> rfl
  · cases negated <;> rfl

theorem isBool_isTruthOut {value : Bool} : isBool Γ (isTruthOut negated value u E).value = true := by
  simp only [isTruthOut, out]
  split
  · split <;> rfl
  · cases negated <;> cases value <;> rfl

/-- A safe store of the value of an expression. -/
theorem boolStores_store_expr {e : Expr V} {n : Text V} (hx : x.type Γ = t)
    (hE : Bools Γ e.type (cgExpr c e)) (h : storeSafe t c.pri c.right e = true) : BoolStores Γ (store x t e.type n (cgExpr c e).value) := by
  refine boolStores_store hx hE.value fun ht => ?_
  simp only [storeSafe, ht, ne_eq, not_true_eq_false, decide_false, Bool.false_or, Bool.or_eq_true, decide_eq_true_eq, Bool.not_eq_true'] at h
  rwa [(starts_eq e c).1]

mutual

/-- What is generated for an expression whose stores are safe keeps BOOLs normalized. -/
theorem cgExpr_bools : ∀ (e : Expr V) {c : Ctx}, e.Typed Γ → e.storesSafe = true → Ctx.Typed Γ c → Bools Γ e.type (cgExpr c e)
  | .null, c, _, _, _ => ⟨trivial, nofun⟩
  | .bit _ _, c, _, _, _ => ⟨trivial, fun _ => rfl⟩
  | .literal core v, c, ht, _, _ => ⟨trivial, fun h => absurd h ht⟩
  | .var t x, c, ht, _, _ => ⟨trivial, isBool_varTexts ht⟩
  | .unary op e, c, ht, hs, hc => by
    refine bools_unaryOut hc (cgExpr_bools e ht hs (Ctx.typed_of_none rfl)).code fun h => ?_
    simp only [Expr.type, semCombineTypes, semCombineCore] at h
    split at h
    · cases h
    · split at h
      · rename_i hcore
        rw [h] at hcore
        simp at hcore
      · cases h
  | .not e, c, ht, hs, hc => bools_unaryOut hc (cgExpr_bools e ht hs (Ctx.typed_of_none rfl)).code fun _ => rfl
  | .binary op l r, c, ht, hs, hc => by
    have hs := (Bool.and_eq_true _ _).mp hs
    rw [cgExpr]
    split
    · rename_i h
      exact ⟨trivial, fun ht => by rw [h] at ht; cases ht⟩
    · refine bools_binaryOut hc (cgExpr_bools l ht.1 hs.1 (Ctx.typed_of_none rfl)).code
        (cgExpr_bools r ht.2 hs.2 (Ctx.typed_of_none rfl)).code fun h => ?_
      simp only [Expr.type] at h
      split at h <;> contradiction
  | .compare op l r, c, ht, hs, hc => by
    have hs := (Bool.and_eq_true _ _).mp hs
    have hL := fun pri level => (cgExpr_bools l ht.1 hs.1 (Ctx.typed_of_none (c := .left pri level) rfl)).code
    have hR := fun pri level => (cgExpr_bools r ht.2 hs.2 (Ctx.typed_of_none (c := .rightOf pri level) rfl)).code
    rw [cgExpr]
    split
    · exact bools_compareOut hc (hL _ _) (hR _ _) (by cases op <;> rfl)
    · exact bools_binaryOut hc (hL _ _) (hR _ _) fun _ => by cases op <;> rfl
  | .eqNe negated l r, c, ht, hs, hc => by
    have hs := (Bool.and_eq_true _ _).mp hs
    have hL := fun pri level => (cgExpr_bools l ht.1 hs.1 (Ctx.typed_of_none (c := .left pri level) rfl)).code
    have hR := fun pri level => (cgExpr_bools r ht.2 hs.2 (Ctx.typed_of_none (c := .rightOf pri level) rfl)).code
    rw [cgExpr]
    split
    · exact bools_compareOut hc (hL _ _) (hR _ _) (by cases negated <;> rfl)
    split
    · exact bools_compareOut hc (hL _ _) (hR _ _) (by cases negated <;> rfl)
    · exact bools_binaryOut hc (hL _ _) (hR _ _) fun _ => by cases negated <;> rfl
  | .like negated l r, c, ht, hs, hc => by
    have hs := (Bool.and_eq_true _ _).mp hs
    exact bools_compareOut hc (cgExpr_bools l ht.1 hs.1 (Ctx.typed_of_none rfl)).code
      (cgExpr_bools r ht.2 hs.2 (Ctx.typed_of_none rfl)).code (by cases negated <;> rfl)
  | .logical op l r, c, ht, hs, hc => by
    have hs := (Bool.and_eq_true _ _).mp hs
    have hsafe := hs.2
    have hs := (Bool.and_eq_true _ _).mp hs.1
    have hR := described r (.rightOf (if op = .or then 1 else 2)
      (cgExpr (.left (if op = .or then 1 else 2) (c.level + 1)) l).level)
    refine bools_logicalOut hc (cgExpr_bools l ht.1 hs.1 (Ctx.typed_of_none rfl)).code
      (cgExpr_bools r ht.2 hs.2 (Ctx.typed_of_none rfl)) fun h => ?_
    rw [hR.isSkip, Bool.and_eq_true] at h
    have hb : bothNotNull l r = true := h.1
    have hp : r.plain = false := (Bool.not_eq_true' _).mp h.2
    simp only [hb, hp, storeSafe, ne_eq, not_true_eq_false, decide_false, Bool.not_true, Bool.false_or, Bool.or_eq_true,
      decide_eq_true_eq, Bool.not_eq_true'] at hsafe
    rw [(starts_eq r _).1]
    exact hsafe
  | .is negated l r, c, ht, hs, hc => by
    have hs := (Bool.and_eq_true _ _).mp hs
    rw [cgExpr]
    split
    · split
      · exact ⟨trivial, fun _ => rfl⟩
      · exact bools_isNullOut (cgExpr_bools r ht.2 hs.2 (Ctx.typed_of_none rfl)).code
    split
    · split
      · exact ⟨trivial, fun _ => rfl⟩
      · exact bools_isNullOut (cgExpr_bools l ht.1 hs.1 (Ctx.typed_of_none rfl)).code
    · exact bools_isOut (cgExpr_bools l ht.1 hs.1 (Ctx.typed_of_none rfl)).code (cgExpr_bools r ht.2 hs.2 (Ctx.typed_of_none rfl)).code
  | .isTruth negated value e, c, ht, hs, hc =>
    ⟨(cgExpr_bools e ht hs (Ctx.typed_of_none rfl)).code, fun _ => isBool_isTruthOut⟩
  | .between name e test, c, ht, hs, hc => by
    have hs := (Bool.and_eq_true _ _).mp hs
    rw [cgExpr]
    split
    · exact ⟨trivial, fun _ => rfl⟩
    · have hE := cgExpr_bools e ht.2.1 hs.1 (Ctx.typed_of_none (c := .root c.level) rfl)
      have hT := cgExpr_bools test ht.2.2 hs.2 (Ctx.typed_of_none (c := ⟨c.pri, true, none, (cgExpr (.root c.level) e).level⟩) rfl)
      exact ⟨boolStores_andThen.mpr ⟨hE.code, boolStores_andThen.mpr ⟨boolStores_storeNew ht.1.1 hE.value, hT.code⟩⟩, fun _ => hT.value ht.1.2⟩
  | .inPred negated e items, c, ht, hs, hc => by
    have hs := (Bool.and_eq_true _ _).mp hs
    rw [cgExpr]
    split
    · exact bools_outVar (resultVar_type hc _) (boolStores_setNullCode (resultVar_type hc _))
    · have hE := cgExpr_bools e ht.1 hs.1 (Ctx.typed_of_none (c := .root (c.level + 1)) rfl)
      have hbit : ∀ b, BoolStores Γ (store (.temp (Expr.inPred negated e items).type c.level) (Expr.inPred negated e items).type
          (Expr.inPred negated e items).type zero (.atom (.bool b) : Text V)) := fun b => boolStores_store_same rfl fun _ => rfl
      refine bools_outVar rfl (boolStores_andThen.mpr ⟨hE.code, boolStores_andThen.mpr ⟨boolStores_store_same rfl hE.value,
        boolStores_andThen.mpr ⟨?_, boolStores_andThen.mpr ⟨hbit _, boolStores_andThen.mpr ⟨cgItems_bools items ht.2 hs.2, hbit _⟩⟩⟩⟩⟩)
      split
      · trivial
      · exact ⟨boolStores_andThen.mpr ⟨boolStores_setNullCode rfl, trivial⟩, trivial⟩
  | .caseExpr operand whens orElse, c, ht, hs, hc => by
    simp only [Expr.storesSafe, Bool.and_eq_true] at hs
    have hx := resultVar_type hc (Expr.caseExpr operand whens orElse).type
    exact bools_outVar hx (boolStores_andThen.mpr ⟨boolStores_andThen.mpr ⟨cgOperand_bools operand ht.1 hs.1.1,
      cgWhens_bools whens hx ht.2.1 hs.1.2⟩, cgElse_bools orElse hx ht.2.2 hs.2⟩)
  | .coalesce args, c, ht, hs, hc =>
    bools_outVar (resultVar_type hc _) (cgCoalesce_bools args (resultVar_type hc _) ht hs)
  | .cast e core, c, ht, hs, hc => bools_castOut hc (cgExpr_bools e ht hs (Ctx.typed_of_none rfl))
  | .typeCheck e, c, ht, hs, hc => by
    have hE := cgExpr_bools e ht hs (Ctx.typed_of_none (c := .root c.level) rfl)
    exact ⟨hE.code, hE.value⟩

theorem cgItems_bools : ∀ (items : Exprs V) {operand : Text V} {level : Nat}, items.Typed Γ → items.itemsStoresSafe = true →
    BoolStores Γ (cgItems operand level items).1
  | .nil, _, _, _, _ => trivial
  | .cons e rest, operand, level, ht, hs => by
    have hs := (Bool.and_eq_true _ _).mp hs
    have ih : BoolStores Γ (cgItems operand level rest).1 := cgItems_bools rest ht.2 hs.2
    rw [cgItems]
    split
    · exact ih
    · exact boolStores_andThen.mpr ⟨(cgExpr_bools e ht.1 hs.1 (Ctx.typed_of_none rfl)).code, boolStores_andThen.mpr ⟨⟨trivial, trivial⟩, ih⟩⟩

theorem cgOperand_bools : ∀ (operand : OptExpr V) {level : Nat}, operand.Typed Γ → operand.operandStoresSafe = true →
    BoolStores Γ (cgOperand level operand).2.1
  | .none, _, _, _ => trivial
  | .some e, level, ht, hs => by
    have hE := cgExpr_bools e ht hs (Ctx.typed_of_none (c := .left 5 (level + 1)) rfl)
    refine boolStores_andThen.mpr ⟨hE.code, boolStores_andThen.mpr ⟨boolStores_store_same rfl hE.value, ?_⟩⟩
    split
    · trivial
    · exact ⟨trivial, trivial⟩

theorem cgWhens_bools : ∀ (whens : Whens V) {x : Var} {t : SemType} {operand : Option (Text V)} {level : Nat}, x.type Γ = t →
    whens.Typed Γ → whens.storesSafe t = true → BoolStores Γ (cgWhens x t operand level whens).1
  | .nil, _, _, _, _, _, _, _ => trivial
  | .cons cond value rest, x, t, operand, level, hx, ht, hs => by
    simp only [Whens.storesSafe, Bool.and_eq_true] at hs
    have hE := cgExpr_bools value ht.2.1 hs.1.2.1 (Ctx.typed_of_none (c := .root level) rfl)
    exact boolStores_andThen.mpr ⟨(cgExpr_bools cond ht.1 hs.1.1 (Ctx.typed_of_none rfl)).code, boolStores_andThen.mpr
      ⟨⟨boolStores_andThen.mpr ⟨hE.code, boolStores_andThen.mpr ⟨boolStores_store_expr hx hE hs.1.2.2, trivial⟩⟩, trivial⟩,
        cgWhens_bools rest hx ht.2.2 hs.2⟩⟩

theorem cgElse_bools : ∀ (orElse : OptExpr V) {x : Var} {t : SemType} {level : Nat}, x.type Γ = t → orElse.Typed Γ →
    orElse.storesSafe t = true → BoolStores Γ (cgElse x t level orElse).1
  | .none, _, _, _, hx, _, _ => boolStores_setNullCode hx
  | .some e, x, t, level, hx, ht, hs => by
    have hs := (Bool.and_eq_true _ _).mp hs
    have hE := cgExpr_bools e ht hs.1 (Ctx.typed_of_none (c := .root level) rfl)
    exact boolStores_andThen.mpr ⟨hE.code, boolStores_store_expr hx hE hs.2⟩

theorem cgCoalesce_bools : ∀ (args : Exprs V) {x : Var} {t : SemType} {level : Nat}, x.type Γ = t → args.Typed Γ →
    args.storesSafe t = true → BoolStores Γ (cgCoalesce x t level args).1
  | .nil, _, _, _, _, _, _ => trivial
  | .cons e .nil, x, t, level, hx, ht, hs => by
    simp only [Exprs.storesSafe, Bool.and_eq_true] at hs
    have hE := cgExpr_bools e ht.1 hs.1.1 (Ctx.typed_of_none (c := .root level) rfl)
    exact boolStores_andThen.mpr ⟨hE.code, boolStores_store_expr hx hE hs.1.2⟩
  | .cons e (.cons e' rest), x, t, level, hx, ht, hs => by
    rw [Exprs.storesSafe, Bool.and_eq_true, Bool.and_eq_true] at hs
    have hE := cgExpr_bools e ht.1 hs.1.1 (Ctx.typed_of_none (c := .root level) rfl)
    have hstore : BoolStores Γ (store x t ⟨e.type.core, true⟩ zero (cgExpr (.root level) e).value) := by
      refine boolStores_store hx hE.value fun hb => ?_
      have h := hs.1.2
      simp only [storeSafe, hb, ne_eq, not_true_eq_false, decide_false, Bool.false_or, Bool.or_eq_true, decide_eq_true_eq, Bool.not_eq_true'] at h
      rw [(starts_eq e (.root level)).1]
      exact h
    exact boolStores_andThen.mpr ⟨hE.code, boolStores_andThen.mpr
      ⟨⟨boolStores_andThen.mpr ⟨hstore, trivial⟩, trivial⟩, cgCoalesce_bools (.cons e' rest) hx ht.2 hs.2⟩⟩

end

/-! ## Actions -/

theorem shown_root {own : Nat} (h : 0 < own) (right : Bool) : shown own 0 right = some own := by
  unfold shown
  rw [if_neg (Nat.pos_iff_ne_zero.mp h), decide_eq_false (Nat.not_lt_zero own)]
  rfl

/-- On the right hand side of an assignment it makes no difference to be a right child. -/
theorem startsNot_root (e : Expr V) (right : Bool) : e.startsNot 0 right = e.startsNot 0 false := by
  have hmath : ∀ op, shown (mathBinary op).prec 0 right = shown (mathBinary op).prec 0 false := fun op => by
    rw [shown_root (by cases op <;> decide), shown_root (by cases op <;> decide)]
  have hlogical : ∀ op : LogicalOp, shown (if op = .or then 1 else 2) 0 right = shown (if op = .or then 1 else 2) 0 false :=
    fun op => by rw [shown_root (by cases op <;> decide), shown_root (by cases op <;> decide)]
  have h₅ : shown 5 0 right = shown 5 0 false := rfl
  have h₆ : shown 6 0 right = shown 6 0 false := rfl
  have h₁₀ : shown 10 0 right = shown 10 0 false := rfl
  cases e <;> simp only [Expr.startsNot, hmath, hlogical, h₅, h₆, h₁₀]

/-- What an action runs: the texts fit and the stores keep BOOLs normalized. -/
theorem action_bools {a : Action V} (ha : a.Typed Γ) (hs : a.safe Γ = true) : AllFit (a.code Γ).texts ∧ BoolStores Γ (a.code Γ) := by
  obtain ⟨ht, hcompat⟩ := ha
  simp only [Action.safe, Bool.and_eq_true] at hs
  obtain ⟨⟨hparen, hstores⟩, hstore⟩ := hs
  have hfit := fun c => (cgExpr_fit a.expr c).mpr hparen
  have hshape := fun c => (described a.expr c).shaped
  cases a with
  | set x e =>
    have hc : Ctx.Typed Γ ⟨0, true, some (.user x, Γ x), 0⟩ := fun y t h => by
      cases h
      rfl
    have hE := cgExpr_bools e ht hstores hc
    have hfit := hfit ⟨0, true, some (.user x, Γ x), 0⟩
    have hshape := hshape ⟨0, true, some (.user x, Γ x), 0⟩
    have hstore : storeSafe (Γ x) 0 true e = true := by
      unfold storeSafe
      rw [startsNot_root]
      exact hstore
    refine ⟨?_, boolStores_andThen.mpr ⟨hE.code, boolStores_store_expr rfl hE hstore⟩⟩
    rw [Action.code, cgAssign, texts_andThen, allFit_append]
    exact ⟨hfit.2, allFit_store hshape.isNull.2 (hshape.fits hfit)⟩
  | field x e =>
    have hE := cgExpr_bools e ht hstores (Ctx.typed_of_none (c := .root 0) rfl)
    refine ⟨?_, boolStores_andThen.mpr ⟨hE.code, boolStores_store_expr rfl hE hstore⟩⟩
    rw [Action.code, texts_andThen, allFit_append]
    exact ⟨(hfit (.root 0)).2, allFit_store (hshape (.root 0)).isNull.2 ((hshape (.root 0)).fits (hfit (.root 0)))⟩
  | arg p e =>
    have hE := cgExpr_bools e ht hstores (Ctx.typed_of_none (c := .root 0) rfl)
    have hv := (hshape (.root 0)).fits (hfit (.root 0))
    have hn := (hshape (.root 0)).isNull.2
    have hstore : (Γ p).notNull = true ∨ storeSafe (Γ p) 0 false e = true := (Bool.or_eq_true _ _).mp hstore
    rw [Action.code, cgEmitOneArg, texts_andThen, allFit_append, boolStores_andThen]
    suffices h : ∀ k : Code V, AllFit k.texts ∧ BoolStores Γ k →
        (AllFit (cgExpr (.root 0) e).code.texts ∧ AllFit k.texts) ∧ BoolStores Γ (cgExpr (.root 0) e).code ∧ BoolStores Γ k by
      refine h _ ?_
      by_cases href : isRef e.type.core = true
      · rw [if_pos href]
        refine ⟨allFit_cons.mpr ⟨hv, allFit_nil⟩, fun hp => ?_⟩
        -- a reference is no BOOL
        have hp : (Γ p).core = .bool := hp
        have hcompat : semVerifyCompat (Γ p).core e.type.core = true := hcompat
        rw [hp] at hcompat
        cases hcore : e.type.core <;> rw [hcore] at href hcompat <;> first
          | exact absurd href (by decide)
          | exact absurd hcompat (by decide)
      rw [if_neg href]
      by_cases hbox : (!(Γ p).notNull && (e.isNullLiteral || e.type.notNull || decide (e.type.core ≠ (Γ p).core))) = true
      · rw [if_pos hbox]
        have hnull := ((Bool.and_eq_true _ _).mp hbox).1
        have hstore := hstore.resolve_left fun h => by
          rw [h] at hnull
          cases hnull
        refine ⟨?_, boolStores_andThen.mpr ⟨boolStores_store_expr rfl hE hstore, fun hp => isBool_varTexts rfl hp⟩⟩
        rw [texts_andThen, allFit_append]
        exact ⟨allFit_store hn hv, allFit_cons.mpr ⟨(varTexts_plain _ _).1.2, allFit_cons.mpr ⟨(varTexts_plain _ _).2.2, allFit_nil⟩⟩⟩
      rw [if_neg hbox]
      by_cases hbool : (Γ p).core = .bool ∧ e.type.core ≠ .bool
      · rw [if_pos hbool]
        exact ⟨allFit_cons.mpr ⟨⟨rfl, rfl, hv⟩, allFit_nil⟩, fun _ => rfl⟩
      rw [if_neg hbool]
      have hvalue : (Γ p).core = .bool → isBool Γ (cgExpr (.root 0) e).value = true := fun hp =>
        hE.value (not_not.mp fun he => hbool ⟨hp, he⟩)
      split
      · exact ⟨allFit_cons.mpr ⟨hn, allFit_cons.mpr ⟨hv, allFit_nil⟩⟩, hvalue⟩
      · exact ⟨allFit_cons.mpr ⟨hv, allFit_nil⟩, hvalue⟩
    exact fun k h => ⟨⟨(hfit (.root 0)).2, h.1⟩, hE.code, h.2⟩

/-- Every run of safe stores does. -/
theorem runActions_normalized : ∀ {acts : List (Action V)} {σ τ : Store V}, (∀ a ∈ acts, a.Typed Γ) →
    (∀ a ∈ acts, a.safe Γ = true) → Normalized rt Γ σ → runActions rt Γ acts σ = .ok τ → Normalized rt Γ τ
  | [], σ, τ, _, _, hσ, h => by
    cases h
    exact hσ
  | a :: acts, σ, τ, ht, hs, hσ, h => by
    obtain ⟨⟨e, σ'⟩, ha, h⟩ := of_bind_ok h
    have hb := action_bools (ht a (.head _)) (hs a (.head _))
    exact runActions_normalized (fun b hb => ht b (.tail _ hb)) (fun b hb => hs b (.tail _ hb)) (run_normalized hb.1 hb.2 hσ ha) h

/-- The operations of C on integers. -/
def integerRuntime : Runtime Int where
  ofBool b := if b then 1 else 0
  truth v := v ≠ 0
  unaryMath
    | .neg, a => -a
    | .complement, a => -a - 1
  math
    | .add, a, b => some (a + b)
    | .sub, a, b => some (a - b)
    | .mul, a, b => some (a * b)
    | .div, a, b => if b = 0 then none else some (a.tdiv b)
    | .mod, a, b => if b = 0 then none else some (a.tmod b)
    | .bitAnd, a, b => some (a.toNat &&& b.toNat : Nat)
    | .bitOr, a, b => some (a.toNat ||| b.toNat : Nat)
    | .lshift, a, b => some (a * 2 ^ b.toNat)
    | .rshift, a, b => some (a / 2 ^ b.toNat)
  compare
    | .lt, a, b => a < b
    | .gt, a, b => b < a
    | .le, a, b => a ≤ b
    | .ge, a, b => b ≤ a
  equal a b := a = b
  like a b := a = b
  concat a _ := a
  cast
    | .bool, a => if a = 0 then 0 else 1
    | _, a => a
  stringCompare a b := a - b
  stringLike a b := if a = b then 0 else 1
  sameAddress _ _ := false
  truth_ofBool b := by cases b <;> rfl
  cast_bool v := by
    by_cases h : v = 0 <;> simp [h]
  compare_stringCompare op a b := by
    cases op <;> simp only [Bool.false_eq_true, if_false, decide_eq_decide] <;> omega
  equal_stringCompare a b := by
    simp only [Bool.false_eq_true, if_false, decide_eq_decide]
    omega
  equal_stringLike a b := by
    by_cases h : a = b <;> simp [h]

/-- `b` is a BOOL and the others are integers. -/
def oneBool : Types := fun name => if name = "b" then ⟨.bool, true⟩ else ⟨.integer, true⟩

/-- All variables are `0`. -/
def zeros : Store Int := fun _ => ⟨false, some 0⟩

/-- `(NOT x) + 5`. -/
def notPlus : Expr Int := .binary .add (.not (.var ⟨.integer, true⟩ "x")) (.literal .integer 5)

theorem zeros_normalized (Γ : Types) : Normalized integerRuntime Γ zeros := fun _ _ => ⟨false, rfl⟩

end BoolsAux

open BoolsAux

/-- `SET b := (NOT x) + 5` stores `6`. -/
theorem boolsNormalized_false : ¬ BoolsNormalized Int := by
  intro h
  obtain ⟨τ, hτ⟩ : ∃ τ, runActions integerRuntime oneBool [.set "b" notPlus] zeros = .ok τ ∧ (τ (.user "b")).value = some 6 :=
    ⟨_, rfl, by decide +kernel⟩
  obtain ⟨b, hb⟩ := h integerRuntime oneBool [.set "b" notPlus] zeros τ (fun a ha => by
      obtain rfl := List.mem_singleton.mp ha
      exact ⟨⟨rfl, nofun⟩, rfl⟩)
    (zeros_normalized _) hτ.1 (.user "b") rfl
  rw [hτ.2] at hb
  cases b <;> exact absurd hb (by decide)

/-- In every run whose stores to BOOLs are safe, and whose texts C reads rightly, all BOOLs hold `0` or `1`. -/
theorem bools_normalized_of_safe {V : Type} (rt : Runtime V) (Γ : Types) (acts : List (Action V)) (σ τ : Store V)
    (ht : ∀ a ∈ acts, a.Typed Γ) (hs : ∀ a ∈ acts, a.safe Γ = true) (hσ : Normalized rt Γ σ)
    (hrun : runActions rt Γ acts σ = .ok τ) : Normalized rt Γ τ :=
  runActions_normalized ht hs hσ hrun

/-- `SET b := x + 5` is converted. -/
theorem bools_normalized_of_safe_set : ∃ τ, Normalized integerRuntime oneBool τ ∧ (τ (.user "b")).value = some 1 :=
  ⟨_, bools_normalized_of_safe integerRuntime oneBool [.set "b" (.binary .add (.var ⟨.integer, true⟩ "x") (.literal .integer 5))] zeros _
    (fun a ha => by
      obtain rfl := List.mem_singleton.mp ha
      exact ⟨⟨rfl, nofun⟩, rfl⟩)
    (fun a ha => by
      obtain rfl := List.mem_singleton.mp ha
      decide +kernel)
    (zeros_normalized _) rfl, by decide +kernel⟩

end CgSql.CodeGen
