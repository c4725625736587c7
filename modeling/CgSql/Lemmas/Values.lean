import CgSql.Values

/-!
# Lemmas about values

The values of expressions fit their types.
-/

namespace CgSql.CodeGen

open Nullability

namespace ValuesAux

variable {V : Type} {rt : Runtime V} {ρ : String → Option V} {Γ : Types}

/-- A value fits a type: not null if it is NOT NULL, null if it is NULL, and `0` or `1` if it is BOOL. -/
structure FitsType (rt : Runtime V) (t : SemType) (a : Option V) : Prop where
  notNull : t.notNull = true → a ≠ none
  null : t.core = .null → a = none
  bool : t.core = .bool → ∀ v, a = some v → ∃ b, v = rt.ofBool b

/-- A truth value fits BOOL. -/
theorem fitsType_bool {n : Bool} {a : Option Bool} (h : n = true → a ≠ none) : FitsType rt ⟨.bool, n⟩ (a.map rt.ofBool) := by
  refine ⟨fun hn => ?_, nofun, fun _ v hv => ?_⟩
  · intro hnone
    exact h hn (Option.map_eq_none_iff.mp hnone)
  · obtain ⟨b, -, rfl⟩ := Option.map_eq_some_iff.mp hv
    exact ⟨b, rfl⟩

theorem strict_ne_none {f : V → V → V} {a b : Option V} (ha : a ≠ none) (hb : b ≠ none) : strict f a b ≠ none := by
  cases a with
  | none => exact absurd rfl ha
  | some a =>
    cases b with
    | none => exact absurd rfl hb
    | some b => exact nofun

/-- A strict operator that gives truth values. -/
theorem fitsType_strict {m n : Bool} {f : V → V → Bool} {a b : Option V} (ha : m = true → a ≠ none) (hb : n = true → b ≠ none) :
    FitsType rt ⟨.bool, m && n⟩ (strict (fun a b => rt.ofBool (f a b)) a b) := by
  refine ⟨fun h => ?_, nofun, fun _ v hv => ?_⟩
  · rw [Bool.and_eq_true] at h
    exact strict_ne_none (ha h.1) (hb h.2)
  · cases a with
    | none => cases hv
    | some a =>
      cases b with
      | none => cases hv
      | some b =>
        cases hv
        exact ⟨_, rfl⟩

theorem semCombineCore_null {t u : CoreType} (h : semCombineCore t u = .null) : t = .null ∧ u = .null := by
  cases t <;> cases u <;> simp [semCombineCore] at h ⊢

/-- A value that is converted to a BOOL. -/
theorem convert_bool {t u : SemType} {v : V} (ht : t.core = .bool) (hu : u.core = .bool → ∃ b, v = rt.ofBool b) :
    ∃ b, convert rt t u v = rt.ofBool b := by
  unfold convert
  rw [if_neg (by simp [ht])]
  split
  · exact ⟨_, rfl⟩
  · rename_i h
    exact hu (not_not.mp fun hu => h ⟨ht, hu⟩)

theorem fitsType_convert {t u : SemType} {a : Option V} (ht : t.core ≠ .null) (hn : t.notNull = true → u.notNull = true)
    (h : FitsType rt u a) : FitsType rt t (a.map (convert rt t u)) := by
  refine ⟨fun hnn hnone => h.notNull (hn hnn) (Option.map_eq_none_iff.mp hnone), fun h => absurd h ht, fun hb v hv => ?_⟩
  obtain ⟨w, hw, rfl⟩ := Option.map_eq_some_iff.mp hv
  exact convert_bool hb fun hu => h.bool hu w hw

theorem joinType_notNull {t : Option SemType} {u : SemType} (h : (joinType t u).notNull = true) : u.notNull = true := by
  cases t with
  | none => exact h
  | some t => exact ((Bool.and_eq_true _ _).mp h).2

theorem whens_notNull : ∀ (whens : Whens V) {t : SemType}, (whens.type (some t)).notNull = true → t.notNull = true
  | .nil, _, h => h
  | .cons _ _ rest, _, h => ((Bool.and_eq_true _ _).mp (whens_notNull rest h)).1

/-- A CASE that is NOT NULL has NOT NULL alternatives. -/
theorem whens_notNull_of_case {operand orElse : OptExpr V} {whens : Whens V}
    (h : (Expr.caseExpr operand whens orElse).type.notNull = true) : (whens.type none).notNull = true := by
  cases orElse with
  | none => cases h
  | some e => exact ((Bool.and_eq_true _ _).mp h).1

theorem logical_ne_none {op : LogicalOp} {a b : Option Bool} (ha : a ≠ none) (hb : b ≠ none) : logical op a b ≠ none := by
  cases a with
  | none => exact absurd rfl ha
  | some a =>
    cases b with
    | none => exact absurd rfl hb
    | some b => cases op <;> cases a <;> cases b <;> simp [logical]

mutual

/-- The value of an expression fits its type. -/
theorem eval_fits (hρ : ValidValues rt ρ Γ) : ∀ (e : Expr V), e.Typed Γ → e.Checked → FitsType rt e.type (eval rt cqlIn ρ e)
  | .null, _, _ => ⟨nofun, fun _ => rfl, nofun⟩
  | .bit core b, _, hc => by
    refine ⟨nofun, fun h => ?_, fun _ v hv => ⟨b, (Option.some.inj hv).symm⟩⟩
    obtain rfl : core = .null := h
    cases hc
  | .literal core v, ht, hc => ⟨nofun, fun h => absurd h hc, fun h => absurd h ht⟩
  | .var t x, ht, hc => by
    obtain rfl : Γ x = t := ht
    exact ⟨hρ.notNull x, fun h => absurd h hc, fun h v => hρ.bool x v h⟩
  | .unary op e, ht, hc => by
    have hE := eval_fits hρ e ht hc
    have hcore : (Expr.unary op e).type.core ≠ .null ∧ (Expr.unary op e).type.core ≠ .bool := by
      simp only [Expr.type, semCombineTypes]
      cases e.type.core <;> simp [semCombineCore]
    refine ⟨fun h hnone => ?_, fun h => absurd h hcore.1, fun h => absurd h hcore.2⟩
    simp only [Expr.type, semCombineTypes, Bool.true_and] at h
    exact hE.notNull h (Option.map_eq_none_iff.mp hnone)
  | .not e, ht, hc => by
    have hE := eval_fits hρ e ht hc
    have h := @fitsType_bool V rt e.type.notNull ((eval rt cqlIn ρ e).map fun v => !rt.truth v) fun h hnone =>
      hE.notNull h (Option.map_eq_none_iff.mp hnone)
    rw [Option.map_map] at h
    exact h
  | .binary op l r, ht, hc => by
    have hL := eval_fits hρ l ht.1 hc.2.1
    have hR := eval_fits hρ r ht.2 hc.2.2
    refine ⟨fun h => ?_, fun h => ?_, fun h => ?_⟩
    · have h := (Bool.and_eq_true _ _).mp h
      exact strict_ne_none (hL.notNull h.1) (hR.notNull h.2)
    · simp only [Expr.type] at h
      split at h
      · cases h
      · rw [eval, hL.null (semCombineCore_null h).1]
        rfl
    · simp only [Expr.type] at h
      split at h <;> contradiction
  | .compare op l r, ht, hc => fitsType_strict (eval_fits hρ l ht.1 hc.1).notNull (eval_fits hρ r ht.2 hc.2).notNull
  | .eqNe negated l r, ht, hc => fitsType_strict (eval_fits hρ l ht.1 hc.1).notNull (eval_fits hρ r ht.2 hc.2).notNull
  | .like negated l r, ht, hc => fitsType_strict (eval_fits hρ l ht.1 hc.1).notNull (eval_fits hρ r ht.2 hc.2).notNull
  | .logical op l r, ht, hc => by
    have hL := eval_fits hρ l ht.1 hc.1
    have hR := eval_fits hρ r ht.2 hc.2
    refine fitsType_bool fun h => ?_
    have h := (Bool.and_eq_true _ _).mp h
    exact logical_ne_none (fun hn => hL.notNull h.1 (Option.map_eq_none_iff.mp hn)) fun hn => hR.notNull h.2 (Option.map_eq_none_iff.mp hn)
  | .is negated l r, _, _ => ⟨nofun, nofun, fun _ v hv => ⟨_, (Option.some.inj hv).symm⟩⟩
  | .isTruth negated value e, _, _ => ⟨nofun, nofun, fun _ v hv => ⟨_, (Option.some.inj hv).symm⟩⟩
  | .between name e test, ht, hc => by
    rw [eval]
    split
    · rename_i h
      refine ⟨fun hn => ?_, nofun, nofun⟩
      cases e <;> simp [Expr.isNullLiteral, Expr.type] at h hn
    · have hT := eval_fits hρ test ht.2.2 hc.2
      exact ⟨fun hn => hT.notNull ((Bool.and_eq_true _ _).mp hn).2, nofun, fun _ => hT.bool ht.1.2⟩
  | .inPred negated e items, ht, hc => by
    have hE := eval_fits hρ e ht.1 hc.1
    have h := @fitsType_bool V rt e.type.notNull
      ((cqlIn rt.equal (eval rt cqlIn ρ e) (evalItems rt cqlIn ρ items)).map fun b => b ^^ negated) fun h hnone =>
        hE.notNull h (Option.map_eq_none_iff.mp (Option.map_eq_none_iff.mp hnone))
    rw [Option.map_map] at h
    exact h
  | .caseExpr operand whens orElse, ht, hc => by
    have hW : ∀ o r, evalWhens rt cqlIn ρ (Expr.caseExpr operand whens orElse).type o whens = some r →
        FitsType rt (Expr.caseExpr operand whens orElse).type r := fun o r hr =>
      evalWhens_fits hρ whens ht.2.1 hc.1 hc.2.2.1 whens_notNull_of_case hr
    have hD : FitsType rt (Expr.caseExpr operand whens orElse).type
        (evalElse rt cqlIn ρ (Expr.caseExpr operand whens orElse).type orElse) := evalElse_fits hρ orElse ht.2.2 hc.1 hc.2.2.2
    have hget : ∀ o, FitsType rt (Expr.caseExpr operand whens orElse).type
        ((evalWhens rt cqlIn ρ (Expr.caseExpr operand whens orElse).type o whens).getD
          (evalElse rt cqlIn ρ (Expr.caseExpr operand whens orElse).type orElse)) := fun o => by
      cases h : evalWhens rt cqlIn ρ (Expr.caseExpr operand whens orElse).type o whens with
      | none => exact hD
      | some r => exact hW o r h
    cases operand with
    | none => exact hget none
    | some e =>
      simp only [eval]
      split
      · exact hD
      · exact hget _
  | .coalesce args, ht, hc => by
    have h := evalCoalesce_fits hρ args ht hc.1 hc.2 (u := none)
    exact ⟨fun hn => (h.1 hn).resolve_left Bool.false_ne_true, fun h => absurd h hc.1, h.2⟩
  | .cast e core, ht, hc => by
    have hE := eval_fits hρ e ht hc.2
    have hn : (if e.type.core = .null then false else e.type.notNull) = true → eval rt cqlIn ρ e ≠ none := fun h => by
      split at h
      · cases h
      · exact hE.notNull h
    rw [eval]
    split
    · rename_i h
      exact ⟨hn, fun h => absurd h hc.1.1, fun hb => hE.bool (h.trans hb)⟩
    · refine ⟨fun h hnone => hn h (Option.map_eq_none_iff.mp hnone), fun h => absurd h hc.1.1, fun hb v hv => ?_⟩
      obtain rfl : core = .bool := hb
      obtain ⟨w, -, rfl⟩ := Option.map_eq_some_iff.mp hv
      exact ⟨_, rt.cast_bool w⟩
  | .typeCheck e, ht, hc => eval_fits hρ e ht hc

theorem evalWhens_fits (hρ : ValidValues rt ρ Γ) : ∀ (whens : Whens V) {t : SemType} {o r : Option V} {t₀ : Option SemType},
    whens.Typed Γ → t.core ≠ .null → whens.Checked t → (t.notNull = true → (whens.type t₀).notNull = true) →
      evalWhens rt cqlIn ρ t o whens = some r → FitsType rt t r
  | .nil, t, o, r, t₀, _, _, _, _, h => by cases h
  | .cons cond value rest, t, o, r, t₀, ht, hcore, hc, hn, h => by
    rw [evalWhens] at h
    split at h
    · cases h
      exact fitsType_convert hcore (fun h => joinType_notNull (whens_notNull rest (hn h))) (eval_fits hρ value ht.2.1 hc.2.1.2)
    · exact evalWhens_fits hρ rest ht.2.2 hcore hc.2.2 hn h

/-- The value of the ELSE fits the type of the CASE. -/
theorem evalElse_fits (hρ : ValidValues rt ρ Γ) : ∀ (orElse : OptExpr V) {operand : OptExpr V} {whens : Whens V},
    orElse.Typed Γ → (Expr.caseExpr operand whens orElse).type.core ≠ .null → orElse.Checked (Expr.caseExpr operand whens orElse).type →
        FitsType rt (Expr.caseExpr operand whens orElse).type (evalElse rt cqlIn ρ (Expr.caseExpr operand whens orElse).type orElse)
  | .none, _, _, _, _, _ => ⟨nofun, fun _ => rfl, nofun⟩
  | .some e, _, _, ht, hcore, hc =>
    fitsType_convert hcore (fun h => ((Bool.and_eq_true _ _).mp h).2) (eval_fits hρ e ht hc.2)

theorem evalCoalesce_fits (hρ : ValidValues rt ρ Γ) : ∀ (args : Exprs V) {t : SemType} {u : Option SemType},
    args.Typed Γ → t.core ≠ .null → args.Checked t →
      ((args.type u).notNull = true → u.any (fun t => t.notNull) = true ∨ evalCoalesce rt cqlIn ρ t args ≠ none) ∧
        (t.core = .bool → ∀ v, evalCoalesce rt cqlIn ρ t args = some v → ∃ b, v = rt.ofBool b)
  | .nil, t, u, _, _, hc => hc.elim
  | .cons e .nil, t, u, ht, hcore, hc => by
    have hE := eval_fits hρ e ht.1 hc.2
    constructor
    · intro h
      rcases (Bool.or_eq_true _ _).mp h with h | h
      · exact .inl h
      · refine .inr ?_
        rw [evalCoalesce]
        cases hv : eval rt cqlIn ρ e with
        | none => exact absurd hv (hE.notNull h)
        | some v => exact nofun
    · intro hb v hv
      rw [evalCoalesce] at hv
      cases he : eval rt cqlIn ρ e with
      | none =>
        rw [he] at hv
        cases hv
      | some w =>
        rw [he] at hv
        cases hv
        exact convert_bool hb fun hu => hE.bool hu w he
  | .cons e (.cons e' rest), t, u, ht, hcore, hc => by
    have hE := eval_fits hρ e ht.1 hc.1.2
    have ih := evalCoalesce_fits hρ (.cons e' rest) (t := t) (u := some ⟨(joinType u e.type).core,
      (u.any fun t => t.notNull) || e.type.notNull⟩) ht.2 hcore hc.2
    constructor
    · intro h
      rw [evalCoalesce]
      cases hv : eval rt cqlIn ρ e with
      | some v => exact .inr nofun
      | none =>
        refine (ih.1 h).imp_left fun h => ?_
        exact ((Bool.or_eq_true _ _).mp h).resolve_right fun h => hE.notNull h hv
    · intro hb v hv
      rw [evalCoalesce] at hv
      cases he : eval rt cqlIn ρ e with
      | none =>
        rw [he] at hv
        exact ih.2 hb v hv
      | some w =>
        rw [he] at hv
        cases hv
        exact convert_bool hb fun hu => hE.bool hu w he

end

end ValuesAux

end CgSql.CodeGen
