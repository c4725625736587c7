import CgSql.SqlValues

/-!
# Soundness of nullability

The type of an expression is NOT NULL only where its value is not null, over any nest of joins and selects, with three exceptions. IN
does not look at the nullability of its items, as documented, and so it is compared with the documented rule; a rowid is typed NOT NULL
also where an outer join makes up the row, or the row is one of a subselect, which is left out; and so is what follows a WHEN of a CASE
with an operand that improves a name which is null.
-/

namespace CgSql.Nullability

variable {V : Type} {W : World V} {S : Option Join} {row : JoinRow V} {t u : SemType} {a b : Option V} {c : CoreType}

/-- A value is as its type says. -/
def NotNull (t : SemType) (v : Option V) : Prop := t.notNull = true → v ≠ none

/-- The tables of a join have rows that fit them. -/
def Fits (S : Join) (row : JoinRow V) : Prop := List.Forall₂ (fun (p : String × Columns) r => FitsTable p.2 r) S row

/-- What is improved is not null. -/
def Improved (W : World V) (row : JoinRow V) (I : List Referent) : Prop := ∀ r ∈ I, r.value W (.documented V) row ≠ some none

/-- None of the names is null. -/
def NamesNotNull (W : World V) (S : Option Join) (row : JoinRow V) (names : List (Option String × String)) : Prop :=
  ∀ n ∈ names, isNullName W (.documented V) S row n = false

namespace NullabilityAux

theorem checked_eq_some {ok : Bool} : checked ok t = some u ↔ ok = true ∧ t = u := by
  unfold checked
  cases ok <;> simp

theorem forall₂_getElem? {α β : Type} {R : α → β → Prop} {l : List α} {m : List β} (h : List.Forall₂ R l m) {i : Nat} {x : α} {y : β}
    (hx : l[i]? = some x) (hy : m[i]? = some y) : R x y := by
  induction h generalizing i with
  | nil => cases hx
  | cons hr _ ih =>
    cases i with
    | zero =>
      cases hx
      cases hy
      exact hr
    | succ i => exact ih hx hy

theorem ofBool_ne_none (W : World V) (x : Bool) : ofBool W x ≠ none := nofun

/-- Operators that are null when an operand is. -/
theorem strict_sound {f : V → V → V} (ha : NotNull t a) (hb : NotNull u b) : NotNull ⟨c, t.notNull && u.notNull⟩ (strict f a b) := by
  intro hn
  obtain ⟨ht, hu⟩ : t.notNull = true ∧ u.notNull = true := by simpa using hn
  obtain ⟨x, rfl⟩ := Option.ne_none_iff_exists'.mp (ha ht)
  obtain ⟨y, rfl⟩ := Option.ne_none_iff_exists'.mp (hb hu)
  nofun

/-- The same for two operands that are analysed. -/
theorem strict_operands_sound {x y : Option SemType} {p q : Option (Option V)} {ok : SemType → SemType → Bool} {f : V → V → V}
    (hl : ∀ {t a}, x = some t → p = some a → NotNull t a) (hr : ∀ {u b}, y = some u → q = some b → NotNull u b)
    (ht : (x.bind fun t => y.bind fun u => checked (ok t u) ⟨c, t.notNull && u.notNull⟩) = some t)
    (hv : (p.bind fun a => q.bind fun b => some (strict f a b)) = some a) : NotNull t a := by
  obtain ⟨t₁, h₁, ht⟩ := Option.bind_eq_some_iff.mp ht
  obtain ⟨t₂, h₂, ht⟩ := Option.bind_eq_some_iff.mp ht
  obtain ⟨-, rfl⟩ := checked_eq_some.mp ht
  obtain ⟨a, ha, hv⟩ := Option.bind_eq_some_iff.mp hv
  obtain ⟨b, hb, hv⟩ := Option.bind_eq_some_iff.mp hv
  cases hv
  exact strict_sound (hl h₁ ha) (hr h₂ hb)

/-- Operators on one operand. -/
theorem map_sound {β : Type} {f : β → V} {o : Option β} (ho : t.notNull = true → o ≠ none) : NotNull ⟨c, t.notNull⟩ (o.map f) :=
  fun hn h => ho hn (Option.map_eq_none_iff.mp h)

theorem truth_ne_none (ha : a ≠ none) : truth W a ≠ none := fun h => ha (Option.map_eq_none_iff.mp h)

/-- AND and OR of two truth values. -/
theorem logical_ne_none {op : LogicalOp} {x y : Option Bool} (hx : x ≠ none) (hy : y ≠ none) : logical op x y ≠ none := by
  obtain ⟨x, rfl⟩ := Option.ne_none_iff_exists'.mp hx
  obtain ⟨y, rfl⟩ := Option.ne_none_iff_exists'.mp hy
  cases op <;> cases x <;> cases y <;> simp [logical]

/-- What a name stands for. -/
theorem value_sound (hrow : ∀ J, S = some J → Fits J row) {r : Referent} (ht : r.type W.types S = some t)
    (hv : r.value W (.documented V) row = some a) : NotNull t a := by
  cases r with
  | column i j =>
    obtain ⟨J, rfl, ht⟩ := Option.bind_eq_some_iff.mp ht
    obtain ⟨table, htable, ht⟩ := Option.bind_eq_some_iff.mp ht
    obtain ⟨column, hcolumn, ht⟩ := Option.bind_eq_some_iff.mp ht
    cases ht
    obtain ⟨r, hr, hv⟩ := Option.bind_eq_some_iff.mp hv
    exact forall₂_getElem? (forall₂_getElem? (hrow J rfl) htable hr) hcolumn hv
  | rowid i =>
    obtain ⟨r, hr, hv⟩ := Option.bind_eq_some_iff.mp hv
    obtain ⟨v, -, rfl⟩ := Option.map_eq_some_iff.mp hv
    exact fun _ => nofun
  | var name =>
    cases hv
    exact W.notNull name t ht

/-! ### Improvements -/

theorem improved_nil : Improved W row [] := by
  intro r hr
  cases hr

theorem namesNotNull_nil : NamesNotNull W S row [] := by
  intro n hn
  cases hn

/-- Names that are not null can be improved. -/
theorem improve_sound {I : List Referent} (hI : Improved W row I) {names : List (Option String × String)}
    (hnames : NamesNotNull W S row names) : Improved W row (improve W.types S I names) := by
  intro r hr
  rcases List.mem_append.mp hr with hr | hr
  · obtain ⟨n, hn, hres⟩ := List.mem_filterMap.mp hr
    intro hv
    have h := hnames n hn
    simp [isNullName, hres, hv] at h
  · exact hI r hr

theorem truth_ofBool (W : World V) (x : Bool) : truth W (ofBool W x) = some x := by simp [truth, ofBool, W.truth_ofBool]

theorem truth_map_ofBool (W : World V) (o : Option Bool) : truth W (o.map W.sql.ofBool) = o := by
  cases o with
  | none => rfl
  | some x => exact truth_ofBool W x

/-- The value of `x IS NULL` says whether `x` is null. -/
theorem isNullName_of_isOrIsNot {negated : Bool} {scope : Option String} {name : String} {v : Option V}
    (hv : eval W (.documented V) S row (.isOrIsNot negated (.ident scope name) .null) = some v) :
    truth W v = some (isNullName W (.documented V) S row (scope, name) ^^ negated) := by
  obtain ⟨a, ha, hv⟩ := Option.bind_eq_some_iff.mp hv
  obtain ⟨b, hb, hv⟩ := Option.bind_eq_some_iff.mp hv
  cases hb
  cases hv
  obtain ⟨r, hr, ha⟩ := Option.bind_eq_some_iff.mp ha
  rw [truth_ofBool]
  cases a <;> simp [isNullName, hr, ha]

/-- AND and OR evaluate both operands, unless the first decides. -/
theorem eval_binaryLogical {op : LogicalOp} {l r : Expr V} {v : Option V}
    (hv : eval W (.documented V) S row (.binaryLogical op l r) = some v) :
    ∃ a, eval W (.documented V) S row l = some a ∧ ((truth W a = some (decide (op = .or)) ∧ truth W v = some (decide (op = .or))) ∨
      truth W a ≠ some (decide (op = .or)) ∧
        ∃ b, eval W (.documented V) S row r = some b ∧ truth W v = logical op (truth W a) (truth W b)) := by
  obtain ⟨a, ha, hv⟩ := Option.bind_eq_some_iff.mp hv
  refine ⟨a, ha, ?_⟩
  dsimp only at hv
  split at hv
  next h =>
    cases hv
    exact .inl ⟨h, truth_ofBool W _⟩
  next h =>
    obtain ⟨b, hb, hv⟩ := Option.bind_eq_some_iff.mp hv
    cases hv
    exact .inr ⟨h, b, hb, truth_map_ofBool W _⟩

/-- The names that a condition improves when it is true are not null then. -/
theorem namesNotNull_of_true : ∀ (e : Expr V) {v : Option V}, eval W (.documented V) S row e = some v → truth W v = some true →
    NamesNotNull W S row e.improvedIfTrue := by
  intro e
  fun_induction Expr.improvedIfTrue e with
  | case1 l r ihl ihr =>
    intro v hv htrue n hn
    obtain ⟨a, ha, ⟨-, h⟩ | ⟨-, b, hb, h⟩⟩ := eval_binaryLogical hv
    · rw [htrue] at h
      cases h
    · have hboth : truth W a = some true ∧ truth W b = some true := by
        rw [htrue] at h
        revert h
        rcases truth W a with - | - | - <;> rcases truth W b with - | - | - <;> simp [logical]
      rcases List.mem_append.mp hn with hn | hn
      · exact ihl ha hboth.1 n hn
      · exact ihr hb hboth.2 n hn
  | case2 scope name =>
    intro v hv htrue n hn
    obtain rfl := List.mem_singleton.mp hn
    have h := isNullName_of_isOrIsNot hv
    rw [htrue] at h
    simpa using h
  | case3 => exact fun _ _ _ => nofun

/-- The names that a condition improves when it is not true are not null then. -/
theorem namesNotNull_of_not_true : ∀ (e : Expr V) {v : Option V}, eval W (.documented V) S row e = some v → truth W v ≠ some true →
    NamesNotNull W S row e.improvedIfFalse := by
  intro e
  fun_induction Expr.improvedIfFalse e with
  | case1 l r ihl ihr =>
    intro v hv htrue n hn
    obtain ⟨a, ha, ⟨-, h⟩ | ⟨-, b, hb, h⟩⟩ := eval_binaryLogical hv
    · exact absurd h htrue
    · have hboth : truth W a ≠ some true ∧ truth W b ≠ some true := by
        rw [h] at htrue
        revert htrue
        rcases truth W a with - | - | - <;> rcases truth W b with - | - | - <;> simp [logical]
      rcases List.mem_append.mp hn with hn | hn
      · exact ihl ha hboth.1 n hn
      · exact ihr hb hboth.2 n hn
  | case2 scope name =>
    intro v hv htrue n hn
    obtain rfl := List.mem_singleton.mp hn
    have h := isNullName_of_isOrIsNot hv
    rw [h] at htrue
    simpa using htrue
  | case3 => exact fun _ _ _ => nofun

/-- What AND and OR improve for the right operand, where the left one is not null and does not decide. -/
theorem namesNotNull_of_left {op : LogicalOp} {l : Expr V} {a : Option V} (ha : eval W (.documented V) S row l = some a)
    (hnull : truth W a ≠ none) (h : truth W a ≠ some (decide (op = .or))) : NamesNotNull W S row (op.improved l) := by
  obtain ⟨x, hx⟩ := Option.ne_none_iff_exists'.mp hnull
  cases op with
  | and =>
    refine namesNotNull_of_true l ha ?_
    cases x with
    | true => exact hx
    | false => exact absurd hx h
  | or => exact namesNotNull_of_not_true l ha h

/-- A CASE has the operand that is evaluated. -/
theorem isSome_of_evalOperand {expr : OptExpr V} {operand : Option (Option V)}
    (h : evalOperand W (.documented V) S row expr = some operand) : operand.isSome = expr.isSome := by
  cases expr with
  | none =>
    cases h
    rfl
  | some e =>
    obtain ⟨a, -, h⟩ := Option.bind_eq_some_iff.mp h
    cases h
    rfl

/-- The THEN expression of a WHEN, and the type that the WHENs behind it go on with. -/
theorem semCaseList_cons {vars : String → Option SemType} {strictAndOr hasOperand : Bool} {I : List Referent} {required : CoreType}
    {o : Option SemType} {cond value : Expr V} {rest : Whens V}
    (ht : semCaseList vars strictAndOr S hasOperand I required o (.cons cond value rest) = some t) :
    ∃ t₂ u, semExpr vars strictAndOr S (if hasOperand then I else improve vars S I cond.improvedIfTrue) value = some t₂ ∧
      semCaseList vars strictAndOr S hasOperand (improve vars S I cond.improvedIfFalse) required (some u) rest = some t ∧
      (u.notNull = true → t₂.notNull = true) ∧ ∀ u', o = some u' → u.notNull = true → u'.notNull = true := by
  obtain ⟨t₁, h₁, ht⟩ := Option.bind_eq_some_iff.mp ht
  obtain ⟨t₂, h₂, ht⟩ := Option.bind_eq_some_iff.mp ht
  dsimp only at ht
  split at ht
  · cases o with
    | none => exact ⟨t₂, t₂, h₂, ht, id, nofun⟩
    | some u' =>
      dsimp only at ht
      split at ht
      · refine ⟨t₂, _, h₂, ht, fun hn => (Bool.and_eq_true_iff.mp hn).2, fun _ hu' hn => ?_⟩
        cases hu'
        exact (Bool.and_eq_true_iff.mp hn).1
      · cases ht
  · cases ht

/-- The type of the THEN expressions is NOT NULL only if what came before is. -/
theorem semCaseList_notNull {vars : String → Option SemType} {strictAndOr hasOperand : Bool} {required : CoreType} :
    ∀ (whens : Whens V) {I : List Referent} {o : Option SemType}, semCaseList vars strictAndOr S hasOperand I required o whens = some t →
      ∀ u, o = some u → t.notNull = true → u.notNull = true
  | .nil, I, o, ht, u, hu, hn => by
    unfold semCaseList at ht
    obtain rfl := Option.some.inj (ht.symm.trans hu)
    exact hn
  | .cons cond value rest, I, o, ht, u, hu, hn => by
    obtain ⟨t₂, u', -, hrest, -, ho⟩ := semCaseList_cons ht
    exact ho u hu (semCaseList_notNull rest hrest u' rfl hn)

/-- A WHEN is taken, or what it improves when it is not is not null. -/
theorem evalWhens_cons {operand : Option (Option V)} {cond value : Expr V} {rest : Whens V} {o : Option (Option V)}
    (hv : evalWhens W (.documented V) S row operand (.cons cond value rest) = some o) :
    ∃ c, eval W (.documented V) S row cond = some c ∧
      ((truth W (whenTest W operand c) = some true ∧ (eval W (.documented V) S row value).map some = some o) ∨
        NamesNotNull W S row cond.improvedIfFalse ∧ evalWhens W (.documented V) S row operand rest = some o) := by
  obtain ⟨c, hc, hv⟩ := Option.bind_eq_some_iff.mp hv
  refine ⟨c, hc, ?_⟩
  split at hv
  next htaken =>
    obtain ⟨a, ha, hv⟩ := Option.bind_eq_some_iff.mp hv
    cases hv
    exact .inl ⟨htaken, by rw [ha]; rfl⟩
  next hnot =>
    split at hv
    next => cases hv
    next hguard =>
      refine .inr ⟨?_, hv⟩
      cases operand with
      | none => exact namesNotNull_of_not_true cond hc hnot
      | some a =>
        intro n hn
        by_contra hnull
        exact hguard (List.any_eq_true.mpr ⟨n, hn, Bool.eq_true_of_not_eq_false hnull⟩)

end NullabilityAux

open NullabilityAux

mutual

/-- A value is not null if its expression has a NOT NULL type. -/
theorem eval_sound (hrow : ∀ J, S = some J → Fits J row) : ∀ (e : Expr V) {I : List Referent} {t : SemType} {v : Option V},
    Improved W row I → semExpr W.types W.strictAndOr S I e = some t → eval W (.documented V) S row e = some v → NotNull t v
  | .null, I, t, v, hI, ht, hv => by
    cases ht
    exact nofun
  | .literal core x, I, t, v, hI, ht, hv => by
    cases hv
    exact fun _ => nofun
  | .ident scope name, I, t, v, hI, ht, hv => by
    obtain ⟨r, hr, ht⟩ := Option.bind_eq_some_iff.mp ht
    obtain ⟨r', hr', hv⟩ := Option.bind_eq_some_iff.mp hv
    obtain rfl := Option.some.inj (hr.symm.trans hr')
    obtain ⟨u, hu, ht⟩ := Option.bind_eq_some_iff.mp ht
    cases ht
    intro hn
    rcases Bool.or_eq_true_iff.mp hn with hn | hn
    · exact value_sound hrow hu hv hn
    · intro h
      exact hI r (of_decide_eq_true hn) (by rw [hv, h])
  | .unaryMath op e, I, t, v, hI, ht, hv => by
    obtain ⟨u, hu, ht⟩ := Option.bind_eq_some_iff.mp ht
    obtain ⟨-, rfl⟩ := checked_eq_some.mp ht
    obtain ⟨a, ha, hv⟩ := Option.bind_eq_some_iff.mp hv
    cases hv
    exact map_sound fun hn => eval_sound hrow e hI hu ha hn
  | .unaryLogical e, I, t, v, hI, ht, hv => by
    obtain ⟨u, hu, ht⟩ := Option.bind_eq_some_iff.mp ht
    obtain ⟨-, rfl⟩ := checked_eq_some.mp ht
    obtain ⟨a, ha, hv⟩ := Option.bind_eq_some_iff.mp hv
    cases hv
    exact map_sound fun hn => truth_ne_none (eval_sound hrow e hI hu ha hn)
  | .binaryMath op l r, I, t, v, hI, ht, hv => by
    obtain ⟨t₁, h₁, ht⟩ := Option.bind_eq_some_iff.mp ht
    obtain ⟨t₂, h₂, ht⟩ := Option.bind_eq_some_iff.mp ht
    obtain ⟨-, rfl⟩ := checked_eq_some.mp ht
    obtain ⟨a, ha, hv⟩ := Option.bind_eq_some_iff.mp hv
    obtain ⟨b, hb, hv⟩ := Option.bind_eq_some_iff.mp hv
    intro hn
    obtain ⟨hn₁, hn₂⟩ : t₁.notNull = true ∧ t₂.notNull = true := by simpa using hn
    obtain ⟨x, rfl⟩ := Option.ne_none_iff_exists'.mp (eval_sound hrow l hI h₁ ha hn₁)
    obtain ⟨y, rfl⟩ := Option.ne_none_iff_exists'.mp (eval_sound hrow r hI h₂ hb hn₂)
    obtain ⟨z, -, rfl⟩ := Option.map_eq_some_iff.mp hv
    nofun
  | .binaryLogical op l r, I, t, v, hI, ht, hv => by
    obtain ⟨t₁, h₁, ht⟩ := Option.bind_eq_some_iff.mp ht
    obtain ⟨t₂, h₂, ht⟩ := Option.bind_eq_some_iff.mp ht
    obtain ⟨-, rfl⟩ := checked_eq_some.mp ht
    intro hn hnull
    obtain ⟨hn₁, hn₂⟩ : t₁.notNull = true ∧ t₂.notNull = true := by simpa using hn
    obtain ⟨a, ha, ⟨-, h⟩ | ⟨hdecides, b, hb, h⟩⟩ := eval_binaryLogical hv
    · rw [hnull] at h
      cases h
    · have hleft := truth_ne_none (W := W) (eval_sound hrow l hI h₁ ha hn₁)
      have hI' : Improved W row (if W.strictAndOr then improve W.types S I (op.improved l) else I) := by
        split
        · exact improve_sound hI (namesNotNull_of_left ha hleft hdecides)
        · exact hI
      have hright := truth_ne_none (W := W) (eval_sound hrow r hI' h₂ hb hn₂)
      rw [hnull] at h
      exact logical_ne_none hleft hright h.symm
  | .binaryCompare op l r, I, t, v, hI, ht, hv => strict_operands_sound (eval_sound hrow l hI) (eval_sound hrow r hI) ht hv
  | .eqOrNe negated l r, I, t, v, hI, ht, hv => strict_operands_sound (eval_sound hrow l hI) (eval_sound hrow r hI) ht hv
  | .like negated l r, I, t, v, hI, ht, hv => strict_operands_sound (eval_sound hrow l hI) (eval_sound hrow r hI) ht hv
  | .concat l r, I, t, v, hI, ht, hv => strict_operands_sound (eval_sound hrow l hI) (eval_sound hrow r hI) ht hv
  | .isOrIsNot negated l r, I, t, v, hI, ht, hv => by
    obtain ⟨a, ha, hv⟩ := Option.bind_eq_some_iff.mp hv
    obtain ⟨b, hb, hv⟩ := Option.bind_eq_some_iff.mp hv
    cases hv
    exact fun _ => ofBool_ne_none W _
  | .isTrueOrFalse negated value e, I, t, v, hI, ht, hv => by
    obtain ⟨a, ha, hv⟩ := Option.bind_eq_some_iff.mp hv
    cases hv
    exact fun _ => ofBool_ne_none W _
  | .between negated e lo hi, I, t, v, hI, ht, hv => by
    obtain ⟨t₁, h₁, ht⟩ := Option.bind_eq_some_iff.mp ht
    obtain ⟨t₂, h₂, ht⟩ := Option.bind_eq_some_iff.mp ht
    obtain ⟨t₃, h₃, ht⟩ := Option.bind_eq_some_iff.mp ht
    obtain ⟨-, rfl⟩ := checked_eq_some.mp ht
    obtain ⟨a, ha, hv⟩ := Option.bind_eq_some_iff.mp hv
    obtain ⟨b, hb, hv⟩ := Option.bind_eq_some_iff.mp hv
    obtain ⟨c, hc, hv⟩ := Option.bind_eq_some_iff.mp hv
    cases hv
    intro hn
    obtain ⟨hn₁, hn₂, hn₃⟩ : t₁.notNull = true ∧ t₂.notNull = true ∧ t₃.notNull = true := by simpa using hn
    obtain ⟨x, rfl⟩ := Option.ne_none_iff_exists'.mp (eval_sound hrow e hI h₁ ha hn₁)
    obtain ⟨y, rfl⟩ := Option.ne_none_iff_exists'.mp (eval_sound hrow lo hI h₂ hb hn₂)
    obtain ⟨z, rfl⟩ := Option.ne_none_iff_exists'.mp (eval_sound hrow hi hI h₃ hc hn₃)
    intro h
    exact logical_ne_none (Option.some_ne_none _) (Option.some_ne_none _) (Option.map_eq_none_iff.mp h)
  | .inList negated needle items, I, t, v, hI, ht, hv => by
    obtain ⟨t₁, h₁, ht⟩ := Option.bind_eq_some_iff.mp ht
    obtain ⟨ok, -, ht⟩ := Option.bind_eq_some_iff.mp ht
    obtain ⟨-, rfl⟩ := checked_eq_some.mp ht
    obtain ⟨a, ha, hv⟩ := Option.bind_eq_some_iff.mp hv
    obtain ⟨vs, -, hv⟩ := Option.bind_eq_some_iff.mp hv
    cases hv
    exact map_sound fun hn h => eval_sound hrow needle hI h₁ ha hn (Option.map_eq_none_iff.mp h)
  | .inSelect negated needle core rows, I, t, v, hI, ht, hv => by
    obtain ⟨t₁, h₁, ht⟩ := Option.bind_eq_some_iff.mp ht
    obtain ⟨-, rfl⟩ := checked_eq_some.mp ht
    obtain ⟨a, ha, hv⟩ := Option.bind_eq_some_iff.mp hv
    cases hv
    exact map_sound fun hn h => eval_sound hrow needle hI h₁ ha hn (Option.map_eq_none_iff.mp h)
  | .caseExpr expr whens orElse, I, t, v, hI, ht, hv => by
    obtain ⟨required, -, ht⟩ := Option.bind_eq_some_iff.mp ht
    obtain ⟨t₁, h₁, ht⟩ := Option.bind_eq_some_iff.mp ht
    obtain ⟨operand, hoperand, hv⟩ := Option.bind_eq_some_iff.mp hv
    obtain ⟨o, ho, hv⟩ := Option.bind_eq_some_iff.mp hv
    have hwhens := evalWhens_sound hrow whens hI (isSome_of_evalOperand hoperand) h₁
    have helse := evalElse_sound hrow orElse ht
    cases o with
    | some x =>
      cases hv
      exact fun hn => hwhens.1 ho (helse.1 hn)
    | none => exact helse.2 (improve_sound hI (hwhens.2 ho)) hv
  | .coalesce args, I, t, v, hI, ht, hv => evalCoalesce_sound hrow args hI (fun _ => rfl) ht hv
  | .cast e core, I, t, v, hI, ht, hv => by
    obtain ⟨u, hu, ht⟩ := Option.bind_eq_some_iff.mp ht
    cases ht
    obtain ⟨a, ha, hv⟩ := Option.bind_eq_some_iff.mp hv
    cases hv
    intro hn h
    refine eval_sound hrow e hI hu ha ?_ (Option.map_eq_none_iff.mp h)
    by_contra hu
    simp [hu] at hn
  | .typeCheck e u, I, t, v, hI, ht, hv => by
    obtain ⟨t₁, h₁, ht⟩ := Option.bind_eq_some_iff.mp ht
    obtain ⟨-, rfl⟩ := checked_eq_some.mp ht
    exact eval_sound hrow e hI h₁ hv

/-- The type of the THEN expressions is NOT NULL only if all are. Where no WHEN is taken, what they improve is not null. -/
theorem evalWhens_sound (hrow : ∀ J, S = some J → Fits J row) : ∀ (whens : Whens V) {I : List Referent} {required : CoreType}
    {o : Option SemType} {t : SemType} {hasOperand : Bool} {operand : Option (Option V)}, Improved W row I →
      operand.isSome = hasOperand → semCaseList W.types W.strictAndOr S hasOperand I required o whens = some t →
        (∀ {v : Option V}, evalWhens W (.documented V) S row operand whens = some (some v) → NotNull t v) ∧
        (evalWhens W (.documented V) S row operand whens = some none → NamesNotNull W S row whens.improved)
  | .nil, I, required, o, t, hasOperand, operand, hI, hoperand, ht => by
    constructor
    · intro v hv
      cases hv
    · exact fun _ => namesNotNull_nil
  | .cons cond value rest, I, required, o, t, hasOperand, operand, hI, hoperand, ht => by
    obtain ⟨t₂, u, h₂, hrest, hu, -⟩ := semCaseList_cons ht
    constructor
    · intro v hv hn
      obtain ⟨c, hc, ⟨htaken, hv⟩ | ⟨hnames, hv⟩⟩ := evalWhens_cons hv
      · obtain ⟨a, ha, hv⟩ := Option.map_eq_some_iff.mp hv
        cases hv
        have hI' : Improved W row (if hasOperand = true then I else improve W.types S I cond.improvedIfTrue) := by
          split
          next => exact hI
          next h =>
            obtain rfl : operand = none := Option.not_isSome_iff_eq_none.mp (by rwa [hoperand])
            exact improve_sound hI (namesNotNull_of_true cond hc htaken)
        exact eval_sound hrow value hI' h₂ ha (hu (semCaseList_notNull rest hrest u rfl hn))
      · exact (evalWhens_sound hrow rest (improve_sound hI hnames) hoperand hrest).1 hv hn
    · intro hv
      obtain ⟨c, hc, ⟨-, hv⟩ | ⟨hnames, hv⟩⟩ := evalWhens_cons hv
      · obtain ⟨a, -, hv⟩ := Option.map_eq_some_iff.mp hv
        cases hv
      · have ih := (evalWhens_sound hrow rest (improve_sound hI hnames) hoperand hrest).2 hv
        exact fun n hn => (List.mem_append.mp hn).elim (hnames n) (ih n)

/-- The type of a CASE is NOT NULL only if it has an ELSE that is, and the rest is. -/
theorem evalElse_sound (hrow : ∀ J, S = some J → Fits J row) : ∀ (orElse : OptExpr V) {I : List Referent} {t u : SemType},
    semCaseElse W.types W.strictAndOr S I t orElse = some u → (u.notNull = true → t.notNull = true) ∧
      ∀ {v : Option V}, Improved W row I → evalElse W (.documented V) S row orElse = some v → NotNull u v
  | .none, I, t, u, ht => by
    cases ht
    exact ⟨nofun, fun _ _ => nofun⟩
  | .some e, I, t, u, ht => by
    obtain ⟨t₁, h₁, ht⟩ := Option.bind_eq_some_iff.mp ht
    obtain ⟨-, rfl⟩ := checked_eq_some.mp ht
    refine ⟨fun hn => ?_, fun hI hv hn => eval_sound hrow e hI h₁ hv ?_⟩
    · exact (Bool.and_eq_true_iff.mp hn).1
    · exact (Bool.and_eq_true_iff.mp hn).2

/-- The type of a COALESCE is NOT NULL only if its last argument is. -/
theorem evalCoalesce_sound (hrow : ∀ J, S = some J → Fits J row) : ∀ (args : Exprs V) {I : List Referent} {o : Option SemType}
    {t : SemType} {v : Option V}, Improved W row I → (args = .nil → o = none) →
      semCoalesce W.types W.strictAndOr S I o args = some t → evalCoalesce W (.documented V) S row args = some v → NotNull t v
  | .nil, I, o, t, v, hI, ho, ht, hv => by
    obtain rfl := ho rfl
    cases ht
  | .cons e rest, I, o, t, v, hI, ho, ht, hv => by
    obtain ⟨t₁, h₁, ht⟩ := Option.bind_eq_some_iff.mp ht
    obtain ⟨u, hu, ht⟩ := Option.bind_eq_some_iff.mp ht
    obtain ⟨a, ha, hv⟩ := Option.bind_eq_some_iff.mp hv
    have hnn : u.notNull = true → t₁.notNull = true := by
      cases o with
      | none =>
        cases hu
        exact id
      | some t₀ =>
        obtain ⟨-, rfl⟩ := checked_eq_some.mp hu
        exact fun hn => (Bool.or_eq_true_iff.mp hn).elim (fun h => (Bool.and_eq_true_iff.mp h).2) id
    cases a with
    | some x =>
      cases hv
      exact fun _ => nofun
    | none =>
      cases rest with
      | nil =>
        change (if o.isSome = true ∧ e.isNull = false then some u else none) = some t at ht
        split at ht
        · cases ht
          cases hv
          exact fun hn => eval_sound hrow e hI h₁ ha (hnn hn)
        · cases ht
      | cons e' rest =>
        change (if e.isNull = false ∧ u.notNull = false then semCoalesce W.types W.strictAndOr S I (some u) (.cons e' rest) else none) = some t at ht
        split at ht
        · exact evalCoalesce_sound hrow (.cons e' rest) hI nofun ht hv
        · cases ht

end

/-! ## Selects -/

namespace NullabilityAux

/-- The values of a row of a select fit its columns. -/
def FitsColumns (columns : Columns) (vs : List (Option V)) : Prop :=
  List.Forall₂ (fun (c : String × SemType) v => NotNull c.2 v) columns vs

theorem fits_strip {columns : Columns} {r : TableRow V} (h : FitsTable columns r) : FitsTable (strip columns) r := by
  unfold FitsTable strip at *
  exact List.forall₂_map_left_iff.mpr (h.imp fun _ _ _ => nofun)

theorem fits_stripAll {J : Join} {row : JoinRow V} {stripped : Bool} (h : Fits J row) : Fits (stripAll stripped J) row := by
  cases stripped with
  | false => exact h
  | true => exact List.forall₂_map_left_iff.mpr (h.imp fun _ _ => fits_strip)

/-- A row that an outer join makes up fits the tables it can make up rows for. -/
theorem fits_nullRow (J : Join) : Fits (stripAll true J) (nullRow (V := V) J) := by
  refine List.forall₂_map_left_iff.mpr (List.forall₂_map_right_iff.mpr (List.forall₂_same.mpr fun p _ => ?_))
  exact List.forall₂_map_left_iff.mpr (List.forall₂_map_right_iff.mpr (List.forall₂_same.mpr fun _ _ => nofun))

/-- The rows of a join fit its tables. -/
theorem joinRows_fits {type : JoinType} {J T K : Join} {matches? : JoinRow V → Bool} {ls rs : List (JoinRow V)}
    (hJ : ∀ l ∈ ls, Fits J l) (hT : ∀ r ∈ rs, Fits T r) (hK : joinTables type J T = some K) {row : JoinRow V}
    (hrow : row ∈ joinRows type J T matches? ls rs) : Fits K row := by
  unfold joinTables at hK
  split at hK
  · cases hK
  · obtain rfl := Option.some.inj hK
    have hpairs : ∀ row ∈ ls.flatMap fun l => (rs.map fun r => l ++ r).filter matches?,
        Fits (stripAll (type = .right) J ++ stripAll (type = .left) T) row := by
      intro row h
      obtain ⟨l, hl, h⟩ := List.mem_flatMap.mp h
      obtain ⟨r, hr, rfl⟩ := List.mem_map.mp (List.mem_of_mem_filter h)
      exact List.rel_append (fits_stripAll (hJ l hl)) (fits_stripAll (hT r hr))
    cases type with
    | inner => exact hpairs row hrow
    | left =>
      rcases List.mem_append.mp hrow with h | h
      · exact hpairs row h
      · obtain ⟨l, hl, rfl⟩ := List.mem_map.mp h
        exact List.rel_append (fits_stripAll (hJ l (List.mem_of_mem_filter hl))) (fits_nullRow T)
    | right =>
      rcases List.mem_append.mp hrow with h | h
      · exact hpairs row h
      · obtain ⟨r, hr, rfl⟩ := List.mem_map.mp h
        exact List.rel_append (fits_nullRow J) (fits_stripAll (hT r (List.mem_of_mem_filter hr)))

/-- The columns of a compound select fit the rows of both. -/
theorem unify_fits : ∀ {cs ds es : Columns}, semUnifyColumns cs ds = some es → ∀ vs : List (Option V),
    FitsColumns cs vs ∨ FitsColumns ds vs → FitsColumns es vs
  | [], [], es, h, vs, hvs => by
    cases h
    exact hvs.elim id id
  | [], _ :: _, es, h, vs, hvs => by cases h
  | _ :: _, [], es, h, vs, hvs => by cases h
  | (n, t) :: cs, (m, u) :: ds, es, h, vs, hvs => by
    unfold semUnifyColumns at h
    split at h
    · obtain ⟨es, hes, h⟩ := Option.bind_eq_some_iff.mp h
      cases h
      rcases hvs with hvs | hvs
      · cases hvs with
        | cons hv hvs =>
          exact .cons (fun hn => hv (Bool.and_eq_true_iff.mp hn).1) (unify_fits hes _ (.inl hvs))
      · cases hvs with
        | cons hv hvs =>
          exact .cons (fun hn => hv (Bool.and_eq_true_iff.mp hn).2) (unify_fits hes _ (.inr hvs))
    · cases h

/-- The values of a select list fit its columns. -/
theorem evalColumns_fits (hrow : ∀ J, S = some J → Fits J row) {I : List Referent} (hI : Improved W row I) :
    ∀ (columns : List (String × Expr V)) {cs : Columns} {vs : List (Option V)}, semColumns W S I columns = some cs →
      evalColumns W (.documented V) S row columns = some vs → FitsColumns cs vs
  | [], cs, vs, hcs, hvs => by
    cases hcs
    cases hvs
    exact .nil
  | (name, e) :: rest, cs, vs, hcs, hvs => by
    obtain ⟨t, ht, hcs⟩ := Option.bind_eq_some_iff.mp hcs
    obtain ⟨cs, hrest, hcs⟩ := Option.bind_eq_some_iff.mp hcs
    cases hcs
    obtain ⟨v, hv, hvs⟩ := Option.bind_eq_some_iff.mp hvs
    obtain ⟨vs, hrest', hvs⟩ := Option.bind_eq_some_iff.mp hvs
    cases hvs
    exact .cons (eval_sound hrow e hI ht hv) (evalColumns_fits hrow hI rest hrest hrest')

/-- The names that a WHERE improves are not null in the rows that it keeps. -/
theorem improved_of_holds {filter : OptExpr V} (h : holds W (.documented V) S filter row = true) :
    Improved W row (improve W.types S [] filter.improvedIfTrue) := by
  refine improve_sound improved_nil ?_
  cases filter with
  | none => exact namesNotNull_nil
  | some e =>
    obtain ⟨v, hv, htrue⟩ := (Option.any_eq_true ..).mp h
    exact namesNotNull_of_true e hv (of_decide_eq_true htrue)

/-- Rows of a select fit its columns. -/
theorem evalRows_fits {columns : List (String × Expr V)} {I : List Referent} {cs : Columns} (hcs : semColumns W S I columns = some cs) :
    ∀ {rows : List (JoinRow V)} {out : List (List (Option V))}, (∀ row ∈ rows, Improved W row I ∧ ∀ J, S = some J → Fits J row) →
      evalRows W (.documented V) S columns rows = some out → ∀ vs ∈ out, FitsColumns cs vs
  | [], out, _, h, vs, hvs => by
    cases h
    cases hvs
  | row :: rows, out, hrows, h, vs, hvs => by
    obtain ⟨ws, hws, h⟩ := Option.bind_eq_some_iff.mp h
    obtain ⟨out, hout, h⟩ := Option.bind_eq_some_iff.mp h
    cases h
    rcases List.mem_cons.mp hvs with rfl | hvs
    · obtain ⟨hI, hrow⟩ := hrows row List.mem_cons_self
      exact evalColumns_fits hrow hI columns hcs hws
    · exact evalRows_fits hcs (fun r hr => hrows r (List.mem_cons_of_mem _ hr)) hout vs hvs

end NullabilityAux

variable {D : Database V}

mutual

/-- The rows of a select fit its columns. -/
theorem selectRows_fits : ∀ (s : Select V) {cs : Columns} {rows : List (List (Option V))}, semSelect W D s = some cs →
    selectRows W (.documented V) D s = some rows → ∀ vs ∈ rows, FitsColumns cs vs
  | .core columns source filter, cs, rows, hcs, hrows => by
    obtain ⟨S, hS, hcs⟩ := Option.bind_eq_some_iff.mp hcs
    obtain ⟨_, -, hcs⟩ := Option.bind_eq_some_iff.mp hcs
    obtain ⟨S', hS', hrows⟩ := Option.bind_eq_some_iff.mp hrows
    obtain rfl := Option.some.inj (hS.symm.trans hS')
    obtain ⟨srows, hsrows, hrows⟩ := Option.bind_eq_some_iff.mp hrows
    refine evalRows_fits hcs (fun row hrow => ⟨?_, ?_⟩) hrows
    · exact improved_of_holds (List.of_mem_filter hrow)
    · exact optSourceRows_fits source hS hsrows row (List.mem_of_mem_filter hrow)
  | .union all l r, cs, rows, hcs, hrows => by
    obtain ⟨ls, hl, hcs⟩ := Option.bind_eq_some_iff.mp hcs
    obtain ⟨rs, hr, hcs⟩ := Option.bind_eq_some_iff.mp hcs
    obtain ⟨lrows, hlrows, hrows⟩ := Option.bind_eq_some_iff.mp hrows
    obtain ⟨rrows, hrrows, hrows⟩ := Option.bind_eq_some_iff.mp hrows
    cases hrows
    intro vs hvs
    have hvs : vs ∈ lrows ++ rrows := by
      split at hvs
      · exact hvs
      · exact List.pwFilter_subset _ hvs
    rcases List.mem_append.mp hvs with hvs | hvs
    · exact unify_fits hcs vs (.inl (selectRows_fits l hl hlrows vs hvs))
    · exact unify_fits hcs vs (.inr (selectRows_fits r hr hrrows vs hvs))

/-- Rows of a FROM clause that may be missing. -/
theorem optSourceRows_fits : ∀ (source : OptSource V) {S : Option Join} {rows : List (JoinRow V)}, semOptSource W D source = some S →
    optSourceRows W (.documented V) D source = some rows → ∀ row ∈ rows, ∀ J, S = some J → Fits J row
  | .none, S, rows, hS, hrows => by
    cases hS
    exact fun _ _ _ => nofun
  | .some s, S, rows, hS, hrows => by
    obtain ⟨J, hJ, hS⟩ := Option.bind_eq_some_iff.mp hS
    cases hS
    intro row hrow K hK
    cases hK
    exact sourceRows_fits s hJ hrows row hrow

/-- The rows of a source fit its tables. -/
theorem sourceRows_fits : ∀ (s : Source V) {J : Join} {rows : List (JoinRow V)}, semSource W D s = some J →
    sourceRows W (.documented V) D s = some rows → ∀ row ∈ rows, Fits J row
  | .table name asName, J, rows, hJ, hrows => by
    obtain ⟨T, hT, hJ⟩ := Option.bind_eq_some_iff.mp hJ
    cases hJ
    obtain ⟨T', hT', hrows⟩ := Option.bind_eq_some_iff.mp hrows
    cases hrows
    obtain rfl := Option.some.inj (hT.symm.trans hT')
    intro row hrow
    obtain ⟨r, hr, rfl⟩ := List.mem_map.mp hrow
    exact .cons (T.fits r hr) .nil
  | .subselect s asName, J, rows, hJ, hrows => by
    obtain ⟨cs, hcs, hJ⟩ := Option.bind_eq_some_iff.mp hJ
    cases hJ
    obtain ⟨srows, hsrows, hrows⟩ := Option.bind_eq_some_iff.mp hrows
    cases hrows
    intro row hrow
    obtain ⟨vs, hvs, rfl⟩ := List.mem_map.mp hrow
    exact .cons (selectRows_fits s hcs hsrows vs hvs) .nil
  | .join type l r on, J, rows, hJ, hrows => by
    obtain ⟨L, hL, hJ⟩ := Option.bind_eq_some_iff.mp hJ
    obtain ⟨R, hR, hJ⟩ := Option.bind_eq_some_iff.mp hJ
    obtain ⟨K, hK, hJ⟩ := Option.bind_eq_some_iff.mp hJ
    obtain ⟨_, -, hJ⟩ := Option.bind_eq_some_iff.mp hJ
    cases hJ
    obtain ⟨L', hL', hrows⟩ := Option.bind_eq_some_iff.mp hrows
    obtain rfl := Option.some.inj (hL.symm.trans hL')
    obtain ⟨R', hR', hrows⟩ := Option.bind_eq_some_iff.mp hrows
    obtain rfl := Option.some.inj (hR.symm.trans hR')
    obtain ⟨K', hK', hrows⟩ := Option.bind_eq_some_iff.mp hrows
    obtain ⟨ls, hls, hrows⟩ := Option.bind_eq_some_iff.mp hrows
    obtain ⟨rs, hrs, hrows⟩ := Option.bind_eq_some_iff.mp hrows
    cases hrows
    intro row hrow
    exact joinRows_fits (sourceRows_fits l hL hls) (sourceRows_fits r hR hrs) hK hrow

end

/-! ## Expressions in any row -/

/-- With these rules, an expression of a NOT NULL type is not null in any row of any source. -/
def NullabilitySound (V : Type) (rules : Rules V) : Prop :=
  ∀ (W : World V) (D : Database V) (source : OptSource V) (S : Option Join) (rows : List (JoinRow V)) (row : JoinRow V) (e : Expr V)
    (t : SemType) (v : Option V), semOptSource W D source = some S → optSourceRows W rules D source = some rows → row ∈ rows →
      semExpr W.types W.strictAndOr S [] e = some t → eval W rules S row e = some v → t.notNull = true → v ≠ none

namespace NullabilityAux

/-- SQL's operations on integers. -/
def integers : Sql Int where
  ofBool b := if b then 1 else 0
  truth v := v ≠ 0
  unaryMath
    | .neg, a => -a
    | .complement, a => -a - 1
  math
    | .add, a, b => some (a + b)
    | .sub, a, b => some (a - b)
    | .mul, a, b => some (a * b)
    | .div, a, b => if b = 0 then none else some (a.tdiv b)
    | .mod, a, b => if b = 0 then none else some (a.tmod b)
    | .bitAnd, a, b => some (a.toNat &&& b.toNat : Nat)
    | .bitOr, a, b => some (a.toNat ||| b.toNat : Nat)
    | .lshift, a, b => some (a * 2 ^ b.toNat)
    | .rshift, a, b => some (a / 2 ^ b.toNat)
  compare
    | .lt, a, b => a < b
    | .gt, a, b => b < a
    | .le, a, b => a ≤ b
    | .ge, a, b => b ≤ a
  equal a b := a = b
  like a b := a = b
  concat a _ := a
  cast _ a := a

/-- No variables. -/
def noVariables : World Int := ⟨integers, fun b => by cases b <;> rfl, true, fun _ => none, fun _ => none, nofun⟩

/-- A table with one NOT NULL column and the rows given by their rowids and values. -/
def oneColumn (rows : List (Int × Int)) : Table Int where
  columns := [("x", ⟨.integer, true⟩)]
  rows := rows.map fun p => ⟨some p.1, [some p.2]⟩
  fits := by
    intro r hr
    obtain ⟨p, -, rfl⟩ := List.mem_map.mp hr
    exact .cons (fun _ => nofun) .nil

/-- A table with a row and one without. -/
def someRows : Database Int
  | "a" => some (oneColumn [(1, 5)])
  | "b" => some (oneColumn [])
  | _ => none

/-- `a LEFT JOIN b`. -/
def leftJoin : OptSource Int := .some (.join .left (.table "a" "a") (.table "b" "b") .none)

/-- `1 IN (NULL)`. -/
def inNull : Expr Int := .inList false (.literal .integer 1) (.cons .null .nil)

/-- `COALESCE(b.x, a.x)`. -/
def coalesced : Expr Int := .coalesce (.cons (.ident (some "b") "x") (.cons (.ident (some "a") "x") .nil))

end NullabilityAux

end CgSql.Nullability
