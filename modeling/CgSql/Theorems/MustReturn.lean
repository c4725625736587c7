import CgSql.MustReturn
import CgSql.Theorems.EvalDefined
import CgSql.Theorems.SelectExists

/-!
# Selects that must return a row

The test looks at one clause after another and leaves when it knows enough. It leaves with a yes before it looks at LIMIT, OFFSET and HAVING where
there is no FROM, and takes the first core for a SELECT before it looks whether it is.
-/

namespace CgSql.SelectExists

variable {D R W F : Type} [DecidableEq W] {E : Eval.Doubles F}

namespace MustAux

open ExistsAux

variable {s : NestedStmt D R W F} {con : SelectExprListCon D R W} {db : D} {columns : List ColumnType}

/-! ### Rows -/

omit [DecidableEq W] in
/-- A LIMIT leaves a row where there is one and it is an integer other than zero. -/
theorem limited_ne_nil_iff {rows : List (List (Option W))} : s.limited db rows ≠ [] ↔ rows ≠ [] ∧ s.KeptByLimit db := by
  unfold NestedStmt.limited NestedStmt.KeptByLimit
  cases hl : s.limit with
  | none => simp
  | some limit =>
    cases hv : limit.value db with
    | none => simp [hv]
    | some n =>
      have htoNat : n.toNat = 0 ↔ n ≤ 0 := by omega
      by_cases hneg : n < 0
      · have hne : n ≠ 0 := by omega
        simp [hv, hneg, hne]
      · have hzero : n ≤ 0 ↔ n = 0 := by omega
        simp [hv, hneg, List.take_eq_nil_iff, htoNat, hzero, and_comm]

/-- There is a row within LIMIT and OFFSET where there are more than are skipped and both are integers, the limit not zero. -/
theorem rows_ne_nil_iff : s.rows db ≠ [] ↔ (∃ skipped, s.offset.elim (some 0) (fun offset => offset db) = some skipped ∧
    skipped.toNat < (s.allRows db).length) ∧ s.KeptByLimit db := by
  unfold NestedStmt.rows
  cases s.offset with
  | none => simp [limited_ne_nil_iff, List.length_pos_iff]
  | some offset =>
    simp only [Option.elim_some]
    cases offset db with
    | none => simp
    | some n => simp [limited_ne_nil_iff]

theorem allRows_single (hcore : s.core = .select con) (hsimple : s.compound = []) : s.allRows db = con.toCore.result db := by
  rw [NestedStmt.allRows, hsimple, hcore]
  rfl

theorem length_result_le {c : SelectCore D R (Option W)} : (c.result db).length ≤ (c.groups db).length := by
  unfold SelectCore.result
  cases c.distinct with
  | false => simp
  | true =>
    simp only [if_true]
    exact (List.dedup_sublist _).length_le.trans (by simp)

/-- Without FROM and WHERE there is one group, which HAVING keeps or not. -/
theorem groups_noFrom (hfrom : con.queryParts = none) (hwhere : con.optWhere = none) :
    con.toCore.groups db = con.having.elim [[con.noFrom]] fun having => [[con.noFrom]].filter (having.test db) := by
  have hrows : con.toCore.rows db = [con.noFrom] := by
    change con.fromRows db = _
    rw [SelectExprListCon.fromRows, hfrom, hwhere]
    rfl
  have hhaving : con.toCore.having = con.having := rfl
  rw [SelectCore.groups, hrows, hhaving]
  cases hgroup : con.toCore.groupBy with
  | some key => cases con.having <;> rfl
  | none =>
    have hall : (if con.toCore.isAggregate = true then [[con.noFrom]] else [con.noFrom].map fun r => [r]) = [[con.noFrom]] := by
      split <;> rfl
    simp only [hall]
    cases con.having <;> rfl

/-- A select without FROM and WHERE has a row where LIMIT, OFFSET and HAVING keep it. -/
theorem rows_noFrom_iff (hcore : s.core = .select con) (hsimple : s.compound = []) (hfrom : con.queryParts = none)
    (hwhere : con.optWhere = none) : s.rows db ≠ [] ↔ KeepsTheRow s con db := by
  have hgroups : con.toCore.groups db = con.having.elim [[con.noFrom]] fun having => [[con.noFrom]].filter (having.test db) :=
    groups_noFrom hfrom hwhere
  have hle : (con.toCore.groups db).length ≤ 1 := by
    rw [hgroups]
    cases con.having with
    | none => exact Nat.le_refl _
    | some having => exact List.length_filter_le _ _
  have hpos : 0 < (con.toCore.result db).length ↔ ∀ having, con.having = some having → having.test db [con.noFrom] = true := by
    rw [List.length_pos_iff, ne_eq, result_eq_nil, hgroups]
    cases con.having with
    | none => simp
    | some having => simp
  have hskip : (∃ skipped, s.offset.elim (some 0) (fun offset => offset db) = some skipped ∧ skipped.toNat = 0) ↔
      ∀ offset, s.offset = some offset → ∃ n, offset db = some n ∧ n ≤ 0 := by
    cases s.offset with
    | none => simp
    | some offset => simp
  rw [rows_ne_nil_iff, allRows_single hcore hsimple]
  have hlength : (con.toCore.result db).length ≤ (con.toCore.groups db).length := length_result_le
  constructor
  · rintro ⟨⟨skipped, hskipped, hlt⟩, hlimit⟩
    exact ⟨hlimit, hskip.mp ⟨skipped, hskipped, by omega⟩, hpos.mp (by omega)⟩
  · rintro ⟨hlimit, hoffset, hhaving⟩
    obtain ⟨skipped, hskipped, hzero⟩ := hskip.mpr hoffset
    have hone := hpos.mpr hhaving
    exact ⟨⟨skipped, hskipped, by omega⟩, hlimit⟩

/-- A select of one expression without GROUP BY and OFFSET has a row where that is an aggregate of its own, or there is a row, and LIMIT keeps it. -/
theorem rows_aggregate_iff (hcore : s.core = .select con) (hsimple : s.compound = []) (hmore : con.more = []) (hoffset : s.offset = none)
    (hgroup : con.grouping = none) : s.rows db ≠ [] ↔ KeepsAnAggregate s con db := by
  have haggregate : con.toCore.isAggregate = con.item.isAggregate := by
    simp [SelectCore.isAggregate, SelectExprListCon.toCore, SelectExprListCon.having, hgroup, hmore]
  have hgroups : con.toCore.groups db = if con.item.isAggregate = true then [con.fromRows db] else (con.fromRows db).map fun r => [r] := by
    rw [SelectCore.groups, haggregate]
    simp [SelectExprListCon.toCore, SelectExprListCon.having, hgroup]
  have hpos : 0 < (con.toCore.result db).length ↔ con.item.isAggregate = true ∨ con.fromRows db ≠ [] := by
    rw [List.length_pos_iff, ne_eq, result_eq_nil, hgroups]
    cases con.item.isAggregate <;> simp
  rw [rows_ne_nil_iff, allRows_single hcore hsimple, hoffset]
  simp only [Option.elim_none, Option.some.injEq, exists_eq_left', Int.toNat_zero, hpos]
  exact ⟨fun h => ⟨h.2, h.1⟩, fun h => ⟨h.aggregate, h.limit⟩⟩

/-! ### The test -/

omit [DecidableEq W] in
/-- What the test says of a SELECT. -/
theorem mustReturn_select (hcore : s.core = .select con) : semSelectExprMustReturnARow E (.stmt s) = if s.compound.isEmpty = false then some false
    else if con.queryParts.isNone && con.optWhere.isNone then some true
    else if con.more.isEmpty = false then none
    else match con.item.call with
      | none => some false
      | some call => if call.isBuiltinAggregate then semCheckAggregateSelectExprMustReturnARow E s con else some false := by
  rw [semSelectExprMustReturnARow]
  cases s
  cases hcore
  rfl

omit [DecidableEq W] in
theorem noFrom_eq_false (hfrom : ¬(con.queryParts = none ∧ con.optWhere = none)) : (con.queryParts.isNone && con.optWhere.isNone) = false := by
  cases hparts : con.queryParts with
  | some queryParts => rfl
  | none =>
    cases hwhere : con.optWhere with
    | some optWhere => rfl
    | none => exact absurd ⟨hparts, hwhere⟩ hfrom

/-- The test ends, and a yes is right. -/
def Right (E : Eval.Doubles F) (s : NestedSelect D R W F) : Prop :=
  semSelectExprMustReturnARow E s ≠ none ∧ (semSelectExprMustReturnARow E s = some true → ∀ db, s.rows db ≠ [])

theorem right_aggregate_iff (hcore : s.core = .select con) (hsimple : s.compound = []) (hmore : con.more = [])
    (hfrom : ¬(con.queryParts = none ∧ con.optWhere = none)) : Right E (.stmt s) ↔
      ∀ call, con.item.call = some call → call.isBuiltinAggregate = true → s.offset = none → con.grouping = none →
        (∀ limit, s.limit = some limit → limit.isPositive E ≠ none) ∧
        ((∀ limit, s.limit = some limit → limit.isPositive E = some true) → ∀ db, KeepsAnAggregate s con db) := by
  rw [Right, mustReturn_select hcore, hsimple, hmore, noFrom_eq_false hfrom]
  simp only [List.isEmpty_nil, Bool.true_eq_false, Bool.false_eq_true, if_false]
  cases hcall : con.item.call with
  | none => simp
  | some call =>
    by_cases hbuiltin : call.isBuiltinAggregate = true
    · simp only [hbuiltin, if_true, Option.some.injEq, forall_eq', forall_const, semCheckAggregateSelectExprMustReturnARow]
      cases hoffset : s.offset with
      | some offset => simp
      | none =>
        cases hgroup : con.grouping with
        | some grouping => simp
        | none =>
          have hrows : ∀ db, (NestedSelect.stmt s).rows db ≠ [] ↔ KeepsAnAggregate s con db :=
            fun db => rows_aggregate_iff hcore hsimple hmore hoffset hgroup
          cases hlimit : s.limit <;> simp [hrows]
    · simp [hbuiltin]

theorem right_iff (s : NestedSelect D R W F) : Right E s ↔ s.Regular E := by
  cases s with
  | other rows => simp [Right, semSelectExprMustReturnARow, NestedSelect.Regular]
  | stmt s =>
    rw [NestedSelect.Regular, NestedStmt.Regular]
    cases hcore : s.core with
    | values rows => simp [Right, semSelectExprMustReturnARow, hcore]
    | select con =>
      simp only [NestedCore.select.injEq, exists_eq_left']
      by_cases hsimple : s.compound = []
      · simp only [hsimple, forall_const]
        by_cases hfrom : con.queryParts = none ∧ con.optWhere = none
        · have hrows : ∀ db, (NestedSelect.stmt s).rows db ≠ [] ↔ KeepsTheRow s con db :=
            fun db => rows_noFrom_iff hcore hsimple hfrom.1 hfrom.2
          simp [Right, mustReturn_select hcore, hsimple, hfrom.1, hfrom.2, hrows]
        · by_cases hmore : con.more = []
          · simp only [hfrom, hmore, false_imp_iff, true_and, not_false_eq_true, forall_const]
            exact right_aggregate_iff hcore hsimple hmore hfrom
          · refine iff_of_false ?_ fun h => hmore (h.2 hfrom).1
            rw [Right, mustReturn_select hcore, hsimple, noFrom_eq_false hfrom]
            simp [hmore]
      · simp [Right, mustReturn_select hcore, hsimple]

/-! ### Its uses -/

/-- A row that fits a NOT NULL column has a value. -/
theorem value_ne_none {s : NestedSelect D R W F} (hfits : s.Fits [.value true]) (hrows : s.rows db ≠ []) : s.value db ≠ none := by
  obtain ⟨row, rest, hrow⟩ := List.exists_cons_of_ne_nil hrows
  have hrowFits := hfits db row (hrow ▸ List.mem_cons_self)
  rw [NestedSelect.value, hrow, List.head?_cons, Option.bind_some]
  cases hrowFits with
  | cons hv hnil =>
    cases hnil
    exact hv rfl

omit [DecidableEq W] in
theorem semExprSelect_ne_none {s : NestedSelect D R W F} (h : semSelectExprMustReturnARow E s ≠ none) (place : Place) :
    semExprSelect E place s columns ≠ none := by
  obtain ⟨answer, hanswer⟩ := Option.ne_none_iff_exists'.mp h
  intro hnone
  unfold semExprSelect at hnone
  rw [hanswer] at hnone
  cases answer <;> rcases columns with _ | ⟨_ | notNull, _ | ⟨second, rest⟩⟩ <;> simp only [Option.map_some, Option.pure_def] at hnone <;>
    split_ifs at hnone <;> simp at hnone

theorem sound_iff_right (s : NestedSelect D R W F) : s.Sound E columns ↔ Right E s := by
  constructor
  · intro h
    refine ⟨fun hnone => ?_, h.yes⟩
    -- The test is called first of all where IF NOTHING is strict.
    refine h.ends ⟨.none, true, false, false⟩ ?_
    simp [semExprSelect, hnone]
  · rintro ⟨hends, hyes⟩
    obtain ⟨answer, hanswer⟩ := Option.ne_none_iff_exists'.mp hends
    refine ⟨semExprSelect_ne_none hends, hyes, ?_, ?_⟩
    · intro hfits place hcontext htype db
      obtain ⟨hcolumns, htrue⟩ : columns = [.value true] ∧ answer = true := by
        simp [semExprSelect, hanswer, hcontext] at htype
        split_ifs at htype
        · simp at htype
        · simp at htype
        · rcases columns with _ | ⟨_ | notNull, _ | ⟨second, rest⟩⟩ <;> simp at htype
          simp [htype]
      subst hcolumns htrue
      exact value_ne_none hfits (hyes hanswer db)
    · intro place hstrict hcontext hleft t htype db
      simp [semExprSelect, hanswer, hcontext, hstrict, hleft] at htype
      cases answer with
      | false => simp at htype
      | true => exact hyes hanswer db

end MustAux

open MustAux

/-- The test ends and is sound exactly for the regular selects: none that begins with VALUES, none without FROM and WHERE that loses its row, none
of more expressions with FROM or WHERE, and no aggregate of another select or with a LIMIT that is zero after all. -/
theorem mustReturn_sound_iff (s : NestedSelect D R W F) (columns : List ColumnType) : s.Sound E columns ↔ s.Regular E :=
  (sound_iff_right s).trans (right_iff s)

/-- `SELECT 1 LIMIT 0`. -/
def MustAux.selectOneLimitZero : NestedStmt Unit Unit Int Rat where
  core := .select ⟨false, ⟨none, false, fun _ _ => some 1⟩, [], none, (), none, none⟩
  compound := []
  limit := some ⟨.intNum 0, rfl, fun _ => some 0⟩
  offset := none

/-- There is no row, and the value is NOT NULL. -/
theorem mustReturn_sound_false : ¬∀ (D R W F : Type) [DecidableEq W] (E : Eval.Doubles F) (s : NestedSelect D R W F) (columns : List ColumnType),
    s.Sound E columns := by
  intro h
  have hsound := h Unit Unit Int Rat Eval.rationals (.stmt selectOneLimitZero) [.value true]
  have hfits : (NestedSelect.stmt selectOneLimitZero).Fits [.value true] := by
    intro db row hrow
    have hrows : (NestedSelect.stmt selectOneLimitZero).rows () = [] := by decide
    rw [hrows] at hrow
    exact absurd hrow List.not_mem_nil
  exact hsound.notNull hfits ⟨.sql, false, false, false⟩ (by decide) (by decide) () (by decide)

end CgSql.SelectExists
