import CgSql.SelectExists

/-!
# The select list under EXISTS

A core gives as many groups with the literal 1 as with its select list, unless the list makes an aggregate of it. Whether a select gives
a row then depends on the list only where rows are removed or counted.
-/

namespace CgSql.SelectExists

namespace ExistsAux

variable {D R V : Type} {one : V} {db : D} {c : SelectCore D R V} {s : SelectStmt D R V}

/-! ## Cores -/

theorem rewrite_from (hf : c.hasFrom = true) : c.rewriteExists one = { c with selectExprList := [literalOne one] } := by
  rw [SelectCore.rewriteExists, if_pos hf]

theorem cores_rewrite : (s.rewriteExists one).cores = s.cores.map (SelectCore.rewriteExists one) := by
  simp [SelectStmt.cores, SelectStmt.rewriteExists, Function.comp_def]

variable [DecidableEq V]

/-- Whether there are rows does not depend on how they are grouped. -/
theorem foldr_insertRow_eq_nil {K : Type} [DecidableEq K] (key : R → K) (rows : List R) : rows.foldr (insertRow key) [] = [] ↔ rows = [] := by
  cases rows with
  | nil => simp
  | cons r rows =>
    refine iff_of_false ?_ (List.cons_ne_nil _ _)
    rw [List.foldr_cons]
    cases rows.foldr (insertRow key) [] with
    | nil => exact List.cons_ne_nil _ _
    | cons g gs =>
      rw [insertRow]
      split <;> exact List.cons_ne_nil _ _

/-- Without HAVING, GROUP BY gives a group where there is a row. -/
theorem groups_groupBy_eq_nil (items : List (GroupbyItem D R V)) (hg : c.groupBy = some items) (hh : c.having = none) :
    c.groups db = [] ↔ c.rows db = [] := by
  simp only [SelectCore.groups, hg, hh]
  exact foldr_insertRow_eq_nil _ _

/-- The groups do not depend on a list that makes no aggregate of the core, and of which GROUP BY takes nothing. -/
theorem groups_rewrite (hf : c.hasFrom = true) (hc : c.collapses = false) (hg : ∀ place, .num place ∉ c.groupBy.getD []) :
    (c.rewriteExists one).groups db = c.groups db := by
  have hagg : (c.rewriteExists one).isAggregate = c.isAggregate := by
    rw [rewrite_from hf]
    revert hc
    unfold SelectCore.collapses SelectCore.isAggregate literalOne
    cases c.groupBy <;> cases c.having.any Having.isAggregate <;> cases c.selectExprList.any SelectExpr.isAggregate <;> simp
  have hkeys : ∀ items, c.groupBy = some items →
      (fun r => items.map ((c.rewriteExists one).groupKey db r)) = fun r => items.map (c.groupKey db r) := by
    intro items hitems
    funext r
    refine List.map_congr_left fun item hitem => ?_
    cases item with
    | num place => exact absurd (by rw [hitems]; exact hitem) (hg place)
    | expr eval => rfl
  have hparts : (c.rewriteExists one).groupBy = c.groupBy ∧ (c.rewriteExists one).rows = c.rows ∧ (c.rewriteExists one).having = c.having := by
    rw [rewrite_from hf]
    exact ⟨rfl, rfl, rfl⟩
  unfold SelectCore.groups
  rw [hagg, hparts.1, hparts.2.1, hparts.2.2]
  cases hgroup : c.groupBy with
  | none => rfl
  | some items => simp only [hkeys items hgroup]

theorem result_eq_nil : c.result db = [] ↔ c.groups db = [] := by
  unfold SelectCore.result
  cases c.distinct <;> simp

/-- Without DISTINCT, a core gives a row for each group. -/
theorem length_result (hd : c.distinct = false) : (c.result db).length = (c.groups db).length := by
  simp [SelectCore.result, hd]

theorem groups_collapsed (hc : c.collapses = true) (hh : c.having = none) : c.groups db = [c.rows db] := by
  simp only [SelectCore.collapses, Bool.and_eq_true, Option.isNone_iff_eq_none] at hc
  simp [SelectCore.groups, SelectCore.isAggregate, hc.1.1, hc.1.2, hh]

theorem groups_rewrite_collapsed (hf : c.hasFrom = true) (hc : c.collapses = true) (hh : c.having = none) :
    (c.rewriteExists one).groups db = (c.rows db).map fun r => [r] := by
  simp only [SelectCore.collapses, Bool.and_eq_true, Option.isNone_iff_eq_none] at hc
  rw [rewrite_from hf]
  simp [SelectCore.groups, SelectCore.isAggregate, literalOne, hc.1.1, hh]

/-- The literal 1 gives a row where the list does, if there are rows to aggregate. -/
theorem result_rewrite_eq_nil (hf : c.hasFrom = true) (hc : c.collapses = true → c.having = none ∧ c.rows db ≠ [])
    (hg : ∀ place, .num place ∈ c.groupBy.getD [] → c.having = none) :
    (c.rewriteExists one).result db = [] ↔ c.result db = [] := by
  rw [result_eq_nil, result_eq_nil]
  cases hcc : c.collapses with
  | false =>
    by_cases hplace : ∃ place, .num place ∈ c.groupBy.getD []
    · obtain ⟨place, hmem⟩ := hplace
      cases hgroup : c.groupBy with
      | none =>
        rw [hgroup] at hmem
        cases hmem
      | some items =>
        have hhaving := hg place hmem
        rw [groups_groupBy_eq_nil items hgroup hhaving, groups_groupBy_eq_nil items (by rw [rewrite_from hf]; exact hgroup)
          (by rw [rewrite_from hf]; exact hhaving), rewrite_from hf]
    · rw [groups_rewrite hf hcc fun place hmem => hplace ⟨place, hmem⟩]
  | true =>
    obtain ⟨hh, hr⟩ := hc hcc
    rw [groups_rewrite_collapsed hf hcc hh, groups_collapsed hcc hh]
    simpa using hr

/-! ## Compounds -/

/-- With UNION and UNION ALL there is a row where a core gives one. -/
theorem foldl_eq_nil {compound : List (CompoundOperator × SelectCore D R V)} (h : ∀ p ∈ compound, p.1 = .union ∨ p.1 = .unionAll)
    (acc : List (List V)) : compound.foldl (fun rows p => p.1.apply rows (p.2.result db)) acc = [] ↔
      acc = [] ∧ ∀ p ∈ compound, p.2.result db = [] := by
  induction compound generalizing acc with
  | nil => simp
  | cons p compound ih =>
    rw [List.forall_mem_cons] at h
    rw [List.foldl_cons, ih h.2, List.forall_mem_cons]
    rcases h.1 with hp | hp <;> simp [hp, CompoundOperator.apply, and_assoc]

/-- With UNION ALL the rows of the cores add up. -/
theorem length_foldl {compound : List (CompoundOperator × SelectCore D R V)} (h : ∀ p ∈ compound, p.1 = .unionAll)
    (acc : List (List V)) : (compound.foldl (fun rows p => p.1.apply rows (p.2.result db)) acc).length =
      acc.length + (compound.map fun p => (p.2.result db).length).sum := by
  induction compound generalizing acc with
  | nil => simp
  | cons p compound ih =>
    rw [List.forall_mem_cons] at h
    rw [List.foldl_cons, ih h.2, h.1, CompoundOperator.apply, List.length_append, List.map_cons, List.sum_cons, Nat.add_assoc]

/-- There is a row within LIMIT and OFFSET where the limit is not zero and there are more rows than are skipped. -/
theorem existsRow_iff : s.existsRow db = true ↔ s.skipped db < (s.allRows db).length ∧ ∀ limit, s.limit = some limit → limit db ≠ 0 := by
  unfold SelectStmt.existsRow SelectStmt.rows
  cases hl : s.limit with
  | none => simp
  | some limit =>
    have htoNat : (limit db).toNat = 0 ↔ limit db ≤ 0 := by omega
    by_cases hneg : limit db < 0
    · have hne : limit db ≠ 0 := by omega
      simp [hneg, hne]
    · simp only [hneg, if_false, Bool.not_eq_true', List.isEmpty_eq_false_iff, ne_eq, List.take_eq_nil_iff, List.drop_eq_nil_iff,
        Option.some.injEq, forall_eq']
      omega

/-- Where the list is irrelevant there are rows that are not skipped with the literal 1 just if there are with the list. -/
theorem skipped_lt_rewrite (hf : ∀ c ∈ s.cores, c.hasFrom = true) (h : s.ListIrrelevant db) :
    s.skipped db < ((s.rewriteExists one).allRows db).length ↔ s.skipped db < (s.allRows db).length := by
  have hcompound : ∀ p ∈ s.compound, p.2 ∈ s.cores := fun p hp => List.mem_cons_of_mem _ (List.mem_map_of_mem hp)
  have hcore : s.core ∈ s.cores := List.mem_cons_self
  by_cases hskip : s.skipped db = 0
  · have hunions : ∀ p ∈ (s.rewriteExists one).compound, p.1 = .union ∨ p.1 = .unionAll := by
      intro p hp
      obtain ⟨q, hq, rfl⟩ := List.mem_map.mp hp
      exact h.unions q hq
    have hnil : ∀ c ∈ s.cores, (c.rewriteExists one).result db = [] ↔ c.result db = [] := fun c hc =>
      result_rewrite_eq_nil (hf c hc) (fun hcc => ⟨(h.collapsing c hc hcc).1, (h.collapsing c hc hcc).2.1⟩) fun place hmem =>
        (h.grouped c hc place hmem).2.1
    rw [hskip, List.length_pos_iff, List.length_pos_iff, not_iff_not, SelectStmt.allRows, SelectStmt.allRows, foldl_eq_nil hunions,
      foldl_eq_nil h.unions]
    simp only [SelectStmt.rewriteExists, List.forall_mem_map, hnil s.core hcore]
    exact and_congr_right fun _ => forall₂_congr fun p hp => hnil p.2 (hcompound p hp)
  · obtain ⟨hdistinct, hall⟩ := h.counted hskip
    have hallRewrite : ∀ p ∈ (s.rewriteExists one).compound, p.1 = .unionAll := by
      intro p hp
      obtain ⟨q, hq, rfl⟩ := List.mem_map.mp hp
      exact hall q hq
    have hlen : ∀ c ∈ s.cores, ((c.rewriteExists one).result db).length = (c.result db).length := by
      intro c hc
      have hno : c.collapses = false := by
        by_contra hcc
        exact hskip (h.collapsing c hc (by simpa using hcc)).2.2
      have hd : (c.rewriteExists one).distinct = false := by
        rw [rewrite_from (hf c hc)]
        exact hdistinct c hc
      rw [length_result hd, length_result (hdistinct c hc), groups_rewrite (hf c hc) hno fun place hmem => hskip (h.grouped c hc place hmem).2.2]
    have hsum : (s.rewriteExists one).compound.map (fun p => (p.2.result db).length) = s.compound.map fun p => (p.2.result db).length := by
      simp only [SelectStmt.rewriteExists, List.map_map]
      exact List.map_congr_left fun p hp => hlen p.2 (hcompound p hp)
    rw [SelectStmt.allRows, SelectStmt.allRows, length_foldl hallRewrite, length_foldl hall, hsum, SelectStmt.rewriteExists, hlen s.core hcore]

/-! ## Acceptance -/

theorem resolves_append {names more : List String} {name : String} (h : resolves more name) : resolves (names ++ more) name := by
  obtain ⟨n, hn, hname⟩ := h
  exact ⟨n, List.mem_append_right _ hn, hname⟩

omit [DecidableEq V] in
/-- A HAVING clause that is accepted is accepted with the literal 1, if the list does not make the aggregate. -/
theorem having_rewrite (hf : c.hasFrom = true) (hc : c.collapses = true → c.having = none)
    (hok : c.having.isSome → c.groupBy.isSome ∨ c.isAggregate) (hs : (c.rewriteExists one).having.isSome) :
    (c.rewriteExists one).groupBy.isSome ∨ (c.rewriteExists one).isAggregate := by
  rw [rewrite_from hf] at hs ⊢
  rcases hok hs with hg | hagg
  · exact .inl hg
  right
  simp only [SelectCore.isAggregate, Bool.and_eq_true, Bool.or_eq_true] at hagg ⊢
  refine ⟨hagg.1, ?_⟩
  by_contra hno
  have hcc : c.collapses = true := by
    simp only [SelectCore.collapses, Bool.and_eq_true]
    simp_all
  simp [hc hcc] at hs

omit [DecidableEq V] in
/-- An accepted statement is accepted with the literal 1. -/
theorem accepted_rewrite (hf : ∀ c ∈ s.cores, c.hasFrom = true) (h : s.ListIrrelevant db) (hok : s.Accepted) :
    (s.rewriteExists one).Accepted := by
  have hcore : s.core.hasFrom = true := hf s.core List.mem_cons_self
  have hone : (s.rewriteExists one).core.selectExprList = [literalOne one] := by
    rw [SelectStmt.rewriteExists, rewrite_from hcore]
  refine ⟨?_, by simp [hone], ?_, ?_, ?_⟩
  · rw [cores_rewrite, List.forall_mem_map]
    intro c hc
    rw [rewrite_from (hf c hc), hone]
  · rw [cores_rewrite, List.forall_mem_map]
    exact fun c hc => having_rewrite (hf c hc) (fun hcc => (h.collapsing c hc hcc).1) (hok.having c hc)
  · rw [cores_rewrite, List.forall_mem_map]
    intro c hc item hitem
    rw [rewrite_from (hf c hc)] at hitem ⊢
    cases item with
    | num place =>
      obtain rfl := (h.grouped c hc place hitem).1
      exact ⟨literalOne one, rfl, rfl⟩
    | expr eval => trivial
  · intro term hterm
    have hfree := h.ordered term hterm
    have hcolumns : (s.rewriteExists one).core.fromColumns = s.core.fromColumns := by
      rw [SelectStmt.rewriteExists, rewrite_from hcore]
    have hempty : (s.rewriteExists one).compound.isEmpty = s.compound.isEmpty := by simp [SelectStmt.rewriteExists]
    cases term with
    | num place =>
      obtain rfl : place = 1 := hfree
      simp [SelectStmt.OrderbyOk, hone]
    | id name =>
      simp only [SelectStmt.OrderbyOk, hempty, hfree.1, if_true, hcolumns]
      exact resolves_append hfree.2
    | expr names =>
      simp only [SelectStmt.OrderbyOk, hempty, hcolumns]
      exact ⟨hfree.1, fun name hname => resolves_append (hfree.2 name hname)⟩

end ExistsAux

open ExistsAux

/-- `SELECT count(*) FROM t`. -/
def ExistsAux.countRows (rows : List Nat) : SelectStmt Unit Nat Nat where
  core := ⟨false, [⟨true, none, fun _ g => g.length⟩], true, ["x"], fun _ => rows, none, none⟩
  compound := []
  orderby := []
  limit := none
  offset := none

end CgSql.SelectExists
