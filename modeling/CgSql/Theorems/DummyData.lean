import CgSql.DummyData
import Mathlib.Order.MinMax

/-!
# Where the dummy data keeps the foreign keys

A value that is given for a foreign key is collected for the column it refers to as well, but no further up, and not where that column has it in
another case. A value that is made up agrees with what is made up for the other column, unless that one takes its own from further up. So the keys
are kept where the attribute itself gives what has to be there further up.
-/

namespace CgSql.DummyData

variable {Tab Col V : Type} (S : Schema Tab Col) (infos : Infos Tab Col) (sql : Sql Tab Col V)

/-- The row of the statement for a table and an index. -/
def rowAt (t : Tab) (rowIndex : Nat) : Col → V := rowOf S sql ⟨t, rowIndex, fun c => columnValue S infos t c rowIndex⟩

/-- The rows before an index that are not ignored. -/
def keptBefore (t : Tab) : Nat → List Nat
  | 0 => []
  | i + 1 =>
    if sql.rejects t (rowAt S infos sql t i) || (keptBefore t i).any (fun j => sql.conflicts t (rowAt S infos sql t j) (rowAt S infos sql t i))
    then keptBefore t i
    else keptBefore t i ++ [i]

/-- The rows that are not ignored. -/
def kept (t : Tab) : List Nat := if S.populated t then keptBefore S infos sql t (rowCount S infos t) else []

/-- The attribute gives a value for a column. -/
def Explicit {S : Schema Tab Col} (attr : List (Entry S)) (t : Tab) (c : Col) (l : Literal) : Prop := ∃ e ∈ attr, e.table = t ∧ (c, l) ∈ e.values

/-- The attribute gives a value for a column whose first foreign key is to this one. -/
def GivenBelow {S : Schema Tab Col} (attr : List (Entry S)) (t : Tab) (c : Col) (l : Literal) : Prop :=
  ∃ t' c', findParentColumn S t' c' = some (t, c) ∧ Explicit attr t' c' l

/-- A value that the attribute gives for a column, or for one that refers to it. -/
def Offered {S : Schema Tab Col} (attr : List (Entry S)) (t : Tab) (c : Col) (l : Literal) : Prop := Explicit attr t c l ∨ GivenBelow attr t c l

/-- Where the attribute gives what is needed further up, and the rows of parents are not lost. -/
structure Supported [DecidableEq Tab] [DecidableEq Col] {S : Schema Tab Col} (sql : Sql Tab Col V) (attr : List (Entry S)) : Prop where
  /-- A column has one foreign key. -/
  single : ∀ t ∈ S.tables, ∀ c ∈ S.columns t, (S.refs t c).tail = []
  /-- What is given below a foreign key is offered for the column that this refers to. -/
  given : ∀ t ∈ S.tables, ∀ c ∈ S.columns t, ∀ r, findParentColumn S t c = some r → ∀ l, GivenBelow attr t c l → Offered attr r.1 r.2 l
  /-- Where nothing is offered for the column that a foreign key refers to, nothing is offered further up. -/
  default : ∀ t ∈ S.tables, ∀ c ∈ S.columns t, ∀ r, findParentColumn S t c = some r → ∀ q, findParentColumn S r.1 r.2 = some q →
    ∀ l, Offered attr q.1 q.2 l → ∃ l', Offered attr r.1 r.2 l'
  /-- Values that are taken for the same are the same for SQLite. -/
  case : ∀ t c r, findParentColumn S t c = some r → ∀ l l', Offered attr r.1 r.2 l → Offered attr r.1 r.2 l' →
    sameValue (S.type t c) l l' = true → sql.stored (S.type r.1 r.2) l = sql.stored (S.type r.1 r.2) l'
  /-- The values collected for a column that is referred to, or the rows with the defaults, are not only in rows that SQLite ignores. -/
  kept : ∀ t ∈ S.tables, S.populated t = true → ∀ c ∈ S.columns t, ∀ r, findParentColumn S t c = some r →
    (∀ l ∈ collect S attr r.1 r.2, ∃ j ∈ kept S (collect S attr) sql r.1, (collect S attr r.1 r.2)[j]? = some l) ∧
      (collect S attr r.1 r.2 = [] → ∀ j < insertRows, j ∈ kept S (collect S attr) sql r.1)

namespace DummyDataAux

variable {t : Tab} {c : Col} {i : Nat} {r : Tab × Col}

/-! ### The rows -/

/-- A row is added exactly before the last index. -/
theorem addRow_iff (t : Tab) (i : Nat) : addRow S infos t i = true ↔ i < rowCount S infos t := by
  unfold addRow rowCount
  induction S.columns t with
  | nil => simp
  | cons c cs ih =>
    rw [List.any_cons, Bool.or_assoc, Bool.or_eq_true, ih, List.foldr_cons, lt_max_iff, decide_eq_true_iff]

/-- The loop goes over the indices one after another. -/
theorem populateFrom_eq (t : Tab) (fuel i : Nat) (h : i + fuel = rowCount S infos t) :
    populateFrom S infos t fuel i = (List.range' i fuel).map fun j => ⟨t, j, fun c => columnValue S infos t c j⟩ := by
  induction fuel generalizing i with
  | zero => rfl
  | succ fuel ih =>
    have hi : addRow S infos t i = true := (addRow_iff S infos t i).mpr (by omega)
    rw [populateFrom, if_pos hi, ih (i + 1) (by omega), List.range'_succ, List.map_cons]

/-- The loop ends on its own, with one statement for every index. -/
theorem populate_eq (t : Tab) : populate S infos t =
    if S.populated t then (List.range (rowCount S infos t)).map fun j => ⟨t, j, fun c => columnValue S infos t c j⟩ else [] := by
  rw [populate, populateFrom_eq S infos t _ 0 (Nat.zero_add _), List.range_eq_range']

/-! ### The database -/

/-- A statement for another table leaves the rows of this one. -/
theorem insertOrIgnore_other [DecidableEq Tab] (db : Db Tab Col V) (stmt : Insert Tab Col) (h : t ≠ stmt.table) :
    insertOrIgnore S sql db stmt t = db t := by
  unfold insertOrIgnore
  split
  · rfl
  · exact Function.update_of_ne h _ _

/-- Inserts leave other tables as they are. -/
theorem foldl_other [DecidableEq Tab] (stmts : List (Insert Tab Col)) (db : Db Tab Col V) (h : ∀ stmt ∈ stmts, t ≠ stmt.table) :
    stmts.foldl (insertOrIgnore S sql) db t = db t := by
  induction stmts generalizing db with
  | nil => rfl
  | cons stmt stmts ih =>
    rw [List.foldl_cons, ih _ fun s hs => h s (List.mem_cons_of_mem _ hs), insertOrIgnore_other S sql db stmt (h stmt List.mem_cons_self)]

/-- The statements of a table, up to an index, insert the rows that are kept. -/
theorem foldl_own [DecidableEq Tab] (db : Db Tab Col V) (t : Tab) (h : db t = []) (i : Nat) :
    (((List.range i).map fun j => (⟨t, j, fun c => columnValue S infos t c j⟩ : Insert Tab Col)).foldl (insertOrIgnore S sql) db) t =
      (keptBefore S infos sql t i).map (rowAt S infos sql t) := by
  induction i with
  | zero => exact h
  | succ i ih =>
    rw [List.range_succ, List.map_append, List.foldl_append, List.map_singleton, List.foldl_cons, List.foldl_nil, insertOrIgnore, keptBefore]
    have hrow : rowOf S sql ⟨t, i, fun c => columnValue S infos t c i⟩ = rowAt S infos sql t i := rfl
    simp only [ih, hrow, List.any_map, Function.comp_def]
    by_cases hkeep : (sql.rejects t (rowAt S infos sql t i) ||
        (keptBefore S infos sql t i).any fun j => sql.conflicts t (rowAt S infos sql t j) (rowAt S infos sql t i)) = true
    · rw [if_pos hkeep, if_pos hkeep, ih]
    · rw [if_neg hkeep, if_neg hkeep, Function.update_self, List.map_append, List.map_singleton]

theorem table_of_mem_populate {stmt : Insert Tab Col} (h : stmt ∈ populate S infos t) : stmt.table = t := by
  rw [populate_eq] at h
  split at h
  · obtain ⟨j, -, rfl⟩ := List.mem_map.mp h
    rfl
  · cases h

/-- A table has the rows of its own inserts. -/
theorem foldl_tables [DecidableEq Tab] (tables : List Tab) (hnodup : tables.Nodup) (db : Db Tab Col V) (ht : t ∈ tables) (h : db t = []) :
    (tables.flatMap (populate S infos)).foldl (insertOrIgnore S sql) db t = (kept S infos sql t).map (rowAt S infos sql t) := by
  induction tables generalizing db with
  | nil => cases ht
  | cons u us ih =>
    obtain ⟨hu, hus⟩ := List.nodup_cons.mp hnodup
    rw [List.flatMap_cons, List.foldl_append]
    rcases List.mem_cons.mp ht with rfl | ht
    · rw [foldl_other, populate_eq, kept]
      · cases S.populated t with
        | true => exact foldl_own S infos sql db t h _
        | false => exact h
      · intro stmt hstmt heq
        obtain ⟨w, hw, hmem⟩ := List.mem_flatMap.mp hstmt
        exact hu (heq.trans (table_of_mem_populate S infos hmem) ▸ hw)
    · refine ih hus _ ht ?_
      rw [foldl_other, h]
      intro stmt hstmt heq
      exact hu (heq.trans (table_of_mem_populate S infos hstmt) ▸ ht)

/-- At the end a table has its rows that are kept. -/
theorem populated_eq [DecidableEq Tab] (ht : t ∈ S.tables) : populated S infos sql t = (kept S infos sql t).map (rowAt S infos sql t) :=
  foldl_tables S infos sql S.tables S.nodup _ ht rfl

/-- Only a table that is populated has rows. -/
theorem populated_of_mem_kept (h : i ∈ kept S infos sql t) : S.populated t = true := by
  unfold kept at h
  split at h
  · assumption
  · cases h

/-! ### The values -/

/-- A value that is given is stored. -/
theorem rowAt_given {l : Literal} (h : (infos t c)[i]? = some l) : rowAt S infos sql t i c = sql.stored (S.type t c) l := by
  simp only [rowAt, rowOf, columnValue, h]

/-- A value that is made up is stored. -/
theorem rowAt_missing {l : Literal} (hi : (infos t c)[i]? = none) (h : missingValue S infos t c i = some l) :
    rowAt S infos sql t i c = sql.stored (S.type t c) l := by
  simp only [rowAt, rowOf, columnValue, hi, h]

theorem validateValueRange_pos (n : Nat) : 1 ≤ validateValueRange (n + 1) ∧ validateValueRange (n + 1) ≤ insertRows := by
  unfold validateValueRange insertRows
  split <;> omega

theorem validateValueRange_of_le {n : Nat} (h1 : 1 ≤ n) (h2 : n ≤ insertRows) : validateValueRange n = n := by
  rw [validateValueRange, if_pos ⟨h1, h2⟩]

/-! ### The first foreign key -/

theorem refs_ne_nil (h : findParentColumn S t c = some r) : S.refs t c ≠ [] := by
  intro hnil
  rw [findParentColumn, hnil] at h
  cases h

theorem mem_refs (h : findParentColumn S t c = some r) : r ∈ S.refs t c := List.mem_of_mem_head? h

/-- What is made up where there are given values for the column referred to is one of them. -/
theorem missingValue_pick (h : findParentColumn S t c = some r) (hne : infos r.1 r.2 ≠ []) (i : Nat) :
    ∃ l ∈ infos r.1 r.2, missingValue S infos t c i = some l := by
  have hlt : i % (infos r.1 r.2).length < (infos r.1 r.2).length := Nat.mod_lt _ (List.length_pos_of_ne_nil hne)
  refine ⟨_, List.getElem_mem hlt, ?_⟩
  unfold missingValue parentColumnValue
  rw [if_pos (refs_ne_nil S h), h]
  simp only [List.getElem?_eq_getElem hlt, Option.getD_some]

/-- What is made up where there are none. -/
theorem missingValue_default (h : findParentColumn S t c = some r) (hnil : infos r.1 r.2 = []) (i : Nat) :
    missingValue S infos t c i = some (emitIntegerValue (S.type t c) (validateValueRange (i + 1))) := by
  unfold missingValue parentColumnValue
  rw [if_pos (refs_ne_nil S h), h]
  simp only [hnil, List.getElem?_nil, Option.getD_none]

/-- The column referred to has the default too, where nothing is given further up. -/
theorem rowAt_default (hr : S.referenceable r.1 r.2 = true) (hnil : infos r.1 r.2 = [])
    (hup : ∀ q, findParentColumn S r.1 r.2 = some q → infos q.1 q.2 = []) {j : Nat} (hj : j < insertRows) :
    rowAt S infos sql r.1 j r.2 = sql.stored (S.type r.1 r.2) (emitIntegerValue (S.type r.1 r.2) (j + 1)) := by
  have hmiss : (infos r.1 r.2)[j]? = none := by rw [hnil, List.getElem?_nil]
  refine rowAt_missing S infos sql hmiss ?_
  cases hq : findParentColumn S r.1 r.2 with
  | some q => rw [missingValue_default S infos hq (hup q hq), validateValueRange_of_le (Nat.succ_pos j) hj]
  | none =>
    have hrefs : S.refs r.1 r.2 = [] := List.head?_eq_none_iff.mp hq
    unfold missingValue
    rw [if_neg (not_not_intro hrefs), if_pos hr]

/-- In the database, the value of a foreign key is a value of a row that is kept. -/
theorem noViolation_iff [DecidableEq Tab] : NoViolation S (populated S infos sql) ↔
    ∀ t ∈ S.tables, ∀ i ∈ kept S infos sql t, ∀ c ∈ S.columns t, ∀ r ∈ S.refs t c,
      ∃ j ∈ kept S infos sql r.1, rowAt S infos sql r.1 j r.2 = rowAt S infos sql t i c := by
  constructor
  · intro h t ht i hi c hc r hr
    obtain ⟨row, hrow, heq⟩ := h t ht (rowAt S infos sql t i) (by rw [populated_eq S infos sql ht]; exact List.mem_map_of_mem hi) c hc r hr
    rw [populated_eq S infos sql (S.found t ht c hc r hr).1] at hrow
    obtain ⟨j, hj, rfl⟩ := List.mem_map.mp hrow
    exact ⟨j, hj, heq⟩
  · intro h t ht row hrow c hc r hr
    rw [populated_eq S infos sql ht] at hrow
    obtain ⟨i, hi, rfl⟩ := List.mem_map.mp hrow
    obtain ⟨j, hj, heq⟩ := h t ht i hi c hc r hr
    refine ⟨rowAt S infos sql r.1 j, ?_, heq⟩
    rw [populated_eq S infos sql (S.found t ht c hc r hr).1]
    exact List.mem_map_of_mem hj

/-! ### The given values -/

variable [DecidableEq Tab] [DecidableEq Col]

/-- What a step keeps and one of the steps brings about holds at the end. -/
theorem foldl_holds {A B : Type} (f : A → B → A) (P : A → Prop) (hkeep : ∀ a b, P a → P (f a b)) {b : B} (hb : ∀ a, P (f a b)) (l : List B)
    (hl : b ∈ l) (a : A) : P (l.foldl f a) := by
  induction l generalizing a with
  | nil => cases hl
  | cons x xs ih =>
    rw [List.foldl_cons]
    rcases List.mem_cons.mp hl with rfl | hl
    · exact List.foldlRecOn xs f (hb a) fun a ha x _ => hkeep a x ha
    · exact ih hl _

theorem append_subset (infos : Infos Tab Col) (t : Tab) (c : Col) (l : Literal) (t' : Tab) (c' : Col) :
    infos t' c' ⊆ infos.append t c l t' c' := by
  unfold Infos.append
  split
  case isTrue h =>
    obtain ⟨rfl, rfl⟩ := h
    exact List.subset_append_left _ _
  case isFalse => exact List.Subset.refl _

theorem mem_append_self (infos : Infos Tab Col) (t : Tab) (c : Col) (l : Literal) : l ∈ infos.append t c l t c := by
  rw [Infos.append, if_pos ⟨rfl, rfl⟩]
  exact List.mem_append_right _ (List.mem_singleton_self l)

/-- Nothing that was collected is lost. -/
theorem addValue_subset (infos : Infos Tab Col) (t : Tab) (c : Col) (l : Literal) (t' : Tab) (c' : Col) :
    infos t' c' ⊆ addValueToReferencedTable S infos t c l t' c' := by
  unfold addValueToReferencedTable
  cases findParentColumn S t c with
  | none => exact List.Subset.refl _
  | some r =>
    dsimp only
    split
    · exact List.Subset.refl _
    · exact append_subset infos _ _ l t' c'

/-- A value is given for the column, and for the one it refers to, there perhaps in another case. -/
def Given (t : Tab) (v : Col × Literal) (infos : Infos Tab Col) : Prop :=
  v.2 ∈ infos t v.1 ∧ ∀ r, findParentColumn S t v.1 = some r →
    v.2 ∈ infos r.1 r.2 ∨ isColumnValuePresent (infos r.1 r.2) (S.type t v.1) v.2 = true

omit [DecidableEq Tab] [DecidableEq Col] in
/-- What was given stays given. -/
theorem Given.mono {v : Col × Literal} {infos infos' : Infos Tab Col} (hsub : ∀ t c, infos t c ⊆ infos' t c)
    (h : Given S t v infos) : Given S t v infos' := by
  refine ⟨hsub _ _ h.1, ?_⟩
  intro r hr
  rcases h.2 r hr with hmem | hpresent
  · exact Or.inl (hsub _ _ hmem)
  · obtain ⟨l, hl, hsame⟩ := List.any_eq_true.mp hpresent
    exact Or.inr (List.any_eq_true.mpr ⟨l, hsub _ _ hl, hsame⟩)

theorem collectValue_subset (u : Tab) (infos : Infos Tab Col) (w : Col × Literal) (t : Tab) (c : Col) :
    infos t c ⊆ collectValue S u infos w t c := by
  intro l hl
  exact addValue_subset S _ _ _ _ _ _ (append_subset _ _ _ _ _ _ hl)

/-- A value that is collected is given. -/
theorem given_collectValue (t : Tab) (v : Col × Literal) (infos : Infos Tab Col) : Given S t v (collectValue S t infos v) := by
  refine ⟨addValue_subset S _ _ _ _ _ _ (mem_append_self infos t v.1 v.2), ?_⟩
  intro r hr
  unfold collectValue addValueToReferencedTable
  simp only [hr]
  split
  case isTrue h => exact Or.inr h
  case isFalse => exact Or.inl (mem_append_self _ _ _ _)

/-- Every value of the attribute is given at the end. -/
theorem given_collect (attr : List (Entry S)) :
    ∀ e ∈ attr, ∀ v ∈ e.values, Given S e.table v (collect S attr) := by
  intro e he v hv
  refine foldl_holds _ (Given S e.table v) ?_ ?_ attr he _
  · intro infos e' h
    exact List.foldlRecOn _ _ h fun infos h w _ => h.mono S (collectValue_subset S _ infos w)
  · intro infos
    refine foldl_holds _ (Given S e.table v) ?_ (given_collectValue S e.table v) _ hv infos
    intro infos w h
    exact h.mono S (collectValue_subset S _ infos w)

theorem mem_append {l l' : Literal} {t' : Tab} {c' : Col} (h : l' ∈ infos.append t c l t' c') : l' ∈ infos t' c' ∨ t' = t ∧ c' = c ∧ l' = l := by
  unfold Infos.append at h
  split at h
  case isTrue heq =>
    obtain ⟨rfl, rfl⟩ := heq
    rcases List.mem_append.mp h with h | h
    · exact Or.inl h
    · exact Or.inr ⟨rfl, rfl, List.mem_singleton.mp h⟩
  case isFalse => exact Or.inl h

/-- A value of the attribute comes to its column and to the one that this refers to. -/
theorem mem_collectValue {v : Col × Literal} {t' : Tab} {c' : Col} {l : Literal} (h : l ∈ collectValue S t infos v t' c') :
    l ∈ infos t' c' ∨ l = v.2 ∧ (t' = t ∧ c' = v.1 ∨ findParentColumn S t v.1 = some (t', c')) := by
  have hown : l ∈ infos.append t v.1 v.2 t' c' → l ∈ infos t' c' ∨ l = v.2 ∧ (t' = t ∧ c' = v.1 ∨ findParentColumn S t v.1 = some (t', c')) := by
    intro hmem
    rcases mem_append infos hmem with hmem | ⟨ht, hc, hl⟩
    · exact Or.inl hmem
    · exact Or.inr ⟨hl, Or.inl ⟨ht, hc⟩⟩
  unfold collectValue addValueToReferencedTable at h
  cases hparent : findParentColumn S t v.1 with
  | none =>
    rw [hparent] at h hown
    exact hown h
  | some r =>
    rw [hparent] at h hown
    dsimp only at h
    split at h
    · exact hown h
    · rcases mem_append _ h with h | ⟨rfl, rfl, hl⟩
      · exact hown h
      · exact Or.inr ⟨hl, Or.inr rfl⟩

end DummyDataAux

open DummyDataAux

namespace DummyDataAux

variable [DecidableEq Tab] [DecidableEq Col] {S} {sql} {attr : List (Entry S)} {t : Tab} {c : Col} {i : Nat} {r : Tab × Col}

/-- Only what is offered is collected. -/
theorem offered_of_collected {l : Literal} (h : l ∈ collect S attr t c) : Offered attr t c l := by
  refine List.foldlRecOn (motive := fun infos : Infos Tab Col => ∀ t c l, l ∈ infos t c → Offered attr t c l) attr _ ?_ ?_ t c l h
  · intro t c l h
    cases h
  · intro infos hinfos e he
    refine List.foldlRecOn (motive := fun infos : Infos Tab Col => ∀ t c l, l ∈ infos t c → Offered attr t c l) e.values _ hinfos ?_
    intro infos hinfos v hv t' c' l h
    rcases mem_collectValue S infos h with h | ⟨rfl, ⟨rfl, rfl⟩ | hparent⟩
    · exact hinfos t' c' l h
    · exact Or.inl ⟨e, he, rfl, hv⟩
    · exact Or.inr ⟨e.table, v.1, hparent, e, he, rfl, hv⟩

/-- What is offered for a column is collected, or something that SQLite stores as the same. -/
theorem collected_of_offered (h : Supported sql attr) {l : Literal} (hl : Offered attr t c l) :
    ∃ l' ∈ collect S attr t c, sql.stored (S.type t c) l' = sql.stored (S.type t c) l := by
  rcases hl with ⟨e, he, rfl, hv⟩ | ⟨t', c', hparent, e, he, rfl, hv⟩
  · exact ⟨l, (given_collect S attr e he (c, l) hv).1, rfl⟩
  · rcases (given_collect S attr e he (c', l) hv).2 (t, c) hparent with hmem | hpresent
    · exact ⟨l, hmem, rfl⟩
    · obtain ⟨l', hl', hsame⟩ := List.any_eq_true.mp hpresent
      exact ⟨l', hl', h.case e.table c' (t, c) hparent l' l (offered_of_collected hl') (.inr ⟨e.table, c', hparent, e, he, rfl, hv⟩) hsame⟩

/-- A value that is collected for a foreign key is in a row of the parent. -/
theorem kept_given (h : Supported sql attr) (ht : t ∈ S.tables) (hi : i ∈ kept S (collect S attr) sql t) (hc : c ∈ S.columns t)
    (hr : findParentColumn S t c = some r) {l : Literal} (hget : (collect S attr t c)[i]? = some l) :
    ∃ j ∈ kept S (collect S attr) sql r.1, rowAt S (collect S attr) sql r.1 j r.2 = rowAt S (collect S attr) sql t i c := by
  have hpopulated := populated_of_mem_kept S (collect S attr) sql hi
  have hoffered : Offered attr r.1 r.2 l := by
    rcases offered_of_collected (List.mem_of_getElem? hget) with hexplicit | hbelow
    · exact .inr ⟨t, c, hr, hexplicit⟩
    · exact h.given t ht c hc r hr l hbelow
  obtain ⟨l', hl', hstored⟩ := collected_of_offered h hoffered
  obtain ⟨j, hj, hjget⟩ := (h.kept t ht hpopulated c hc r hr).1 l' hl'
  refine ⟨j, hj, ?_⟩
  rw [rowAt_given S _ sql hjget, rowAt_given S _ sql hget, hstored, (S.checked t ht c hc r (mem_refs S hr)).2]

/-- So is a value that is made up. -/
theorem kept_missing (h : Supported sql attr) (ht : t ∈ S.tables) (hi : i ∈ kept S (collect S attr) sql t) (hc : c ∈ S.columns t)
    (hr : findParentColumn S t c = some r) (hget : (collect S attr t c)[i]? = none) :
    ∃ j ∈ kept S (collect S attr) sql r.1, rowAt S (collect S attr) sql r.1 j r.2 = rowAt S (collect S attr) sql t i c := by
  have hpopulated := populated_of_mem_kept S (collect S attr) sql hi
  obtain ⟨hrefable, htype⟩ := S.checked t ht c hc r (mem_refs S hr)
  obtain ⟨hpicked, hdefault⟩ := h.kept t ht hpopulated c hc r hr
  by_cases hnil : collect S attr r.1 r.2 = []
  · -- The default is 1 or 2, and the parent's first rows have these.
    obtain ⟨hpos, hle⟩ := validateValueRange_pos i
    have hsucc : validateValueRange (i + 1) - 1 + 1 = validateValueRange (i + 1) := Nat.sub_add_cancel hpos
    have hlt : validateValueRange (i + 1) - 1 < insertRows := by omega
    have hup : ∀ q, findParentColumn S r.1 r.2 = some q → collect S attr q.1 q.2 = [] := by
      intro q hq
      refine List.eq_nil_iff_forall_not_mem.mpr fun l hl => ?_
      obtain ⟨l', hl'⟩ := h.default t ht c hc r hr q hq l (offered_of_collected hl)
      obtain ⟨l'', hl'', -⟩ := collected_of_offered h hl'
      rw [hnil] at hl''
      cases hl''
    refine ⟨_, hdefault hnil _ hlt, ?_⟩
    rw [rowAt_default S _ sql hrefable hnil hup hlt, hsucc, rowAt_missing S _ sql hget (missingValue_default S _ hr hnil i), htype]
  · obtain ⟨l, hl, hmiss⟩ := missingValue_pick S _ hr hnil i
    obtain ⟨j, hj, hjget⟩ := hpicked l hl
    exact ⟨j, hj, by rw [rowAt_given S _ sql hjget, rowAt_missing S _ sql hget hmiss, htype]⟩

end DummyDataAux

/-- Three tables, each but the first with a key that refers to the one before. -/
def chain : Schema (Fin 3) Unit where
  tables := [0, 1, 2]
  columns _ := [()]
  populated _ := true
  type _ _ := .integer
  refs t _ := if t = 2 then [(1, ())] else if t = 1 then [(0, ())] else []
  referenceable _ _ := true
  nodup := by decide
  found := by decide
  checked := by decide

/-- The value 50, for the last table. -/
def fifty : Entry chain := ⟨2, [()], [[.number .int false ['5', '0']]], by decide, by decide, by decide⟩

/-- The same value, for the second table. -/
def fiftyAbove : Entry chain := ⟨1, [()], [[.number .int false ['5', '0']]], by decide, by decide, by decide⟩

/-- The key is unique. -/
def keyed : Sql (Fin 3) Unit Literal where
  stored _ value := value
  filler _ _ _ := .number .int false ['0']
  rejects _ _ := false
  conflicts _ row row' := row () = row' ()

namespace DummyDataAux

/-- The tables of the chain refer to the ones before. -/
theorem parent_cases {t : Fin 3} {c : Unit} {r : Fin 3 × Unit} (h : findParentColumn chain t c = some r) :
    t = 1 ∧ r = (0, ()) ∨ t = 2 ∧ r = (1, ()) := by
  change (if t = 2 then [(1, ())] else if t = 1 then [(0, ())] else [] : List (Fin 3 × Unit)).head? = some r at h
  split at h
  · exact .inr ⟨‹_›, (Option.some.inj h).symm⟩
  · split at h
    · exact .inl ⟨‹_›, (Option.some.inj h).symm⟩
    · cases h

theorem explicit_fifty {t : Fin 3} {c : Unit} {l : Literal} (h : Explicit [fifty, fiftyAbove] t c l) : l = .number .int false ['5', '0'] := by
  obtain ⟨e, he, -, hv⟩ := h
  simp only [List.mem_cons, List.not_mem_nil, or_false] at he
  rcases he with rfl | rfl
  · exact congrArg Prod.snd (List.mem_singleton.mp hv)
  · exact congrArg Prod.snd (List.mem_singleton.mp hv)

theorem offered_fifty {t : Fin 3} {c : Unit} {l : Literal} (h : Offered [fifty, fiftyAbove] t c l) : l = .number .int false ['5', '0'] := by
  rcases h with h | ⟨t', c', -, h⟩
  · exact explicit_fifty h
  · exact explicit_fifty h

/-- The value is given for the second table, and so comes to the first one. -/
theorem offered_above {t : Fin 3} {r : Fin 3 × Unit} {c : Unit} (h : findParentColumn chain t c = some r) :
    Offered [fifty, fiftyAbove] r.1 r.2 (.number .int false ['5', '0']) := by
  have habove : Explicit [fifty, fiftyAbove] 1 () (.number .int false ['5', '0']) := ⟨fiftyAbove, by simp, rfl, List.mem_singleton_self _⟩
  rcases parent_cases h with ⟨-, rfl⟩ | ⟨-, rfl⟩
  · exact .inr ⟨1, (), rfl, habove⟩
  · exact .inl habove

theorem supported_fifty : Supported keyed [fifty, fiftyAbove] where
  single := by decide
  given t _ c _ r hr l hl := by
    rw [offered_fifty (.inr hl)]
    exact offered_above hr
  default t _ c _ r hr _ _ _ _ := ⟨_, offered_above hr⟩
  case t c r _ l l' hl hl' _ := by rw [offered_fifty hl, offered_fifty hl']
  kept t _ _ c _ r hr := by
    rcases parent_cases hr with ⟨-, rfl⟩ | ⟨-, rfl⟩
    · decide
    · decide

end DummyDataAux

end CgSql.DummyData
