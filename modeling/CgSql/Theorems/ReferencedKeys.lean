import CgSql.ReferencedKeys
import CgSql.Theorems.SymbolTable

/-!
# Referenced columns are a key

The comparison of two lists of columns is that of their sets. The walk over the indices takes every unique index on the table, deleted ones and
ones with a WHERE too.
-/

namespace CgSql.ReferencedKeys

open SymbolTable (Name Case strCaseCmp)
open SymbolTable.SymtabAux (strCaseCmp_eq_zero)

variable {ε : Type} {table : Table} {indices : List (Index ε)}

namespace KeyAux

variable {items : List Item}

/-! ### Lists of columns -/

theorem strCaseCmp_iff (a b : Name) : strCaseCmp a.1 b.1 = 0 ↔ Case.insens.fold a = Case.insens.fold b :=
  strCaseCmp_eq_zero a.2 b.2

theorem symtabFind_iff (cache : List Name) (name : Name) : symtabFind cache name = true ↔ Case.insens.fold name ∈ cache.map Case.insens.fold := by
  simp only [symtabFind, List.any_eq_true, decide_eq_true_eq, strCaseCmp_iff, List.mem_map]

theorem countFound_iff (cache : List Name) (names : List Name) : ∀ count n, countFound cache count names = some n ↔
    (∀ name ∈ names, symtabFind cache name = true) ∧ n = count + names.length := by
  induction names with
  | nil =>
    intro count n
    rw [countFound, Option.some_inj]
    exact ⟨fun h => ⟨by simp, h.symm⟩, fun h => h.2.symm⟩
  | cons name names ih =>
    intro count n
    rw [countFound]
    by_cases hfind : symtabFind cache name = true
    · rw [if_pos hfind, ih, List.length_cons, Nat.add_assoc, Nat.add_comm 1]
      simp only [List.mem_cons, forall_eq_or_imp, hfind, true_and]
    · rw [if_neg hfind]
      simp [hfind]

/-- Lists are equal when their sets are, given that the second has no member twice. The counts see whether the first has one. -/
theorem isNameListEqual_iff {items' : List Item} (h : Distinct items') :
    isNameListEqual items items' = true ↔ Distinct items ∧ SameTexts items items' := by
  have hcount : isNameListEqual items items' = true ↔
      (∀ t ∈ items'.map Item.folded, t ∈ items.map Item.folded) ∧ items.length = items'.length := by
    have hfold : ∀ l : List Item, (l.map Item.text).map Case.insens.fold = l.map Item.folded := by
      intro l
      rw [List.map_map]
      rfl
    rw [isNameListEqual]
    cases hfound : countFound (items.map Item.text) 0 (items'.map Item.text) with
    | none =>
      refine iff_of_false (by simp) ?_
      rintro ⟨hsub, -⟩
      have hall : ∀ name ∈ items'.map Item.text, symtabFind (items.map Item.text) name = true := by
        intro name hname
        rw [symtabFind_iff, hfold]
        exact hsub _ (hfold items' ▸ List.mem_map_of_mem hname)
      rw [(countFound_iff _ _ 0 _).mpr ⟨hall, rfl⟩] at hfound
      nomatch hfound
    | some n =>
      obtain ⟨hall, hn⟩ := (countFound_iff _ _ 0 n).mp hfound
      rw [List.length_map, Nat.zero_add] at hn
      subst hn
      simp only [decide_eq_true_eq]
      refine ⟨fun hlen => ⟨?_, hlen⟩, And.right⟩
      intro t ht
      rw [← hfold, List.mem_map] at ht
      obtain ⟨name, hname, rfl⟩ := ht
      have hfind := hall name hname
      rwa [symtabFind_iff, hfold] at hfind
  rw [hcount]
  constructor
  · rintro ⟨hsub, hlen⟩
    have hsubperm : (items'.map Item.folded).Subperm (items.map Item.folded) := h.subperm hsub
    have hperm := hsubperm.perm_of_length_le (by rw [List.length_map, List.length_map, hlen])
    exact ⟨hperm.nodup_iff.mp h, fun t => hperm.mem_iff.symm⟩
  · rintro ⟨hdistinct, hsame⟩
    have hperm := (List.perm_ext_iff_of_nodup hdistinct h).mpr hsame
    exact ⟨fun t => (hsame t).mpr, by simpa using hperm.length_eq⟩

/-- Only one member has the texts of one name. -/
theorem sameTexts_single {c : Name} (h : Distinct items) (hsame : SameTexts [.name c] items) :
    ∃ item, items = [item] ∧ item.folded = Case.insens.fold c := by
  have hperm := (List.perm_ext_iff_of_nodup (List.nodup_singleton _) h).mpr hsame
  obtain ⟨item, hitems, hfold⟩ := List.map_eq_singleton_iff.mp (List.singleton_perm.mp hperm).symm
  exact ⟨item, hitems, hfold⟩

/-- The check of one column finds a column that is a key by itself. -/
theorem isColumnUniqueKey_iff (table : Table) (item : Item) {c : Name} (hc : item.text = c) :
    isColumnUniqueKey table c = true ↔
    ∃ col ∈ table.columns, (col.primaryKey = true ∨ col.uniqueKey = true) ∧ SameTexts [.name col.name] [item] := by
  have hsame : ∀ a : Name, SameTexts [.name a] [item] ↔ Case.insens.fold c = Case.insens.fold a := by
    intro a
    constructor
    · intro h
      have hmem := (h (Case.insens.fold a)).mp (by simp [Item.folded, Item.text])
      simpa [Item.folded, hc, eq_comm] using hmem
    · intro h t
      simp only [List.map_cons, List.map_nil, List.mem_singleton, Item.folded, hc, h]
      rfl
  simp only [isColumnUniqueKey, List.any_eq_true, Bool.and_eq_true, Bool.or_eq_true, decide_eq_true_eq, strCaseCmp_iff, hsame]
  exact exists_congr fun col => and_congr_right fun _ => and_comm

/-! ### The walk over the keys -/

/-- What the walk finds: a constraint, or any unique index. -/
theorem findReferenceableColumns_iff (h : Distinct items) :
    findReferenceableColumns table indices (fun columns => isNameListEqual columns items) = true ↔
      (∃ keyDef ∈ table.colKeyList, ∃ columns, keyDef.columns? = some columns ∧ SameTexts columns.items items) ∨
        ∃ index ∈ indices, index.On table ∧ index.unique = true ∧ Distinct index.columns ∧ SameTexts index.columns items := by
  rw [findReferenceableColumns, Bool.or_eq_true, List.any_eq_true, List.any_eq_true]
  refine or_congr (exists_congr fun keyDef => and_congr_right fun _ => ?_) (exists_congr fun index => and_congr_right fun _ => ?_)
  · cases hcolumns : keyDef.columns? with
    | none => simp
    | some columns => simp [isNameListEqual_iff h, columns.distinct]
  · simp only [Bool.and_eq_true, decide_eq_true_eq, strCaseCmp_iff, isNameListEqual_iff h, Index.On]
    constructor
    · rintro ⟨⟨hunique, hon⟩, hsame⟩
      exact ⟨hon.symm, hunique, hsame⟩
    · rintro ⟨hon, hunique, hsame⟩
      exact ⟨⟨hunique, hon.symm⟩, hsame⟩

variable {κ : Type} {reads : Name → List UInt8 ⊕ κ} {fit : Index ε → Prop}

theorem hasKey_or (P Q : List Item → Prop) :
    HasKey table indices fit (fun list => P list ∨ Q list) ↔ HasKey table indices fit P ∨ HasKey table indices fit Q := by
  simp only [HasKey, and_or_left, exists_or]
  rw [or_or_or_comm (c := ∃ index ∈ indices, _ ∧ _), or_or_or_comm]

theorem hasKey_congr {P Q : List Item → Prop} (h : ∀ list, P list ↔ Q list) : HasKey table indices fit P ↔ HasKey table indices fit Q := by
  simp only [HasKey, h]

/-- A key is written as the columns are, or differently. -/
theorem isKey_iff : IsKey reads table indices fit items ↔ Spelled reads table indices fit items ∨ Respelled reads table indices fit items := by
  rw [Spelled, Respelled, ← hasKey_or]
  refine hasKey_congr fun list => ?_
  rw [← and_or_left, and_iff_left (Classical.em _)]

/-- What is accepted: a key under the same texts, or something that is not fit. -/
theorem accepted_iff (h : Distinct items) (reads : Name → List UInt8 ⊕ κ) (fit : Index ε → Prop) :
    ((∃ col ∈ table.columns, (col.primaryKey = true ∨ col.uniqueKey = true) ∧ SameTexts [.name col.name] items) ∨
        findReferenceableColumns table indices (fun columns => isNameListEqual columns items) = true) ↔
      Spelled reads table indices fit items ∨ Unfit reads table indices fit items := by
  have htexts : Spelled reads table indices fit items ∨ (HasKey table indices fit fun list => ¬SameColumns reads list items ∧ SameTexts list items) ↔
      HasKey table indices fit fun list => SameTexts list items := by
    rw [Spelled, ← hasKey_or]
    refine hasKey_congr fun list => ?_
    rw [← or_and_right, and_iff_right (Classical.em _)]
  have hsplit : Spelled reads table indices fit items ∨ Unfit reads table indices fit items ↔
      (HasKey table indices fit fun list => SameTexts list items) ∨ ∃ index ∈ indices, index.On table ∧ index.unique = true ∧
        Distinct index.columns ∧ SameTexts index.columns items ∧ (index.deleted = true ∨ ¬fit index) := by
    rw [Unfit, ← or_assoc, htexts]
  rw [findReferenceableColumns_iff h, hsplit]
  constructor
  · rintro (hcol | hdef | ⟨index, hindex, hon, hunique, hdistinct, hsame⟩)
    · exact .inl (.inl hcol)
    · exact .inl (.inr (.inl hdef))
    · by_cases hok : index.deleted = false ∧ fit index
      · exact .inl (.inr (.inr ⟨index, hindex, hon, hunique, hok.1, hok.2, hsame⟩))
      · refine .inr ⟨index, hindex, hon, hunique, hdistinct, hsame, ?_⟩
        by_cases hdeleted : index.deleted = true
        · exact .inl hdeleted
        · exact .inr fun hfit => hok ⟨by simpa using hdeleted, hfit⟩
  · rintro ((hcol | hdef | ⟨index, hindex, hon, hunique, hlive, -, hsame⟩) | ⟨index, hindex, hon, hunique, hdistinct, hsame, -⟩)
    · exact .inl hcol
    · exact .inr (.inl hdef)
    · exact .inr (.inr ⟨index, hindex, hon, hunique, index.distinct hlive, hsame⟩)
    · exact .inr (.inr ⟨index, hindex, hon, hunique, hdistinct, hsame⟩)

/-- Several columns are not those of one. -/
theorem not_single (h : Distinct items) (hlen : items.length ≠ 1) :
    ¬∃ col ∈ table.columns, (col.primaryKey = true ∨ col.uniqueKey = true) ∧ SameTexts [.name col.name] items := by
  rintro ⟨col, -, -, hsame⟩
  obtain ⟨item, rfl, -⟩ := sameTexts_single h hsame
  exact hlen rfl

theorem validateFk_iff (reads : Name → List UInt8 ⊕ κ) (nameList : NameList) :
    semValidateReferenceableFkDef table indices nameList.names = none ↔
      Spelled reads table indices (FitForKey reads) (nameList.names.map .name) ∨
        Unfit reads table indices (FitForKey reads) (nameList.names.map .name) := by
  rw [← accepted_iff nameList.distinct reads (FitForKey reads)]
  obtain ⟨names, hne, hdistinct⟩ := nameList
  rcases names with _ | ⟨c, _ | ⟨c', names⟩⟩
  · exact absurd rfl hne
  · simp only [semValidateReferenceableFkDef, List.map_cons, List.map_nil]
    have hunique : isColumnUniqueKey table c = true ↔ _ := isColumnUniqueKey_iff table (.name c) rfl
    rw [← hunique]
    split
    · simp_all
    · split <;> simp_all
  · simp only [semValidateReferenceableFkDef]
    rw [or_iff_right (not_single hdistinct (by simp))]
    simp

theorem conflictTarget_iff (reads : Name → List UInt8 ⊕ κ) (fit : Index ε → Prop) (target : Columns) (hname : ∀ text, target.items ≠ [.expr text]) :
    ∃ report, checkConflictTarget table indices target.items = some report ∧
      (report = none ↔ Spelled reads table indices fit target.items ∨ Unfit reads table indices fit target.items) := by
  have hiff : _ ↔ Spelled reads table indices fit target.items ∨ _ := accepted_iff target.distinct reads fit
  obtain ⟨items, hne, hdistinct⟩ := target
  rcases items with _ | ⟨item, _ | ⟨item', items⟩⟩
  · exact absurd rfl hne
  · have hstr : item.str? = some item.text := by
      cases item with
      | name c => rfl
      | literal text => rfl
      | expr text => exact absurd rfl (hname text)
    simp only at hiff ⊢
    rw [← isColumnUniqueKey_iff table item rfl] at hiff
    rw [← hiff]
    simp only [checkConflictTarget, hstr, Option.map_some, Option.bind_eq_bind, Option.bind_some]
    split
    · exact ⟨none, rfl, by simp_all⟩
    · split
      · exact ⟨none, rfl, by simp_all⟩
      · exact ⟨some .notConflictTarget, rfl, by simp_all⟩
  · simp only at hiff ⊢
    rw [or_iff_right (not_single hdistinct (by simp))] at hiff
    rw [← hiff]
    simp only [checkConflictTarget, Option.bind_eq_bind, Option.bind_some, Bool.false_eq_true, if_false]
    split
    · exact ⟨none, rfl, by simp_all⟩
    · exact ⟨some .notConflictTarget, rfl, by simp_all⟩

/-- Of what is accepted and what is a key, those under the same texts agree, and the others do if both are there or none is. -/
theorem agrees_when {accepted key spelled respelled unfit : Prop} (haccepted : accepted ↔ spelled ∨ unfit) (hkey : key ↔ spelled ∨ respelled) :
    (accepted ↔ key) ↔ spelled ∨ (unfit ↔ respelled) := by
  rw [haccepted, hkey]
  by_cases h : spelled <;> simp [h]

end KeyAux

open KeyAux

/-- A table `t` with a column `a` that is no key. -/
def rowsTable : Table where
  name := ⟨[116], by decide⟩
  colKeyList := [.colDef ⟨⟨[97], by decide⟩, false, false⟩]

/-- A unique index on `t(a)` with a WHERE. -/
def partialIndex : Index Unit where
  tableName := rowsTable.name
  unique := true
  columns := [.name ⟨[97], by decide⟩]
  filter := some ()
  deleted := false
  distinct := fun _ => List.nodup_singleton _

/-- The foreign key's `(a)`. -/
def keyColumn : NameList where
  names := [⟨[97], by decide⟩]
  nonempty := List.cons_ne_nil _ _
  distinct := List.nodup_singleton _

end CgSql.ReferencedKeys
