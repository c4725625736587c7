import Mathlib.Data.List.Lex
import CgSql.Aliases
import CgSql.Theorems.Backed

/-!
# Aliases that are left out

A name that is both a column of `FROM` and an alias counts as the column where aliases are recorded, and means the result to SQLite. The
alias is left out, and then the text is ordered by the column.
-/

namespace CgSql.Aliases

open Nullability (sameName)

/-! ## Selects whose aliases can be left out -/

/-- The expression that has the alias. -/
def aliased (aliases : List (Option String)) (list : List Expr) (n : String) : Option Expr :=
  ((aliases.zip list).find? fun r => r.1.any (sameName n)).map Prod.snd

/-- A term that is a column of `FROM`, behind its hints, is no alias of anything but that column, and what the `ORDER BY` of a nested
select reads of the aliases is read elsewhere too. -/
def Select.AliasSafe (s : Select) : Prop :=
  (∀ n, (∃ term ∈ s.orderBy, term.bare = .name n) → hasColumn s.sources n = true → ∀ e, aliased s.aliases s.list n = some e →
    resolve [⟨0, s.sources, []⟩] e = resolve [⟨0, s.sources, []⟩] (.name n)) ∧
  ∀ n, (n, false) ∈ readsAll true [] s.orderBy → hasColumn s.sources n = false → (aliasNames s.aliases s.list).any (sameName n) = true →
    ∃ m, (m, true) ∈ readsAll true [] s.orderBy ∧ sameName n m = true

/-- The part has the alias. -/
def SelectCore.hasAlias (s : SelectCore) (n : String) : Bool := s.aliases.any fun a => a.any (sameName n)

/-- The first part that is no `VALUES` has the alias, or its `FROM` clause has one column of the name and this is a result; else no later
part has the alias. -/
def CoresSafe (n : String) : List Core → Prop
  | [] => True
  | .values _ :: cores => CoresSafe n cores
  | .select s :: cores =>
    s.hasAlias n = true ∨ (∃ i, columnsNamed s.sources n = [i] ∧ ∃ e ∈ s.list, resolve [⟨0, s.sources, []⟩] e = some (.column 0 i)) ∨
      ∀ s', Core.select s' ∈ cores → s'.hasAlias n = false

/-- The aliases that are not used can be left out. -/
def TopSelect.AliasSafe : TopSelect → Prop
  | .simple s => s.AliasSafe
  | .compound cores orderBy => ∀ n, Expr.name n ∈ orderBy → CoresSafe n cores

namespace AliasesAux

open Backed.BackedAux (sameName_iff)

/-! ## Names -/

theorem sameName_congr {a b c : String} (h : sameName a b = true) : sameName a c = sameName b c := by
  rw [sameName_iff] at h
  simp [sameName, h]

theorem sameName_symm {a b : String} (h : sameName a b = true) : sameName b a = true := by
  rw [sameName_iff] at h ⊢
  exact h.symm

theorem any_congr {a b : String} (h : sameName a b = true) (l : List String) : l.any (sameName a) = l.any (sameName b) := by
  congr 1
  funext c
  exact sameName_congr h

theorem hasColumn_congr {a b : String} (h : sameName a b = true) (sources : List Column) : hasColumn sources a = hasColumn sources b := by
  unfold hasColumn
  congr 1
  funext c
  exact sameName_congr h

theorem columnsNamed_eq_nil {sources : List Column} {n : String} : columnsNamed sources n = [] ↔ hasColumn sources n = false := by
  simp only [columnsNamed, hasColumn, List.map_eq_nil_iff, List.filter_eq_nil_iff, List.any_eq_false]
  constructor
  · intro h c hc
    obtain ⟨i, hi, rfl⟩ := List.getElem_of_mem hc
    exact h (sources[i], i) (List.mem_zipIdx_iff_getElem?.mpr (by simp [hi]))
  · rintro h ⟨c, i⟩ hc
    exact h c (List.fst_mem_of_mem_zipIdx hc)

/-! ## Aliases of a select -/

/-- The first alias of a name stands for the expression that has it. -/
theorem findAlias_visible {scopes : List Scope} {n : String} : ∀ {aliases : List (Option String)} {list : List Expr}
    {items : List Resolved}, resolveAll scopes list = some items →
    findAlias (visible aliases items) n = (aliased aliases list n).bind (resolve scopes)
  | [], list, items, _ => by simp [findAlias, visible, aliased]
  | a :: aliases, [], items, h => by
    cases h
    simp [findAlias, visible, aliased]
  | a :: aliases, e :: list, items, h => by
    obtain ⟨r, hr, h⟩ := Option.bind_eq_some_iff.mp h
    obtain ⟨rs, hrs, h⟩ := Option.bind_eq_some_iff.mp h
    cases h
    have ih : findAlias (visible aliases rs) n = (aliased aliases list n).bind (resolve scopes) := findAlias_visible hrs
    cases a with
    | none => simpa [findAlias, visible, aliased] using ih
    | some b =>
      by_cases hb : sameName n b = true
      · simp [findAlias, visible, aliased, hb, hr]
      · simpa [findAlias, visible, aliased, hb] using ih

variable {aliases : List (Option String)} {list : List Expr}

theorem aliased_eq_none {n : String} : aliased aliases list n = none ↔ (aliasNames aliases list).any (sameName n) = false := by
  simp only [aliased, aliasNames, Option.map_eq_none_iff, List.find?_eq_none, List.any_eq_false, List.mem_filterMap]
  constructor
  · rintro h b ⟨⟨a, e⟩, hmem, ha⟩
    simp only at ha
    subst ha
    simpa using h _ hmem
  · rintro h ⟨a, e⟩ hmem
    cases a with
    | none => simp
    | some b => simpa using h b ⟨_, hmem, rfl⟩

theorem mem_of_aliased {n : String} {e : Expr} (h : aliased aliases list n = some e) : e ∈ list := by
  obtain ⟨r, hr, rfl⟩ := Option.map_eq_some_iff.mp h
  exact (List.of_mem_zip (List.mem_of_find?_eq_some hr)).2

theorem resolves_of_mem {scopes : List Scope} {e : Expr} : ∀ {list : List Expr} {items : List Resolved},
    resolveAll scopes list = some items → e ∈ list → ∃ r ∈ items, resolve scopes e = some r
  | [], items, _, he => by simp at he
  | e' :: list, items, h, he => by
    obtain ⟨r, hr, h⟩ := Option.bind_eq_some_iff.mp h
    obtain ⟨rs, hrs, h⟩ := Option.bind_eq_some_iff.mp h
    cases h
    rcases List.mem_cons.mp he with rfl | he
    · exact ⟨r, by simp, hr⟩
    · obtain ⟨r', hr', hres⟩ := resolves_of_mem hrs he
      exact ⟨r', by simp [hr'], hres⟩

/-- Exactly the aliases that are used can still be found. -/
theorem findAlias_minify {used : List String} {n : String} : ∀ {aliases : List (Option String)} {items : List Resolved},
    findAlias (visible (aliases.map (genSelectExpr used)) items) n =
      if symtabFind used n = true then findAlias (visible aliases items) n else none
  | [], items => by simp [findAlias, visible]
  | a :: aliases, [] => by simp [findAlias, visible]
  | a :: aliases, r :: items => by
    have ih : findAlias (visible (aliases.map (genSelectExpr used)) items) n =
        if symtabFind used n = true then findAlias (visible aliases items) n else none := findAlias_minify
    cases a with
    | none => simpa [findAlias, visible, genSelectExpr] using ih
    | some b =>
      by_cases hb : sameName n b = true
      · have hused : symtabFind used b = symtabFind used n := (any_congr hb used).symm
        by_cases hn : symtabFind used n = true
        · simp [findAlias, visible, genSelectExpr, hused, hn, hb]
        · simp [findAlias, visible, genSelectExpr, hused, hn] at ih ⊢
          exact ih
      · by_cases hu : symtabFind used b = true
        · simpa [findAlias, visible, genSelectExpr, hu, hb] using ih
        · simpa [findAlias, visible, genSelectExpr, hu, hb] using ih

/-! ## Names that no alias is needed for -/

/-- The selects inside bind the names. -/
def Bind (scopes : List Scope) (inner : List String) : Prop :=
  ∀ n, inner.any (sameName n) = true → ∃ scope ∈ scopes, hasColumn scope.sources n = true ∨ (findAlias scope.aliases n).isSome = true

theorem bind_nil : Bind [] [] := by
  intro n h
  simp at h

theorem bind_columns {scopes : List Scope} {inner : List String} (h : Bind scopes inner) (scope : Scope) :
    Bind (scope :: scopes) (scope.sources.map Column.name ++ inner) := by
  intro n hn
  rw [List.any_append, Bool.or_eq_true] at hn
  rcases hn with hn | hn
  · exact ⟨scope, by simp, .inl (by simpa [hasColumn] using hn)⟩
  · obtain ⟨scope', hmem, hbinds⟩ := h n hn
    exact ⟨scope', by simp [hmem], hbinds⟩

theorem bind_aliases {scopes outer : List Scope} {inner : List String} (h : Bind scopes inner) {level : Nat} {sources : List Column}
    {items : List Resolved} (hitems : resolveAll outer list = some items) :
    Bind (⟨level, sources, visible aliases items⟩ :: scopes) (aliasNames aliases list ++ (sources.map Column.name ++ inner)) := by
  intro n hn
  rw [List.any_append, Bool.or_eq_true] at hn
  rcases hn with hn | hn
  · refine ⟨_, List.mem_cons_self, .inr ?_⟩
    have hsome : aliased aliases list n ≠ none := by
      rw [Ne, aliased_eq_none, hn]
      simp
    obtain ⟨e, he⟩ := Option.ne_none_iff_exists'.mp hsome
    obtain ⟨r, -, hr⟩ := resolves_of_mem hitems (mem_of_aliased he)
    rw [findAlias_visible hitems, he, Option.bind_some, hr, Option.isSome_some]
  · exact bind_columns h ⟨level, sources, visible aliases items⟩ n hn

/-- A name that no select inside binds is read alike where it is read alike outside of them. -/
theorem resolveName_append {outer outer' : List Scope} {n : String} (h : resolveName outer n = resolveName outer' n) :
    ∀ scopes : List Scope, resolveName (scopes ++ outer) n = resolveName (scopes ++ outer') n
  | [] => h
  | scope :: scopes => by
    simp only [List.cons_append, resolveName]
    rw [resolveName_append h scopes]

/-- A name that a select inside binds is read alike whatever is outside of them. -/
theorem resolveName_bound {outer outer' : List Scope} {n : String} : ∀ {scopes : List Scope},
    (∃ scope ∈ scopes, hasColumn scope.sources n = true ∨ (findAlias scope.aliases n).isSome = true) →
    resolveName (scopes ++ outer) n = resolveName (scopes ++ outer') n
  | [], h => by simp at h
  | scope :: scopes, h => by
    simp only [List.cons_append, resolveName]
    split
    · rfl
    · rfl
    · rename_i hnil
      simp only [List.mem_cons, exists_eq_or_imp] at h
      rcases h with h | h
      · rw [columnsNamed_eq_nil] at hnil
        rw [hnil] at h
        obtain ⟨r, hr⟩ := Option.isSome_iff_exists.mp (h.resolve_left (by simp))
        rw [hr, Option.some_or, Option.some_or]
      · rw [resolveName_bound h]

theorem resolveDot_append {outer outer' : List Scope} {table n : String} (h : resolveDot outer table n = resolveDot outer' table n) :
    ∀ scopes : List Scope, resolveDot (scopes ++ outer) table n = resolveDot (scopes ++ outer') table n
  | [] => h
  | scope :: scopes => by
    simp only [List.cons_append, resolveDot]
    rw [resolveDot_append h scopes]

section Agreement

variable {top top' : Scope} (hlevel : top.level = top'.level) (hsources : top.sources = top'.sources)

include hlevel hsources

mutual

/-- An expression is read alike where the names that it reads are. -/
theorem resolve_congr : ∀ (e : Expr) {scopes : List Scope} {inner : List String} {monitored : Bool}, Bind scopes inner →
    (∀ r ∈ reads monitored inner e, resolveName [top] r.1 = resolveName [top'] r.1) →
    resolve (scopes ++ [top]) e = resolve (scopes ++ [top']) e
  | .num _, _, _, _, _, _ => by simp [resolve]
  | .name n, scopes, inner, monitored, hbind, h => by
    simp only [resolve]
    by_cases hn : inner.any (sameName n) = true
    · exact resolveName_bound (hbind n hn)
    · exact resolveName_append (h (n, monitored) (by simp [reads, hn])) scopes
  | .dot table n, scopes, _, _, _, _ => by
    simp only [resolve]
    exact resolveDot_append (by simp [resolveDot, hlevel, hsources]) scopes
  | .op op args, _, _, _, hbind, h => by
    simp only [resolve]
    rw [resolveAll_congr args hbind (by simpa only [reads] using h)]
  | .hinted hint e, _, _, _, hbind, h => by
    simp only [resolve]
    rw [resolve_congr e hbind (by simpa only [reads] using h)]
  | .select sources aliases list clauses orderBy, scopes, inner, monitored, hbind, h => by
    simp only [reads, List.forall_mem_append] at h
    have hlength : (scopes ++ [top]).length = (scopes ++ [top']).length := by simp
    have hlist := resolveAll_congr list (bind_columns hbind ⟨(scopes ++ [top']).length, sources, []⟩) h.1.1
    simp only [resolve, hlength]
    rw [List.cons_append, List.cons_append] at hlist
    rw [hlist]
    cases hitems : resolveAll (⟨(scopes ++ [top']).length, sources, []⟩ :: (scopes ++ [top'])) list with
    | none => rfl
    | some items =>
      have hbind' : Bind (⟨(scopes ++ [top']).length, sources, visible aliases items⟩ :: scopes)
          (aliasNames aliases list ++ (sources.map Column.name ++ inner)) := bind_aliases hbind hitems
      have hclauses := resolveAll_congr clauses hbind' h.1.2
      have hterms := resolveTerms_congr orderBy hbind' h.2 (visible aliases items) items
      simp only [List.cons_append] at hclauses hterms
      simp only [Option.bind_eq_bind, Option.bind_some, hclauses, hterms]

theorem resolveAll_congr : ∀ (es : List Expr) {scopes : List Scope} {inner : List String} {monitored : Bool}, Bind scopes inner →
    (∀ r ∈ readsAll monitored inner es, resolveName [top] r.1 = resolveName [top'] r.1) →
    resolveAll (scopes ++ [top]) es = resolveAll (scopes ++ [top']) es
  | [], _, _, _, _, _ => by simp [resolveAll]
  | e :: es, _, _, _, hbind, h => by
    simp only [readsAll, List.forall_mem_append] at h
    simp only [resolveAll]
    rw [resolve_congr e hbind h.1, resolveAll_congr es hbind h.2]

theorem resolveTerms_congr : ∀ (es : List Expr) {scopes : List Scope} {inner : List String} {monitored : Bool}, Bind scopes inner →
    (∀ r ∈ readsAll monitored inner es, resolveName [top] r.1 = resolveName [top'] r.1) →
    ∀ aliases items, resolveTerms (scopes ++ [top]) aliases items es = resolveTerms (scopes ++ [top']) aliases items es
  | [], _, _, _, _, _ => by simp [resolveTerms]
  | e :: es, _, _, _, hbind, h => by
    intro aliases items
    simp only [readsAll, List.forall_mem_append] at h
    simp only [resolveTerms]
    rw [resolve_congr e hbind h.1, resolveTerms_congr es hbind h.2]

end

theorem resolve_congr_top (e : Expr) {monitored : Bool}
    (h : ∀ r ∈ reads monitored [] e, resolveName [top] r.1 = resolveName [top'] r.1) : resolve [top] e = resolve [top'] e :=
  resolve_congr hlevel hsources e bind_nil h

theorem resolveAll_congr_top (es : List Expr) {monitored : Bool}
    (h : ∀ r ∈ readsAll monitored [] es, resolveName [top] r.1 = resolveName [top'] r.1) : resolveAll [top] es = resolveAll [top'] es :=
  resolveAll_congr hlevel hsources es bind_nil h

end Agreement

/-! ## One select -/

variable {s : Select} {used : List String} {n : String} {c : ResolvedCore}

/-- An alias is the name of its result. -/
theorem resultNames_of_aliasNames {b : String} (h : b ∈ aliasNames aliases list) : b ∈ resultNames aliases list := by
  obtain ⟨r, hr, hb⟩ := List.mem_filterMap.mp h
  exact List.mem_map.mpr ⟨r, hr, by simp [hb]⟩

/-- What is read is used, where it is an alias and no column. -/
theorem symtabFind_of_reads {m : String} (hread : (m, true) ∈ readsAll true [] s.orderBy) (hm : sameName n m = true)
    (hcolumn : hasColumn s.sources n = false) (halias : (aliasNames s.aliases s.list).any (sameName n) = true) :
    symtabFind s.usedSymbols n = true := by
  obtain ⟨b, hb, hnb⟩ := List.any_eq_true.mp halias
  have hfound : ((resultNames s.aliases s.list).find? (sameName m)).isSome = true := by
    rw [List.find?_isSome]
    exact ⟨b, resultNames_of_aliasNames hb, by rwa [← sameName_congr hm]⟩
  obtain ⟨u, hu⟩ := Option.isSome_iff_exists.mp hfound
  refine List.any_eq_true.mpr ⟨u, List.mem_filterMap.mpr ⟨(m, true), hread, ?_⟩, ?_⟩
  · rw [hasColumn_congr hm] at hcolumn
    simp [hcolumn, hu]
  · rw [sameName_congr hm]
    exact List.find?_some hu

/-- A column is not used. -/
theorem symtabFind_of_hasColumn (hcolumn : hasColumn s.sources n = true) : symtabFind s.usedSymbols n = false := by
  rw [symtabFind, List.any_eq_false]
  intro u hu hnu
  obtain ⟨⟨m, monitored⟩, -, hm⟩ := List.mem_filterMap.mp hu
  split at hm
  · rename_i hcond
    have hmu : sameName m u = true := List.find?_some hm
    have hmn : sameName m n = true := by rw [sameName_congr hmu]; exact sameName_symm hnu
    simp [hasColumn_congr hmn, hcolumn] at hcond
  · cases hm

/-- A name is read alike with the aliases that are used, if it is a column, used or no alias. -/
theorem agrees_of {items : List Resolved} (hitems : resolveAll [⟨0, s.sources, []⟩] s.list = some items)
    (h : hasColumn s.sources n = true ∨ symtabFind used n = true ∨ (aliasNames s.aliases s.list).any (sameName n) = false) :
    resolveName [⟨0, s.sources, visible (s.aliases.map (genSelectExpr used)) items⟩] n =
      resolveName [⟨0, s.sources, visible s.aliases items⟩] n := by
  simp only [resolveName]
  split
  · rfl
  · rfl
  · rename_i hnil
    rw [columnsNamed_eq_nil] at hnil
    rcases h with h | h | h
    · rw [h] at hnil
      cases hnil
    · rw [findAlias_minify, if_pos h]
    · have hnone : findAlias (visible s.aliases items) n = none := by
        rw [findAlias_visible hitems, aliased_eq_none.mpr h, Option.bind_none]
      rw [findAlias_minify, hnone, ite_self]

/-- Where the clauses read no alias and the terms of `ORDER BY` are read alike, the texts denote the same. -/
theorem resolve_minify (haccepted : s.Accepted) (hterms : ∀ items, resolveAll [⟨0, s.sources, []⟩] s.list = some items →
      resolveTerms [⟨0, s.sources, visible (s.aliases.map (genSelectExpr used)) items⟩]
          (visible (s.aliases.map (genSelectExpr used)) items) items s.orderBy =
        resolveTerms [⟨0, s.sources, visible s.aliases items⟩] (visible s.aliases items) items s.orderBy) :
    resolve [] (Select.mk (s.minify used) s.orderBy).text = resolve [] s.text := by
  simp only [Select.text, SelectCore.minify, resolve, List.length_nil]
  cases hitems : resolveAll [⟨0, s.sources, []⟩] s.list with
  | none => rfl
  | some items =>
    have hclauses : resolveAll [⟨0, s.sources, visible (s.aliases.map (genSelectExpr used)) items⟩] s.clauses =
        resolveAll [⟨0, s.sources, visible s.aliases items⟩] s.clauses :=
      resolveAll_congr_top (by rfl) (by rfl) s.clauses fun r hr => agrees_of hitems (.inr (.inr (haccepted r hr)))
    simp only [Option.bind_eq_bind, Option.bind_some, hclauses, hterms items hitems]

/-- An expression is resolved behind its hints. -/
theorem resolve_bare (scopes : List Scope) : ∀ e : Expr, resolve scopes e = (resolve scopes e.bare).map e.rehint
  | .hinted hint e => by
    rw [resolve, Expr.bare, resolve_bare scopes e, Option.map_map]
    rfl
  | .num _ | .name _ | .dot _ _ | .op _ _ | .select _ _ _ _ _ => by simp [Expr.bare, Expr.rehint]

/-- The names that are read are those behind the hints. -/
theorem reads_bare (monitored : Bool) (inner : List String) : ∀ e : Expr, reads monitored inner e = reads monitored inner e.bare
  | .hinted hint e => by
    rw [reads, Expr.bare, reads_bare monitored inner e]
  | .num _ | .name _ | .dot _ _ | .op _ _ | .select _ _ _ _ _ => rfl

/-- A term that is a name is read alike: as a column that no other result is called, or as an alias that is used. -/
theorem findAlias_term (hsafe : s.AliasSafe) {items : List Resolved} (hitems : resolveAll [⟨0, s.sources, []⟩] s.list = some items)
    (hmem : ∃ term ∈ s.orderBy, term.bare = .name n) (hread : (n, true) ∈ readsAll true [] s.orderBy) :
    (findAlias (visible (s.aliases.map (genSelectExpr s.usedSymbols)) items) n).or (resolve [⟨0, s.sources, visible s.aliases items⟩] (.name n)) =
      (findAlias (visible s.aliases items) n).or (resolve [⟨0, s.sources, visible s.aliases items⟩] (.name n)) := by
  rw [findAlias_minify]
  by_cases hcolumn : hasColumn s.sources n = true
  · rw [symtabFind_of_hasColumn hcolumn, if_neg (by simp), Option.none_or, findAlias_visible hitems]
    cases hal : aliased s.aliases s.list n with
    | none => simp
    | some e =>
      have hcolumnOf : resolve [⟨0, s.sources, []⟩] (.name n) = resolve [⟨0, s.sources, visible s.aliases items⟩] (.name n) := by
        simp only [resolve, resolveName]
        split
        · rfl
        · rfl
        · rename_i hnil
          rw [columnsNamed_eq_nil, hcolumn] at hnil
          cases hnil
      rw [Option.bind_some, hsafe.1 n hmem hcolumn e hal, hcolumnOf, Option.or_self]
  · have hcolumn : hasColumn s.sources n = false := by simpa using hcolumn
    by_cases halias : (aliasNames s.aliases s.list).any (sameName n) = true
    · rw [if_pos (symtabFind_of_reads hread (by simp [sameName]) hcolumn halias)]
    · have hnone : findAlias (visible s.aliases items) n = none := by
        rw [findAlias_visible hitems, aliased_eq_none.mpr (by simpa using halias), Option.bind_none]
      rw [hnone, ite_self]

/-- The terms of a select that is not compound are read alike. -/
theorem resolveTerms_minify (hsafe : s.AliasSafe) {items : List Resolved} (hitems : resolveAll [⟨0, s.sources, []⟩] s.list = some items) :
    ∀ es, (∀ e ∈ es, e ∈ s.orderBy) → (∀ r ∈ readsAll true [] es, r ∈ readsAll true [] s.orderBy) →
      resolveTerms [⟨0, s.sources, visible (s.aliases.map (genSelectExpr s.usedSymbols)) items⟩]
          (visible (s.aliases.map (genSelectExpr s.usedSymbols)) items) items es =
        resolveTerms [⟨0, s.sources, visible s.aliases items⟩] (visible s.aliases items) items es
  | [], _, _ => rfl
  | e :: es, hmem, hreads => by
    simp only [readsAll, List.forall_mem_append] at hreads
    have hagree : ∀ r ∈ reads true [] e, resolveName [⟨0, s.sources, visible (s.aliases.map (genSelectExpr s.usedSymbols)) items⟩] r.1 =
        resolveName [⟨0, s.sources, visible s.aliases items⟩] r.1 := by
      rintro ⟨n, monitored⟩ hr
      have hread := hreads.1 _ hr
      refine agrees_of hitems ?_
      by_cases hcolumn : hasColumn s.sources n = true
      · exact .inl hcolumn
      by_cases halias : (aliasNames s.aliases s.list).any (sameName n) = true
      · have hcolumn : hasColumn s.sources n = false := by simpa using hcolumn
        refine .inr (.inl ?_)
        cases monitored with
        | true => exact symtabFind_of_reads hread (by simp [sameName]) hcolumn halias
        | false =>
          obtain ⟨m, hm, hnm⟩ := hsafe.2 n hread hcolumn halias
          exact symtabFind_of_reads hm hnm hcolumn halias
      · exact .inr (.inr (by simpa using halias))
    have hordinary := resolve_congr_top (by rfl) (by rfl) e hagree
    have hterm : resolveTerm (visible (s.aliases.map (genSelectExpr s.usedSymbols)) items) items e
          (resolve [⟨0, s.sources, visible (s.aliases.map (genSelectExpr s.usedSymbols)) items⟩] e) =
        resolveTerm (visible s.aliases items) items e (resolve [⟨0, s.sources, visible s.aliases items⟩] e) := by
      rw [hordinary, resolve_bare _ e]
      simp only [resolveTerm]
      cases hbare : e.bare with
      | name n =>
        simp only [← Option.map_or]
        rw [findAlias_term hsafe hitems ⟨e, hmem e (by simp), hbare⟩ (hreads.1 (n, true) (by simp [reads_bare _ _ e, hbare, reads]))]
      | _ => rfl
    simp only [resolveTerms]
    rw [hterm, resolveTerms_minify hsafe hitems es (fun e' he' => hmem e' (by simp [he'])) hreads.2]

/-! ## Compound selects -/

/-- The part with the aliases that are used. -/
def minifyResolved (used : List String) (c : ResolvedCore) : ResolvedCore := { c with aliases := c.aliases.map (genSelectExpr used) }

theorem findIdx?_minify {used : List String} {n : String} (aliases : List (Option String)) :
    (aliases.map (genSelectExpr used)).findIdx? (fun a => a.any (sameName n)) =
      if symtabFind used n = true then aliases.findIdx? fun a => a.any (sameName n) else none := by
  have hany : ∀ a, (genSelectExpr used a).any (sameName n) = (symtabFind used n && a.any (sameName n)) := by
    intro a
    cases a with
    | none => simp [genSelectExpr]
    | some b =>
      by_cases hb : sameName n b = true
      · have hused : symtabFind used b = symtabFind used n := (any_congr hb used).symm
        by_cases hn : symtabFind used n = true
        · simp [genSelectExpr, hused, hn]
        · simp [genSelectExpr, hused, hn]
      · by_cases hu : symtabFind used b = true
        · simp [genSelectExpr, hu, hb]
        · simp [genSelectExpr, hu, hb]
  rw [List.findIdx?_map]
  by_cases hn : symtabFind used n = true
  · rw [if_pos hn]
    congr 1
    funext a
    simp [hany, hn]
  · rw [if_neg hn, List.findIdx?_eq_none_iff]
    intro a _
    simp [hany, hn]

/-- Where the name is used, or is no alias of the part, it means the same result. -/
theorem position_minify {used : List String} {n : String} (h : symtabFind used n = true ∨ (c.aliases.any fun a => a.any (sameName n)) = false) :
    (minifyResolved used c).position n = c.position n := by
  simp only [ResolvedCore.position, minifyResolved, findIdx?_minify]
  rcases h with h | h
  · rw [if_pos h]
  · have hnone : (c.aliases.findIdx? fun a => a.any (sameName n)) = none := by
      rw [List.findIdx?_eq_none_iff]
      simpa using h
    rw [hnone, ite_self]

theorem resolve_core_minify {used : List String} {s : SelectCore} (haccepted : s.Accepted) :
    (Core.select (s.minify used)).resolve = (Core.select s).resolve.map (minifyResolved used) := by
  have htext : resolve [] (Select.mk (s.minify used) []).text = resolve [] (Select.mk s []).text :=
    resolve_minify (s := ⟨s, []⟩) haccepted fun _ _ => rfl
  simp only [Core.resolve, htext]
  split
  · rfl
  · rfl

theorem resolve_withoutAliases {core : Core} (haccepted : ∀ s, core = .select s → s.Accepted) :
    core.withoutAliases.resolve = core.resolve.map (minifyResolved []) := by
  cases core with
  | values rows =>
    simp only [Core.withoutAliases, Core.resolve]
    cases rows.mapM fun row => (resolveAll [⟨0, [], []⟩] row).map (Resolved.op "row") with
    | none => rfl
    | some rs => rfl
  | select s => exact resolve_core_minify (haccepted s rfl)

theorem mapM_withoutAliases : ∀ {cores : List Core}, (∀ s, Core.select s ∈ cores → s.Accepted) →
    (cores.map Core.withoutAliases).mapM Core.resolve = (cores.mapM Core.resolve).map (List.map (minifyResolved []))
  | [], _ => rfl
  | core :: cores, h => by
    rw [List.map_cons, List.mapM_cons, List.mapM_cons, resolve_withoutAliases fun s hs => h s (by simp [hs]),
      mapM_withoutAliases fun s hs => h s (by simp [hs])]
    cases core.resolve with
    | none => rfl
    | some c =>
      cases cores.mapM Core.resolve with
      | none => rfl
      | some cs => rfl

theorem resolve_select_some {s : SelectCore} (h : (Core.select s).resolve = some c) :
    c.aliases = s.aliases ∧ c.sources = s.sources ∧ resolveAll [⟨0, s.sources, []⟩] s.list = some c.items := by
  simp only [Core.resolve, Select.text, resolve, List.length_nil] at h
  split at h
  · rename_i sources items clauses terms hresolve
    cases h
    obtain ⟨items', hitems, hresolve⟩ := Option.bind_eq_some_iff.mp hresolve
    obtain ⟨_, _, hresolve⟩ := Option.bind_eq_some_iff.mp hresolve
    obtain ⟨_, _, hresolve⟩ := Option.bind_eq_some_iff.mp hresolve
    cases hresolve
    exact ⟨rfl, rfl, hitems⟩
  · cases h

/-- A part whose alias or column it is has a result for the name. -/
theorem position_isSome {s : SelectCore} {n : String} (hc : (Core.select s).resolve = some c) (h : s.hasAlias n = true ∨
      ∃ i, columnsNamed s.sources n = [i] ∧ ∃ e ∈ s.list, resolve [⟨0, s.sources, []⟩] e = some (.column 0 i)) :
    (c.position n).isSome = true := by
  obtain ⟨haliases, hsources, hitems⟩ := resolve_select_some hc
  simp only [ResolvedCore.position, haliases, hsources, Option.isSome_or, Bool.or_eq_true, List.findIdx?_isSome]
  rcases h with h | ⟨i, hi, e, he, hres⟩
  · exact .inl h
  · right
    obtain ⟨r, hr, hr'⟩ := resolves_of_mem hitems he
    rw [hres] at hr'
    cases hr'
    rw [hi]
    simp only [List.findIdx?_isSome, List.any_eq_true]
    exact ⟨_, hr, by simp [Resolved.isColumn]⟩

theorem exists_of_mapM {α β : Type} {f : α → Option β} : ∀ {as : List α} {bs : List β}, as.mapM f = some bs →
    ∀ {b : β}, b ∈ bs → ∃ a ∈ as, f a = some b
  | [], bs, h, b, hb => by
    cases h
    cases hb
  | a :: as, bs, h, b, hb => by
    rw [List.mapM_cons] at h
    obtain ⟨b', hb', h⟩ := Option.bind_eq_some_iff.mp h
    obtain ⟨bs', hbs', h⟩ := Option.bind_eq_some_iff.mp h
    cases h
    rcases List.mem_cons.mp hb with rfl | hb
    · exact ⟨a, by simp, hb'⟩
    · obtain ⟨a', ha', h'⟩ := exists_of_mapM hbs' hb
      exact ⟨a', by simp [ha'], h'⟩

theorem aliases_of_resolve {core : Core} {n : String} (hc : core.resolve = some c)
    (h : ∀ s, core = .select s → s.hasAlias n = false) : (c.aliases.any fun a => a.any (sameName n)) = false := by
  cases core with
  | values rows =>
    obtain ⟨rs, -, hc⟩ := Option.bind_eq_some_iff.mp hc
    cases hc
    rfl
  | select s =>
    rw [(resolve_select_some hc).1]
    exact h s rfl

theorem findSome?_minify {n : String} : ∀ {cs : List ResolvedCore}, (∀ c ∈ cs, (c.aliases.any fun a => a.any (sameName n)) = false) →
    (cs.map (minifyResolved [])).findSome? (fun c => c.position n) = cs.findSome? fun c => c.position n
  | [], _ => rfl
  | c :: cs, h => by
    rw [List.map_cons, List.findSome?_cons, List.findSome?_cons, position_minify (.inr (h c (by simp))),
      findSome?_minify fun c' hc' => h c' (by simp [hc'])]

/-- The parts stay the same, and so do the results that the names mean. -/
theorem mapM_minifyCores (used : List String) : ∀ {cores : List Core}, (∀ s, Core.select s ∈ cores → s.Accepted) →
    (cores.mapM Core.resolve = none ∧ (minifyCores used cores).mapM Core.resolve = none) ∨
    ∃ rs rs', cores.mapM Core.resolve = some rs ∧ (minifyCores used cores).mapM Core.resolve = some rs' ∧
      rs'.map ResolvedCore.query = rs.map ResolvedCore.query ∧
      ∀ n, symtabFind used n = true → CoresSafe n cores → rs'.findSome? (fun c => c.position n) = rs.findSome? fun c => c.position n
  | [], _ => .inr ⟨[], [], rfl, rfl, rfl, fun _ _ _ => rfl⟩
  | .values rows :: cores, h => by
    simp only [minifyCores, List.mapM_cons]
    cases hc : (Core.values rows).resolve with
    | none => exact .inl ⟨rfl, rfl⟩
    | some c =>
      have haccepted : ∀ s, Core.select s ∈ cores → s.Accepted := fun s hs => h s (by simp [hs])
      rcases mapM_minifyCores used haccepted with ⟨hn, hn'⟩ | ⟨rs, rs', hr, hr', hquery, hpos⟩
      · rw [hn, hn']
        exact .inl ⟨rfl, rfl⟩
      · rw [hr, hr']
        refine .inr ⟨c :: rs, c :: rs', rfl, rfl, by simp [hquery], fun n hn hsafe => ?_⟩
        rw [List.findSome?_cons, List.findSome?_cons, hpos n hn hsafe]
  | .select s :: cores, h => by
    simp only [minifyCores, List.mapM_cons]
    rw [resolve_core_minify (h s (by simp)), mapM_withoutAliases fun s hs => h s (by simp [hs])]
    cases hc : (Core.select s).resolve with
    | none => exact .inl ⟨rfl, rfl⟩
    | some c =>
      cases hcs : cores.mapM Core.resolve with
      | none => exact .inl ⟨rfl, rfl⟩
      | some cs =>
        refine .inr ⟨c :: cs, minifyResolved used c :: cs.map (minifyResolved []), rfl, rfl, ?_, fun n hn hsafe => ?_⟩
        · simp [minifyResolved]
        · rw [List.findSome?_cons, List.findSome?_cons, position_minify (.inl hn)]
          rcases hsafe with hsafe | hsafe | hsafe
          · obtain ⟨k, hk⟩ := Option.isSome_iff_exists.mp (position_isSome hc (.inl hsafe))
            rw [hk]
          · obtain ⟨k, hk⟩ := Option.isSome_iff_exists.mp (position_isSome hc (.inr hsafe))
            rw [hk]
          · have hrest : (cs.map (minifyResolved [])).findSome? (fun c => c.position n) = cs.findSome? fun c => c.position n := by
              refine findSome?_minify fun c' hc' => ?_
              obtain ⟨core, hcore, hresolve⟩ := exists_of_mapM hcs hc'
              exact aliases_of_resolve hresolve fun s' hs' => hsafe s' (hs' ▸ hcore)
            rw [hrest]

/-- A name that a compound select is ordered by is used. -/
theorem symtabFind_compound {cores : List Core} {orderBy : List Expr} {n : String} (hn : Expr.name n ∈ orderBy)
    (haccepted : (cores.head?.elim [] Core.resultNames).any (sameName n) = true) :
    symtabFind (compoundUsedSymbols cores orderBy) n = true := by
  obtain ⟨b, hb, hnb⟩ := List.any_eq_true.mp haccepted
  obtain ⟨u, hu⟩ := Option.isSome_iff_exists.mp (List.find?_isSome.mpr ⟨b, hb, hnb⟩)
  exact List.any_eq_true.mpr ⟨u, List.mem_filterMap.mpr ⟨_, hn, hu⟩, List.find?_some hu⟩

theorem mapM_congr {α β : Type} {f g : α → Option β} : ∀ {as : List α}, (∀ a ∈ as, f a = g a) → as.mapM f = as.mapM g
  | [], _ => rfl
  | a :: as, h => by
    rw [List.mapM_cons, List.mapM_cons, h a (by simp), mapM_congr fun a' ha' => h a' (by simp [ha'])]

end AliasesAux

/-! ## Top-level selects -/

/-- Rows of one integer, and expressions that are the column or its negation. -/
def negations (data : List Int) : Meaning Int Int where
  data _ _ := data
  eval r row := match r with
    | .column _ _ => row
    | _ => -row
  le a b := decide (a ≤ b)
  finish rows := rows

/-- `SELECT -x AS name FROM t ORDER BY name`. -/
def negated (name : String) : TopSelect :=
  .simple ⟨⟨[⟨"t", "x"⟩], [some name], [.op "-" [.name "x"]], []⟩, [.name name]⟩

theorem negated_aliasSafe : (negated "y").AliasSafe := by
  have hcolumn : hasColumn [⟨"t", "x"⟩] "y" = false := by decide +kernel
  refine ⟨fun n hn hc => ?_, fun n hn => ?_⟩
  · obtain rfl : n = "y" := by simpa [Expr.bare, eq_comm] using hn
    rw [hcolumn] at hc
    cases hc
  · simp [readsAll, reads] at hn

end CgSql.Aliases
