import CgSql.Columns
import Mathlib.Algebra.Order.Group.Nat
import Mathlib.Algebra.Order.BigOperators.Group.List

/-!
# What `@COLUMNS` stands for

A directive is replaced by the columns that its items denote, in order, and each name is resolved to the table that it is taken from, or is refused as
ambiguous later. A column that is written out is there even if DISTINCT had its name before. Columns that are implicit but not called `rowid` in
lower case, shapes that have implicit columns, and directives without a column are left out.
-/

namespace CgSql.Columns

open SymbolTable (Name)

variable {E T : Type}

/-! ## What is denoted -/

/-- A column that a select list does not have unless it is named. -/
def Column.Implicit (c : Column T) : Prop := fold c.name = fold rowid ∨ c.hidden = true

instance (c : Column T) : Decidable c.Implicit := inferInstanceAs (Decidable (_ ∨ _))

/-- The table of a name. -/
def Join.table (join : Join T) (name : Name) : Option (Struct T) := (join.tables.find? fun t => fold t.1 = fold name).map Prod.snd

/-- The first table that has a column. -/
def Join.firstWith (join : Join T) (name : Name) : Option Name :=
  (join.tables.find? fun t => t.2.any fun c => fold c.name = fold name).map Prod.fst

/-- The tables that a name can be resolved to, one for each column of the name. -/
def Join.candidates (join : Join T) (scope : Option Name) (name : Name) : List Name :=
  (join.tables.filter fun t => scope.all fun s => fold t.1 = fold s).flatMap fun t => (t.2.filter fun c => fold c.name = fold name).map fun _ => t.1

/-- A column that an item denotes: of which table, whether the item is the column itself, and what a shape requires of it. -/
structure Denoted (T : Type) where
  table : Name
  column : Name
  named : Bool
  reqd : Option T

/-- The columns that an item denotes. -/
def denotes (join : Join T) : ColCalc T → List (Denoted T)
  | .column table name => [⟨table, name, true, none⟩]
  | .table scope none => (((join.table scope).getD []).filter fun c => ¬c.Implicit).map fun c => ⟨scope, c.name, false, none⟩
  | .table scope (some shape) => ((shape.getD []).filter fun c => ¬c.Implicit).map fun c => ⟨scope, c.name, false, some c.type⟩
  | .like shape =>
    ((shape.getD []).filter fun c => ¬c.Implicit).filterMap fun c => (join.firstWith c.name).map fun t => ⟨t, c.name, false, some c.type⟩

/-- What DISTINCT keeps: a column that is written out, and the first of each name. -/
def firsts : (seen : List (List UInt8)) → List (Denoted T) → List (Denoted T)
  | _, [] => []
  | seen, d :: ds => if d.named = false ∧ fold d.column ∈ seen then firsts seen ds else d :: firsts (fold d.column :: seen) ds

/-- What is kept. -/
def kept (distinct : Bool) (ds : List (Denoted T)) : List (Denoted T) := if distinct then firsts [] ds else ds

/-- An emitted name is that of a column that is kept. One that is not written out is resolved to its table, or there are several such columns and the
later analysis refuses it: with DISTINCT, only if the table has several. It has the type that the shape requires. -/
structure Emits (assignable : T → T → Bool) (join : Join T) (distinct : Bool) (d : Denoted T) (r : Ref) : Prop where
  name : r.name = d.column
  scope : ∀ s, r.scope = some s → s = d.table
  named : d.named = true → r.scope = some d.table
  resolved : d.named = false → (∃ t, join.candidates r.scope r.name = [t] ∧ fold t = fold d.table) ∨
    2 ≤ (join.candidates r.scope r.name).length ∧ (distinct = true → 2 ≤ (join.candidates (some d.table) d.column).length)
  checked : d.named = false → ∀ t, d.reqd = some t → ∃ sptr c, join.table d.table = some sptr ∧ findCol sptr d.column = some c ∧ assignable t c.type

/-- What becomes of an element of the select list. -/
def Becomes (assignable : T → T → Bool) (join : Join T) : Item E T → List (Selected E) → Prop
  | .expr e, out => out = [.expr e]
  | .star, out =>
    ∃ refs, out = refs.map .ref ∧ List.Forall₂ (Emits assignable join false) (join.tables.flatMap fun t => denotes join (.table t.1 none)) refs
  | .tableStar table, out => ∃ refs, out = refs.map .ref ∧ List.Forall₂ (Emits assignable join false) (denotes join (.table table none)) refs
  | .columns distinct calcs, out =>
    ∃ refs, out = refs.map .ref ∧ List.Forall₂ (Emits assignable join distinct) (kept distinct (calcs.flatMap (denotes join))) refs

/-- The items of a directive. -/
def calcsOf (join : Join T) : Item E T → List (ColCalc T)
  | .expr _ => []
  | .star => join.tables.map fun t => .table t.1 none
  | .tableStar table => [.table table none]
  | .columns _ calcs => calcs

/-- The implicit columns of an item are those that the rewrite skips. -/
def Plain (join : Join T) : ColCalc T → Prop
  | .column _ _ => True
  | .table scope none => ∀ c ∈ (join.table scope).getD [], fold c.name = fold rowid → c.name = rowid
  | .table _ (some shape) => ∀ c ∈ shape.getD [], fold c.name = fold rowid → c.name = rowid
  | .like shape => ∀ c ∈ shape.getD [], ¬c.Implicit

namespace ColumnsAux

/-! ### The lookup tables -/

/-- How many columns of a table have a name. -/
def count (x : List UInt8) (sptr : Struct T) : ℕ := (sptr.filter fun c => fold c.name = x).length

/-- How many columns of some tables have a name. -/
def total (x : List UInt8) (tables : List (Name × Struct T)) : ℕ := (tables.map fun t => count x t.2).sum

variable {V : Type} {x : List UInt8}

theorem add_isSome (tab : Symtab V) (name : Name) (val : V) (x : List UInt8) :
    (tab.add name val x).isSome = true ↔ (tab x).isSome = true ∨ fold name = x := by
  unfold Symtab.add
  split_ifs with h
  · refine ⟨Or.inl, ?_⟩
    rintro (h' | rfl)
    · exact h'
    · exact h
  · by_cases hx : fold name = x
    · subst hx
      simp
    · simp [Function.update_of_ne (Ne.symm hx), hx]

theorem add_eq_of_some {tab : Symtab V} {v : V} (h : tab x = some v) (name : Name) (val : V) : tab.add name val x = some v := by
  unfold Symtab.add
  split_ifs with hname
  · exact h
  · have hne : x ≠ fold name := by
      rintro rfl
      simp [h] at hname
    rw [Function.update_of_ne hne, h]

theorem add_eq_of_none {tab : Symtab V} (h : tab x = none) (name : Name) (val : V) :
    tab.add name val x = if fold name = x then some val else none := by
  unfold Symtab.add
  by_cases hx : fold name = x
  · subst hx
    simp [h]
  · split_ifs
    · exact h
    · rw [Function.update_of_ne (Ne.symm hx), h]

theorem tables_initColumns (table : Name) (sptr : Struct T) (jfind : JFind T) : (initColumns table sptr jfind).tables = jfind.tables := by
  fun_induction initColumns table sptr jfind <;> simp_all

theorem location_initColumns (table : Name) (sptr : Struct T) (jfind : JFind T) (x : List UInt8) :
    (initColumns table sptr jfind).location x = (jfind.location x).or (if sptr.any fun c => fold c.name = x then some table else none) := by
  fun_induction initColumns table sptr jfind with
  | case1 jfind => simp
  | case2 c cs jfind hloc ih =>
    rw [ih]
    cases hx : jfind.location x with
    | some t => simp
    | none =>
      have hne : fold c.name ≠ x := by
        rintro rfl
        simp [hx] at hloc
      simp [hne]
  | case3 c cs jfind hloc ih =>
    rw [ih]
    cases hx : jfind.location x with
    | some t => simp [add_eq_of_some hx]
    | none =>
      dsimp only
      rw [add_eq_of_none hx]
      by_cases hc : fold c.name = x <;> simp [hc]

/-- A name that is located is in a table, and one that is in `dups` is there twice. -/
def Counts (jfind : JFind T) (k : List UInt8 → ℕ) : Prop :=
  ∀ x, ((jfind.location x).isSome = true ↔ 1 ≤ k x) ∧ ((jfind.dups x).isSome = true ↔ 2 ≤ k x)

theorem count_cons (x : List UInt8) (c : Column T) (cs : Struct T) : count x (c :: cs) = (if fold c.name = x then 1 else 0) + count x cs := by
  unfold count
  rw [List.filter_cons]
  by_cases h : fold c.name = x
  · simp [h, Nat.add_comm]
  · simp [h]

theorem counts_initColumns (table : Name) (sptr : Struct T) (jfind : JFind T) (k : List UInt8 → ℕ) (h : Counts jfind k) :
    Counts (initColumns table sptr jfind) fun x => k x + count x sptr := by
  fun_induction initColumns table sptr jfind generalizing k with
  | case1 jfind => simpa [count] using h
  | case2 c cs jfind hloc ih =>
    have hstep : Counts { jfind with dups := jfind.dups.add c.name () } fun x => k x + if fold c.name = x then 1 else 0 := by
      intro x
      have hx := h x
      dsimp only
      rw [add_isSome, hx.1, hx.2]
      by_cases hc : fold c.name = x
      · subst hc
        have hone := (h _).1.mp hloc
        simp only [if_true, or_true, true_iff]
        omega
      · simp [hc]
    have hrest := ih _ hstep
    simpa only [count_cons, Nat.add_assoc] using hrest
  | case3 c cs jfind hloc ih =>
    have hstep : Counts { jfind with location := jfind.location.add c.name table } fun x => k x + if fold c.name = x then 1 else 0 := by
      intro x
      have hx := h x
      dsimp only
      rw [add_isSome, hx.1, hx.2]
      by_cases hc : fold c.name = x
      · subst hc
        have hnone : ¬1 ≤ k (fold c.name) := fun hk => hloc ((h _).1.mpr hk)
        simp only [if_true, or_true, true_iff]
        omega
      · simp [hc]
    have hrest := ih _ hstep
    simpa only [count_cons, Nat.add_assoc] using hrest

theorem counts_initTables (tables : List (Name × Struct T)) (jfind : JFind T) (k : List UInt8 → ℕ) (h : Counts jfind k) :
    Counts (initTables tables jfind) fun x => k x + total x tables := by
  induction tables generalizing jfind k with
  | nil => simpa [initTables, total] using h
  | cons t tables ih =>
    have hstep := counts_initColumns t.1 t.2 { jfind with tables := jfind.tables.add t.1 t.2 } k h
    have hrest := ih _ _ hstep
    simpa only [initTables, total, List.map_cons, List.sum_cons, Nat.add_assoc] using hrest

theorem location_initTables (tables : List (Name × Struct T)) (jfind : JFind T) (x : List UInt8) : (initTables tables jfind).location x =
      (jfind.location x).or ((tables.find? fun t => t.2.any fun c => fold c.name = x).map Prod.fst) := by
  induction tables generalizing jfind with
  | nil => simp [initTables]
  | cons t tables ih =>
    rw [initTables, ih, location_initColumns, List.find?_cons]
    cases jfind.location x <;> cases h : t.2.any fun c => fold c.name = x <;> simp

theorem tables_initTables (tables : List (Name × Struct T)) (jfind : JFind T) (x : List UInt8) :
    (initTables tables jfind).tables x = (jfind.tables x).or ((tables.find? fun t => fold t.1 = x).map Prod.snd) := by
  induction tables generalizing jfind with
  | nil => simp [initTables]
  | cons t tables ih =>
    rw [initTables, ih, tables_initColumns, List.find?_cons]
    cases hx : jfind.tables x with
    | some sptr => simp [add_eq_of_some hx]
    | none =>
      dsimp only
      rw [add_eq_of_none hx]
      by_cases ht : fold t.1 = x <;> simp [ht]

variable {join : Join T} {distinct : Bool} {scope name : Name} {sptr : Struct T} {c : Column T} {d : Denoted T}

theorem location_eq (name : Name) : (jfindInit join).location (fold name) = join.firstWith name := by
  rw [jfindInit, location_initTables, Join.firstWith]
  simp

theorem tables_eq (name : Name) : (jfindInit join).tables (fold name) = join.table name := by
  rw [jfindInit, tables_initTables, Join.table]
  simp

theorem dups_isSome (name : Name) : ((jfindInit join).dups (fold name)).isSome = true ↔ 2 ≤ (join.candidates none name).length := by
  have hcounts := counts_initTables join.tables ⟨fun _ => none, fun _ => none, fun _ => none⟩ (fun _ => 0) (by simp [Counts])
  have hlen : (join.candidates none name).length = total (fold name) join.tables := by
    simp [Join.candidates, List.length_flatMap, total, count]
  rw [hlen, jfindInit]
  simpa using (hcounts (fold name)).2

/-! ### Candidates -/

theorem filter_eq_of_find {tables : List (Name × Struct T)} (hnodup : (tables.map fun t => fold t.1).Nodup) {t : Name × Struct T}
    (h : tables.find? (fun t => fold t.1 = x) = some t) : tables.filter (fun t => fold t.1 = x) = [t] := by
  induction tables with
  | nil => simp at h
  | cons u tables ih =>
    obtain ⟨hu, hnodup⟩ := List.nodup_cons.mp hnodup
    rw [List.find?_cons] at h
    by_cases hx : fold u.1 = x
    · subst hx
      obtain rfl : u = t := by simpa using h
      have hnone : tables.filter (fun t => fold t.1 = fold u.1) = [] := by
        rw [List.filter_eq_nil_iff]
        intro v hv heq
        exact hu (List.mem_map.mpr ⟨v, hv, by simpa using heq⟩)
      simp [hnone]
    · have hfind : tables.find? (fun t => fold t.1 = x) = some t := by simpa [hx] using h
      simpa [hx] using ih hnodup hfind

/-- A qualified name has the candidates of its table. -/
theorem candidates_some (h : join.table scope = some sptr) (name : Name) :
    ∃ t, fold t = fold scope ∧ join.candidates (some scope) name = (sptr.filter fun c => fold c.name = fold name).map fun _ => t := by
  obtain ⟨t, ht, rfl⟩ := Option.map_eq_some_iff.mp h
  have hfold : fold t.1 = fold scope := by simpa using List.find?_some ht
  refine ⟨t.1, hfold, ?_⟩
  simp [Join.candidates, filter_eq_of_find join.nodup ht]

/-- A column of a table is a candidate, and there are others only if the table has them. -/
theorem resolved_in_table (h : join.table scope = some sptr)
    (hc : c ∈ sptr) (hname : fold c.name = fold name) (distinct : Bool) : (∃ t, join.candidates (some scope) name = [t] ∧ fold t = fold scope) ∨
      2 ≤ (join.candidates (some scope) name).length ∧ (distinct = true → 2 ≤ (join.candidates (some scope) name).length) := by
  obtain ⟨t, ht, hcands⟩ := candidates_some h name
  have hmem : c ∈ sptr.filter fun c => fold c.name = fold name := List.mem_filter.mpr ⟨hc, by simpa using hname⟩
  rcases hfilter : sptr.filter (fun c => fold c.name = fold name) with _ | ⟨d, _ | ⟨e, rest⟩⟩
  · simp [hfilter] at hmem
  · exact Or.inl ⟨t, by rw [hcands, hfilter]; rfl, ht⟩
  · refine Or.inr ⟨?_, fun _ => ?_⟩ <;>
    · rw [hcands, hfilter]
      simp

theorem mem_of_findCol (h : findCol sptr name = some c) : c ∈ sptr ∧ fold c.name = fold name :=
  ⟨List.mem_of_find?_eq_some h, by simpa using List.find?_some h⟩

/-- A name that stands alone has its first table as the only candidate, or there are several. -/
theorem resolved_alone (h : join.firstWith name = some scope) (hdups : ¬2 ≤ (join.candidates none name).length) :
    ∃ t, join.candidates none name = [t] ∧ fold t = fold scope := by
  obtain ⟨t, ht, rfl⟩ := Option.map_eq_some_iff.mp h
  have hmem := List.mem_of_find?_eq_some ht
  have hhas := List.find?_some ht
  simp only [List.any_eq_true, decide_eq_true_eq] at hhas
  obtain ⟨c, hc, hname⟩ := hhas
  have hin : t.1 ∈ join.candidates none name := by
    simp only [Join.candidates, Option.all_none, List.filter_true, List.mem_flatMap, List.mem_map, List.mem_filter, decide_eq_true_eq]
    exact ⟨t, hmem, c, ⟨hc, hname⟩, rfl⟩
  rcases hcands : join.candidates none name with _ | ⟨u, _ | ⟨v, rest⟩⟩
  · simp [hcands] at hin
  · rw [hcands, List.mem_singleton] at hin
    exact ⟨u, rfl, by rw [hin]⟩
  · simp [hcands] at hdups

theorem table_of_firstWith (h : join.firstWith name = some scope) :
    ∃ sptr c, join.table scope = some sptr ∧ c ∈ sptr ∧ fold c.name = fold name := by
  obtain ⟨t, ht, rfl⟩ := Option.map_eq_some_iff.mp h
  have hmem := List.mem_of_find?_eq_some ht
  have hhas := List.find?_some ht
  simp only [List.any_eq_true, decide_eq_true_eq] at hhas
  obtain ⟨c, hc, hname⟩ := hhas
  refine ⟨t.2, c, ?_, hc, hname⟩
  cases hfind : join.tables.find? fun u => fold u.1 = fold t.1 with
  | none =>
    rw [List.find?_eq_none] at hfind
    exact absurd (hfind t hmem) (by simp)
  | some u =>
    have hu := List.mem_of_find?_eq_some hfind
    have heq : fold u.1 = fold t.1 := by simpa using List.find?_some hfind
    have hut : u = t := List.inj_on_of_nodup_map join.nodup hu hmem heq
    rw [Join.table, hfind, hut, Option.map_some]

/-! ### What is kept -/

/-- What is kept after some names. -/
def keep (distinct : Bool) (seen : List (List UInt8)) (ds : List (Denoted T)) : List (Denoted T) := if distinct then firsts seen ds else ds

theorem keep_nil (distinct : Bool) (seen : List (List UInt8)) : keep distinct seen ([] : List (Denoted T)) = [] := by
  cases distinct <;> rfl

theorem keep_cons_of_keep {seen : List (List UInt8)} (h : d.named = true ∨ ¬(distinct = true ∧ fold d.column ∈ seen))
    (ds : List (Denoted T)) : keep distinct seen (d :: ds) = d :: keep distinct (fold d.column :: seen) ds := by
  cases distinct with
  | false => rfl
  | true =>
    have hnot : ¬(d.named = false ∧ fold d.column ∈ seen) := by
      rintro ⟨hn, hs⟩
      rcases h with h | h
      · simp [hn] at h
      · exact h ⟨rfl, hs⟩
    simp [keep, firsts, hnot]

theorem keep_cons_of_seen {seen : List (List UInt8)} (hnamed : d.named = false) (hdistinct : distinct = true)
    (hseen : fold d.column ∈ seen) (ds : List (Denoted T)) : keep distinct seen (d :: ds) = keep distinct seen ds := by
  simp [keep, firsts, hnamed, hdistinct, hseen]

/-- The used names, if there is DISTINCT. -/
def Tracks (distinct : Bool) (used : Used) (seen : List (List UInt8)) : Prop :=
  used.isSome = distinct ∧ ∀ name, used.has name = true ↔ distinct = true ∧ fold name ∈ seen

theorem Tracks.add {used : Used} {seen : List (List UInt8)} (h : Tracks distinct used seen) (name : Name) :
    Tracks distinct (used.add name) (fold name :: seen) := by
  obtain ⟨hsome, hhas⟩ := h
  cases used with
  | none =>
    refine ⟨hsome, fun n => ?_⟩
    simp only [Option.isSome_none] at hsome
    simp [Used.add, Used.has, ← hsome]
  | some tab =>
    refine ⟨hsome, fun n => ?_⟩
    have hn := hhas n
    simp only [Option.isSome_some] at hsome
    simp only [Used.add, Used.has, ← hsome, true_and] at hn ⊢
    rw [add_isSome, hn, List.mem_cons]
    tauto

variable {assignable : T → T → Bool} {used' : Used} {calcs : List (ColCalc T)}

/-- The names that a part of the items is replaced by, and what is kept of the rest. -/
def Part (assignable : T → T → Bool) (join : Join T) (distinct : Bool) (seen : List (List UInt8)) (ds : List (Denoted T))
    (refs : List Ref) (used : Used) : Prop :=
  ∃ seen' front, Tracks distinct used seen' ∧ (∀ rest, keep distinct seen (ds ++ rest) = front ++ keep distinct seen' rest) ∧
    List.Forall₂ (Emits assignable join distinct) front refs

theorem Part.nil {seen : List (List UInt8)} {used : Used} (h : Tracks distinct used seen) : Part assignable join distinct seen [] [] used :=
  ⟨seen, [], h, fun _ => rfl, .nil⟩

/-- A column that is kept. -/
theorem Part.cons {seen : List (List UInt8)} {ds : List (Denoted T)} {r : Ref} {refs : List Ref} {used : Used}
    (hkeep : d.named = true ∨ ¬(distinct = true ∧ fold d.column ∈ seen)) (hr : Emits assignable join distinct d r)
    (h : Part assignable join distinct (fold d.column :: seen) ds refs used) : Part assignable join distinct seen (d :: ds) (r :: refs) used := by
  obtain ⟨seen', front, htracks, hfront, hrefs⟩ := h
  refine ⟨seen', d :: front, htracks, fun rest => ?_, .cons hr hrefs⟩
  rw [List.cons_append, keep_cons_of_keep hkeep, hfront, List.cons_append]

/-- A column that is there before. -/
theorem Part.skip {seen : List (List UInt8)} {ds : List (Denoted T)} {refs : List Ref} {used : Used}
    (hnamed : d.named = false) (hseen : distinct = true ∧ fold d.column ∈ seen) (h : Part assignable join distinct seen ds refs used) :
    Part assignable join distinct seen (d :: ds) refs used := by
  obtain ⟨seen', front, htracks, hfront, hrefs⟩ := h
  refine ⟨seen', front, htracks, fun rest => ?_, hrefs⟩
  rw [List.cons_append, keep_cons_of_seen hnamed hseen.1 hseen.2, hfront]

/-! ### The loops over the columns -/

theorem verified {reqd : Column T} (h : verifyMatchedColumn assignable reqd sptr scope = none) :
    ∃ c, findCol sptr reqd.name = some c ∧ assignable reqd.type c.type = true := by
  unfold verifyMatchedColumn at h
  cases hfind : findCol sptr reqd.name with
  | none => simp [hfind] at h
  | some c =>
    refine ⟨c, rfl, ?_⟩
    by_contra hnot
    simp [hfind, hnot] at h

theorem map_ok {α β : Type} {x : Except Error α} {f : α → β} {b : β} (h : x.map f = .ok b) : ∃ a, x = .ok a ∧ f a = b := by
  cases x with
  | error e => exact absurd h (by simp [Except.map])
  | ok a => exact ⟨a, rfl, by simpa [Except.map] using h⟩

/-- What a column of a table or of a shape denotes in a table. -/
def inTable (scope : Name) (isLike : Bool) (c : Column T) : Denoted T := ⟨scope, c.name, false, if isLike then some c.type else none⟩

theorem emits_inTable {isLike : Bool} {table : Struct T} (htable : join.table scope = some table)
    (hmem : isLike = false → c ∈ table) (hverified : (if isLike then verifyMatchedColumn assignable c table scope else none) = none) :
    Emits assignable join distinct (inTable scope isLike c) ⟨some scope, c.name⟩ := by
  cases isLike with
  | false =>
    exact ⟨rfl, fun s hs => (Option.some.inj hs).symm, fun _ => rfl, fun _ => resolved_in_table htable (hmem rfl) rfl distinct,
      fun _ t ht => absurd ht (by simp [inTable])⟩
  | true =>
    obtain ⟨found, hfind, hassign⟩ := verified hverified
    obtain ⟨hfound, hname⟩ := mem_of_findCol hfind
    refine ⟨rfl, fun s hs => (Option.some.inj hs).symm, fun _ => rfl, fun _ => resolved_in_table htable hfound hname distinct, fun _ t ht => ?_⟩
    obtain rfl : c.type = t := by simpa [inTable] using ht
    exact ⟨table, found, htable, hfind, hassign⟩

theorem expandTable_part {isLike : Bool} {table : Struct T} (htable : join.table scope = some table) (cs : Struct T)
    (hmem : isLike = false → ∀ c ∈ cs, c ∈ table) (hplain : ∀ c ∈ cs, fold c.name = fold rowid → c.name = rowid)
    {used : Used} {seen : List (List UInt8)} (htracks : Tracks distinct used seen) {refs : List Ref}
    (h : expandTable assignable scope isLike table cs used = .ok (refs, used')) :
    Part assignable join distinct seen ((cs.filter fun c => ¬c.Implicit).map (inTable scope isLike)) refs used' := by
  induction cs generalizing used seen refs with
  | nil =>
    simp only [expandTable, Except.ok.injEq, Prod.mk.injEq] at h
    obtain ⟨rfl, rfl⟩ := h
    exact .nil htracks
  | cons c cs ih =>
    have ihrest := @ih (fun hl d hd => hmem hl d (List.mem_cons_of_mem _ hd)) (fun d hd => hplain d (List.mem_cons_of_mem _ hd))
    have himplicit : c.Implicit ↔ c.name = rowid ∨ c.hidden = true := by
      refine or_congr ⟨hplain c (List.mem_cons_self ..), ?_⟩ Iff.rfl
      intro heq
      rw [heq]
    rw [expandTable] at h
    by_cases hskip : c.name = rowid ∨ c.hidden = true
    · rw [if_pos hskip] at h
      rw [List.filter_cons_of_neg (by simp [himplicit.mpr hskip])]
      exact ihrest htracks h
    rw [if_neg hskip] at h
    rw [List.filter_cons_of_pos (by simpa using fun hc => hskip (himplicit.mp hc)), List.map_cons]
    by_cases hused : used.has c.name = true
    · rw [if_pos hused] at h
      exact .skip rfl ((htracks.2 _).mp hused) (ihrest htracks h)
    rw [if_neg hused] at h
    cases hverified : (if isLike then verifyMatchedColumn assignable c table scope else none) with
    | some e => simp [hverified] at h
    | none =>
      simp only [hverified] at h
      obtain ⟨⟨refs', used''⟩, hrest, heq⟩ := map_ok h
      obtain ⟨rfl, rfl⟩ := Prod.mk.inj heq
      have hnew : ¬(distinct = true ∧ fold c.name ∈ seen) := fun hin => hused ((htracks.2 _).mpr hin)
      exact .cons (Or.inr hnew) (emits_inTable htable (fun hl => hmem hl c (List.mem_cons_self ..)) hverified) (ihrest (htracks.add _) hrest)

/-- What a column of a shape denotes in the first table that has it. -/
def inFirst (join : Join T) (c : Column T) : Option (Denoted T) := (join.firstWith c.name).map fun t => ⟨t, c.name, false, some c.type⟩

theorem emits_inFirst (hfirst : join.firstWith c.name = some scope)
    (hverified : verifyMatchedColumn assignable c (((jfindInit join).tables (fold scope)).getD []) scope = none) :
    Emits assignable join distinct ⟨scope, c.name, false, some c.type⟩
      ⟨if distinct = true ∧ ((jfindInit join).dups (fold c.name)).isSome = true then some scope else none, c.name⟩ := by
  obtain ⟨table, d, htable, hd, hname⟩ := table_of_firstWith hfirst
  rw [tables_eq, htable, Option.getD_some] at hverified
  obtain ⟨found, hfind, hassign⟩ := verified hverified
  refine ⟨rfl, ?_, fun hn => absurd hn (by simp), fun _ => ?_, fun _ t ht => ⟨table, found, htable, hfind, ?_⟩⟩
  · intro s hs
    split_ifs at hs
    exact (Option.some.inj hs).symm
  · simp only [dups_isSome]
    by_cases hdups : 2 ≤ (join.candidates none c.name).length
    · cases distinct with
      | false => exact Or.inr ⟨by simpa using hdups, fun hf => absurd hf (by simp)⟩
      | true => simpa [hdups] using resolved_in_table htable hd hname true
    · simpa [hdups] using resolved_alone hfirst hdups
  · rwa [← Option.some.inj ht]

theorem expandLike_part (cs : Struct T) {used : Used} {seen : List (List UInt8)} (htracks : Tracks distinct used seen)
    {refs : List Ref} (h : expandLike assignable (jfindInit join) cs used = .ok (refs, used')) :
    Part assignable join distinct seen (cs.filterMap (inFirst join)) refs used' := by
  induction cs generalizing used seen refs with
  | nil =>
    simp only [expandLike, Except.ok.injEq, Prod.mk.injEq] at h
    obtain ⟨rfl, rfl⟩ := h
    exact .nil htracks
  | cons c cs ih =>
    rw [expandLike] at h
    by_cases hused : used.has c.name = true
    · rw [if_pos hused] at h
      cases hfirst : join.firstWith c.name with
      | none =>
        rw [List.filterMap_cons_none (by simp [inFirst, hfirst])]
        exact ih htracks h
      | some scope =>
        rw [List.filterMap_cons_some (b := ⟨scope, c.name, false, some c.type⟩) (by simp [inFirst, hfirst])]
        exact .skip rfl ((htracks.2 _).mp hused) (ih htracks h)
    rw [if_neg hused, location_eq] at h
    cases hfirst : join.firstWith c.name with
    | none => simp [hfirst] at h
    | some scope =>
      simp only [hfirst] at h
      cases hverified : verifyMatchedColumn assignable c (((jfindInit join).tables (fold scope)).getD []) scope with
      | some e => simp [hverified] at h
      | none =>
        simp only [hverified] at h
        obtain ⟨⟨refs', used''⟩, hrest, heq⟩ := map_ok h
        obtain ⟨rfl, rfl⟩ := Prod.mk.inj heq
        rw [List.filterMap_cons_some (b := ⟨scope, c.name, false, some c.type⟩) (by simp [inFirst, hfirst]), htracks.1]
        have hnew : ¬(distinct = true ∧ fold c.name ∈ seen) := fun hin => hused ((htracks.2 _).mpr hin)
        exact .cons (Or.inr hnew) (emits_inFirst hfirst hverified) (ih (htracks.add _) hrest)

/-! ### The items -/

theorem expandCalc_part {calc_ : ColCalc T} (hplain : Plain join calc_) {used : Used} {seen : List (List UInt8)}
    (htracks : Tracks distinct used seen) {refs : List Ref} (h : expandCalc assignable (jfindInit join) used calc_ = .ok (refs, used')) :
    Part assignable join distinct seen (denotes join calc_) refs used' := by
  cases calc_ with
  | column table name =>
    simp only [expandCalc, Except.ok.injEq, Prod.mk.injEq] at h
    obtain ⟨rfl, rfl⟩ := h
    have hr : Emits assignable join distinct ⟨table, name, true, none⟩ ⟨some table, name⟩ :=
      ⟨rfl, fun s hs => (Option.some.inj hs).symm, fun _ => rfl, fun hn => absurd hn (by simp), fun hn => absurd hn (by simp)⟩
    exact .cons (Or.inl rfl) hr (.nil (htracks.add _))
  | table scope like =>
    rw [expandCalc, tables_eq] at h
    cases htable : join.table scope with
    | none => simp [htable] at h
    | some table =>
      simp only [htable] at h
      cases like with
      | none =>
        have hcs : ∀ c ∈ table, fold c.name = fold rowid → c.name = rowid := by simpa [Plain, htable] using hplain
        have hpart := expandTable_part htable table (fun _ _ hc => hc) hcs htracks h
        rw [denotes, htable]
        exact hpart
      | some shape =>
        cases shape with
        | none => simp at h
        | some shape =>
          have hpart := expandTable_part htable shape (fun hl => absurd hl (by simp)) hplain htracks h
          exact hpart
  | like shape =>
    cases shape with
    | none => simp [expandCalc] at h
    | some shape =>
      have hpart := expandLike_part shape htracks h
      have hall : shape.filter (fun c => ¬c.Implicit) = shape := List.filter_eq_self.mpr fun c hc => by simpa using hplain c hc
      rw [denotes, Option.getD_some, hall]
      exact hpart

theorem expandCalcs_ok (calcs : List (ColCalc T)) (hplain : ∀ c ∈ calcs, Plain join c) {used : Used} {seen : List (List UInt8)}
    (htracks : Tracks distinct used seen) {refs : List Ref} (h : expandCalcs assignable (jfindInit join) calcs used = .ok refs) :
    List.Forall₂ (Emits assignable join distinct) (keep distinct seen (calcs.flatMap (denotes join))) refs := by
  induction calcs generalizing used seen refs with
  | nil =>
    obtain rfl : [] = refs := by simpa [expandCalcs] using h
    rw [List.flatMap_nil, keep_nil]
    exact .nil
  | cons c calcs ih =>
    rw [expandCalcs] at h
    cases hc : expandCalc assignable (jfindInit join) used c with
    | error e => simp [hc] at h
    | ok r =>
      obtain ⟨front, used'⟩ := r
      simp only [hc] at h
      obtain ⟨rest, hrest, rfl⟩ := map_ok h
      obtain ⟨seen', kept', htracks', hfront, hrefs⟩ := expandCalc_part (hplain c (List.mem_cons_self ..)) htracks hc
      have hih := ih (fun d hd => hplain d (List.mem_cons_of_mem _ hd)) htracks' hrest
      rw [List.flatMap_cons, hfront]
      exact List.rel_append hrefs hih

/-- The names that are used before the items. -/
theorem tracks_init (distinct : Bool) : Tracks distinct (if distinct then some fun _ => none else none) [] := by
  cases distinct <;> simp [Tracks, Used.has]

theorem rewriteColumnCalculation_ok (hplain : ∀ c ∈ calcs, Plain join c) {refs : List Ref}
    (h : rewriteColumnCalculation assignable (jfindInit join) distinct calcs = .ok refs) :
    List.Forall₂ (Emits assignable join distinct) (kept distinct (calcs.flatMap (denotes join))) refs := by
  unfold rewriteColumnCalculation at h
  cases hcalcs : expandCalcs assignable (jfindInit join) calcs (if distinct then some fun _ => none else none) with
  | error e => simp [hcalcs] at h
  | ok out =>
    obtain rfl : out = refs := by cases out <;> simp_all
    exact expandCalcs_ok calcs hplain (tracks_init distinct) hcalcs

theorem rewriteColumnCalculation_crash (hplain : ∀ c ∈ calcs, Plain join c)
    (h : rewriteColumnCalculation assignable (jfindInit join) distinct calcs = .crash) : calcs.flatMap (denotes join) = [] := by
  unfold rewriteColumnCalculation at h
  cases hcalcs : expandCalcs assignable (jfindInit join) calcs (if distinct then some fun _ => none else none) with
  | error e => simp [hcalcs] at h
  | ok out =>
    obtain rfl : out = [] := by
      cases out with
      | nil => rfl
      | cons r rs => simp [hcalcs] at h
    have hrefs := expandCalcs_ok calcs hplain (tracks_init distinct) hcalcs
    have hkept := List.forall₂_nil_right_iff.mp hrefs
    cases hds : calcs.flatMap (denotes join) with
    | nil => rfl
    | cons d ds =>
      rw [hds, keep_cons_of_keep (Or.inr (by simp))] at hkept
      exact absurd hkept (by simp)

/-! ### The select list -/

/-- What `starAsColumns` leaves. -/
theorem becomes_columns (assignable : T → T → Bool) {item : Item E T} (hitem : starAsColumns join item = .columns distinct calcs) :
    calcsOf join item = calcs ∧ ∀ refs : List Ref, List.Forall₂ (Emits assignable join distinct) (kept distinct (calcs.flatMap (denotes join))) refs →
      Becomes assignable join item (refs.map .ref) := by
  cases item with
  | expr e => simp [starAsColumns] at hitem
  | star =>
    obtain ⟨rfl, rfl⟩ := by simpa [starAsColumns] using hitem
    refine ⟨rfl, fun refs hrefs => ⟨refs, rfl, ?_⟩⟩
    simpa [kept, List.flatMap_map] using hrefs
  | tableStar table =>
    obtain ⟨rfl, rfl⟩ := by simpa [starAsColumns] using hitem
    refine ⟨rfl, fun refs hrefs => ⟨refs, rfl, ?_⟩⟩
    simpa [kept] using hrefs
  | columns distinct' calcs' =>
    obtain ⟨rfl, rfl⟩ := by simpa [starAsColumns] using hitem
    exact ⟨rfl, fun refs hrefs => ⟨refs, rfl, hrefs⟩⟩

/-- What is made of the list. -/
theorem rewriteItems_becomes (assignable : T → T → Bool) (items : List (Item E T)) (hplain : ∀ item ∈ items, ∀ c ∈ calcsOf join item, Plain join c) :
    match rewriteItems assignable (jfindInit join) (items.map (starAsColumns join)) with
    | .crash => ∃ item ∈ items, (∀ e, item ≠ .expr e) ∧ (calcsOf join item).flatMap (denotes join) = []
    | .error _ => True
    | .ok out => ∃ segments, List.Forall₂ (Becomes assignable join) items segments ∧ out = segments.flatten := by
  induction items with
  | nil => exact ⟨[], .nil, rfl⟩
  | cons item items ih =>
    have ih := ih fun i hi => hplain i (List.mem_cons_of_mem _ hi)
    cases hitem : starAsColumns join item with
    | expr e =>
      obtain rfl : item = .expr e := by cases item <;> simp_all [starAsColumns]
      rw [List.map_cons, hitem, rewriteItems]
      revert ih
      cases rewriteItems assignable (jfindInit join) (items.map (starAsColumns join)) with
      | crash =>
        rintro ⟨i, hi, hempty⟩
        exact ⟨i, List.mem_cons_of_mem _ hi, hempty⟩
      | error e => exact id
      | ok out =>
        rintro ⟨segments, hsegments, rfl⟩
        exact ⟨[.expr e] :: segments, .cons rfl hsegments, rfl⟩
    | star => cases item <;> simp [starAsColumns] at hitem
    | tableStar table => cases item <;> simp [starAsColumns] at hitem
    | columns distinct calcs =>
      obtain ⟨rfl, hbecomes⟩ := becomes_columns assignable hitem
      have hcalcs := hplain item (List.mem_cons_self ..)
      cases hrefs : rewriteColumnCalculation assignable (jfindInit join) distinct (calcsOf join item) with
      | crash =>
        rw [List.map_cons, hitem, rewriteItems, hrefs]
        refine ⟨item, List.mem_cons_self .., ?_, rewriteColumnCalculation_crash hcalcs hrefs⟩
        rintro e rfl
        simp [starAsColumns] at hitem
      | error e =>
        rw [List.map_cons, hitem, rewriteItems, hrefs]
        trivial
      | ok refs =>
        have hsegment := hbecomes refs (rewriteColumnCalculation_ok hcalcs hrefs)
        rw [List.map_cons, hitem, rewriteItems, hrefs]
        revert ih
        dsimp only
        cases rewriteItems assignable (jfindInit join) (items.map (starAsColumns join)) with
        | crash =>
          rintro ⟨i, hi, hempty⟩
          exact ⟨i, List.mem_cons_of_mem _ hi, hempty⟩
        | error e => exact id
        | ok out =>
          rintro ⟨segments, hsegments, rfl⟩
          exact ⟨refs.map .ref :: segments, .cons hsegment hsegments, rfl⟩

/-- Without tables, only expressions are kept. -/
theorem rewriteWithoutFrom_ok (items : List (Item E T)) : match rewriteWithoutFrom items with
    | .crash => False
    | .error _ => True
    | .ok out => ∃ es : List E, items = es.map .expr ∧ out = es.map .expr := by
  induction items with
  | nil => exact ⟨[], rfl, rfl⟩
  | cons item items ih =>
    cases item with
    | expr e =>
      rw [rewriteWithoutFrom]
      revert ih
      cases rewriteWithoutFrom items with
      | crash => exact id
      | error e => exact id
      | ok out =>
        rintro ⟨es, rfl, rfl⟩
        exact ⟨e :: es, rfl, rfl⟩
    | star => trivial
    | tableStar table => trivial
    | columns distinct calcs => trivial

end ColumnsAux

/-- What a select list becomes, with a FROM clause or without one, and in an EXISTS. -/
def Exact (assignable : T → T → Bool) (inExists : Bool) (items : List (Item E T)) (out : List (Selected E)) : Option (Join T) → Prop
  | none => ∃ es : List E, items = es.map .expr ∧ out = es.map .expr
  | some join => if inExists then out = [.one] else ∃ segments, List.Forall₂ (Becomes assignable join) items segments ∧ out = segments.flatten

/-- The rewrite ends in an error, or every element of the list becomes what it stands for, in order. A list is not lost unless there is a directive
without any column. -/
theorem rewriteSelectExprList_exact (assignable : T → T → Bool) (inExists : Bool) (items : List (Item E T)) (join : Option (Join T))
    (hplain : ∀ j ∈ join, ∀ item ∈ items, ∀ c ∈ calcsOf j item, Plain j c) :
    match rewriteSelectExprList assignable inExists items join with
    | .crash => ∃ j ∈ join, ∃ item ∈ items, (∀ e, item ≠ .expr e) ∧ (calcsOf j item).flatMap (denotes j) = []
    | .error _ => True
    | .ok out => Exact assignable inExists items out join := by
  cases join with
  | none =>
    have hwithout := ColumnsAux.rewriteWithoutFrom_ok items
    rw [rewriteSelectExprList]
    revert hwithout
    cases rewriteWithoutFrom items with
    | crash => exact False.elim
    | error e => exact id
    | ok out => exact id
  | some j =>
    cases inExists with
    | true => rfl
    | false =>
      have hitems := ColumnsAux.rewriteItems_becomes assignable items (hplain j rfl)
      simp only [rewriteSelectExprList, Bool.false_eq_true, if_false]
      revert hitems
      cases rewriteItems assignable (jfindInit j) (items.map (starAsColumns j)) with
      | crash =>
        rintro ⟨item, hitem, hempty⟩
        exact ⟨j, rfl, item, hitem, hempty⟩
      | error e => exact id
      | ok out => exact id

namespace ColumnsAux

def x : Name := ⟨[120], by decide⟩
def y : Name := ⟨[121], by decide⟩

/-- `x` joined with `y`, where `x` has a column `x` and `y` has columns `x` and `y`. -/
def xy : Join Unit := ⟨[(x, [⟨x, (), false⟩]), (y, [⟨x, (), false⟩, ⟨y, (), false⟩])], by decide⟩

end ColumnsAux

open ColumnsAux in
/-- `@COLUMNS(DISTINCT x, y)` is `x.x, y.y`. -/
theorem rewriteSelectExprList_exact_witness :
    Exact (fun _ _ => true) false [Item.columns (E := Unit) true [.table x none, .table y none]] [.ref ⟨some x, x⟩, .ref ⟨some y, y⟩] (some xy) := by
  have hplain : ∀ j ∈ some xy, ∀ item ∈ [Item.columns (E := Unit) true [.table x none, .table y none]], ∀ c ∈ calcsOf j item, Plain j c := by
    intro j hj item hitem c hc
    obtain rfl := Option.some.inj hj
    obtain rfl := List.mem_singleton.mp hitem
    simp only [calcsOf, List.mem_cons, List.not_mem_nil, or_false] at hc
    rcases hc with rfl | rfl <;>
    · unfold Plain
      decide
  exact rewriteSelectExprList_exact (fun _ _ => true) false [Item.columns (E := Unit) true [.table x none, .table y none]] (some xy) hplain

open ColumnsAux in
/-- A column that is written out twice is there twice. -/
theorem distinct_once_false : ¬∀ (join : Join Unit) (calcs : List (ColCalc Unit)) (refs : List Ref),
      rewriteSelectExprList (fun _ _ => true) false [Item.columns (E := Unit) true calcs] (some join) = .ok (refs.map .ref) →
      (refs.map fun r => fold r.name).Nodup := by
  intro hall
  have htwice := hall xy [.column x x, .column x x] [⟨some x, x⟩, ⟨some x, x⟩] rfl
  revert htwice
  decide

end CgSql.Columns
