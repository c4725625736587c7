import CgSql.Lemmas.RecreateRun
import Mathlib.Data.List.Count
import Mathlib.Data.List.Nodup

/-!
# What a rebuild executes

The creates that `cql_rebuild_recreate_group` executes for a recreate group, when SQLite takes every statement. The texts of a group
are those that `cg_schema.c` puts together, and the deletes may be any text.
-/

namespace CgSql.Rebuild

open SplitAux

variable {tl dl : List Text} {g : Group}

/-! ## The property and its condition -/

/-- The create of a table that a call executes. -/
def Call.created? : Call → Option Text
  | .createTable sql => some sql
  | _ => none

/-- The creates of the tables are executed once each and in order, and the create of each index once, after that of its table. -/
structure Kept (g : Group) (log : List Call) : Prop where
  tables : log.filterMap Call.created? = g.tableTexts
  indices : ∀ (j : Nat) (x : Index) (s t : Text), g.indices[j]? = some x → g.indexTexts[j]? = some s → g.tableTexts[x.on]? = some t →
      log.count (.createIndex s) = 1 ∧ log.idxOf (.createTable t) < log.idxOf (.createIndex s)

/-- The rebuild of the group. -/
def Group.rebuild (g : Group) (db : Db) (deletes : Text) : Outcome :=
  rebuildRecreateGroup db g.tableTexts.flatten g.indexTexts.flatten deletes

/-- If every execution succeeds, the run gets to its end and keeps the tables and the indices. -/
def Group.Keeps (g : Group) (deletes : Text) : Prop :=
  ∀ db : Db, (∀ rc log, g.rebuild db deletes ≠ .failed rc log) → ∃ log, g.rebuild db deletes = .finished log ∧ Kept g log

/-- The name that is read from the create of each index is read back from exactly one table, which is not in front of its own. -/
def Group.Found (g : Group) : Prop :=
  ∀ x ∈ g.indices, ∃ i t, g.tables[i]? = some t ∧ x.on ≤ i ∧ readOn x.name.text x.table.text = some (readBack t.name.text) ∧
      ∀ k u, g.tables[k]? = some u → readOn x.name.text x.table.text = some (readBack u.name.text) → k = i

/-! ## Runs -/

namespace RunAux

/-- How a run ends: it fails, or makes every call, or comes to a read that has no result. -/
theorem perform_cases (db : Db) (actions : List Action) : ∀ log : List Call, (∃ rc l, perform db actions log = .failed rc l) ∨
      (∃ calls, actions = calls.map .call ∧ perform db actions log = .finished (log ++ calls)) ∨
      (.broken ∈ actions ∧ ∃ l, perform db actions log = .broken l) := by
  induction actions with
  | nil =>
    intro log
    exact Or.inr (Or.inl ⟨[], rfl, by simp [perform]⟩)
  | cons a actions ih =>
    intro log
    cases a with
    | broken => exact Or.inr (Or.inr ⟨by simp, log, rfl⟩)
    | call c =>
      by_cases hrc : db (log.map Call.sql) c.sql = 0
      · have hstep : perform db (.call c :: actions) log = perform db actions (log ++ [c]) := by
          simp [perform, hrc]
        rw [hstep]
        rcases ih (log ++ [c]) with hfail | ⟨calls, rfl, hend⟩ | ⟨hmem, hend⟩
        · exact Or.inl hfail
        · exact Or.inr (Or.inl ⟨c :: calls, rfl, by simpa using hend⟩)
        · exact Or.inr (Or.inr ⟨by simp [hmem], hend⟩)
      · exact Or.inl ⟨db (log.map Call.sql) c.sql, log ++ [c], by simp [perform, hrc]⟩

/-- A database that takes everything. -/
def takesAll : Db := fun _ _ => 0

theorem perform_takesAll (actions : List Action) : ∀ (log : List Call) (rc : Int) (l : List Call),
    perform takesAll actions log ≠ .failed rc l := by
  induction actions with
  | nil => intro log rc l; simp [perform]
  | cons a actions ih =>
    intro log rc l
    cases a with
    | broken => simp [perform]
    | call c => simpa [perform, takesAll] using ih (log ++ [c]) rc l

/-- The call of an action. -/
def call? : Action → Option Call
  | .call c => some c
  | .broken => none

/-- Whether the readers give the two statements the same table. -/
def Reads (create indexCreate : Text) : Prop :=
  ∃ name, tableNameOfCreate create = some name ∧ tableNameOfIndex indexCreate = some name

theorem reads_iff_eq (create indexCreate : Text) :
    ((tableNameOfCreate create).isSome ∧ tableNameOfCreate create = tableNameOfIndex indexCreate) ↔ Reads create indexCreate := by
  constructor
  · rintro ⟨hsome, heq⟩
    obtain ⟨name, hname⟩ := Option.isSome_iff_exists.mp hsome
    exact ⟨name, hname, heq ▸ hname⟩
  · rintro ⟨name, hcreate, hindex⟩
    exact ⟨by rw [hcreate]; rfl, by rw [hcreate, hindex]⟩

instance (create indexCreate : Text) : Decidable (Reads create indexCreate) := decidable_of_iff _ (reads_iff_eq create indexCreate)

/-- The calls that create a table and its indices. -/
def block (indexList : List Text) (create : Text) : List Call :=
  .createTable create :: (indexList.filter (fun s => Reads create s)).map .createIndex

/-- The calls of the inner loop. -/
theorem calls_indexActions (create name : Text) (hname : tableNameOfCreate create = some name) (il : List Text) :
    (indexActions name il).filterMap call? = (il.filter (fun s => Reads create s)).map .createIndex := by
  induction il with
  | nil => rfl
  | cons s il ih =>
    have hcons : indexActions name (s :: il) = indexActions name [s] ++ indexActions name il := by simp [indexActions]
    rw [hcons, List.filterMap_append, ih, List.filter_cons]
    cases hs : tableNameOfIndex s with
    | none =>
      have hno : ¬ Reads create s := by simp [Reads, hs]
      simp [indexActions, hs, call?, hno]
    | some n =>
      by_cases heq : name = n
      · have hyes : Reads create s := ⟨name, hname, by rw [hs, heq]⟩
        simp [indexActions, hs, call?, hyes, heq]
      · have hno : ¬ Reads create s := by
          rintro ⟨m, hm, hn⟩
          rw [hname] at hm
          rw [hs] at hn
          exact heq (Option.some.inj (hm.trans hn.symm))
        simp [indexActions, hs, call?, hno, heq]

/-- The calls of the loop that creates the tables, where each has a name that can be read. -/
theorem calls_createActions (il : List Text) : ∀ tl : List Text, (∀ t ∈ tl, (tableNameOfCreate t).isSome) →
    (createActions tl il).filterMap call? = tl.flatMap (block il)
  | [] => fun _ => rfl
  | t :: tl => by
    intro hnames
    obtain ⟨name, hname⟩ := Option.isSome_iff_exists.mp (hnames t (by simp))
    have hcons : createActions (t :: tl) il = createActions [t] il ++ createActions tl il := by simp [createActions]
    rw [hcons, List.filterMap_append, calls_createActions il tl fun t ht => hnames t (by simp [ht])]
    simp [createActions, hname, call?, block, calls_indexActions t name hname il]

/-- The calls in front of the creates. -/
def drops (tl dl : List Text) : List Call := (deleteActions dl ++ dropActions tl).filterMap call?

theorem drops_only (tl dl : List Text) : ∀ c ∈ drops tl dl, ∀ s, c ≠ .createTable s ∧ c ≠ .createIndex s := by
  intro c hc s
  simp only [drops, deleteActions, dropActions, List.filterMap_append, List.mem_append, List.mem_filterMap, List.mem_map, List.mem_reverse] at hc
  rcases hc with ⟨a, ⟨t, -, rfl⟩, ha⟩ | ⟨a, ⟨t, -, rfl⟩, ha⟩
  · simp only [Function.comp, call?, Option.some.injEq] at ha
    simp [← ha]
  · cases hn : tableNameOfCreate t with
    | none => simp [hn, call?] at ha
    | some n =>
      simp only [hn, call?, Option.some.injEq] at ha
      simp [← ha]

/-! ## Counting -/

theorem created_block (il : List Text) (tl : List Text) : (tl.flatMap (block il)).filterMap Call.created? = tl := by
  induction tl with
  | nil => rfl
  | cons t tl ih =>
    have hindices : ((il.filter (fun s => Reads t s)).map Call.createIndex).filterMap Call.created? = [] := by
      simp [Call.created?]
    rw [List.flatMap_cons, List.filterMap_append, ih, block, List.filterMap_cons, hindices]
    simp [Call.created?]

variable {s u : Text} {il : List Text}

/-- An index is created once for each table whose name its create is read to be on. -/
theorem count_block (hil : il.Nodup) (hs : s ∈ il) (tl : List Text) :
    (tl.flatMap (block il)).count (.createIndex s) = tl.countP (fun t => Reads t s) := by
  have hinj : Function.Injective Call.createIndex := by
    intro a b h
    exact Call.createIndex.inj h
  induction tl with
  | nil => rfl
  | cons t tl ih =>
    have hhead : (block il t).count (.createIndex s) = if Reads t s then 1 else 0 := by
      rw [block, List.count_cons_of_ne (by simp), List.count_map_of_injective _ _ hinj]
      by_cases hread : Reads t s
      · rw [if_pos hread, List.count_filter (by simpa using hread), List.count_eq_one_of_mem hil hs]
      · rw [if_neg hread, List.count_eq_zero]
        simp [hread]
    rw [List.flatMap_cons, List.count_append, ih, hhead, List.countP_cons]
    simp only [decide_eq_true_eq]
    omega

/-- A predicate holds at one place exactly when it counts one. -/
theorem countP_eq_one_iff (p : Text → Bool) : ∀ l : List Text,
    l.countP p = 1 ↔ ∃ (i : Nat) (t : Text), l[i]? = some t ∧ p t = true ∧ ∀ (k : Nat) (u : Text), l[k]? = some u → p u = true → k = i
  | [] => by simp
  | a :: l => by
    by_cases ha : p a = true
    · rw [List.countP_cons_of_pos ha]
      constructor
      · intro h
        have hzero : ∀ u ∈ l, ¬ p u = true := List.countP_eq_zero.mp (by omega)
        refine ⟨0, a, rfl, ha, ?_⟩
        intro k u hk hu
        cases k with
        | zero => rfl
        | succ k => exact absurd hu (hzero u (List.mem_of_getElem? (by simpa using hk)))
      · rintro ⟨i, t, -, -, huniq⟩
        have hi : 0 = i := huniq 0 a rfl ha
        have hzero : l.countP p = 0 := by
          rw [List.countP_eq_zero]
          intro u hu hpu
          obtain ⟨k, hk⟩ := List.getElem?_of_mem hu
          have := huniq (k + 1) u (by simpa using hk) hpu
          omega
        omega
    · rw [List.countP_cons_of_neg ha, countP_eq_one_iff p l]
      constructor
      · rintro ⟨i, t, hi, ht, huniq⟩
        refine ⟨i + 1, t, by simpa using hi, ht, ?_⟩
        intro k u hk hu
        cases k with
        | zero =>
          simp only [List.getElem?_cons_zero, Option.some.injEq] at hk
          exact absurd (hk ▸ hu) ha
        | succ k => rw [huniq k u (by simpa using hk) hu]
      · rintro ⟨i, t, hi, ht, huniq⟩
        cases i with
        | zero =>
          simp only [List.getElem?_cons_zero, Option.some.injEq] at hi
          exact absurd (hi ▸ ht) ha
        | succ i =>
          refine ⟨i, t, by simpa using hi, ht, ?_⟩
          intro k u hk hu
          have := huniq (k + 1) u (by simpa using hk) hu
          omega

/-! ## Order -/

/-- What first comes up behind a call comes up later. -/
theorem idxOf_lt_of_behind {A B : List Call} {a b : Call} (hb : b ∉ A) (hne : b ≠ a) : (A ++ a :: B).idxOf a < (A ++ a :: B).idxOf b := by
  have hle : (A ++ a :: B).idxOf a ≤ A.length := by
    by_cases ha : a ∈ A
    · rw [List.idxOf_append_of_mem ha]
      exact List.idxOf_le_length
    · rw [List.idxOf_append_of_notMem ha, List.idxOf_cons_self]
      omega
  rw [List.idxOf_append_of_notMem hb, List.idxOf_cons_ne _ (Ne.symm hne)]
  omega

/-- What comes up in a part in front comes up earlier than what does not. -/
theorem idxOf_lt_of_front {A B : List Call} {a b : Call} (hb : b ∈ A) (ha : a ∉ A) : (A ++ B).idxOf b < (A ++ B).idxOf a := by
  rw [List.idxOf_append_of_mem hb, List.idxOf_append_of_notMem ha]
  have := List.idxOf_lt_length_of_mem hb
  omega

theorem createIndex_mem_block (tl : List Text) : .createIndex s ∈ tl.flatMap (block il) ↔ s ∈ il ∧ ∃ t ∈ tl, Reads t s := by
  simp only [List.mem_flatMap, block, List.mem_cons, List.mem_map, List.mem_filter, decide_eq_true_eq]
  constructor
  · rintro ⟨t, ht, h | ⟨s', ⟨hs', hread⟩, heq⟩⟩
    · simp at h
    · obtain rfl := Call.createIndex.inj heq
      exact ⟨hs', t, ht, hread⟩
  · rintro ⟨hs, t, ht, hread⟩
    exact ⟨t, ht, Or.inr ⟨s, ⟨hs, hread⟩, rfl⟩⟩

theorem createTable_mem_block {t : Text} (tl : List Text) : .createTable t ∈ tl.flatMap (block il) ↔ t ∈ tl := by
  simp [List.mem_flatMap, block]

/-- The create of an index that is read to be on the table at `i` alone is behind that of the table at `k` exactly when `i` is not in
front of `k`. -/
theorem idxOf_iff {tl : List Text} {P : List Call} (hP : ∀ c ∈ P, ∀ s, c ≠ .createTable s ∧ c ≠ .createIndex s)
    (htl : tl.Nodup) (hs : s ∈ il) {i k : Nat} {t : Text} (hi : tl[i]? = some t) (hread : Reads t s)
    (huniq : ∀ n v, tl[n]? = some v → Reads v s → n = i) (hk : tl[k]? = some u) :
    (P ++ tl.flatMap (block il)).idxOf (.createTable u) < (P ++ tl.flatMap (block il)).idxOf (.createIndex s) ↔ k ≤ i := by
  obtain ⟨hkl, rfl⟩ := List.getElem?_eq_some_iff.mp hk
  obtain ⟨hil, rfl⟩ := List.getElem?_eq_some_iff.mp hi
  have hPi : Call.createIndex s ∉ P := fun h => (hP _ h s).2 rfl
  have hPt : Call.createTable tl[k] ∉ P := fun h => (hP _ h tl[k]).1 rfl
  constructor
  · intro hlt
    by_contra hgt
    have hsplit : P ++ tl.flatMap (block il) = (P ++ (tl.take (i + 1)).flatMap (block il)) ++ (tl.drop (i + 1)).flatMap (block il) := by
      rw [List.append_assoc, ← List.flatMap_append, List.take_append_drop]
    have hfront : Call.createIndex s ∈ P ++ (tl.take (i + 1)).flatMap (block il) := by
      rw [List.mem_append]
      refine Or.inr ((createIndex_mem_block _).mpr ⟨hs, tl[i], ?_, hread⟩)
      rw [List.mem_take_iff_getElem]
      exact ⟨i, by omega, rfl⟩
    have hbehind : Call.createTable tl[k] ∉ P ++ (tl.take (i + 1)).flatMap (block il) := by
      rw [List.mem_append, createTable_mem_block, List.mem_take_iff_getElem]
      rintro (h | ⟨n, hn, heq⟩)
      · exact hPt h
      · have := (List.Nodup.getElem_inj_iff htl).mp heq
        omega
    rw [hsplit] at hlt
    exact absurd (idxOf_lt_of_front (B := (tl.drop (i + 1)).flatMap (block il)) hfront hbehind) (by omega)
  · intro hle
    have hsplit : P ++ tl.flatMap (block il) = (P ++ (tl.take k).flatMap (block il)) ++
        .createTable tl[k] :: ((il.filter (fun s => Reads tl[k] s)).map .createIndex ++ (tl.drop (k + 1)).flatMap (block il)) := by
      have htl : tl.flatMap (block il) = (tl.take k ++ tl[k] :: tl.drop (k + 1)).flatMap (block il) := by
        rw [← List.drop_eq_getElem_cons hkl, List.take_append_drop]
      rw [htl, List.flatMap_append, List.flatMap_cons, block]
      simp only [List.append_assoc, List.cons_append]
    have hfront : Call.createIndex s ∉ P ++ (tl.take k).flatMap (block il) := by
      rw [List.mem_append, createIndex_mem_block]
      rintro (h | ⟨-, v, hv, hvread⟩)
      · exact hPi h
      · obtain ⟨n, hn, rfl⟩ := List.mem_take_iff_getElem.mp hv
        have := huniq n _ (List.getElem?_eq_getElem (by omega)) hvread
        omega
    rw [hsplit]
    exact idxOf_lt_of_behind hfront (by simp)

/-! ## The texts of a group -/

/-- The word at which tables and indices are split. -/
theorem create_word : "CREATE ".toList = 'C' :: "REATE ".toList := by decide

theorem head_starts (a b : Bool) : "CREATE ".toList <+: tableHead a b ∧ "CREATE ".toList <+: indexHead a b := by
  revert a b
  decide

theorem tableTexts_put (g : Group) : ∀ s ∈ g.tableTexts, "CREATE ".toList <+: s := by
  intro s hs
  obtain ⟨t, -, rfl⟩ := List.mem_map.mp hs
  simp only [Table.create, List.append_assoc]
  exact (head_starts t.isTemp t.ifNotExists).1.trans (List.prefix_append _ _)

/-- A text of the list is the create at its place, with a separator. -/
theorem indexTexts_get : ∀ {l : List Index} {j : Nat} {s : Text}, (indexTexts l)[j]? = some s →
    ∃ x, l[j]? = some x ∧ (s = x.create ++ ";".toList ∨ s = x.create ++ ";\n".toList)
  | [], _, _ => by simp [indexTexts]
  | [x], j, s => by
    intro h
    cases j with
    | zero => exact ⟨x, rfl, Or.inl (by simpa [indexTexts, eq_comm] using h)⟩
    | succ j => simp [indexTexts] at h
  | x :: y :: l, j, s => by
    intro h
    cases j with
    | zero => exact ⟨x, rfl, Or.inr (by simpa [indexTexts, eq_comm] using h)⟩
    | succ j =>
      obtain ⟨z, hz, hs⟩ := indexTexts_get (l := y :: l) (j := j) (s := s) (by simpa [indexTexts] using h)
      exact ⟨z, by simpa using hz, hs⟩

theorem indexTexts_length : ∀ l : List Index, (indexTexts l).length = l.length
  | [] => rfl
  | [_] => rfl
  | x :: y :: l => by
    have ih := indexTexts_length (y :: l)
    simpa [indexTexts] using ih

theorem indexTexts_mem {l : List Index} (h : s ∈ indexTexts l) : ∃ x ∈ l, s = x.create ++ ";".toList ∨ s = x.create ++ ";\n".toList := by
  obtain ⟨j, hj⟩ := List.getElem?_of_mem h
  obtain ⟨x, hx, hs⟩ := indexTexts_get hj
  exact ⟨x, List.mem_of_getElem? hx, hs⟩

theorem indexTexts_put (l : List Index) : ∀ s ∈ indexTexts l, "CREATE ".toList <+: s := by
  intro s hs
  obtain ⟨x, -, rfl | rfl⟩ := indexTexts_mem hs <;>
  · simp only [Index.create, List.append_assoc]
    exact (head_starts x.isUnique x.ifNotExists).2.trans (List.prefix_append _ _)

/-- Only the last text of the list ends in a semicolon. -/
theorem indexTexts_last : ∀ l : List Index, (∀ s ∈ (indexTexts l).dropLast, s.getLast? = some '\n') ∧
    (l ≠ [] → (indexTexts l).flatten.getLast? = some ';')
  | [] => by simp [indexTexts]
  | [x] => by simp [indexTexts]
  | x :: y :: l => by
    obtain ⟨hinit, hlast⟩ := indexTexts_last (y :: l)
    have hne : indexTexts (y :: l) ≠ [] := by
      intro h
      have := indexTexts_length (y :: l)
      simp [h] at this
    constructor
    · intro s hs
      rw [indexTexts, List.dropLast_cons_of_ne_nil hne, List.mem_cons] at hs
      rcases hs with rfl | hs
      · exact List.getLast?_append_of_ne_nil _ (by simp)
      · exact hinit s hs
    · intro _
      have hsome := hlast (by simp)
      rw [indexTexts, List.flatten_cons, List.getLast?_append_of_ne_nil, hsome]
      intro h
      simp [h] at hsome

theorem tableTexts_nodup (g : Group) : g.tableTexts.Nodup := by
  have hmap : g.tableTexts = (g.tables.map Table.create).map (· ++ "; ".toList) := by simp [Group.tableTexts]
  rw [hmap]
  exact g.tablesNodup.map fun a b h => List.append_cancel_right h

theorem indexTexts_nodup : ∀ {l : List Index}, (l.map Index.create).Nodup → (indexTexts l).Nodup
  | [] => fun _ => List.nodup_nil
  | [_] => fun _ => List.nodup_singleton _
  | x :: y :: l => by
    intro h
    rw [List.map_cons, List.nodup_cons] at h
    rw [indexTexts, List.nodup_cons]
    refine ⟨?_, indexTexts_nodup h.2⟩
    intro hmem
    obtain ⟨z, hz, heq | heq⟩ := indexTexts_mem hmem
    · have hlast := congrArg List.getLast? heq
      rw [List.getLast?_append_of_ne_nil _ (by simp), List.getLast?_append_of_ne_nil _ (by simp)] at hlast
      exact absurd hlast (by decide)
    · exact h.1 (List.mem_map.mpr ⟨z, hz, (List.append_cancel_right heq).symm⟩)

theorem group_nodup (g : Group) : g.indexTexts.Nodup := indexTexts_nodup g.indicesNodup

theorem tableTexts_get {g : Group} {i : Nat} : g.tableTexts[i]? = some u ↔ ∃ t, g.tables[i]? = some t ∧ u = t.create ++ "; ".toList := by
  rw [Group.tableTexts, List.getElem?_map, Option.map_eq_some_iff]
  constructor
  · rintro ⟨t, ht, hu⟩
    exact ⟨t, ht, hu.symm⟩
  · rintro ⟨t, ht, hu⟩
    exact ⟨t, ht, hu.symm⟩

/-- What the readers make of a table and an index of the group. -/
theorem reads_iff {t : Table} {x : Index} (hs : s = x.create ++ ";".toList ∨ s = x.create ++ ";\n".toList) :
    Reads (t.create ++ "; ".toList) s ↔ readOn x.name.text x.table.text = some (readBack t.name.text) := by
  have hread : tableNameOfIndex s = readOn x.name.text x.table.text := by
    rcases hs with rfl | rfl
    · exact tableNameOfIndex_eq x _
    · exact tableNameOfIndex_eq x _
  simp only [Reads, tableNameOfCreate_eq, hread, Option.some.injEq]
  constructor
  · rintro ⟨n, rfl, hn⟩
    exact hn
  · intro hn
    exact ⟨_, rfl, hn⟩

theorem created_drops (tl dl : List Text) : (drops tl dl).filterMap Call.created? = [] := by
  rw [List.filterMap_eq_nil_iff]
  intro c hc
  have hno := drops_only _ _ c hc
  cases c with
  | createTable s => exact absurd rfl (hno s).1
  | delete s => rfl
  | dropTable s => rfl
  | createIndex s => rfl

end RunAux

open RunAux

/-! ## Recreate groups keep their indices -/

/-- The calls that a run makes which makes them all. -/
def Group.calls (g : Group) (deletes : Text) : List Call :=
  drops g.tableTexts (statementList "DROP ".toList deletes) ++ g.tableTexts.flatMap (block g.indexTexts)

theorem created_calls (g : Group) (deletes : Text) : (g.calls deletes).filterMap Call.created? = g.tableTexts := by
  rw [Group.calls, List.filterMap_append, created_drops, created_block, List.nil_append]

/-- How often the create of an index is among the calls, and where. -/
theorem count_calls (g : Group) (deletes : Text) (hs : s ∈ g.indexTexts) :
    (g.calls deletes).count (.createIndex s) = g.tableTexts.countP (fun t => Reads t s) := by
  have hdrops : (drops g.tableTexts (statementList "DROP ".toList deletes)).count (.createIndex s) = 0 := by
    rw [List.count_eq_zero]
    intro h
    exact (drops_only _ _ _ h s).2 rfl
  rw [Group.calls, List.count_append, hdrops, count_block (group_nodup g) hs, Nat.zero_add]

/-- When the create of one index is executed once, and behind that of its table. -/
theorem kept_index_iff (g : Group) (deletes : Text) {x : Index} (hs : s ∈ g.indexTexts)
    (hform : s = x.create ++ ";".toList ∨ s = x.create ++ ";\n".toList) (hu : g.tableTexts[x.on]? = some u) :
    ((g.calls deletes).count (.createIndex s) = 1 ∧ (g.calls deletes).idxOf (.createTable u) < (g.calls deletes).idxOf (.createIndex s)) ↔
      ∃ i t, g.tables[i]? = some t ∧ x.on ≤ i ∧ readOn x.name.text x.table.text = some (readBack t.name.text) ∧
        ∀ k v, g.tables[k]? = some v → readOn x.name.text x.table.text = some (readBack v.name.text) → k = i := by
  rw [count_calls g deletes hs, countP_eq_one_iff]
  constructor
  · rintro ⟨⟨i, w, hi, hread, huniq⟩, hlt⟩
    have hread : Reads w s := by simpa using hread
    have hle := (idxOf_iff (drops_only _ _) (tableTexts_nodup g) hs hi hread (fun n v hn hv => huniq n v hn (by simpa using hv)) hu).mp hlt
    obtain ⟨t, ht, rfl⟩ := tableTexts_get.mp hi
    refine ⟨i, t, ht, hle, (reads_iff hform).mp hread, ?_⟩
    intro k v hk hv
    exact huniq k _ (tableTexts_get.mpr ⟨v, hk, rfl⟩) (by simpa using (reads_iff hform).mpr hv)
  · rintro ⟨i, t, ht, hle, hread, huniq⟩
    have hi : g.tableTexts[i]? = some (t.create ++ "; ".toList) := tableTexts_get.mpr ⟨t, ht, rfl⟩
    have hread := (reads_iff hform).mpr hread
    have honly : ∀ n v, g.tableTexts[n]? = some v → Reads v s → n = i := by
      intro n v hn hv
      obtain ⟨w, hw, rfl⟩ := tableTexts_get.mp hn
      exact huniq n w hw ((reads_iff hform).mp hv)
    refine ⟨⟨i, _, hi, by simpa using hread, fun n v hn hv => honly n v hn (by simpa using hv)⟩, ?_⟩
    exact (idxOf_iff (drops_only _ _) (tableTexts_nodup g) hs hi hread honly hu).mpr hle

/-- What a log of all the calls of the group keeps. -/
theorem kept_iff (g : Group) (deletes : Text) : Kept g (g.calls deletes) ↔ g.Found := by
  constructor
  · intro hkept x hx
    obtain ⟨j, hj⟩ := List.getElem?_of_mem hx
    obtain ⟨t, ht, -⟩ := g.onTable x hx
    have hlen : j < g.indexTexts.length := by
      rw [Group.indexTexts, indexTexts_length]
      exact (List.getElem?_eq_some_iff.mp hj).1
    have hs := List.getElem?_eq_getElem hlen
    obtain ⟨x', hx', hform⟩ := indexTexts_get hs
    obtain rfl : x = x' := Option.some.inj (hj.symm.trans hx')
    have hu := tableTexts_get.mpr ⟨t, ht, rfl⟩
    exact (kept_index_iff g deletes (List.getElem_mem hlen) hform hu).mp (hkept.indices j x _ _ hj hs hu)
  · intro hfound
    refine ⟨created_calls g deletes, ?_⟩
    intro j x s u hj hs hu
    obtain ⟨x', hx', hform⟩ := indexTexts_get hs
    obtain rfl : x = x' := Option.some.inj (hj.symm.trans hx')
    exact (kept_index_iff g deletes (List.mem_of_getElem? hs) hform hu).mpr (hfound x (List.mem_of_getElem? hj))

/-- The splitting of the tables and of the indices. -/
theorem tableList_eq_iff (g : Group) : statementList "CREATE ".toList g.tableTexts.flatten = g.tableTexts ↔ Whole "CREATE ".toList g.tableTexts :=
  statementList_eq_iff create_word (by decide) (by decide) create_borderless (tableTexts_put g)

theorem indexList_eq_iff (g : Group) : statementList "CREATE ".toList g.indexTexts.flatten = g.indexTexts ↔ Whole "CREATE ".toList g.indexTexts :=
  statementList_eq_iff create_word (by decide) (by decide) create_borderless (indexTexts_put g.indices)

/-- The actions of a rebuild. -/
def actions (tl il dl : List Text) : List Action := deleteActions dl ++ dropActions tl ++ createActions tl il

/-- Actions without a broken read: every name of a table can be read. -/
theorem names_of_calls {calls : List Call} (h : actions tl il dl = calls.map .call) :
    (∀ t ∈ tl, (tableNameOfCreate t).isSome) ∧ calls = drops tl dl ++ tl.flatMap (block il) := by
  have hnames : ∀ t ∈ tl, (tableNameOfCreate t).isSome := by
    intro t ht
    by_contra hno
    have hnone : tableNameOfCreate t = none := by simpa using hno
    have hmem : Action.broken ∈ actions tl il dl := by
      simp only [actions, dropActions, List.mem_append, List.mem_map, List.mem_reverse]
      exact Or.inl (Or.inr ⟨t, ht, by rw [hnone]⟩)
    rw [h] at hmem
    simp at hmem
  refine ⟨hnames, ?_⟩
  have hcalls : calls = (actions tl il dl).filterMap call? := by
    rw [h, List.filterMap_map]
    exact (List.filterMap_some (l := calls)).symm
  rw [hcalls, actions, List.filterMap_append, calls_createActions il tl hnames, drops]

/-- No read is broken where the names of all tables and indices can be read. -/
theorem not_broken (htl : ∀ t ∈ tl, (tableNameOfCreate t).isSome)
    (hil : ∀ s ∈ il, (tableNameOfIndex s).isSome) : Action.broken ∉ actions tl il dl := by
  intro hmem
  simp only [actions, deleteActions, dropActions, createActions, indexActions, List.mem_append, List.mem_map, List.mem_reverse,
    List.mem_flatMap, List.mem_cons] at hmem
  rcases hmem with (⟨t, -, h⟩ | ⟨t, ht, h⟩) | ⟨t, ht, h | h⟩
  · simp at h
  · obtain ⟨n, hn⟩ := Option.isSome_iff_exists.mp (htl t ht)
    simp [hn] at h
  · simp at h
  · obtain ⟨n, hn⟩ := Option.isSome_iff_exists.mp (htl t ht)
    simp only [hn, List.mem_flatMap] at h
    obtain ⟨s, hs, h⟩ := h
    obtain ⟨m, hm⟩ := Option.isSome_iff_exists.mp (hil s hs)
    simp only [hm] at h
    split at h <;> simp at h

/-- An index whose create is executed is a piece of the text of the indices. -/
theorem mem_of_kept (h : Kept g (drops tl dl ++ tl.flatMap (block il))) : ∀ s ∈ g.indexTexts, s ∈ il := by
  intro s hs
  obtain ⟨j, hj⟩ := List.getElem?_of_mem hs
  obtain ⟨x, hx, -⟩ := indexTexts_get hj
  obtain ⟨t, ht, -⟩ := g.onTable x (List.mem_of_getElem? hx)
  obtain ⟨hcount, -⟩ := h.indices j x s _ hx hj (tableTexts_get.mpr ⟨t, ht, rfl⟩)
  have hmem : Call.createIndex s ∈ drops tl dl ++ tl.flatMap (block il) := List.count_pos_iff.mp (by omega)
  rcases List.mem_append.mp hmem with h | h
  · exact absurd rfl (drops_only _ _ _ h s).2
  · exact ((createIndex_mem_block tl).mp h).1

/-- The indices are whole where each is a piece of their text. -/
theorem indices_whole (h : ∀ s ∈ g.indexTexts, s ∈ statementList "CREATE ".toList g.indexTexts.flatten) :
    Whole "CREATE ".toList g.indexTexts := by
  refine whole_of_mem create_word (by decide) (by decide) (indexTexts_put g.indices) ?_ h
  intro s hs
  have hne : g.indices ≠ [] := by
    intro hnil
    rw [Group.indexTexts, hnil] at hs
    simp [indexTexts] at hs
  obtain ⟨hinit, hlast⟩ := indexTexts_last g.indices
  rw [hinit s hs, Group.indexTexts, hlast hne]
  decide

/-- The names of all statements of a group can be read where each index is found. -/
theorem group_not_broken (hfound : g.Found) (dl : List Text) : Action.broken ∉ actions g.tableTexts g.indexTexts dl := by
  refine not_broken ?_ ?_
  · intro u hu
    obtain ⟨t, -, rfl⟩ := List.mem_map.mp hu
    rw [tableNameOfCreate_eq]
    rfl
  · intro s hs
    obtain ⟨x, hx, hform⟩ := indexTexts_mem hs
    obtain ⟨i, t, -, -, hread, -⟩ := hfound x hx
    obtain ⟨n, -, hn⟩ := (reads_iff hform).mpr hread
    rw [hn]
    rfl

/-- A rebuild keeps every table and index of a group, whatever is deleted, exactly when the splitting leaves the statements whole
and the name that is read from the create of each index is that of one table, which is not in front of the index's own. -/
theorem rebuild_keeps_iff (g : Group) (deletes : Text) :
    g.Keeps deletes ↔ Whole "CREATE ".toList g.tableTexts ∧ Whole "CREATE ".toList g.indexTexts ∧ g.Found := by
  have hrun : ∀ db, g.rebuild db deletes = perform db (actions (statementList "CREATE ".toList g.tableTexts.flatten)
      (statementList "CREATE ".toList g.indexTexts.flatten) (statementList "DROP ".toList deletes)) [] := fun _ => rfl
  constructor
  · intro hkeeps
    obtain ⟨log, hend, hkept⟩ := hkeeps takesAll fun rc log => perform_takesAll _ [] rc log
    have hcases := perform_cases takesAll (actions (statementList "CREATE ".toList g.tableTexts.flatten)
      (statementList "CREATE ".toList g.indexTexts.flatten) (statementList "DROP ".toList deletes)) []
    rw [← hrun, hend] at hcases
    rcases hcases with ⟨rc, l, hfail⟩ | ⟨calls, hactions, hdone⟩ | ⟨-, l, hbroken⟩
    · exact absurd hfail Outcome.noConfusion
    · obtain rfl : log = calls := Outcome.finished.inj hdone
      obtain ⟨-, hcalls⟩ := names_of_calls hactions
      have htables : statementList "CREATE ".toList g.tableTexts.flatten = g.tableTexts := by
        have hcreated := hkept.tables
        rwa [hcalls, List.filterMap_append, created_drops, created_block, List.nil_append] at hcreated
      have hwhole : Whole "CREATE ".toList g.indexTexts := indices_whole (mem_of_kept (hcalls ▸ hkept))
      rw [htables, (indexList_eq_iff g).mpr hwhole] at hcalls
      exact ⟨(tableList_eq_iff g).mp htables, hwhole, (kept_iff g deletes).mp (by rw [Group.calls, ← hcalls]; exact hkept)⟩
    · exact absurd hbroken Outcome.noConfusion
  · rintro ⟨htables, hindices, hfound⟩ db hdb
    have hcases := perform_cases db (actions g.tableTexts g.indexTexts (statementList "DROP ".toList deletes)) []
    have hlists := hrun db
    rw [(tableList_eq_iff g).mpr htables, (indexList_eq_iff g).mpr hindices] at hlists
    rw [← hlists] at hcases
    rcases hcases with ⟨rc, l, hfail⟩ | ⟨calls, hactions, hdone⟩ | ⟨hbroken, -⟩
    · exact absurd hfail (hdb rc l)
    · obtain ⟨-, hcalls⟩ := names_of_calls hactions
      refine ⟨calls, hdone, ?_⟩
      rw [hcalls]
      exact (kept_iff g deletes).mpr hfound
    · exact absurd hbroken (group_not_broken hfound _)

def tName : Name := .plain ['t'] (by decide)

/-- A table `t` with an index `idxON`. -/
def lostIndex : Group where
  tables := [⟨false, false, tName, "  id INTEGER".toList, false⟩]
  indices := [⟨false, false, .plain ['i', 'd', 'x', 'O', 'N'] (by decide), 0, tName, "id".toList, none⟩]
  onTable := by
    intro x hx
    rw [List.mem_singleton] at hx
    subst hx
    exact ⟨_, rfl, rfl⟩
  tablesNodup := by decide
  indicesNodup := by decide

/-- The index of a table is not created when its name ends in `ON`: the table is then read to be `ON t`. -/
theorem rebuild_keeps_false : ¬ lostIndex.Keeps [] := by
  intro hkeeps
  obtain ⟨log, hend, hkept⟩ := hkeeps takesAll fun rc log => perform_takesAll _ [] rc log
  have hrun : lostIndex.rebuild takesAll [] = .finished [.dropTable "t".toList, .createTable "CREATE TABLE t(\n  id INTEGER\n); ".toList] := by
    decide
  rw [hrun, Outcome.finished.injEq] at hend
  have hindex : lostIndex.indexTexts[0]? = some "CREATE INDEX idxON ON t (id);".toList := by decide
  have htable : lostIndex.tableTexts[0]? = some "CREATE TABLE t(\n  id INTEGER\n); ".toList := by decide
  have hcount := (hkept.indices 0 _ _ _ rfl hindex htable).1
  rw [← hend] at hcount
  revert hcount
  decide

end CgSql.Rebuild
