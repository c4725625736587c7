import CgSql.Cascade
import CgSql.Theorems.Recreate
import Mathlib.Data.List.Pairwise

/-!
# Dropped groups are created again

Where a virtual table depends on a table that is not, or the other way round, a group is dropped after its turn. Where all that depends on a
group is updated in the same procedure, the marks on the direct dependents carry the loss along the graph: a group that is lost is not up to
date when its turn comes.
-/

namespace CgSql.Recreate

open Cascade (Edge Acyclic Numbering Updates)
open Relation (TransGen ReflTransGen)

namespace RecreateAux

/-! ## Names -/

theorem toLower_append (a b : String) : (a ++ b).toLower = a.toLower ++ b.toLower := by
  change (a ++ b).map _ = a.map _ ++ b.map _
  simp [← String.toList_inj]

theorem append_left_inj {a b c : String} (h : a ++ c = b ++ c) : a = b := by
  have hl := congrArg String.toList h
  rw [String.toList_append, String.toList_append] at hl
  exact String.toList_inj.mp (List.append_cancel_right hl)

/-- Names with different endings of one length are different. -/
theorem append_ne {a b c d : String} (hlen : c.length = d.length) (hne : c ≠ d) : a ++ c ≠ b ++ d := by
  intro h
  have hl := congrArg String.toList h
  rw [String.toList_append, String.toList_append] at hl
  exact hne (String.toList_inj.mp (List.append_inj_right' hl (by rwa [String.length_toList, String.length_toList])))

theorem facet_eq (n : Note) : n.facet = n.createGroupId ++ "_crc" := by
  unfold Note.facet Note.createGroupId
  split <;> simp [String.append_assoc]

/-- The endings of the names of groups and tables, and of the other facets. -/
theorem endings : ("_group".toLower.length = "_table".toLower.length ∧ "_group".toLower ≠ "_table".toLower) ∧
    ∀ b ∈ ["tables_crc", "schema_crc", "no_virtual"],
      "_group_crc".length = b.length ∧ "_table_crc".length = b.length ∧ "_group_crc" ≠ b ∧ "_table_crc" ≠ b := by
  decide +kernel

/-- The symbol tables tell groups apart as the annotations do. -/
theorem node_eq_iff {a b : Note} : a.node = b.node ↔ a.key = b.key := by
  have hending : ∀ s t : String, s ++ "_group".toLower ≠ t ++ "_table".toLower := by
    intro s t
    exact append_ne endings.1.1 endings.1.2
  unfold Note.node Note.key Note.createGroupId
  by_cases ha : a.groupName = "" <;> by_cases hb : b.groupName = "" <;>
    simp only [ha, hb, ne_eq, not_true, not_false_eq_true, if_true, if_false, toLower_append, GroupKey.group.injEq,
      GroupKey.table.injEq, reduceCtorEq, iff_false]
  · exact ⟨append_left_inj, fun h => by rw [h]⟩
  · exact fun h => hending _ _ h.symm
  · exact hending _ _
  · exact ⟨append_left_inj, fun h => by rw [h]⟩

/-! ## Numbers -/

theorem exists_of_next {deps : GroupDeps} {k g : String} (h : g ∈ deps.next k) :
    ∃ entry ∈ deps, entry.1.toLower = k ∧ g ∈ entry.2.map String.toLower := by
  unfold GroupDeps.next GroupDeps.find at h
  cases hf : deps.find? fun entry => entry.1.toLower = k with
  | none => simp [hf] at h
  | some entry =>
    rw [hf] at h
    exact ⟨entry, List.mem_of_find?_eq_some hf, by simpa using List.find?_some hf, h⟩

theorem mem_slots {deps : GroupDeps} {k : String} (h : deps.next k ≠ []) : k ∈ deps.map fun entry => entry.1.toLower := by
  obtain ⟨g, hg⟩ := List.exists_mem_of_ne_nil _ h
  obtain ⟨entry, hmem, hk, -⟩ := exists_of_next hg
  exact List.mem_map.mpr ⟨entry, hmem, hk⟩

variable {next : String → List String}

/-- The last loop keeps the numbers of the walk, and goes on with groups that nothing depends on. -/
theorem numberNotes_spec {s : Numbering String} (h : s.Topological next) (notes : List Note)
    (hleaf : ∀ n ∈ notes, s.ordinal n.node = none → next n.node = []) :
    ∃ s' : Numbering String, s'.Topological next ∧ (∀ {c k}, s.ordinal c = some k → s'.ordinal c = some k) ∧
      ∀ n ∈ numberNotes s notes, ∃ k : Nat, s'.ordinal n.node = some k ∧ n.groupOrdinal = k := by
  induction notes generalizing s with
  | nil => exact ⟨s, h, id, by simp [numberNotes]⟩
  | cons n rest ih =>
    unfold numberNotes
    cases hn : s.ordinal n.node with
    | some k =>
      obtain ⟨s', h', hkeep, hall⟩ := ih h fun m hm => hleaf m (by simp [hm])
      refine ⟨s', h', hkeep, ?_⟩
      intro m hm
      rcases List.mem_cons.mp hm with rfl | hm
      · exact ⟨k, hkeep hn, rfl⟩
      · exact hall m hm
    | none =>
      have hnext := hleaf n (by simp) hn
      have hassign := Numbering.topological_assign h hn (by simp [hnext])
      have hkept : ∀ {c k}, s.ordinal c = some k → (s.assign n.node).ordinal c = some k := by
        intro c k hc
        have hne : c ≠ n.node := by
          rintro rfl
          rw [hn] at hc
          cases hc
        simp [Numbering.assign, hne, hc]
      obtain ⟨s', h', hkeep, hall⟩ := ih hassign (by
        intro m hm hnone
        refine hleaf m (by simp [hm]) ?_
        cases hs : s.ordinal m.node with
        | none => rfl
        | some k => rw [hkept hs] at hnone; cases hnone)
      refine ⟨s', h', fun hc => hkeep (hkept hc), ?_⟩
      intro m hm
      rcases List.mem_cons.mp hm with rfl | hm
      · exact ⟨s.count, hkeep (by simp [Numbering.assign, Note.node, Note.createGroupId]), rfl⟩
      · exact hall m hm

/-- Only the numbers of the annotations change. -/
theorem map_numberNotes (s : Numbering String) (notes : List Note) :
    (numberNotes s notes).map (fun n => { n with groupOrdinal := 0 }) = notes.map fun n => { n with groupOrdinal := 0 } := by
  induction notes generalizing s with
  | nil => rfl
  | cons n rest ih =>
    unfold numberNotes
    split <;> simp [ih]

end RecreateAux

open RecreateAux

namespace Plan.Generated

variable {p : Plan} {groups : List String} {declared : List Note}

/-- The numbers of the groups go down along the dependencies. -/
theorem numbered (h : p.Generated groups declared) :
    ∃ s : Numbering String, s.Topological p.deps.next ∧ ∀ n ∈ p.notes, ∃ k : Nat, s.ordinal n.node = some k ∧ n.groupOrdinal = k := by
  have hslots : ∀ a, p.deps.next a ≠ [] → a ∈ groups := by
    intro a ha
    obtain ⟨entry, hmem, rfl⟩ := List.mem_map.mp (mem_slots ha)
    exact h.slots entry hmem
  obtain ⟨htop, -, hall⟩ := @Numbering.topological_visitAll _ _ _ _ _ h.acyclic hslots groups Numbering.topological_empty
  obtain ⟨s, hs, -, hnotes⟩ := numberNotes_spec htop declared (by
    intro n _ hnone
    by_contra hne
    have hsome := hall n.node (hslots _ hne)
    rw [hnone] at hsome
    cases hsome)
  exact ⟨s, hs, fun n hn => hnotes n (h.perm.mem_iff.mp hn)⟩

theorem names (h : p.Generated groups declared) : p.notes.Pairwise fun a₁ a₂ => a₁.tableName.toLower ≠ a₂.tableName.toLower := by
  rw [h.perm.pairwise_iff fun hne => hne.symm, topologicalWalk]
  have hd := h.distinct
  rw [← List.pairwise_map (f := fun n : Note => { n with groupOrdinal := 0 })
    (R := fun a₁ a₂ : Note => a₁.tableName.toLower ≠ a₂.tableName.toLower)] at hd ⊢
  rwa [map_numberNotes]

/-- A table has a name of its own. -/
theorem eq_of_name (h : p.Generated groups declared) {a b : Note} (ha : a ∈ p.notes) (hb : b ∈ p.notes)
    (he : a.tableName.toLower = b.tableName.toLower) : a = b := by
  by_contra hne
  have : Std.Symm fun a₁ a₂ : Note => a₁.tableName.toLower ≠ a₂.tableName.toLower := ⟨fun _ _ h => h.symm⟩
  exact h.names.forall ha hb hne he

theorem virtual_ungrouped (h : p.Generated groups declared) {n : Note} (hn : n ∈ p.notes) (hv : n.isVirtual = true) : n.groupName = "" := by
  have hmem := List.mem_map_of_mem (f := fun n : Note => { n with groupOrdinal := 0 }) (h.perm.mem_iff.mp hn)
  rw [topologicalWalk, map_numberNotes] at hmem
  obtain ⟨m, hm, he⟩ := List.mem_map.mp hmem
  have hv' : m.isVirtual = true := by
    have := congrArg Note.isVirtual he
    simpa [hv] using this
  have := congrArg Note.groupName he
  simpa [h.ungrouped m hm hv'] using this.symm

/-- The tables of a group are all virtual or none is. -/
theorem virtual_of_key (h : p.Generated groups declared) {a b : Note} (ha : a ∈ p.notes) (hb : b ∈ p.notes) (hkey : a.key = b.key) :
    a.isVirtual = b.isVirtual := by
  have hone : ∀ {a b : Note}, a ∈ p.notes → b ∈ p.notes → a.key = b.key → a.isVirtual = true → b.isVirtual = true := by
    intro a b ha hb hkey hv
    have hg := h.virtual_ungrouped ha hv
    unfold Note.key at hkey
    rw [if_neg (by simpa using hg)] at hkey
    split at hkey
    · cases hkey
    · rw [← h.eq_of_name ha hb (GroupKey.table.inj hkey), hv]
  cases hav : a.isVirtual <;> cases hbv : b.isVirtual <;> try rfl
  · rw [hone hb ha hkey.symm hbv] at hav
    exact hav.symm
  · rw [hone ha hb hkey hav] at hbv
    exact hbv

/-- The annotations of a plan are sorted by groups. -/
theorem sorted (h : p.Generated groups declared) : Sorted p.notes where
  inOrder := h.inOrder
  numbered := by
    intro a ha b hb
    obtain ⟨s, hs, hn⟩ := h.numbered
    obtain ⟨i, hi, hai⟩ := hn a ha
    obtain ⟨j, hj, hbj⟩ := hn b hb
    rw [hai, hbj, ← node_eq_iff, Int.natCast_inj]
    constructor
    · rintro rfl
      exact hs.inj hi hj
    · intro he
      rw [he, hj] at hi
      exact (Option.some.inj hi).symm
  distinct := by
    refine h.names.imp ?_
    intro a b hne hg
    unfold Note.key
    rw [if_neg (by simpa using hg)]
    split
    · simp
    · simpa using hne

end Plan.Generated

/-! ## Updates of groups -/

namespace RecreateAux

/-- Where every group ends in scope, a batch has the tables of its group that are in scope, the batches are in the order of the numbers, and
every table in scope is in one. -/
theorem batches_spec {regions : Regions} (notes : List Note) (h : Sorted notes) (hends : EndsInScope regions notes) :
    (∀ t ∈ batches regions [] notes, ∀ n, n ∈ t.members ↔ n ∈ notes ∧ n.included regions = true ∧ n.key = t.last.key) ∧
      (batches regions [] notes).Pairwise (fun t₁ t₂ => t₂.last.groupOrdinal < t₁.last.groupOrdinal) ∧
      ∀ n ∈ notes, n.included regions = true → ∃ t ∈ batches regions [] notes, t.last.key = n.key := by
  revert hends
  induction notes, h using sorted_induction with
  | nil => intro _; exact ⟨by simp [batches], by simp [batches], by simp⟩
  | group init last rest h hinit hrest ih =>
    intro hends
    rw [endsInScope_group hinit hrest] at hends
    obtain ⟨hmembers, hpairwise, hall⟩ := ih hends.2
    have hlast : ∀ t ∈ batches regions [] rest, t.last ∈ rest := by
      intro t ht
      exact ((hmembers t ht t.last).mp (by simp [Batch.members])).1
    have hmembers' : ∀ t ∈ batches regions [] rest, ∀ n,
        n ∈ t.members ↔ n ∈ init ++ last :: rest ∧ n.included regions = true ∧ n.key = t.last.key := by
      intro t ht n
      rw [hmembers t ht n]
      constructor
      · rintro ⟨hn, hi⟩
        exact ⟨by simp [hn], hi⟩
      · rintro ⟨hn, hi, hk⟩
        have hne := hrest t.last (hlast t ht)
        rw [List.mem_append, List.mem_cons] at hn
        rcases hn with hn | rfl | hn
        · exact absurd (hk.symm.trans (hinit n hn)) hne
        · exact absurd hk.symm hne
        · exact ⟨hn, hi, hk⟩
    rw [batches_group h hinit hrest]
    split
    · rename_i hl
      refine ⟨?_, ?_, ?_⟩
      · intro t ht n
        rcases List.mem_cons.mp ht with rfl | ht
        · simp only [Batch.members, List.nil_append, List.mem_append, List.mem_filter, List.mem_cons, List.not_mem_nil, or_false]
          constructor
          · rintro (⟨hn, hi⟩ | rfl)
            · exact ⟨.inl hn, hi, hinit n hn⟩
            · exact ⟨.inr (.inl rfl), hl, rfl⟩
          · rintro ⟨hn | rfl | hn, hi, hk⟩
            · exact .inl ⟨hn, hi⟩
            · exact .inr rfl
            · exact absurd hk (hrest n hn)
        · exact hmembers' t ht n
      · refine List.pairwise_cons.mpr ⟨?_, hpairwise⟩
        intro t ht
        change t.last.groupOrdinal < last.groupOrdinal
        have hmem := hlast t ht
        have hord := (List.pairwise_cons.mp (List.pairwise_append.mp h.inOrder).2.1).1 t.last hmem
        have hne : last.groupOrdinal ≠ t.last.groupOrdinal := by
          intro he
          exact hrest t.last hmem (((h.numbered last (by simp) t.last (by simp [hmem])).mp he).symm)
        unfold recreateComparator at hord
        rw [if_pos hne] at hord
        split at hord <;> omega
      · intro n hn hi
        rw [List.mem_append, List.mem_cons] at hn
        rcases hn with hn | rfl | hn
        · exact ⟨_, List.mem_cons_self, (hinit n hn).symm⟩
        · exact ⟨_, List.mem_cons_self, rfl⟩
        · obtain ⟨t, ht, hk⟩ := hall n hn hi
          exact ⟨t, by simp [ht], hk⟩
    · rename_i hl
      have hnone : ∀ n ∈ init, n.included regions = true → False := fun n hn hi => hl (hends.1 ⟨n, hn, hi⟩)
      have hwaiting : init.filter (fun n => n.included regions) = [] := List.filter_eq_nil_iff.mpr hnone
      rw [hwaiting]
      refine ⟨hmembers', hpairwise, ?_⟩
      intro n hn hi
      rw [List.mem_append, List.mem_cons] at hn
      rcases hn with hn | rfl | hn
      · exact (hnone n hn hi).elim
      · exact absurd hi hl
      · exact hall n hn hi

end RecreateAux

/-! ## Databases -/

namespace Db

variable (db : Db) (ns : List Note) (n : Note)

@[simp] theorem facets_dropTables : (db.dropTables ns).facets = db.facets := by
  induction ns with
  | nil => rfl
  | cons m ns ih => simpa [dropTables, drop] using ih

@[simp] theorem facets_createTables : (db.createTables ns).facets = db.facets := by
  induction ns generalizing db with
  | nil => rfl
  | cons m ns ih => exact ih (db.create m.tableName)

@[simp] theorem facets_rebuildRecreateGroup (t : Batch) : (rebuildRecreateGroup db t).facets = db.facets := by
  simp [rebuildRecreateGroup]

@[simp] theorem has_setFacet (facet : String) (version : Int) : (db.setFacet facet version).Has n ↔ db.Has n := Iff.rfl

theorem has_dropTables : (db.dropTables ns).Has n ↔ db.Has n ∧ ∀ m ∈ ns, m.tableName.toLower ≠ n.tableName.toLower := by
  induction ns with
  | nil => simp [dropTables]
  | cons m ns ih =>
    have hstep : (db.dropTables (m :: ns)).Has n ↔ (db.dropTables ns).Has n ∧ m.tableName.toLower ≠ n.tableName.toLower := by
      simp [dropTables, drop, Has, ne_comm]
    rw [hstep, ih, List.forall_mem_cons]
    tauto

theorem has_createTables : (db.createTables ns).Has n ↔ db.Has n ∨ ∃ m ∈ ns, m.tableName.toLower = n.tableName.toLower := by
  induction ns generalizing db with
  | nil => simp [createTables]
  | cons m ns ih =>
    have hstep : (db.create m.tableName).Has n ↔ db.Has n ∨ m.tableName.toLower = n.tableName.toLower := by
      simp [create, Has, or_comm, eq_comm]
    rw [createTables, List.foldl_cons, ← createTables, ih, hstep, List.exists_mem_cons_iff, or_assoc]

/-- What is there after the tables of a batch are dropped and created. -/
theorem has_rebuildRecreateGroup (t : Batch) : (rebuildRecreateGroup db t).Has n ↔
    (db.Has n ∧ ∀ m ∈ t.members, m.tableName.toLower ≠ n.tableName.toLower) ∨
      ∃ m ∈ t.members, m.deleted = false ∧ m.tableName.toLower = n.tableName.toLower := by
  unfold rebuildRecreateGroup
  rw [has_createTables, has_dropTables, has_dropTables]
  simp only [List.mem_filter, Bool.not_eq_true']
  constructor
  · rintro (⟨⟨hdb, hdel⟩, hlive⟩ | ⟨m, ⟨hm, hl⟩, he⟩)
    · refine .inl ⟨hdb, fun m hm => ?_⟩
      cases hd : m.deleted with
      | true => exact hdel m ⟨hm, hd⟩
      | false => exact hlive m ⟨hm, hd⟩
    · exact .inr ⟨m, hm, hl, he⟩
  · rintro (⟨hdb, hall⟩ | ⟨m, hm, hl, he⟩)
    · exact .inl ⟨⟨hdb, fun m hm => hall m hm.1⟩, fun m hm => hall m hm.1⟩
    · exact .inr ⟨m, ⟨hm, hl⟩, he⟩

theorem facets_setFacet (facet f : String) (version : Int) :
    (db.setFacet facet version).facets f = if f = facet then version else db.facets f := by
  simp [setFacet, Function.update_apply]

theorem facets_setFacets (gs : List String) (f : String) : (gs.foldl (fun db g => db.setFacet (g ++ "_crc") (-1)) db).facets f =
      if f ∈ gs.map (fun g => g ++ "_crc") then -1 else db.facets f := by
  induction gs generalizing db with
  | nil => simp
  | cons g gs ih =>
    rw [List.foldl_cons, ih]
    by_cases hf : f = g ++ "_crc" <;> simp [facets_setFacet, hf]

theorem tables_setFacets (gs : List String) : (gs.foldl (fun db g => db.setFacet (g ++ "_crc") (-1)) db).tables = db.tables := by
  induction gs generalizing db with
  | nil => rfl
  | cons g gs ih => exact ih (db.setFacet (g ++ "_crc") (-1))

end Db

namespace Plan

variable {p : Plan} {db : Db} {n : Note} {u v : Update × Batch}

theorem groupDrops_facets (gs : List String) : (gs.foldl (fun db g => db.dropTables (p.groupTables g)) db).facets = db.facets := by
  induction gs generalizing db with
  | nil => rfl
  | cons g gs ih => rw [List.foldl_cons, ih, Db.facets_dropTables]

theorem neighborDrops_facets (gs : List String) : (gs.foldl (fun db g => p.groupDrop db g.toLower) db).facets = db.facets := by
  induction gs generalizing db with
  | nil => rfl
  | cons g gs ih => rw [List.foldl_cons, ih, groupDrop, groupDrops_facets]

/-- What is there after some groups are dropped. -/
theorem has_groupDrops (gs : List String) : (gs.foldl (fun db g => db.dropTables (p.groupTables g)) db).Has n ↔
    db.Has n ∧ ∀ g ∈ gs, ∀ m ∈ p.groupTables g, m.tableName.toLower ≠ n.tableName.toLower := by
  induction gs generalizing db with
  | nil => simp
  | cons g gs ih => rw [List.foldl_cons, ih, Db.has_dropTables, List.forall_mem_cons, and_assoc]

theorem has_neighborDrops (gs : List String) : (gs.foldl (fun db g => p.groupDrop db g.toLower) db).Has n ↔
    db.Has n ∧ ∀ g ∈ gs, ∀ c ∈ p.groupDrops g.toLower, ∀ m ∈ p.groupTables c, m.tableName.toLower ≠ n.tableName.toLower := by
  induction gs generalizing db with
  | nil => simp
  | cons g gs ih => rw [List.foldl_cons, ih, groupDrop, has_groupDrops, List.forall_mem_cons, and_assoc]

/-- The facets after the update of a group that is not up to date. -/
theorem facets_updateGroup (hstale : db.facets u.1.facet ≠ u.1.version) (f : String) : (p.updateGroup db u).facets f =
    if f = u.1.facet then u.1.version else if f ∈ (p.neighbors u).map (fun g => g ++ "_crc") then -1 else db.facets f := by
  unfold updateGroup
  rw [if_neg hstale]
  rw [Db.facets_setFacet, Db.facets_setFacets, neighborDrops_facets, Db.facets_rebuildRecreateGroup]

/-- What is there after the update of a group that is not up to date. -/
theorem has_updateGroup (hstale : db.facets u.1.facet ≠ u.1.version) : (p.updateGroup db u).Has n ↔ (rebuildRecreateGroup db u.2).Has n ∧
      ∀ g ∈ p.neighbors u, ∀ c ∈ p.groupDrops g.toLower, ∀ m ∈ p.groupTables c, m.tableName.toLower ≠ n.tableName.toLower := by
  unfold updateGroup
  rw [if_neg hstale, Db.has_setFacet, ← has_neighborDrops]
  unfold Db.Has
  rw [Db.tables_setFacets]

/-! ## Updates of a plan -/

/-- The group of an update as the symbol tables know it. -/
def nodeOf (u : Update × Batch) : String := u.1.groupId.toLower

theorem batch_of_mem (hu : u ∈ updates p.env p.notes) : u.2 ∈ batches p.env.regions [] p.notes ∧ u.1 = u.2.update p.env := by
  rw [updates_eq] at hu
  obtain ⟨t, ht, rfl⟩ := List.mem_map.mp hu
  exact ⟨ht, rfl⟩

theorem nodeOf_eq (hu : u ∈ updates p.env p.notes) : nodeOf u = u.2.last.node := by
  rw [nodeOf, (batch_of_mem hu).2]
  rfl

theorem facetOf_eq (hu : u ∈ updates p.env p.notes) : u.1.facet = u.1.groupId ++ "_crc" := by
  rw [(batch_of_mem hu).2]
  exact facet_eq u.2.last

/-- An update is of one group, and it is known by its facet. -/
theorem nodeOf_of_facet (hu : u ∈ updates p.env p.notes) {g : String} (hf : u.1.facet = g ++ "_crc") : nodeOf u = g.toLower := by
  rw [facetOf_eq hu] at hf
  rw [nodeOf, append_left_inj hf]

variable {groups : List String} {declared : List Note} {facet : String}

section

variable (h : p.Generated groups declared) (hs : p.Safe)

include h hs

/-- An update has the tables of its group that are in scope. -/
theorem mem_members (hu : u ∈ updates p.env p.notes) :
    n ∈ u.2.members ↔ n ∈ p.notes ∧ n.included p.env.regions = true ∧ n.node = nodeOf u := by
  rw [(batches_spec p.notes h.sorted hs.endsInScope).1 u.2 (batch_of_mem hu).1 n, nodeOf_eq hu, node_eq_iff]

theorem last_mem (hu : u ∈ updates p.env p.notes) : u.2.last ∈ p.notes :=
  ((mem_members h hs hu).mp (by simp [Batch.members])).1

/-- Every table in scope is in an update. -/
theorem exists_update (hn : n ∈ p.notes) (hi : n.included p.env.regions = true) :
    ∃ u ∈ updates p.env p.notes, n ∈ u.2.members := by
  obtain ⟨t, ht, hk⟩ := (batches_spec p.notes h.sorted hs.endsInScope).2.2 n hn hi
  have hu : (t.update p.env, t) ∈ updates p.env p.notes := by
    rw [updates_eq]
    exact List.mem_map.mpr ⟨t, ht, rfl⟩
  exact ⟨_, hu, (mem_members h hs hu).mpr ⟨hn, hi, by rw [nodeOf_eq hu, node_eq_iff, hk]⟩⟩

/-- The tables of an update are virtual where it is. -/
theorem virtual_of_member (hu : u ∈ updates p.env p.notes) (hn : n ∈ u.2.members) :
    n.isVirtual = u.1.isVirtual := by
  obtain ⟨hmem, -, hnode⟩ := (mem_members h hs hu).mp hn
  rw [nodeOf_eq hu, node_eq_iff] at hnode
  rw [h.virtual_of_key hmem (last_mem h hs hu) hnode, (batch_of_mem hu).2]
  rfl

theorem pairwise_updates :
    (updates p.env p.notes).Pairwise fun u v => v.2.last.groupOrdinal < u.2.last.groupOrdinal := by
  rw [updates_eq, List.pairwise_map]
  exact (batches_spec p.notes h.sorted hs.endsInScope).2.1

/-- A group has one update. -/
theorem eq_of_nodeOf (hu : u ∈ updates p.env p.notes) (hv : v ∈ updates p.env p.notes)
    (he : nodeOf u = nodeOf v) : u = v := by
  rw [nodeOf_eq hu, nodeOf_eq hv, node_eq_iff] at he
  have hord := (h.sorted.numbered _ (last_mem h hs hu) _ (last_mem h hs hv)).mpr he
  by_contra hne
  have : Std.Symm fun u v : Update × Batch => u.2.last.groupOrdinal ≠ v.2.last.groupOrdinal := ⟨fun _ _ h => h.symm⟩
  have hpair : (updates p.env p.notes).Pairwise fun u v => u.2.last.groupOrdinal ≠ v.2.last.groupOrdinal :=
    (pairwise_updates h hs).imp fun hlt => (Int.ne_of_lt hlt).symm
  exact hpair.forall hu hv hne hord

end

theorem nodeOf_of_facets (hu : u ∈ updates p.env p.notes) (hv : v ∈ updates p.env p.notes) (he : u.1.facet = v.1.facet) :
    nodeOf u = nodeOf v := by
  rw [facetOf_eq hv] at he
  exact nodeOf_of_facet hu he

theorem mem_next {g : String} (hg : g ∈ p.neighbors u) : g.toLower ∈ p.deps.next (nodeOf u) := List.mem_map_of_mem hg

/-- Along the dependencies, the numbers of groups go down. -/
theorem lt_of_reaches {s : Numbering String} (h : s.Topological p.deps.next) {a b : String} (hab : TransGen (Edge p.deps.next) a b) {i : Nat}
    (hi : s.ordinal a = some i) : ∃ j, s.ordinal b = some j ∧ j < i := by
  induction hab with
  | single hb => exact h.below hi _ hb
  | tail _ hc ih =>
    obtain ⟨j, hj, hlt⟩ := ih
    obtain ⟨k, hk, hlt'⟩ := h.below hj _ hc
    exact ⟨k, hk, hlt'.trans hlt⟩

/-- The order of the updates of a procedure: what depends on a group comes later, and in the same procedure. -/
theorem order_updatesOf (h : p.Generated groups declared) (hs : p.Safe) (isVirtual : Bool) :
    Cascade.Order p.deps.next ((p.updatesOf isVirtual).map nodeOf) where
  later := by
    obtain ⟨s, hs', hn⟩ := h.numbered
    rw [List.pairwise_map]
    refine ((pairwise_updates h hs).sublist List.filter_sublist).imp_of_mem ?_
    intro u v hu hv hlt
    have hu := (List.mem_filter.mp hu).1
    have hv := (List.mem_filter.mp hv).1
    obtain ⟨i, hi, hui⟩ := hn _ (last_mem h hs hu)
    obtain ⟨j, hj, hvj⟩ := hn _ (last_mem h hs hv)
    rw [hui, hvj] at hlt
    rw [nodeOf_eq hu, nodeOf_eq hv]
    constructor
    · intro he
      rw [he, hj] at hi
      cases hi
      omega
    · intro hreach
      obtain ⟨k, hk, hkj⟩ := lt_of_reaches hs' hreach hj
      rw [hi] at hk
      cases hk
      omega
  closed := by
    intro a ha b hb
    obtain ⟨u, hu, rfl⟩ := List.mem_map.mp ha
    obtain ⟨hmem, hv⟩ := List.mem_filter.mp hu
    obtain ⟨g, hg, rfl⟩ := List.mem_map.mp hb
    obtain ⟨v, hvmem, hf, hvv, -⟩ := hs.updated u hmem g hg
    refine List.mem_map.mpr ⟨v, List.mem_filter.mpr ⟨hvmem, ?_⟩, nodeOf_of_facet hvmem hf⟩
    simpa [hvv] using hv

/-! ## The abstract run -/

/-- Which groups are up to date by their facets, and which have their tables. -/
def parts (p : Plan) (db : Db) : Cascade.Parts String where
  fresh k := ∀ u ∈ updates p.env p.notes, nodeOf u = k → db.facets u.1.facet = u.1.version
  built k := ∀ u ∈ updates p.env p.notes, nodeOf u = k → ∀ n ∈ u.2.members, n.deleted = false → db.Has n

theorem fresh_iff (h : p.Generated groups declared) (hs : p.Safe) (hu : u ∈ updates p.env p.notes) :
    (p.parts db).fresh (nodeOf u) ↔ db.facets u.1.facet = u.1.version := by
  constructor
  · intro hf
    exact hf u hu rfl
  · intro hf v hv he
    rw [eq_of_nodeOf h hs hv hu he, hf]

/-- The `_group_drop` procedures drop no table of a group that does not depend on the one that is updated. -/
theorem not_dropped (h : p.Generated groups declared) (hn : n ∈ p.notes) (hnot : ¬TransGen (Edge p.deps.next) (nodeOf u) n.node) :
    ∀ g ∈ p.neighbors u, ∀ c ∈ p.groupDrops g.toLower, ∀ m ∈ p.groupTables c, m.tableName.toLower ≠ n.tableName.toLower := by
  intro g hg c hc m hm he
  obtain ⟨hmem, hnode⟩ := List.mem_filter.mp hm
  obtain rfl := h.eq_of_name hmem hn he
  obtain rfl : m.node = c := by simpa using hnode
  exact hnot (TransGen.head' (mem_next hg) (Cascade.reaches_of_mem_dropOrder hc))

/-- The update of a group does what the update of a part does. -/
theorem updates_parts (h : p.Generated groups declared) (hs : p.Safe) (hu : u ∈ updates p.env p.notes) :
    Updates p.deps.next (nodeOf u) (p.parts db) (p.parts (p.updateGroup db u)) := by
  have hskip : (p.parts db).fresh (nodeOf u) → p.updateGroup db u = db := by
    intro hf
    rw [updateGroup, if_pos ((fresh_iff h hs hu).mp hf)]
  refine ⟨fun hf => by rw [hskip hf], ?_, ?_, ?_, ?_⟩
  · intro hstale
    rw [fresh_iff h hs hu] at hstale
    refine ⟨?_, ?_⟩
    · rw [fresh_iff h hs hu, facets_updateGroup hstale, if_pos rfl]
    · intro v hv he n hn hlive
      obtain rfl := eq_of_nodeOf h hs hv hu he
      obtain ⟨hmem, -, hnode⟩ := (mem_members h hs hv).mp hn
      rw [has_updateGroup hstale, Db.has_rebuildRecreateGroup]
      refine ⟨.inr ⟨n, hn, hlive, rfl⟩, not_dropped h hmem ?_⟩
      rw [hnode]
      exact h.acyclic _
  · intro hstale b hb hfresh
    rw [fresh_iff h hs hu] at hstale
    obtain ⟨g, hg, rfl⟩ := List.mem_map.mp hb
    obtain ⟨v, hv, hf, -, hne⟩ := hs.updated u hu g hg
    have hnode := nodeOf_of_facet hv hf
    have hother : v.1.facet ≠ u.1.facet := by
      intro he
      rw [← hnode, nodeOf_of_facets hv hu he] at hb
      exact h.acyclic _ (TransGen.single hb)
    have hmarked : v.1.facet ∈ (p.neighbors u).map fun g => g ++ "_crc" := List.mem_map.mpr ⟨g, hg, hf.symm⟩
    have hmark := hfresh v hv hnode
    rw [facets_updateGroup hstale, if_neg hother, if_pos hmarked] at hmark
    exact hne hmark.symm
  · intro c hc hbuilt
    by_cases hf : (p.parts db).fresh (nodeOf u)
    · rw [hskip hf]
      exact .inl hbuilt
    · by_cases hlost : TransGen (Edge p.deps.next) (nodeOf u) c
      · exact .inr ⟨hf, hlost⟩
      · left
        intro v hv he n hn hlive
        obtain ⟨hmem, -, hnode⟩ := (mem_members h hs hv).mp hn
        rw [fresh_iff h hs hu] at hf
        rw [has_updateGroup hf, Db.has_rebuildRecreateGroup]
        refine ⟨.inl ⟨hbuilt v hv he n hn hlive, ?_⟩, not_dropped h hmem (by rwa [hnode, he])⟩
        intro m hm hname
        obtain ⟨hmmem, -, hmnode⟩ := (mem_members h hs hu).mp hm
        obtain rfl := h.eq_of_name hmmem hmem hname
        exact hc (by rw [← he, ← hnode, hmnode])
  · intro c hc hfresh v hv he
    by_cases hf : db.facets u.1.facet = u.1.version
    · rw [hskip ((fresh_iff h hs hu).mpr hf)] at hfresh
      exact hfresh v hv he
    · have hother : v.1.facet ≠ u.1.facet := by
        intro hfacet
        exact hc (by rw [← he, nodeOf_of_facets hv hu hfacet])
      have hnow := hfresh v hv he
      rw [facets_updateGroup hf, if_neg hother] at hnow
      split at hnow
      · -- the facet is marked, and its checksum is not the mark
        rename_i hmarked
        obtain ⟨g, hg, hgf⟩ := List.mem_map.mp hmarked
        obtain ⟨w, hw, hwf, -, hne⟩ := hs.updated u hu g hg
        have hwv : w = v := eq_of_nodeOf h hs hw hv (nodeOf_of_facets hw hv (by rw [hwf, hgf]))
        exact absurd (hwv ▸ hnow).symm hne
      · exact hnow

theorem run_parts (h : p.Generated groups declared) (hs : p.Safe) (us : List (Update × Batch)) (hus : ∀ u ∈ us, u ∈ updates p.env p.notes) :
    Cascade.Run p.deps.next (us.map nodeOf) (p.parts db) (p.parts (p.run db (us.map .update))) := by
  induction us generalizing db with
  | nil => exact .nil _
  | cons u us ih => exact .cons (updates_parts h hs (hus u (by simp))) (ih fun v hv => hus v (by simp [hv]))

/-! ## Groups are created again -/

theorem CreatedIn.append {steps : List Step} {node : String} (h : p.CreatedIn db steps node) (more : List Step) :
    p.CreatedIn db (steps ++ more) node := by
  obtain ⟨pre, u, post, rfl, hnode, hf⟩ := h
  exact ⟨pre, u, post ++ more, by simp, hnode, hf⟩

/-- Steps that restore what they drop, after one another. -/
theorem Restores.append {steps more : List Step} (h : p.Restores db steps) (h' : p.Restores (p.run db steps) more) :
    p.Restores db (steps ++ more) := by
  induction steps generalizing db with
  | nil => exact h'
  | cons s steps ih => exact ⟨fun g hg => (h.1 g hg).append more, ih h.2 h'⟩

theorem restores_setFacet (facet : String) (version : Int) : p.Restores db [.setFacet facet version] :=
  ⟨fun _ hg => (List.not_mem_nil hg).elim, trivial⟩

/-- What depends on a group that is not up to date gets its turn after it, and is not up to date then. -/
theorem restores_updates (h : p.Generated groups declared) (hs : p.Safe) (us : List (Update × Batch))
    (hus : ∀ u ∈ us, u ∈ updates p.env p.notes) (horder : Cascade.Order p.deps.next (us.map nodeOf)) :
    p.Restores db (us.map .update) := by
  induction us generalizing db with
  | nil => trivial
  | cons u us ih =>
    have hu := hus u (by simp)
    have hrest : ∀ v ∈ us, v ∈ updates p.env p.notes := fun v hv => hus v (by simp [hv])
    refine ⟨?_, ih hrest horder.tail⟩
    intro c hc
    by_cases hstale : db.facets u.1.facet = u.1.version
    · rw [dropped, if_pos hstale] at hc
      cases hc
    · rw [dropped, if_neg hstale] at hc
      obtain ⟨g, hg, hcg⟩ := List.mem_flatMap.mp hc
      have hreach : TransGen (Edge p.deps.next) (nodeOf u) c := TransGen.head' (mem_next hg) (Cascade.reaches_of_mem_dropOrder hcg)
      rw [← fresh_iff h hs hu] at hstale
      have hdue := Cascade.due_of_reaches (updates_parts h hs hu) horder h.acyclic hstale hreach
      obtain ⟨v, hv, rfl⟩ := List.mem_map.mp (horder.mem_tail h.acyclic hreach)
      obtain ⟨pre, post, rfl⟩ := List.append_of_mem hv
      have hlater := horder.tail
      rw [List.map_append, List.map_cons] at hdue hlater
      have hturn := hdue.at_turn hlater h.acyclic (run_parts h hs pre fun w hw => hrest w (by simp [hw]))
      rw [fresh_iff h hs (hrest v (by simp))] at hturn
      exact ⟨pre.map .update, v, post.map .update, by simp, rfl, hturn⟩

theorem mem_updatesOf {isVirtual : Bool} (hu : u ∈ p.updatesOf isVirtual) : u ∈ updates p.env p.notes := (List.mem_filter.mp hu).1

theorem restores_recreateTables (h : p.Generated groups declared) (hs : p.Safe) (isVirtual : Bool) :
    p.Restores db (p.recreateTables isVirtual db) := by
  unfold recreateTables
  split
  · trivial
  · exact (restores_updates h hs _ (fun u hu => mem_updatesOf hu) (order_updatesOf h hs isVirtual)).append (restores_setFacet _ _)

/-- An upgrade creates again what it drops. -/
theorem restores_upgrade (h : p.Generated groups declared) (hs : p.Safe) (includeVirtualTables : Bool) :
    p.Restores db (p.upgrade includeVirtualTables db) := by
  have hnonVirtual : p.Restores db (p.nonVirtualSteps db) := by
    unfold nonVirtualSteps
    split
    · trivial
    · exact (restores_recreateTables h hs false).append (restores_setFacet _ _)
  have hvirtual : ∀ db, p.Restores db (p.virtualSteps includeVirtualTables db) := by
    intro db
    unfold virtualSteps
    split
    · exact (restores_recreateTables h hs true).append (restores_setFacet _ _)
    · trivial
  unfold upgrade
  split
  · trivial
  · exact hnonVirtual.append (hvirtual _)

/-! ## All tables are there -/

theorem mem_liveTables : n ∈ p.liveTables ↔ n ∈ p.notes ∧ n.included p.env.regions = true ∧ n.deleted = false := by
  simp [liveTables]

/-- The live tables of a kind are there. -/
def AllBuilt (p : Plan) (isVirtual : Bool) (db : Db) : Prop := ∀ n ∈ p.liveTables, n.isVirtual = isVirtual → db.Has n

theorem run_append (db : Db) (steps more : List Step) : p.run db (steps ++ more) = p.run (p.run db steps) more := List.foldl_append

/-- A facet that is not of a group is not touched by the updates of groups. -/
theorem facets_run_updates (hs : p.Safe) (hfacet : ∀ n : Note, n.facet ≠ facet) (us : List (Update × Batch))
    (hus : ∀ u ∈ us, u ∈ updates p.env p.notes) : (p.run db (us.map .update)).facets facet = db.facets facet := by
  have hof : ∀ v ∈ updates p.env p.notes, facet ≠ v.1.facet := by
    intro v hv he
    rw [(batch_of_mem hv).2] at he
    exact hfacet v.2.last he.symm
  induction us generalizing db with
  | nil => rfl
  | cons u us ih =>
    have hu := hus u (by simp)
    have hrest := fun db => @ih db fun v hv => hus v (by simp [hv])
    refine (hrest (p.updateGroup db u)).trans ?_
    by_cases hf : db.facets u.1.facet = u.1.version
    · rw [updateGroup, if_pos hf]
    · have hmarked : facet ∉ (p.neighbors u).map fun g => g ++ "_crc" := by
        intro hmem
        obtain ⟨g, hg, he⟩ := List.mem_map.mp hmem
        obtain ⟨v, hv, hvf, -⟩ := hs.updated u hu g hg
        exact hof v hv (by rw [hvf, he])
      rw [facets_updateGroup hf, if_neg (hof u hu), if_neg hmarked]

/-- The names of the other facets end otherwise than those of groups. -/
theorem facet_ne (hfacet : facet ∈ ["all_virtual_tables_crc", "all_nonvirtual_tables_crc", "cql_schema_crc",
    "cql_schema_crc_no_virtual"]) (n : Note) : n.facet ≠ facet := by
  have hgroup : ∀ a : String, ∀ b ∈ ["tables_crc", "schema_crc", "no_virtual"], n.facet ≠ a ++ b := by
    intro a b hb
    obtain ⟨hlen₁, hlen₂, hne₁, hne₂⟩ := endings.2 b hb
    unfold Note.facet
    split
    · exact append_ne hlen₁ hne₁
    · exact append_ne hlen₂ hne₂
  simp only [List.mem_cons, List.not_mem_nil, or_false] at hfacet
  rcases hfacet with rfl | rfl | rfl | rfl
  · exact hgroup "all_virtual_" "tables_crc" (by simp)
  · exact hgroup "all_nonvirtual_" "tables_crc" (by simp)
  · exact hgroup "cql_" "schema_crc" (by simp)
  · exact hgroup "cql_schema_crc_" "no_virtual" (by simp)

variable {isVirtual : Bool}

theorem run_recreateTables (hne : db.facets (p.guardFacet isVirtual).1 ≠ (p.guardFacet isVirtual).2) :
    p.run db (p.recreateTables isVirtual db) = (p.run db ((p.updatesOf isVirtual).map .update)).setFacet (p.guardFacet isVirtual).1
      (p.guardFacet isVirtual).2 := by
  rw [recreateTables, if_neg hne, run_append]
  rfl

/-- All tables of a kind are there after the procedure that recreates them. -/
theorem allBuilt_recreateTables (h : p.Generated groups declared) (hs : p.Safe) (hc : p.Complete db) :
    p.AllBuilt isVirtual (p.run db (p.recreateTables isVirtual db)) := by
  intro n hn hv
  by_cases hguard : db.facets (p.guardFacet isVirtual).1 = (p.guardFacet isVirtual).2
  · rw [recreateTables, if_pos hguard]
    exact hc.procedure isVirtual hguard n hn hv
  · rw [run_recreateTables hguard, Db.has_setFacet]
    obtain ⟨hmem, hi, hlive⟩ := mem_liveTables.mp hn
    obtain ⟨u, hu, hnu⟩ := exists_update h hs hmem hi
    have huv : u ∈ p.updatesOf isVirtual := List.mem_filter.mpr ⟨hu, by simpa [← virtual_of_member h hs hu hnu] using hv⟩
    have hstart : ∀ c ∈ (p.updatesOf isVirtual).map nodeOf,
        (p.parts db).built c ∨ Cascade.Due p.deps.next ((p.updatesOf isVirtual).map nodeOf) (p.parts db) c := by
      intro c hc'
      by_cases hf : (p.parts db).fresh c
      · exact .inl fun v hv he m hm hlive => hc.group v hv (hf v hv he) m hm hlive
      · exact .inr ⟨c, hc', hf, .refl⟩
    have hbuilt := (run_parts h hs _ fun u hu => mem_updatesOf hu).built (order_updatesOf h hs isVirtual) h.acyclic [] (by simp) hstart
    exact hbuilt (nodeOf u) (.inr (List.mem_map.mpr ⟨u, huv, rfl⟩)) u hu rfl n hnu hlive

/-- The procedure leaves the groups of the other kind alone. -/
theorem frame_recreateTables (h : p.Generated groups declared) (hs : p.Safe) (hu : u ∈ updates p.env p.notes) (hv : u.1.isVirtual ≠ isVirtual) :
    ((∀ n ∈ u.2.members, n.deleted = false → db.Has n) →
        ∀ n ∈ u.2.members, n.deleted = false → (p.run db (p.recreateTables isVirtual db)).Has n) ∧
      ((p.run db (p.recreateTables isVirtual db)).facets u.1.facet = u.1.version → db.facets u.1.facet = u.1.version) := by
  by_cases hguard : db.facets (p.guardFacet isVirtual).1 = (p.guardFacet isVirtual).2
  · rw [recreateTables, if_pos hguard]
    exact ⟨id, id⟩
  · have hnot : nodeOf u ∉ (p.updatesOf isVirtual).map nodeOf := by
      intro hmem
      obtain ⟨w, hw, he⟩ := List.mem_map.mp hmem
      obtain ⟨hw, hwv⟩ := List.mem_filter.mp hw
      obtain rfl := eq_of_nodeOf h hs hw hu he
      exact hv (by simpa using hwv)
    obtain ⟨hb, hf⟩ := (run_parts h hs _ fun u hu => mem_updatesOf hu).frame (s := p.parts db) (order_updatesOf h hs isVirtual) hnot
    rw [run_recreateTables hguard]
    refine ⟨?_, ?_⟩
    · intro hall
      exact hb (fun w hw he => by rwa [eq_of_nodeOf h hs hw hu he]) u hu rfl
    · intro hfacet
      have hguardFacet : u.1.facet ≠ (p.guardFacet isVirtual).1 := by
        rw [(batch_of_mem hu).2]
        exact facet_ne (by cases isVirtual <;> simp [guardFacet]) u.2.last
      rw [Db.facets_setFacet, if_neg hguardFacet, ← fresh_iff h hs hu] at hfacet
      exact (fresh_iff h hs hu).mp (hf hfacet)

/-- Facets that are not of groups, and not the guard of the procedure, are left alone. -/
theorem facets_recreateTables (hs : p.Safe) (hfacet : ∀ n : Note, n.facet ≠ facet)
    (hother : facet ≠ (p.guardFacet isVirtual).1) : (p.run db (p.recreateTables isVirtual db)).facets facet = db.facets facet := by
  by_cases hguard : db.facets (p.guardFacet isVirtual).1 = (p.guardFacet isVirtual).2
  · rw [recreateTables, if_pos hguard]
    rfl
  · rw [run_recreateTables hguard, Db.facets_setFacet, if_neg hother]
    exact facets_run_updates hs hfacet _ fun u hu => mem_updatesOf hu

theorem live_member (h : p.Generated groups declared) (hs : p.Safe) (hu : u ∈ updates p.env p.notes) (hn : n ∈ u.2.members)
    (hlive : n.deleted = false) : n ∈ p.liveTables := by
  obtain ⟨hmem, hi, -⟩ := (mem_members h hs hu).mp hn
  exact mem_liveTables.mpr ⟨hmem, hi, hlive⟩

/-- A database with all live tables is complete whatever its facets say. -/
theorem complete_of_all (h : p.Generated groups declared) (hs : p.Safe) (hall : ∀ n ∈ p.liveTables, db.Has n) : p.Complete db where
  group _ hu _ n hn hlive := hall n (live_member h hs hu hn hlive)
  procedure _ _ n hn _ := hall n hn
  noVirtual _ n hn _ := hall n hn
  schema _ := hall

theorem run_nonVirtualSteps (hne : db.facets "cql_schema_crc_no_virtual" ≠ p.schemaCrcNoVirtual) : p.run db (p.nonVirtualSteps db) =
      (p.run db (p.recreateTables false db)).setFacet "cql_schema_crc_no_virtual" p.schemaCrcNoVirtual := by
  rw [nonVirtualSteps, if_neg hne, run_append]
  rfl

/-- The first part of an upgrade: the tables that are not virtual are there, and the database is complete. -/
theorem complete_nonVirtualSteps (h : p.Generated groups declared) (hs : p.Safe) (hc : p.Complete db)
    (hne : db.facets "cql_schema_crc" ≠ p.schemaCrc) :
    p.AllBuilt false (p.run db (p.nonVirtualSteps db)) ∧ p.Complete (p.run db (p.nonVirtualSteps db)) := by
  by_cases hcrc : db.facets "cql_schema_crc_no_virtual" = p.schemaCrcNoVirtual
  · rw [nonVirtualSteps, if_pos hcrc]
    exact ⟨hc.noVirtual hcrc, hc⟩
  · have hall : p.AllBuilt false (p.run db (p.recreateTables false db)) := allBuilt_recreateTables h hs hc
    rw [run_nonVirtualSteps hcrc]
    refine ⟨hall, ?_, ?_, fun _ => hall, ?_⟩
    · intro u hu hf n hn hlive
      cases hv : u.1.isVirtual with
      | false => exact hall n (live_member h hs hu hn hlive) (by rw [virtual_of_member h hs hu hn, hv])
      | true =>
        obtain ⟨htables, hfacet⟩ := @frame_recreateTables p db u groups declared false h hs hu (by simp [hv])
        have hother : u.1.facet ≠ "cql_schema_crc_no_virtual" := by
          rw [(batch_of_mem hu).2]
          exact facet_ne (by simp) u.2.last
        rw [Db.facets_setFacet, if_neg hother] at hf
        exact htables (fun m hm hl => hc.group u hu (hfacet hf) m hm hl) n hn hlive
    · intro isVirtual hguard n hn hv
      cases isVirtual with
      | false => exact hall n hn hv
      | true =>
        have hother : (p.guardFacet true).1 ≠ "cql_schema_crc_no_virtual" := by simp [guardFacet]
        rw [Db.facets_setFacet, if_neg hother, facets_recreateTables hs (facet_ne (by simp [guardFacet])) (by simp [guardFacet])] at hguard
        obtain ⟨hmem, hi, hlive⟩ := mem_liveTables.mp hn
        obtain ⟨u, hu, hnu⟩ := exists_update h hs hmem hi
        have huv : u.1.isVirtual = true := by rw [← virtual_of_member h hs hu hnu, hv]
        refine (@frame_recreateTables p db u groups declared false h hs hu (by simp [huv])).1 ?_ n hnu hlive
        intro m hm hl
        exact hc.procedure true hguard m (live_member h hs hu hm hl) (by rw [virtual_of_member h hs hu hm, huv])
    · intro hschema
      rw [Db.facets_setFacet, if_neg (by simp), facets_recreateTables hs (facet_ne (by simp)) (by simp [guardFacet])] at hschema
      exact absurd hschema hne

/-- The tables are there after the virtual ones are recreated too. -/
theorem all_virtualSteps (h : p.Generated groups declared) (hs : p.Safe) (hc : p.Complete db) (hall : p.AllBuilt false db) :
    ∀ n ∈ p.liveTables, (p.run db (p.virtualSteps true db)).Has n := by
  intro n hn
  have hrun : p.run db (p.virtualSteps true db) = (p.run db (p.recreateTables true db)).setFacet "cql_schema_crc" p.schemaCrc := by
    rw [virtualSteps, if_pos rfl, run_append]
    rfl
  rw [hrun, Db.has_setFacet]
  cases hv : n.isVirtual with
  | true => exact allBuilt_recreateTables h hs hc n hn hv
  | false =>
    obtain ⟨hmem, hi, hlive⟩ := mem_liveTables.mp hn
    obtain ⟨u, hu, hnu⟩ := exists_update h hs hmem hi
    have huv : u.1.isVirtual = false := by rw [← virtual_of_member h hs hu hnu, hv]
    refine (@frame_recreateTables p db u groups declared true h hs hu (by simp [huv])).1 ?_ n hnu hlive
    intro m hm hl
    exact hall m (live_member h hs hu hm hl) (by rw [virtual_of_member h hs hu hm, huv])

/-- From a complete database an upgrade leads to a complete database, with the live tables that it is asked for. -/
theorem complete_upgraded (h : p.Generated groups declared) (hs : p.Safe) (includeVirtualTables : Bool) (hc : p.Complete db) :
    p.Complete (p.upgraded includeVirtualTables db) ∧
      ∀ n ∈ p.liveTables, (n.isVirtual → includeVirtualTables) → (p.upgraded includeVirtualTables db).Has n := by
  by_cases hschema : db.facets "cql_schema_crc" = p.schemaCrc
  · rw [upgraded, upgrade, if_pos hschema]
    exact ⟨hc, fun n hn _ => hc.schema hschema n hn⟩
  · obtain ⟨hall, hc'⟩ := complete_nonVirtualSteps h hs hc hschema
    rw [upgraded, upgrade, if_neg hschema, run_append]
    cases includeVirtualTables with
    | true =>
      have hevery := all_virtualSteps h hs hc' hall
      exact ⟨complete_of_all h hs hevery, fun n hn _ => hevery n hn⟩
    | false => exact ⟨hc', fun n hn hv => hall n hn (by simpa using hv)⟩

end Plan

open Plan

/-- Where all that depends on a group is updated in the same procedure, an upgrade creates again what it drops, and keeps the database
complete. -/
theorem keepsComplete_of_safe (p : Plan) (groups : List String) (declared : List Note) (h : p.Generated groups declared) (hs : p.Safe)
    (includeVirtualTables : Bool) (db : Db) : p.KeepsComplete includeVirtualTables db :=
  ⟨restores_upgrade h hs includeVirtualTables, complete_upgraded h hs includeVirtualTables⟩

/-! ## Plans -/

namespace RecreateAux

/-- Tables in no group, each with the number of its group. -/
def alone (name create : String) (isVirtual : Bool) (groupOrdinal ordinal : Int) : Note :=
  ⟨"", name, none, isVirtual, false, false, create, [], groupOrdinal, ordinal⟩

/-- A database before its first upgrade. -/
def newDb : Db := ⟨[], fun _ => -1⟩

/-- The edges of a table of dependencies go from names to names. -/
theorem acyclic_of_entries {deps : GroupDeps} (rank : String → Nat)
    (h : ∀ entry ∈ deps, ∀ g ∈ entry.2.map String.toLower, rank g < rank entry.1.toLower) : Acyclic deps.next := by
  refine Cascade.acyclic_of_lt rank fun a b hb => ?_
  obtain ⟨entry, hmem, rfl, hg⟩ := exists_of_next hb
  exact h entry hmem b hg

/-- Groups end in scope where no regions are given and no table is eponymous. -/
theorem endsInScope_of_included {regions : Regions} {notes : List Note} (h : ∀ n ∈ notes, n.included regions = true) :
    EndsInScope regions notes := by
  intro k _ last hlast
  exact h last (List.mem_filter.mp (List.mem_of_getLast? hlast)).1

/-- A table that refers to a virtual table. -/
def overVirtual : Plan where
  env := everything
  deps := [("v_table", ["n_table"])]
  notes := [alone "v" "CREATE VIRTUAL TABLE v USING m" true 1 0, alone "n" "CREATE TABLE n(x REFERENCES v(x))" false 0 1]
  schemaCrc := 10
  schemaCrcNoVirtual := 20
  allVirtualTablesCrc := 30
  allNonvirtualTablesCrc := 40

/-- What is computed of the plan. -/
theorem overVirtual_facts : ((∀ entry ∈ overVirtual.deps, entry.1.toLower ∈ ["v_table", "n_table"]) ∧
      (overVirtual.notes.Pairwise fun a₁ a₂ => a₁.tableName.toLower ≠ a₂.tableName.toLower) ∧
      (∀ n ∈ overVirtual.notes, n.isVirtual = true → n.groupName = "") ∧
      overVirtual.notes.Perm (topologicalWalk overVirtual.deps ["v_table", "n_table"] overVirtual.notes) ∧
      overVirtual.notes.Pairwise fun a₁ a₂ => recreateComparator a₁ a₂ < 0) ∧
    (∀ entry ∈ overVirtual.deps, ∀ g ∈ entry.2.map String.toLower,
      ["n_table", "v_table"].idxOf g < ["n_table", "v_table"].idxOf entry.1.toLower) ∧
    (∀ u ∈ updates overVirtual.env overVirtual.notes, newDb.facets u.1.facet ≠ u.1.version) ∧
    (∀ isVirtual, newDb.facets (overVirtual.guardFacet isVirtual).1 ≠ (overVirtual.guardFacet isVirtual).2) ∧
    ∃ n ∈ overVirtual.liveTables, (n.isVirtual → true) ∧ ¬(overVirtual.upgraded true newDb).Has n := by
  decide +kernel

theorem generated_overVirtual : overVirtual.Generated ["v_table", "n_table"] overVirtual.notes := by
  obtain ⟨⟨slots, distinct, ungrouped, perm, inOrder⟩, hrank, -⟩ := overVirtual_facts
  exact ⟨acyclic_of_entries _ hrank, slots, distinct, ungrouped, perm, inOrder⟩

/-- Tables in a chain, none of them virtual: each refers to the one before it. -/
def chain : Plan where
  env := everything
  deps := [("a_table", ["b_table"]), ("b_table", ["c_table"])]
  notes := [alone "a" "CREATE TABLE a(x)" false 2 0, alone "b" "CREATE TABLE b(x)" false 1 1, alone "c" "CREATE TABLE c(x)" false 0 2]
  schemaCrc := 10
  schemaCrcNoVirtual := 20
  allVirtualTablesCrc := 30
  allNonvirtualTablesCrc := 40

/-- What is computed of the plan. -/
theorem chain_facts : ((∀ entry ∈ chain.deps, entry.1.toLower ∈ ["c_table", "b_table", "a_table"]) ∧
      (chain.notes.Pairwise fun a₁ a₂ => a₁.tableName.toLower ≠ a₂.tableName.toLower) ∧
      (∀ n ∈ chain.notes, n.isVirtual = true → n.groupName = "") ∧
      chain.notes.Perm (topologicalWalk chain.deps ["c_table", "b_table", "a_table"] chain.notes) ∧
      chain.notes.Pairwise fun a₁ a₂ => recreateComparator a₁ a₂ < 0) ∧
    (∀ entry ∈ chain.deps, ∀ g ∈ entry.2.map String.toLower,
      ["c_table", "b_table", "a_table"].idxOf g < ["c_table", "b_table", "a_table"].idxOf entry.1.toLower) ∧
    (∀ n ∈ chain.notes, n.included chain.env.regions = true) ∧
    ∀ u ∈ updates chain.env chain.notes, ∀ g ∈ chain.neighbors u,
      ∃ v ∈ updates chain.env chain.notes, v.1.facet = g ++ "_crc" ∧ v.1.isVirtual = u.1.isVirtual ∧ v.1.version ≠ -1 := by
  decide +kernel

theorem generated_chain : chain.Generated ["c_table", "b_table", "a_table"] chain.notes := by
  obtain ⟨⟨slots, distinct, ungrouped, perm, inOrder⟩, hrank, -⟩ := chain_facts
  exact ⟨acyclic_of_entries _ hrank, slots, distinct, ungrouped, perm, inOrder⟩

theorem safe_chain : chain.Safe :=
  ⟨endsInScope_of_included chain_facts.2.2.1, chain_facts.2.2.2⟩

end RecreateAux

/-- A new database is upgraded without a table that refers to a virtual table: the virtual table is created after it, and drops it. -/
theorem keepsComplete_false : ¬∀ (p : Plan) (groups : List String) (declared : List Note), p.Generated groups declared →
    ∀ (includeVirtualTables : Bool) (db : Db), p.KeepsComplete includeVirtualTables db := by
  intro h
  obtain ⟨-, -, hgroup, hguard, n, hn, hv, hlost⟩ := overVirtual_facts
  have hc : overVirtual.Complete newDb :=
    ⟨fun u hu hf => absurd hf (hgroup u hu), fun isVirtual hf => absurd hf (hguard isVirtual), nofun, nofun⟩
  exact hlost (((h overVirtual _ _ generated_overVirtual true newDb).2 hc).2 n hn hv)

theorem keepsComplete_of_safe_chain : chain.KeepsComplete true newDb :=
  keepsComplete_of_safe chain ["c_table", "b_table", "a_table"] chain.notes generated_chain safe_chain true newDb

end CgSql.Recreate
