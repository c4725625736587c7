import CgSql.Recreate
import Mathlib.Data.List.TakeWhile

/-!
# Updates of recreate groups

The buffers of `cg_schema_manage_recreate_tables` hold the texts of the tables since the last update, so an update is that of a batch
of tables. The batches are the groups where the last table of every group is in scope: a table that is passed over does not write the
update of the tables before it. The checksum of an update forgets the texts that entered it an even number of times, and the buffers
enter it once for every table.
-/

namespace CgSql.Recreate

open Nullability (sameName)
open XorSum

namespace RecreateAux

/-! ## Batches -/

theorem foldl_addLine (lines more : List String) : more.foldl addLine (joinLines lines) = joinLines (lines ++ more) := by
  simp [joinLines]

/-- The buffers after some tables. -/
def buffersOf (ns : List Note) : Buffers where
  updateIndices := joinLines (ns.flatMap Note.indexLines)
  deleteTables := joinLines (ns.flatMap Note.dropLines)
  pendingTableCreates := String.join (ns.map Note.makeTable)
  tableCrc := xorAll crcCharbuf (contributions [] [] ns)

/-- The texts that one more table adds to the checksum come last. -/
theorem contributions_snoc (drops indices : List String) (ns : List Note) (n : Note) :
    contributions drops indices (ns ++ [n]) = contributions drops indices ns ++
      [n.makeTable, joinLines (drops ++ (ns ++ [n]).flatMap Note.dropLines), joinLines (indices ++ (ns ++ [n]).flatMap Note.indexLines)] := by
  induction ns generalizing drops indices with
  | nil => simp [contributions]
  | cons m ns ih => simp [contributions, ih]

theorem join_snoc (l : List String) (s : String) : String.join (l ++ [s]) = String.join l ++ s := by
  simp [String.join]

theorem visit_buffersOf (ns : List Note) (n : Note) : (buffersOf ns).visit n = buffersOf (ns ++ [n]) := by
  simp only [Buffers.visit, buffersOf, foldl_addLine, List.map_append, List.map_cons, List.map_nil, join_snoc, contributions_snoc,
    List.flatMap_append, List.flatMap_cons, List.flatMap_nil, List.append_nil, List.nil_append, xorAll_append, xorAll_cons, xorAll_nil,
    BitVec.xor_zero, BitVec.xor_assoc]

theorem flush_buffersOf (env : Env) (t : Batch) : t.last.flush env (buffersOf t.members) = t.update env := by
  unfold Note.flush Batch.update Batch.contributions buffersOf
  cases env.migrateTable t.last.migrateKey <;> simp

/-- The updates are those of the batches. -/
theorem manage_eq_batches (env : Env) (waiting notes : List Note) :
    manageRecreateTables env (buffersOf waiting) notes = (batches env.regions waiting notes).map (Batch.update env) := by
  induction notes generalizing waiting with
  | nil => rfl
  | cons n rest ih =>
    unfold manageRecreateTables batches
    split
    · exact ih waiting
    · split
      · rw [visit_buffersOf, ih]
      · rw [List.map_cons, visit_buffersOf, ← flush_buffersOf env ⟨waiting, n⟩, ← ih []]
        rfl

theorem manage_eq (env : Env) (notes : List Note) : manageRecreateTables env {} notes = (batches env.regions [] notes).map (Batch.update env) :=
  manage_eq_batches env [] notes

/-! ## Groups -/

theorem toLower_eq_empty {s : String} (h : s.toLower = "".toLower) : s = "" := by
  have hl : (s.map Char.toLower).toList = ("".map Char.toLower).toList := congrArg String.toList h
  simpa using hl

/-- Two tables are held together where they are of the same group, not each in its own. -/
theorem held_iff {n m : Note} : n.held (some m) = true ↔ n.groupName ≠ "" ∧ n.key = m.key := by
  simp only [Note.held, Option.any_some, Bool.and_eq_true, decide_eq_true_eq, sameName, Note.key]
  by_cases hn : n.groupName = "" <;> by_cases hm : m.groupName = "" <;> simp only [hn, hm, ne_eq, not_true, not_false_eq_true,
    if_true, if_false, false_and, true_and, iff_false, GroupKey.group.injEq, reduceCtorEq]
  exact fun h => hn (toLower_eq_empty h)

/-- The tables of a group stand together: those of the first group, and then the others. -/
theorem sorted_split {notes : List Note} (h : Sorted notes) (hne : notes ≠ []) :
    ∃ (init : List Note) (last : Note) (rest : List Note), notes = init ++ last :: rest ∧ (∀ n ∈ init, n.key = last.key) ∧
      ∀ n ∈ rest, n.key ≠ last.key := by
  induction notes with
  | nil => exact absurd rfl hne
  | cons n tl ih =>
    have htl : Sorted tl := ⟨h.inOrder.of_cons, fun a ha b hb => h.numbered a (by simp [ha]) b (by simp [hb]), h.distinct.of_cons⟩
    rcases eq_or_ne tl [] with rfl | hne'
    · exact ⟨[], n, [], rfl, by simp, by simp⟩
    obtain ⟨init, last, rest, rfl, hinit, hrest⟩ := ih htl hne'
    by_cases hk : n.key = last.key
    · exact ⟨n :: init, last, rest, rfl, by simpa [hk] using hinit, hrest⟩
    -- the ordinals of the groups only go down, so the group of the first does not come again
    refine ⟨[], n, init ++ last :: rest, rfl, by simp, fun m hm hmk => ?_⟩
    have hord : ∀ {a b : Note}, recreateComparator a b < 0 → b.groupOrdinal ≤ a.groupOrdinal := by
      intro a b hab
      unfold recreateComparator at hab
      grind
    have hin := h.inOrder
    have hnum := h.numbered
    rw [List.pairwise_cons] at hin
    have hml : last.groupOrdinal = n.groupOrdinal := by
      have hln := hord (hin.1 last (by simp))
      have hmn := (hnum m (by simp [hm]) n (by simp)).mpr hmk
      rw [List.mem_append, List.mem_cons] at hm
      rcases hm with hm | rfl | hm
      · exact absurd (hmk.symm.trans (hinit m hm)) hk
      · exact hmn
      · have hlm := (List.pairwise_append.mp hin.2).2.1
        rw [List.pairwise_cons] at hlm
        have hml := hord (hlm.1 m hm)
        omega
    exact hk ((hnum n (by simp) last (by simp)).mp hml.symm)

theorem sorted_rest {init rest : List Note} {last : Note} (h : Sorted (init ++ last :: rest)) : Sorted rest where
  inOrder := (List.pairwise_append.mp h.inOrder).2.1.of_cons
  numbered a ha b hb := h.numbered a (by simp [ha]) b (by simp [hb])
  distinct := (List.pairwise_append.mp h.distinct).2.1.of_cons

/-- Induction over the groups of sorted annotations. -/
theorem sorted_induction {motive : ∀ notes, Sorted notes → Prop} (nil : ∀ h, motive [] h)
    (group : ∀ init last rest (h : Sorted (init ++ last :: rest)), (∀ n ∈ init, n.key = last.key) →
      (∀ n ∈ rest, n.key ≠ last.key) → motive rest (sorted_rest h) → motive (init ++ last :: rest) h) :
    ∀ notes h, motive notes h := by
  intro notes
  induction hlen : notes.length using Nat.strong_induction_on generalizing notes with
  | _ len ih =>
    intro h
    rcases eq_or_ne notes [] with rfl | hne
    · exact nil h
    obtain ⟨init, last, rest, rfl, hinit, hrest⟩ := sorted_split h hne
    refine group init last rest h hinit hrest (ih _ ?_ rest rfl _)
    simp only [← hlen, List.length_append, List.length_cons]
    omega

variable {env : Env} {regions : Regions} {init rest : List Note} {last : Note}

/-- A group's tables in scope are one batch if its last table is in scope, and else they wait. -/
theorem batches_group (h : Sorted (init ++ last :: rest)) (hinit : ∀ n ∈ init, n.key = last.key) (hrest : ∀ n ∈ rest, n.key ≠ last.key)
    (waiting : List Note) : batches regions waiting (init ++ last :: rest) =
      if last.included regions then ⟨waiting ++ init.filter (fun n => n.included regions), last⟩ :: batches regions [] rest
      else batches regions (waiting ++ init.filter fun n => n.included regions) rest := by
  induction init generalizing waiting with
  | nil =>
    have hnot : last.held rest.head? = false := by
      cases rest with
      | nil => rfl
      | cons m rest => simpa [Bool.eq_false_iff, held_iff] using fun _ => Ne.symm (hrest m (by simp))
    simp only [List.nil_append, batches, List.filter_nil, List.append_nil, hnot]
    cases last.included regions <;> simp
  | cons n init ih =>
    have h' : Sorted (init ++ last :: rest) :=
      ⟨h.inOrder.of_cons, fun a ha b hb => h.numbered a (by simp_all) b (by simp_all), h.distinct.of_cons⟩
    have hheld : n.held (init ++ last :: rest).head? = true := by
      obtain ⟨m, tl, hm⟩ : ∃ m tl, init ++ last :: rest = m :: tl := List.exists_cons_of_ne_nil (by simp)
      have hkey : n.key = m.key := by
        cases init with
        | nil => simp_all
        | cons m' init' => simp_all
      rw [hm, List.head?_cons, held_iff]
      refine ⟨fun he => ?_, hkey⟩
      have hd := h.distinct
      rw [List.cons_append, hm, List.pairwise_cons] at hd
      exact hd.1 m (by simp) he hkey
    rw [List.cons_append, batches, ih h' (fun m hm => hinit m (by simp [hm])), ih h' (fun m hm => hinit m (by simp [hm])), hheld]
    cases hn : n.included regions <;> simp [hn]

section

variable (hinit : ∀ n ∈ init, n.key = last.key) (hrest : ∀ n ∈ rest, n.key ≠ last.key)

include hinit hrest

/-- The members of the first group, and of the others. -/
theorem membersOf_group (k : GroupKey) :
    membersOf (init ++ last :: rest) k = if k = last.key then init ++ [last] else membersOf rest k := by
  simp only [membersOf, List.filter_append, List.filter_cons]
  by_cases hk : k = last.key
  · subst hk
    have h₁ : init.filter (fun n => n.key = last.key) = init := List.filter_eq_self.mpr (by simpa using hinit)
    have h₂ : rest.filter (fun n => n.key = last.key) = [] := List.filter_eq_nil_iff.mpr (by simpa using hrest)
    simp [h₁, h₂]
  · have h₁ : init.filter (fun n => n.key = k) = [] := List.filter_eq_nil_iff.mpr fun n hn => by simp [hinit n hn, Ne.symm hk]
    simp [h₁, hk, Ne.symm hk]

theorem groupKeys_group :
    groupKeys (init ++ last :: rest) = last.key :: groupKeys rest := by
  induction init with
  | nil =>
    have hnot : last.key ∉ rest.map Note.key := by simpa using hrest
    simp [groupKeys, List.dedup_cons_of_notMem hnot]
  | cons n init ih =>
    have hmem : n.key ∈ (init ++ last :: rest).map Note.key := by simp [hinit n (by simp)]
    rw [List.cons_append, groupKeys, List.map_cons, List.dedup_cons_of_mem hmem]
    exact ih fun m hm => hinit m (by simp [hm])

theorem groupUpdates_group :
    groupUpdates env (init ++ last :: rest) =
      ((Batch.of ((init ++ [last]).filter fun n => n.included env.regions)).map (Batch.update env)).toList ++ groupUpdates env rest := by
  have hothers : ∀ k ∈ groupKeys rest, k ≠ last.key := by
    intro k hk
    obtain ⟨n, hn, rfl⟩ := List.mem_map.mp (List.mem_dedup.mp hk)
    exact hrest n hn
  have hrestUpdates : groupUpdates env rest = (groupKeys rest).filterMap fun k =>
      (Batch.of ((membersOf (init ++ last :: rest) k).filter fun n => n.included env.regions)).map (Batch.update env) := by
    apply List.filterMap_congr
    intro k hk
    rw [membersOf_group hinit hrest, if_neg (hothers k hk)]
  rw [hrestUpdates, groupUpdates, groupKeys_group hinit hrest, List.filterMap_cons, membersOf_group hinit hrest, if_pos rfl]
  cases (Batch.of ((init ++ [last]).filter fun n => n.included env.regions)).map (Batch.update env) <;> rfl

/-- The last tables are in scope for all the groups where that is so for the first group and for the others. -/
theorem endsInScope_group :
    EndsInScope regions (init ++ last :: rest) ↔ ((∃ n ∈ init, n.included regions) → last.included regions) ∧ EndsInScope regions rest := by
  constructor
  · intro h
    constructor
    · rintro ⟨n, hn, hi⟩
      refine h last.key ⟨n, ?_, hi⟩ last ?_ <;> rw [membersOf_group hinit hrest, if_pos rfl]
      · simp [hn]
      · simp
    · intro k hk m hm
      obtain ⟨n, hn, hi⟩ := hk
      have hne : k ≠ last.key := by
        obtain ⟨hnr, hnk⟩ := List.mem_filter.mp hn
        have hnk : n.key = k := by simpa using hnk
        exact hnk ▸ hrest n hnr
      refine h k ⟨n, ?_, hi⟩ m ?_ <;> rwa [membersOf_group hinit hrest, if_neg hne]
  · rintro ⟨hfirst, hothers⟩ k hk m hm
    rw [membersOf_group hinit hrest] at hk hm
    split at hm
    · rename_i hkl
      rw [if_pos hkl] at hk
      obtain rfl : last = m := by simpa using hm
      obtain ⟨n, hn, hi⟩ := hk
      rw [List.mem_append, List.mem_singleton] at hn
      rcases hn with hn | rfl
      · exact hfirst ⟨n, hn, hi⟩
      · exact hi
    · rename_i hkl
      rw [if_neg hkl] at hk
      exact hothers k hk m hm

end

theorem length_batches (waiting₁ waiting₂ notes : List Note) :
    (batches regions waiting₁ notes).length = (batches regions waiting₂ notes).length := by
  induction notes generalizing waiting₁ waiting₂ with
  | nil => rfl
  | cons n rest ih =>
    unfold batches
    split
    · exact ih _ _
    · split
      · exact ih _ _
      · rfl

/-- There is a batch of the tables in scope where there is one in scope. -/
theorem batchOf_inScope {ns : List Note} (h : ∃ n ∈ ns, n.included regions) : ∃ t, Batch.of (ns.filter fun n => n.included regions) = some t := by
  rw [← Option.ne_none_iff_exists']
  simpa [Batch.of] using h

/-- Where the last tables are in scope, the batches are the groups. -/
theorem batches_eq_groups (env : Env) (notes : List Note) (h : Sorted notes) (hends : EndsInScope env.regions notes) :
    (batches env.regions [] notes).map (Batch.update env) = groupUpdates env notes := by
  revert hends
  induction notes, h using sorted_induction with
  | nil => intro _; rfl
  | group init last rest h hinit hrest ih =>
    intro hends
    rw [endsInScope_group hinit hrest] at hends
    rw [batches_group h hinit hrest, groupUpdates_group hinit hrest, ← ih hends.2]
    split
    · rename_i hl
      simp [Batch.of, List.filter_append, hl]
    · rename_i hl
      have hnone : init.filter (fun n => n.included env.regions) = [] :=
        List.filter_eq_nil_iff.mpr fun n hn hi => hl (hends.1 ⟨n, hn, hi⟩)
      simp [hnone, hl, Batch.of]

/-- There are no more batches than groups, and as many only where the last tables are in scope. -/
theorem length_batches_le (env : Env) (notes : List Note) (h : Sorted notes) :
    (batches env.regions [] notes).length ≤ (groupUpdates env notes).length ∧
      ((batches env.regions [] notes).length = (groupUpdates env notes).length → EndsInScope env.regions notes) := by
  induction notes, h using sorted_induction with
  | nil => exact ⟨Nat.le_refl _, fun _ k hk => by simp [membersOf] at hk⟩
  | group init last rest h hinit hrest ih =>
    rw [batches_group h hinit hrest, groupUpdates_group hinit hrest, endsInScope_group hinit hrest]
    by_cases hl : last.included env.regions
    · obtain ⟨t, ht⟩ := @batchOf_inScope env.regions (init ++ [last]) ⟨last, by simp, hl⟩
      simp only [hl, if_true, ht, Option.map_some, Option.toList_some, List.length_append, List.length_cons, List.length_nil]
      exact ⟨by omega, fun he => ⟨fun _ => trivial, ih.2 (by omega)⟩⟩
    · rw [if_neg hl, length_batches _ []]
      by_cases hany : ∃ n ∈ init, n.included env.regions
      · -- the tables of the group wait, and there is no update of it
        obtain ⟨n, hn, hi⟩ := hany
        obtain ⟨t, ht⟩ := @batchOf_inScope env.regions (init ++ [last]) ⟨n, by simp [hn], hi⟩
        simp only [ht, Option.map_some, Option.toList_some, List.length_append, List.length_cons, List.length_nil]
        exact ⟨by omega, fun he => by omega⟩
      · rw [List.length_append]
        exact ⟨by omega, fun he => ⟨fun hex => absurd hex hany, ih.2 (by omega)⟩⟩

end RecreateAux

open RecreateAux

/-- The updates are those of the groups, whole and each under its own facet, exactly where the last table of every group that has
tables in scope is in scope. -/
theorem groupingExact_iff (env : Env) (notes : List Note) (h : Sorted notes) : GroupingExact env notes ↔ EndsInScope env.regions notes := by
  rw [GroupingExact, manage_eq]
  refine ⟨fun he => ?_, batches_eq_groups env notes h⟩
  have hlen := congrArg List.length he
  rw [List.length_map] at hlen
  exact (length_batches_le env notes h).2 hlen

/-- A group of two regions, of which one is upgraded, and a table of the first region after it. -/
def RecreateAux.twoRegions : List Note :=
  let t : Note := ⟨"g", "t", some "r", false, false, false, "CREATE TABLE t(x INTEGER)", [], 1, 1⟩
  [t, { t with tableName := "u", region := some "s", create := "CREATE TABLE u(x INTEGER)", ordinal := 2 },
    { t with groupName := "", tableName := "v", create := "CREATE TABLE v(x INTEGER)", groupOrdinal := 0, ordinal := 3 }]

/-- What is computed of the tables of two regions. -/
theorem RecreateAux.twoRegions_facts : ((twoRegions.Pairwise fun a₁ a₂ => recreateComparator a₁ a₂ < 0) ∧
      (∀ a₁ ∈ twoRegions, ∀ a₂ ∈ twoRegions, a₁.groupOrdinal = a₂.groupOrdinal ↔ a₁.key = a₂.key) ∧
      twoRegions.Pairwise fun a₁ a₂ => a₁.groupName = "" → a₁.key ≠ a₂.key) ∧
    ¬GroupingExact ⟨⟨some ["r"], none⟩, []⟩ twoRegions := by
  decide +kernel

theorem RecreateAux.sorted_twoRegions : Sorted twoRegions := by
  obtain ⟨⟨inOrder, numbered, distinct⟩, -⟩ := twoRegions_facts
  exact ⟨inOrder, numbered, distinct⟩

/-- The table of the group would be created with the table after it. -/
theorem groupingExact_false : ¬∀ (env : Env) (notes : List Note), Sorted notes → GroupingExact env notes := by
  intro h
  exact twoRegions_facts.2 (h ⟨⟨some ["r"], none⟩, []⟩ twoRegions sorted_twoRegions)

theorem groupingExact_iff_twoRegions : GroupingExact ⟨⟨none, none⟩, []⟩ twoRegions ↔ EndsInScope ⟨none, none⟩ twoRegions :=
  groupingExact_iff ⟨⟨none, none⟩, []⟩ twoRegions sorted_twoRegions

/-! ## Changes -/

namespace RecreateAux

theorem updates_eq (env : Env) (notes : List Note) : updates env notes = (batches env.regions [] notes).map fun t => (t.update env, t) := by
  rw [updates, manage_eq, ← List.zip_map', List.map_id']

theorem update_of_mem {env : Env} {notes : List Note} {p : Update × Batch} (h : p ∈ updates env notes) : p.1 = p.2.update env := by
  rw [updates_eq] at h
  obtain ⟨t, -, rfl⟩ := List.mem_map.mp h
  rfl

end RecreateAux

/-- A change of a group is seen exactly where some text enters the two checksums with different parities. -/
theorem detectsChange_iff (env₁ env₂ : Env) (notes₁ notes₂ : List Note) (p q : Update × Batch) (hp : p ∈ updates env₁ notes₁)
    (hq : q ∈ updates env₂ notes₂) (hind : Independent crcCharbuf (p.2.contributions env₁ ++ q.2.contributions env₂)) :
    DetectsChange p.1 q.1 ↔ (p.1.facet = q.1.facet → p.1.text ≠ q.1.text → OddlyDiffer (p.2.contributions env₁) (q.2.contributions env₂)) := by
  have hcrc : p.1.tableCrc ≠ q.1.tableCrc ↔ OddlyDiffer (p.2.contributions env₁) (q.2.contributions env₂) := by
    rw [update_of_mem hp, update_of_mem hq, OddlyDiffer, ← not_forall, not_iff_not]
    exact hind.xorAll_eq_iff (List.subset_append_left _ _) (List.subset_append_right _ _)
  rw [DetectsChange, hcrc]

/-- A group of two tables, of which the first has an index. -/
def RecreateAux.indexed (index : String) : List Note :=
  let t : Note := ⟨"g", "t", none, false, false, false, "CREATE TABLE t(x INTEGER)", [⟨index, false⟩], 1, 1⟩
  [t, { t with tableName := "u", create := "CREATE TABLE u(x INTEGER)", indexList := [], ordinal := 2 }]

/-- What is upgraded where no regions are given and there are no migration procedures. -/
def RecreateAux.everything : Env := ⟨⟨none, none⟩, []⟩

namespace RecreateAux

/-- The one update of the group. -/
def indexedBatch (index : String) : Batch := ⟨(indexed index).take 1, (indexed index).getLast (by simp [indexed])⟩

theorem mem_updates_indexed (index : String) :
    ((indexedBatch index).update everything, indexedBatch index) ∈ updates everything (indexed index) := by
  rw [updates_eq]
  refine List.mem_map.mpr ⟨indexedBatch index, ?_, rfl⟩
  simp [indexed, batches, Note.included, includeFromRegion, everything, Note.held, sameName, indexedBatch]

/-- What is computed of the two groups: both are sorted, their texts have independent checksums, and their updates have one facet and
one checksum but not one text. -/
theorem indexed_facts : (∀ index ∈ ["CREATE INDEX i ON t(x)", "CREATE INDEX j ON t(x)"],
      ((indexed index).Pairwise fun a₁ a₂ => recreateComparator a₁ a₂ < 0) ∧
      (∀ a₁ ∈ indexed index, ∀ a₂ ∈ indexed index, a₁.groupOrdinal = a₂.groupOrdinal ↔ a₁.key = a₂.key) ∧
      (indexed index).Pairwise fun a₁ a₂ => a₁.groupName = "" → a₁.key ≠ a₂.key) ∧
    (["", "CREATE TABLE t(x INTEGER); ", "CREATE TABLE u(x INTEGER); ", "CREATE INDEX i ON t(x);", "CREATE INDEX j ON t(x);"].Nodup ∧
      ((indexedBatch "CREATE INDEX i ON t(x)").contributions everything ++ (indexedBatch "CREATE INDEX j ON t(x)").contributions everything) ⊆
        ["", "CREATE TABLE t(x INTEGER); ", "CREATE TABLE u(x INTEGER); ", "CREATE INDEX i ON t(x);", "CREATE INDEX j ON t(x);"] ∧
      ∀ s ∈ ["", "CREATE TABLE t(x INTEGER); ", "CREATE TABLE u(x INTEGER); ", "CREATE INDEX i ON t(x);", "CREATE INDEX j ON t(x);"].sublists,
        xorAll crcCharbuf s = 0#64 → s = []) ∧
    let u := (indexedBatch "CREATE INDEX i ON t(x)").update everything
    let v := (indexedBatch "CREATE INDEX j ON t(x)").update everything
    u.facet = v.facet ∧ u.text ≠ v.text ∧ u.tableCrc = v.tableCrc := by
  decide +kernel

theorem sorted_indexed {index : String} (h : index ∈ ["CREATE INDEX i ON t(x)", "CREATE INDEX j ON t(x)"]) : Sorted (indexed index) := by
  obtain ⟨inOrder, numbered, distinct⟩ := indexed_facts.1 index h
  exact ⟨inOrder, numbered, distinct⟩

theorem independent_indexed : Independent crcCharbuf ((indexedBatch "CREATE INDEX i ON t(x)").contributions everything ++
      (indexedBatch "CREATE INDEX j ON t(x)").contributions everything) := by
  obtain ⟨hnodup, hsub, hzero⟩ := indexed_facts.2.1
  exact independent_of_sublists hnodup hsub hzero

end RecreateAux

/-- Another index of the first table of a group of two is not seen. -/
theorem detectsChange_false : ¬∀ (env₁ env₂ : Env) (notes₁ notes₂ : List Note), Sorted notes₁ → Sorted notes₂ →
    ∀ p ∈ updates env₁ notes₁, ∀ q ∈ updates env₂ notes₂,
      Independent crcCharbuf (p.2.contributions env₁ ++ q.2.contributions env₂) → DetectsChange p.1 q.1 := by
  intro h
  obtain ⟨hfacet, htext, hcrc⟩ := indexed_facts.2.2
  exact h everything everything _ _ (sorted_indexed (by simp)) (sorted_indexed (by simp)) _ (mem_updates_indexed _) _
    (mem_updates_indexed _) independent_indexed hfacet htext hcrc

theorem detectsChange_iff_indexed :
    DetectsChange ((indexedBatch "CREATE INDEX i ON t(x)").update everything) ((indexedBatch "CREATE INDEX j ON t(x)").update everything) ↔
      (((indexedBatch "CREATE INDEX i ON t(x)").update everything).facet = ((indexedBatch "CREATE INDEX j ON t(x)").update everything).facet →
        ((indexedBatch "CREATE INDEX i ON t(x)").update everything).text ≠ ((indexedBatch "CREATE INDEX j ON t(x)").update everything).text →
        OddlyDiffer ((indexedBatch "CREATE INDEX i ON t(x)").contributions everything)
          ((indexedBatch "CREATE INDEX j ON t(x)").contributions everything)) :=
  detectsChange_iff everything everything _ _ _ _ (mem_updates_indexed _) (mem_updates_indexed _) independent_indexed

end CgSql.Recreate
