import CgSql.LuaCompare

/-!
# Equality of cursors in Lua

Equality walks the entries of the first table, and a column that is `nil` has none there. So a row is equal to every row that has the same
values and more of them, one way round, where the two searches for a difference find that column.
-/

namespace CgSql.LuaCompare

variable {R : Type}

namespace CompareAux

/-! ### Values -/

theorem rawEqual_value_comm (F : FloatEq R) (v w : Value R) : v.rawEqual F w = w.rawEqual F v := by
  cases v <;> cases w <;> simp [Value.rawEqual, eq_comm, F.comm]

theorem rawEqual_comm (F : FloatEq R) (v w : Option (Value R)) : rawEqual F v w = rawEqual F w v := by
  cases v with
  | none => cases w <;> rfl
  | some v =>
    cases w with
    | none => rfl
    | some w => exact rawEqual_value_comm F v w

/-- Of the values only `false` is no truth. -/
theorem eq_false_of_not_truthy {v : Value R} (h : truthy (some v) = false) : v = .boolean false := by
  cases v with
  | boolean b =>
    cases b with
    | false => rfl
    | true => cases h
  | _ => cases h

theorem truthy_congr (F : FloatEq R) {v w : Value R} (h : v.rawEqual F w = true) : truthy (some v) = truthy (some w) := by
  cases v <;> cases w <;> simp_all [Value.rawEqual, truthy]

/-! ### Tables -/

theorem mem_entries_iff (t : Table R) (k : String) (v : Value R) : (k, v) ∈ t.entries ↔ t.get k = some v := by
  obtain ⟨entries, nodup⟩ := t
  unfold Table.get
  induction entries with
  | nil => simp
  | cons e entries ih =>
    obtain ⟨k', v'⟩ := e
    rw [List.map_cons, List.nodup_cons] at nodup
    simp only [List.mem_cons, Prod.mk.injEq, List.lookup_cons]
    by_cases hk : k = k'
    · subst hk
      have hnot : (k, v) ∉ entries := fun h => nodup.1 (List.mem_map.mpr ⟨(k, v), h, rfl⟩)
      simp [hnot, eq_comm]
    · have hbeq : (k == k') = false := by simpa using hk
      simp only [hbeq, hk, false_and, false_or]
      exact ih nodup.2

/-- Every entry of the first table is in the second. -/
def Within (F : FloatEq R) (s t : Table R) : Prop := ∀ k v, s.get k = some v → rawEqual F (some v) (t.get k) = true

/-- The walk over the entries of a table. -/
theorem all_entries_iff (F : FloatEq R) (s t : Table R) : (s.entries.all fun (k, v) => rawEqual F (some v) (t.get k)) = true ↔ Within F s t := by
  rw [List.all_eq_true]
  constructor
  · intro h k v hv
    exact h (k, v) ((mem_entries_iff s k v).mpr hv)
  · rintro h ⟨k, v⟩ hmem
    exact h k v ((mem_entries_iff s k v).mp hmem)

/-- The columns of two tables are the same, `nil` in both or equal. -/
def SameColumns (F : FloatEq R) (fields : List String) (s t : Table R) : Prop :=
  ∀ k ∈ fields, rawEqual F (s.get k) (t.get k) = true

/-- The search by index finds no column where all are the same. -/
theorem diffIndexLoop_iff (F : FloatEq R) (s t : Table R) (fields : List String) :
    ∀ i, ∃ d, diffIndexLoop F s t i fields fields = some d ∧ (d = -1 ↔ SameColumns F fields s t) := by
  induction fields with
  | nil =>
    intro i
    exact ⟨-1, rfl, by simp [SameColumns]⟩
  | cons k fields ih =>
    intro i
    rw [diffIndexLoop, if_neg (by simp)]
    by_cases hk : rawEqual F (s.get k) (t.get k) = true
    · obtain ⟨d, hd, hsame⟩ := ih (i + 1)
      exact ⟨d, by simp [hk, hd], by simp [hsame, SameColumns, hk]⟩
    · refine ⟨i, by simp [hk], ?_⟩
      have hne : (i : Int) ≠ -1 := by omega
      simp [hne, SameColumns, hk]

/-- So does the search by name. -/
theorem diffColLoop_iff (F : FloatEq R) (s t : Table R) (fields : List String) :
    diffColLoop F s t fields fields = none ↔ SameColumns F fields s t := by
  induction fields with
  | nil => simp [diffColLoop, SameColumns]
  | cons k fields ih =>
    rw [diffColLoop, if_neg (by simp)]
    by_cases hk : rawEqual F (s.get k) (t.get k) = true
    · simp [hk, ih, SameColumns]
    · simp [hk, SameColumns]

/-! ### Rows -/

variable {F : FloatEq R} {fields : List String} {a b : Cursor R fields} {s t : Table R}

/-- Rows with the same flag and the same columns have the same entries. -/
theorem within_of_same (ha : a.table = some s) (hflag : rawEqual F (s.get hasRow) (t.get hasRow) = true)
    (h : SameColumns F fields s t) : Within F s t := by
  intro k v hv
  rcases a.keys s ha k (by simp [hv]) with rfl | hk
  · rw [← hv]
    exact hflag
  · rw [← hv]
    exact h k hk

/-- A row whose entries are those of another has its columns, unless it is that row with columns set to `nil`. -/
theorem same_of_within (ha : a.table = some s) (hrow : truthy (s.get hasRow) = true) (h : Within F s t)
    (hblank : ¬Blanked F fields s t) : rawEqual F (s.get hasRow) (t.get hasRow) = true ∧ SameColumns F fields s t := by
  constructor
  · obtain ⟨v, hv⟩ := a.flag s ha
    rw [hv]
    exact h hasRow v hv
  · intro k hk
    cases hs : s.get k with
    | some v => exact h k v hs
    | none =>
      cases ht : t.get k with
      | none => rfl
      | some w => exact absurd ⟨hrow, h, k, hk, hs, by simp [ht]⟩ hblank

/-- A row with columns set to `nil` is not the same as the other row. -/
theorem not_same_of_blanked (h : Blanked F fields s t) : ¬SameColumns F fields s t ∧ ¬SameColumns F fields t s := by
  obtain ⟨-, -, k, hk, hs, ht⟩ := h
  obtain ⟨w, hw⟩ := Option.ne_none_iff_exists'.mp ht
  constructor
  · intro hsame
    have := hsame k hk
    simp [hs, hw, rawEqual] at this
  · intro hsame
    have := hsame k hk
    simp [hs, hw, rawEqual] at this

/-- A row that is another with columns set to `nil` is beside a row. -/
theorem truthy_of_blanked (ha : a.table = some s) (hb : b.table = some t) (h : Blanked F fields s t) : truthy (t.get hasRow) = true := by
  obtain ⟨v, hv⟩ := a.flag s ha
  obtain ⟨w, hw⟩ := b.flag t hb
  have hraw := h.2.1 hasRow v hv
  have hrow := h.1
  rw [hw] at hraw ⊢
  rw [hv] at hrow
  rw [← truthy_congr F hraw]
  exact hrow

/-! ### The comparisons -/

/-- Two rows: equality is that of the entries, and the searches look at the flag and the columns. -/
theorem agrees_rows_iff (types : Bytes) (ha : a.table = some s) (hb : b.table = some t) (hs : truthy (s.get hasRow) = true)
    (ht : truthy (t.get hasRow) = true) :
    Agrees F types a b ↔ (Within F s t ↔ Within F t s) ∧
      (Within F s t ↔ rawEqual F (s.get hasRow) (t.get hasRow) = true ∧ SameColumns F fields s t) := by
  obtain ⟨d, hd, hsame⟩ := diffIndexLoop_iff F s t fields 0
  have hcol := diffColLoop_iff F s t fields
  rw [Agrees, ha, hb, cqlCursorsEqual, cqlCursorsEqual, cqlCursorDiffIndex, cqlCursorDiffCol]
  simp only [ne_eq, not_true_eq_false, if_false, hs, ht, Bool.not_true, Bool.false_and, Bool.or_self, Bool.false_eq_true, Table.border,
    Option.bind_eq_bind, Option.bind_some]
  refine and_congr ?_ ?_
  · rw [Bool.eq_iff_iff, all_entries_iff, all_entries_iff]
  · rw [all_entries_iff]
    cases hflag : rawEqual F (s.get hasRow) (t.get hasRow) with
    | false => simp
    | true =>
      simp only [Bool.not_true, Bool.false_eq_true, if_false, hd, true_and, Option.pure_def, Option.some.injEq]
      constructor
      · rintro ⟨index, col, hi, hc, h⟩
        rw [h, ← hi, ← hc, hsame, hcol, and_self]
      · intro h
        exact ⟨d, _, rfl, rfl, by rw [h, hsame, hcol, and_self]⟩

/-- Where one of the two has no row, the comparisons look at the flags only, and agree. -/
theorem agrees_of_noRow (types : Bytes) (ha : a.table = some s) (hb : b.table = some t)
    (h : truthy (s.get hasRow) = false ∨ truthy (t.get hasRow) = false) : Agrees F types a b := by
  obtain ⟨v, hv⟩ := a.flag s ha
  obtain ⟨w, hw⟩ := b.flag t hb
  rw [Agrees, ha, hb, cqlCursorsEqual, cqlCursorsEqual, cqlCursorDiffIndex, cqlCursorDiffCol]
  simp only [ne_eq, not_true_eq_false, if_false, hv, hw, Option.bind_eq_bind, Option.bind_some] at h ⊢
  cases htv : truthy (some v) with
  | false =>
    cases eq_false_of_not_truthy htv
    cases htw : truthy (some w) with
    | false =>
      cases eq_false_of_not_truthy htw
      simp [rawEqual, Value.rawEqual]
    | true =>
      have hne : Value.rawEqual F (.boolean false) w = false := by
        by_contra hraw
        have := truthy_congr F (Bool.eq_true_of_not_eq_false hraw)
        rw [htv, htw] at this
        cases this
      simp [rawEqual, hne]
  | true =>
    have htw : truthy (some w) = false := h.resolve_left (by simp [htv])
    cases eq_false_of_not_truthy htw
    have hne : Value.rawEqual F v (.boolean false) = false := by
      by_contra hraw
      have := truthy_congr F (Bool.eq_true_of_not_eq_false hraw)
      rw [htv, htw] at this
      cases this
    simp [rawEqual, hne, htw]

end CompareAux

open CompareAux in
/-- Equality is symmetric and agrees with the searches for a difference exactly for two tables neither of which is the other row with
columns set to `nil`. -/
theorem agrees_iff (F : FloatEq R) (types : Bytes) (fields : List String) (a b : Cursor R fields) : Agrees F types a b ↔
      ∃ s t, a.table = some s ∧ b.table = some t ∧ ¬Blanked F fields s t ∧ ¬Blanked F fields t s := by
  cases ha : a.table with
  | none => simp [Agrees, cqlCursorDiffIndex, ha]
  | some s =>
    cases hb : b.table with
    | none => simp [Agrees, cqlCursorDiffIndex, ha, hb]
    | some t =>
      simp only [Option.some.injEq, exists_and_left, exists_eq_left']
      by_cases hrows : truthy (s.get hasRow) = true ∧ truthy (t.get hasRow) = true
      · obtain ⟨hs, ht⟩ := hrows
        rw [agrees_rows_iff types ha hb hs ht]
        constructor
        · rintro ⟨hcomm, hsame⟩
          constructor
          · intro hblank
            exact (not_same_of_blanked hblank).1 (hsame.mp hblank.2.1).2
          · intro hblank
            exact (not_same_of_blanked hblank).2 (hsame.mp (hcomm.mpr hblank.2.1)).2
        · rintro ⟨hst, hts⟩
          have hfwd : Within F s t ↔ rawEqual F (s.get hasRow) (t.get hasRow) = true ∧ SameColumns F fields s t :=
            ⟨fun h => same_of_within ha hs h hst, fun h => within_of_same ha h.1 h.2⟩
          have hbwd : Within F t s ↔ rawEqual F (t.get hasRow) (s.get hasRow) = true ∧ SameColumns F fields t s :=
            ⟨fun h => same_of_within hb ht h hts, fun h => within_of_same hb h.1 h.2⟩
          refine ⟨?_, hfwd⟩
          rw [hfwd, hbwd]
          simp only [SameColumns, rawEqual_comm F (t.get _)]
      · have hno : truthy (s.get hasRow) = false ∨ truthy (t.get hasRow) = false :=
          (not_and_or.mp hrows).imp Bool.eq_false_of_not_eq_true Bool.eq_false_of_not_eq_true
        refine iff_of_true (agrees_of_noRow types ha hb hno) ⟨?_, ?_⟩
        · intro hblank
          exact hrows ⟨hblank.1, truthy_of_blanked ha hb hblank⟩
        · intro hblank
          exact hrows ⟨truthy_of_blanked hb ha hblank, hblank.1⟩

namespace CompareAux

/-- A row with the columns that are given. -/
def rowOf (columns : List (String × Value Unit)) (nodup : ((hasRow :: columns.map Prod.fst)).Nodup)
    (keys : ∀ p ∈ columns, p.1 ∈ ["x", "y"]) : Cursor Unit ["x", "y"] where
  table := some ⟨(hasRow, .boolean true) :: columns, nodup⟩
  flag t ht := ⟨.boolean true, by cases ht; rfl⟩
  keys t ht k hk := by
    cases ht
    obtain ⟨v, hv⟩ := Option.ne_none_iff_exists'.mp hk
    rcases List.mem_cons.mp ((mem_entries_iff _ k v).mpr hv) with h | h
    · exact Or.inl (congrArg Prod.fst h)
    · exact Or.inr (keys _ h)

end CompareAux

open CompareAux in
/-- A row with `y` null is equal to the one where `y` is 2, but not the other way round. -/
theorem agrees_false : ¬∀ (F : FloatEq Unit) (types : Bytes) (fields : List String) (a b : Cursor Unit fields), Agrees F types a b := by
  intro h
  have hrows := (h ⟨fun _ _ => true, fun _ _ => false, fun _ _ => rfl⟩ [70, 102] ["x", "y"] (rowOf [("x", .integer 1)] (by decide) (by decide))
    (rowOf [("x", .integer 1), ("y", .integer 2)] (by decide) (by decide))).1
  revert hrows
  decide

end CgSql.LuaCompare
