import CgSql.Backed

/-!
# Addresses of stored fields

Offsets are looked up by names in any case, so they are the same at every use. The members of a JSON object and the descriptions of
hashed fields are made of the name as it is spelled at each use.
-/

namespace CgSql.Backed

open Nullability (sameName)

namespace BackedAux

variable {t : BackedTable} {isPk : Bool} {w r : String}

/-! ## Names -/

theorem sameName_iff {a b : String} : sameName a b = true ↔ a.toLower = b.toLower := by
  simp [sameName]

/-- Names are compared letter by letter. -/
theorem sameName_eq (a b : String) : sameName a b = decide (a.toList.map Char.toLower = b.toList.map Char.toLower) := by
  have h : a.toLower = b.toLower ↔ a.toList.map Char.toLower = b.toList.map Char.toLower := by
    change a.map Char.toLower = b.map Char.toLower ↔ _
    rw [← String.toList_inj, String.toList_map, String.toList_map]
  simp only [sameName, h]

/-- A name finds what another spelling of it finds. -/
theorem lookup_congr (h : sameName w r = true) : (fun c : Column => sameName w c.name) = fun c => sameName r c.name := by
  rw [sameName_iff] at h
  simp [sameName, h]

/-! ## Offsets -/

theorem offset_congr (h : sameName w r = true) (searchForKeys : Bool) :
    t.getTableColOffset w searchForKeys = t.getTableColOffset r searchForKeys := by
  rw [BackedTable.getTableColOffset, BackedTable.getTableColOffset, lookup_congr h]

/-- A column of a blob has an offset in it. -/
theorem offset_of_hasColumn (h : t.HasColumn isPk w) :
    ∃ (i : Nat) (hi : i < (t.cols isPk).length), t.getTableColOffset w isPk = i ∧ sameName w (t.cols isPk)[i].name = true := by
  obtain ⟨c, hc, hwc⟩ := h
  cases hf : (t.cols isPk).findIdx? fun c => sameName w c.name with
  | none =>
    rw [List.findIdx?_eq_none_iff] at hf
    rw [hf c hc] at hwc
    cases hwc
  | some i =>
    obtain ⟨hi, hwi, -⟩ := List.findIdx?_eq_some_iff_getElem.mp hf
    exact ⟨i, hi, by simp [BackedTable.getTableColOffset, hf], hwi⟩

/-- Offsets tell the columns of a blob apart. -/
theorem offset_eq_iff (hw : t.HasColumn isPk w) (hr : t.HasColumn isPk r) :
    t.getTableColOffset w isPk = t.getTableColOffset r isPk ↔ sameName w r = true := by
  refine ⟨fun he => ?_, fun h => offset_congr h isPk⟩
  obtain ⟨i, hi, hwi, hwn⟩ := offset_of_hasColumn hw
  obtain ⟨j, hj, hrj, hrn⟩ := offset_of_hasColumn hr
  obtain rfl : i = j := by
    rw [hwi, hrj] at he
    exact_mod_cast he
  rw [sameName_iff] at hwn hrn ⊢
  rw [hwn, hrn]

theorem offset_nonneg (h : t.HasColumn isPk w) : 0 ≤ t.getTableColOffset w isPk := by
  obtain ⟨i, -, hi, -⟩ := offset_of_hasColumn h
  omega

/-- A value column is not a key column. -/
theorem offset_true_of_value (ht : t.Accepted) (h : t.HasColumn false w) : t.getTableColOffset w true = -1 := by
  obtain ⟨c, hc, hwc⟩ := h
  have hnone : t.keyCols.findIdx? (fun c => sameName w c.name) = none := by
    rw [List.findIdx?_eq_none_iff]
    intro d hd
    have hdc := (List.pairwise_append.mp ht.distinct).2.2 d hd c hc
    rw [sameName_iff] at hwc
    rw [Bool.eq_false_iff, Ne, sameName_iff] at hdc ⊢
    exact fun e => hdc (e ▸ hwc)
  simp [BackedTable.getTableColOffset, BackedTable.cols, hnone]

/-! ## Descriptions -/

theorem findColumn_congr (h : sameName w r = true) : t.findColumn w = t.findColumn r := by
  rw [BackedTable.findColumn, BackedTable.findColumn, lookup_congr h]

theorem findColumn_of_hasColumn (h : t.HasColumn isPk w) : ∃ c, t.findColumn w = some c := by
  obtain ⟨c, hc, hwc⟩ := h
  rw [← Option.isSome_iff_exists, BackedTable.findColumn, List.find?_isSome]
  refine ⟨c, ?_, hwc⟩
  cases isPk <;> simp_all [BackedTable.cols]

/-- No colon is part of a type. -/
theorem colon_not_mem_typeDesc (c : Column) : ':' ∉ typeDesc c := by
  unfold typeDesc
  cases c.nullable <;> cases c.type <;> decide

theorem typeDesc_inj {c d : Column} : typeDesc c = typeDesc d ↔ (c.type, c.nullable) = (d.type, d.nullable) := by
  unfold typeDesc
  rw [Prod.mk.injEq]
  cases c.nullable <;> cases d.nullable <;> cases c.type <;> cases d.type <;> decide

/-- What stands before and after the last colon is determined. -/
theorem append_colon_inj {a b x y : List Char} (hx : ':' ∉ x) (hy : ':' ∉ y) : a ++ ':' :: x = b ++ ':' :: y ↔ a = b ∧ x = y := by
  refine ⟨fun h => ?_, fun ⟨h₁, h₂⟩ => by rw [h₁, h₂]⟩
  rw [List.append_eq_append_iff] at h
  rcases h with ⟨m, rfl, hm⟩ | ⟨m, rfl, hm⟩
  · cases m with
    | nil => simpa using hm
    | cons d m =>
      simp only [List.cons_append, List.cons.injEq] at hm
      exact absurd (by simp [hm.2]) hx
  · cases m with
    | nil => simpa [eq_comm] using hm
    | cons d m =>
      simp only [List.cons_append, List.cons.injEq] at hm
      exact absurd (by simp [hm.2]) hy

/-- Descriptions differ in the camel case of the name or in the type. -/
theorem fieldDesc_inj {c d : Column} : fieldDesc w c = fieldDesc r d ↔
    camelCase false w.toList = camelCase false r.toList ∧ (c.type, c.nullable) = (d.type, d.nullable) := by
  rw [fieldDesc, fieldDesc, append_colon_inj (colon_not_mem_typeDesc c) (colon_not_mem_typeDesc d), typeDesc_inj]

/-! ## Addresses -/

theorem blobGet_key (h : t.HasColumn true r) : t.blobGet r = if t.useJson then .element (t.getTableColOffset r true + 1)
    else if t.keyUseOffsets then .offset (t.getTableColOffset r true) else t.fieldHash r := by
  have hpos := offset_nonneg h
  unfold BackedTable.blobGet
  simp [hpos, Int.not_lt.mpr hpos]

theorem blobGet_value (ht : t.Accepted) (h : t.HasColumn false r) : t.blobGet r =
    if t.useJson then .member r else if t.valUseOffsets then .offset (t.getTableColOffset r false) else t.fieldHash r := by
  unfold BackedTable.blobGet
  simp [offset_true_of_value ht h]

/-- Hashed fields are told apart where the names of one column have one camel case, and those of two columns of a type have two. -/
theorem fieldHash_iff (hw : t.HasColumn isPk w) (hr : t.HasColumn isPk r) : (t.fieldHash w = t.fieldHash r ↔ sameName w r = true) ↔
    (sameName w r = true → camelCase false w.toList = camelCase false r.toList) ∧
      (sameName w r = false → camelCase false w.toList = camelCase false r.toList →
        (t.findColumn w).map (fun c => (c.type, c.nullable)) ≠ (t.findColumn r).map fun c => (c.type, c.nullable)) := by
  obtain ⟨c, hc⟩ := findColumn_of_hasColumn hw
  obtain ⟨d, hd⟩ := findColumn_of_hasColumn hr
  have hsame : sameName w r = true → (c.type, c.nullable) = (d.type, d.nullable) := by
    intro h
    have he := findColumn_congr (t := t) h
    rw [hc, hd, Option.some.injEq] at he
    rw [he]
  simp only [BackedTable.fieldHash, hc, hd, Option.map_some, Address.field.injEq, Option.some.injEq, fieldDesc_inj, ne_eq]
  cases hwr : sameName w r with
  | true => simpa using fun _ => hsame hwr
  | false => simp

end BackedAux

open BackedAux

/-- A field that is written under one name is read under another exactly as it should be where the names are spelled well. -/
theorem wellAddressed_iff (t : BackedTable) (isPk : Bool) (write : Write) (w r : String) (ht : t.Accepted) (hw : t.HasColumn isPk w)
    (hr : t.HasColumn isPk r) : WellAddressed t isPk write w r ↔ SpelledWell t isPk write w r := by
  unfold WellAddressed SpelledWell BackedTable.addressing
  have hoffset := offset_eq_iff hw hr
  have hhash := fieldHash_iff hw hr
  have hname : (w = r ↔ sameName w r = true) ↔ (sameName w r = true → w = r) :=
    ⟨Iff.mpr, fun h => ⟨fun e => by rw [e, sameName_iff], h⟩⟩
  cases isPk with
  | true =>
    rw [blobGet_key hr]
    cases write with
    | create i => cases hj : t.useJson <;> cases hk : t.keyUseOffsets <;> simp [Write.address, BackedTable.blobCreate, hj, hk, hhash]
    | update =>
      cases hj : t.useJson <;> cases hk : t.keyUseOffsets <;> simp [Write.address, BackedTable.blobUpdate, hj, hk, hhash, hoffset]
  | false =>
    rw [blobGet_value ht hr]
    cases write with
    | create i =>
      cases hj : t.useJson <;> cases hv : t.valUseOffsets <;> simp [Write.address, BackedTable.blobCreate, hj, hv, hhash, hoffset, hname]
    | update =>
      cases hj : t.useJson <;> cases hv : t.valUseOffsets <;> simp [Write.address, BackedTable.blobUpdate, hj, hv, hhash, hoffset, hname]

/-- A table with a key and two values, addressed as they are by default. -/
def BackedAux.pair : BackedTable where
  keyCols := [⟨"id", .integer, false⟩]
  valueCols := [⟨"a_b", .integer, true⟩, ⟨"aB", .integer, true⟩]
  keyUseOffsets := true
  valUseOffsets := false
  useJson := false

theorem BackedAux.pair_accepted : pair.Accepted := by
  refine ⟨?_, by decide, by decide, by decide⟩
  simp only [pair, sameName_eq]
  decide

theorem BackedAux.pair_hasColumn : pair.HasColumn false "a_b" ∧ pair.HasColumn false "A_B" ∧ pair.HasColumn false "aB" := by
  simp only [BackedTable.HasColumn, sameName_eq]
  decide

/-- A field that is written in capitals is not the one that is read. -/
theorem wellAddressed_false : ¬∀ (t : BackedTable) (isPk : Bool) (write : Write) (w r : String), t.Accepted → t.HasColumn isPk w →
    t.HasColumn isPk r → write.InPlace t isPk w → WellAddressed t isPk write w r := by
  intro h
  obtain ⟨hr, hw, -⟩ := pair_hasColumn
  have hupdate := h pair false .update "A_B" "a_b" pair_accepted hw hr trivial
  rw [WellAddressed, blobGet_value pair_accepted hr] at hupdate
  have hcamel := ((fieldHash_iff hw hr).mp hupdate).1 (by rw [sameName_eq]; decide)
  exact absurd hcamel (by decide)

theorem wellAddressed_iff_pair : WellAddressed pair false .update "a_b" "aB" ↔ SpelledWell pair false .update "a_b" "aB" :=
  wellAddressed_iff pair false .update "a_b" "aB" pair_accepted pair_hasColumn.1 pair_hasColumn.2.2

end CgSql.Backed
