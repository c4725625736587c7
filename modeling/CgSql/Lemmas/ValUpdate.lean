import CgSql.Lemmas.KeyUpdate
import CgSql.Lemmas.ValRead
import CgSql.Lemmas.WriterFrame

/-!
# Updates of value blobs

The first pass of `bupdateval` marks the type codes of the fields that it finds, and counts what is added, replaced and deleted. A
field that is named again is found with its marked code, which only a null value passes. The second pass writes the new fields, and
the final pass copies the fields whose codes are not marked.
-/

namespace CgSql.Blobs

namespace BlobAux

variable {fields : List Field} {s : Sqlite}

/-! ## The first pass -/

/-- The id that an update names. -/
def updateId (u : SqlValue × SqlValue × SqlValue) : BitVec 64 :=
  match u.1 with
  | .integer fieldId => fieldId
  | _ => 0

/-- The column where the field is stored. -/
def place (fields : List Field) (u : SqlValue × SqlValue × SqlValue) : Option Nat := fields.findIdx? fun f => f.id = updateId u

/-- What an update does to the columns that are done, to the number of columns and to the variable size. -/
inductive Effect (s : Sqlite) (fields : List Field) (done : List Nat) (u : SqlValue × SqlValue × SqlValue) :
    List Nat → Int → Int → Prop
  | skipped (hplace : place fields u = none) (hnull : u.2.1 = .null) : Effect s fields done u done 0 0
  | added {size : Nat} (hplace : place fields u = none) (hnull : u.2.1 ≠ .null)
      (hsize : blobtypeVsArgtypeCompat u.2.1 (typeArg s u.2.2) = some size) : Effect s fields done u done 1 size
  | deleted {i : Nat} {f : Field} (hplace : place fields u = some i) (hf : fields[i]? = some f) (hclean : i ∉ done)
      (htype : typeArg s u.2.2 = f.cell.type.code) (hnull : u.2.1 = .null) : Effect s fields done u (i :: done) (-1) 0
  | replaced {i size : Nat} {f : Field} (hplace : place fields u = some i) (hf : fields[i]? = some f) (hclean : i ∉ done)
      (htype : typeArg s u.2.2 = f.cell.type.code) (hnull : u.2.1 ≠ .null)
      (hsize : blobtypeVsArgtypeCompat u.2.1 (typeArg s u.2.2) = some size) :
      Effect s fields done u (i :: done) 0 (size - f.cell.extra.length)
  | repeated {i : Nat} {f : Field} (hplace : place fields u = some i) (hf : fields[i]? = some f) (hdone : i ∈ done)
      (htype : typeArg s u.2.2 = f.cell.type.code ||| dirty) (hnull : u.2.1 = .null) :
      Effect s fields done u (i :: done) (-1) 0

/-- What updates do, one after the other. -/
inductive Effects (s : Sqlite) (fields : List Field) :
    List Nat → List (SqlValue × SqlValue × SqlValue) → List Nat → Int → Int → Prop
  | nil (done : List Nat) : Effects s fields done [] done 0 0
  | cons {done done' done'' : List Nat} {u : SqlValue × SqlValue × SqlValue} {us : List (SqlValue × SqlValue × SqlValue)}
      {columns columns' size size' : Int} (hint : u.1.isInteger = true) (head : Effect s fields done u done' columns size)
      (tail : Effects s fields done' us done'' columns' size') :
      Effects s fields done (u :: us) done'' (columns + columns') (size + size')

/-- Marked codes are not those of types. -/
theorem ofCode?_dirty (t : BlobType) : BlobType.ofCode? (t.code ||| dirty) = none ∧ t.code ||| dirty ||| dirty = t.code ||| dirty := by
  cases t <;> decide

theorem compat_dirty (v : SqlValue) (t : BlobType) : blobtypeVsArgtypeCompat v (t.code ||| dirty) = none := by
  unfold blobtypeVsArgtypeCompat
  rw [(ofCode?_dirty t).1]

/-- A column that is marked again stays marked. -/
theorem set_marked_again {cells : List Cell} {done : List Nat} {i : Nat} (h : i < cells.length) :
    (marked cells done).set i (cells[i].type.code ||| dirty ||| dirty) = marked cells (i :: done) := by
  rw [(ofCode?_dirty _).2, set_marked h]

section FirstPass

variable {s : Sqlite} {shape : BlobShape} {head rest : List Byte} {fields : List Field} {ws : List (List Byte)} {done : List Nat}
  {columns size : Int} {u : SqlValue × SqlValue × SqlValue}

/-- What the first pass accepts, and what it leaves. -/
theorem checkValUpdate_ok (hl : Laid shape head (idWords fields) ws (marked (fields.map Field.cell) done))
    (hst : Stored shape ws rest (fields.map Field.cell)) {x : ValSizes} (h : checkValUpdate s shape fields.length
      { block := areas head (idWords fields) ws (marked (fields.map Field.cell) done) rest, columns := columns
        variableSize := size } u = .ok x) :
    u.1.isInteger = true ∧ ∃ done' columns' size', Effect s fields done u done' columns' size' ∧
      x = { block := areas head (idWords fields) ws (marked (fields.map Field.cell) done') rest, columns := columns + columns'
            variableSize := size + size' } := by
  obtain ⟨index, value, type⟩ := u
  rcases index with _ | fieldId | _ | _ | _
  case integer =>
    refine ⟨rfl, ?_⟩
    unfold checkValUpdate at h
    dsimp only at h
    rw [findField_areas hl, ok_bind] at h
    rcases hplace : fields.findIdx? fun f => f.id = fieldId with _ | i
    · rw [hplace] at h
      dsimp only at h
      by_cases hnull : value = .null
      · rw [if_pos hnull] at h
        refine ⟨done, 0, 0, .skipped hplace hnull, ?_⟩
        rw [Int.add_zero, Int.add_zero]
        exact (Except.ok.inj h).symm
      · rw [if_neg hnull] at h
        rcases hsize : blobtypeVsArgtypeCompat value (typeArg s type) with _ | n
        · rw [hsize] at h
          nomatch h
        · rw [hsize] at h
          exact ⟨done, 1, n, .added hplace hnull hsize, (Except.ok.inj h).symm⟩
    · rw [hplace] at h
      dsimp only at h
      obtain ⟨hi, _⟩ := List.findIdx?_eq_some_iff_getElem.1 hplace
      have hf := List.getElem?_eq_getElem hi
      have hic : i < (fields.map Field.cell).length := by rw [List.length_map]; exact hi
      have hm : i < (marked (fields.map Field.cell) done).length := by rw [length_marked]; exact hic
      have hcell : (fields.map Field.cell)[i] = fields[i].cell := List.getElem_map _
      have hset := @set_marked (fields.map Field.cell) i done hic
      have hagain := @set_marked_again (fields.map Field.cell) done i hic
      rw [hl.loadCode rest hm, ok_bind, getElem_marked done hic, hcell] at h
      rw [hcell] at hset hagain
      by_cases hdone : i ∈ done
      · rw [if_pos hdone] at h
        by_cases htype : typeArg s type = fields[i].cell.type.code ||| dirty
        · rw [if_neg (by simpa using htype), hl.storeCode rest hm, ok_bind, htype, hagain] at h
          by_cases hnull : value = .null
          · rw [if_pos hnull] at h
            refine ⟨i :: done, -1, 0, .repeated hplace hf hdone htype hnull, ?_⟩
            rw [Int.add_zero]
            exact (Except.ok.inj h).symm
          · rw [if_neg hnull, compat_dirty] at h
            nomatch h
        · rw [if_pos (by simpa using htype)] at h
          nomatch h
      · rw [if_neg hdone] at h
        by_cases htype : typeArg s type = fields[i].cell.type.code
        · have hl' : Laid shape head (idWords fields) ws (marked (fields.map Field.cell) (i :: done)) := by
            rw [← hset]
            exact hl.setCode i _
          rw [if_neg (by simpa using htype), hl.storeCode rest hm, ok_bind, htype, hset] at h
          by_cases hnull : value = .null
          · rw [if_pos hnull] at h
            refine ⟨i :: done, -1, 0, .deleted hplace hf hdone htype hnull, ?_⟩
            rw [Int.add_zero]
            exact (Except.ok.inj h).symm
          · rw [if_neg hnull] at h
            rcases hsize : blobtypeVsArgtypeCompat value fields[i].cell.type.code with _ | n
            · rw [hsize] at h
              nomatch h
            · have hw : i < ws.length := by rw [hst.count]; exact hic
              have hc : (fields.map Field.cell)[i]? = some fields[i].cell := by rw [List.getElem?_map, hf]; rfl
              have hr := hst.refers i _ _ hc (List.getElem?_eq_getElem hw)
              rw [hsize] at h
              dsimp only at h
              rw [storedSize_eq hl' hw hr, ok_bind] at h
              refine ⟨i :: done, 0, n - fields[i].cell.extra.length, .replaced hplace hf hdone htype hnull (htype ▸ hsize), ?_⟩
              rw [Int.add_zero, ← Except.ok.inj h, Int.add_sub_assoc]
        · rw [if_pos (by simpa using htype)] at h
          nomatch h
  all_goals nomatch h

/-- The whole first pass. -/
theorem checkValUpdates_ok (hst : Stored shape ws rest (fields.map Field.cell)) {us : List (SqlValue × SqlValue × SqlValue)}
    (hl : Laid shape head (idWords fields) ws (marked (fields.map Field.cell) done)) {x : ValSizes}
    (h : us.foldlM (checkValUpdate s shape fields.length)
      { block := areas head (idWords fields) ws (marked (fields.map Field.cell) done) rest, columns := columns
        variableSize := size } = .ok x) :
    ∃ done' columns' size', Effects s fields done us done' columns' size' ∧
      x = { block := areas head (idWords fields) ws (marked (fields.map Field.cell) done') rest, columns := columns + columns'
            variableSize := size + size' } := by
  induction us generalizing done columns size with
  | nil =>
    obtain rfl := Except.ok.inj h
    refine ⟨done, 0, 0, .nil done, ?_⟩
    rw [Int.add_zero, Int.add_zero]
  | cons u us ih =>
    rw [List.foldlM_cons] at h
    obtain ⟨y, hy, h⟩ := bind_eq_ok h
    obtain ⟨hint, done1, columns1, size1, heffect, rfl⟩ := checkValUpdate_ok hl hst hy
    obtain ⟨done2, columns2, size2, heffects, rfl⟩ := ih (hl.codes (by rw [length_marked, length_marked])) h
    refine ⟨done2, columns1 + columns2, size1 + size2, .cons hint heffect heffects, ?_⟩
    rw [Int.add_assoc, Int.add_assoc]

end FirstPass

/-! ## What is left -/

/-- The field of a column. -/
def fieldAt (fields : List Field) (i : Nat) : Field := fields[i]?.getD { id := 0, cell := .fixed .bool [] }

/-- The columns that are not done. -/
def leftColumns (fields : List Field) (done : List Nat) : List Nat := (List.range fields.length).filter fun i => i ∉ done

/-- Their fields. -/
def left (fields : List Field) (done : List Nat) : List Field := (leftColumns fields done).map (fieldAt fields)

variable {f : Field}

theorem fieldAt_eq {i : Nat} (h : fields[i]? = some f) : fieldAt fields i = f := by
  rw [fieldAt, h]
  rfl

theorem map_fieldAt (fields : List Field) : (List.range fields.length).map (fieldAt fields) = fields := by
  refine List.ext_getElem (by rw [List.length_map, List.length_range]) fun i h1 h2 => ?_
  rw [List.getElem_map, List.getElem_range]
  exact fieldAt_eq (List.getElem?_eq_getElem h2)

theorem left_nil (fields : List Field) : left fields [] = fields := by
  have hall : leftColumns fields [] = List.range fields.length := List.filter_eq_self.2 fun i _ => by simp
  rw [left, hall, map_fieldAt]

/-- A column that is done takes its field away. -/
theorem left_perm {done : List Nat} {i : Nat} (hf : fields[i]? = some f) (hi : i ∉ done) :
    (left fields done).Perm (f :: left fields (i :: done)) := by
  have hmem : i ∈ leftColumns fields done := by
    rw [leftColumns, List.mem_filter, List.mem_range]
    exact ⟨(List.getElem?_eq_some_iff.1 hf).1, by simpa using hi⟩
  have hnodup : (leftColumns fields done).Nodup := List.nodup_range.filter _
  have herase : (leftColumns fields done).erase i = leftColumns fields (i :: done) := by
    rw [hnodup.erase_eq_filter, leftColumns, leftColumns, List.filter_filter]
    refine List.filter_congr fun j _ => ?_
    by_cases hij : j = i
    · simp [hij]
    · simp [hij]
  have hperm := (List.perm_cons_erase hmem).map (fieldAt fields)
  rw [herase, List.map_cons, fieldAt_eq hf] at hperm
  exact hperm

theorem left_again {done : List Nat} {i : Nat} (hi : i ∈ done) : left fields (i :: done) = left fields done := by
  have hsame : leftColumns fields (i :: done) = leftColumns fields done := by
    refine List.filter_congr fun j _ => ?_
    by_cases hij : j = i
    · simp [hij, hi]
    · simp [hij]
  rw [left, hsame, left]

/-! ## What is counted -/

/-- The updates of fields that were named before. -/
def repeats (fields : List Field) : List Nat → List (SqlValue × SqlValue × SqlValue) → Nat
  | _, [] => 0
  | done, u :: us =>
    match place fields u with
    | none => repeats fields done us
    | some i => (if i ∈ done then 1 else 0) + repeats fields (i :: done) us

/-- The variable bytes of the fields that are deleted. -/
def deletedBytes (fields : List Field) : List Nat → List (SqlValue × SqlValue × SqlValue) → Nat
  | _, [] => 0
  | done, u :: us =>
    match place fields u with
    | none => deletedBytes fields done us
    | some i =>
      (if i ∉ done ∧ u.2.1 = .null then (fieldAt fields i).cell.extra.length else 0) + deletedBytes fields (i :: done) us

/-- The variable size of fields. -/
def variableSize (fields : List Field) : Nat := (extras (fields.map Field.cell)).length

theorem variableSize_cons (f : Field) (fields : List Field) : variableSize (f :: fields) = f.cell.extra.length + variableSize fields := by
  show (f.cell.extra ++ extras (fields.map Field.cell)).length = _
  rw [List.length_append, variableSize]

theorem variableSize_perm {fields' : List Field} (h : fields.Perm fields') : variableSize fields = variableSize fields' :=
  ((h.map Field.cell).flatMap_right Cell.extra).length_eq

theorem valFields_cons_null (h : u.2.1 = .null) (us : List (SqlValue × SqlValue × SqlValue)) : valFields s (u :: us) = valFields s us := by
  rw [valFields, valFields, present, List.filter_cons_of_neg (by simpa using h)]
  rfl

theorem valFields_cons (h : u.2.1 ≠ .null)
    (us : List (SqlValue × SqlValue × SqlValue)) : valFields s (u :: us) = valField s u :: valFields s us := by
  rw [valFields, valFields, present, List.filter_cons_of_pos (by simpa using h)]
  rfl

/-- The counts of the first pass: repeated names are counted as deleted columns, and deleted columns keep their variable size. -/
theorem Effects.counts {done done' : List Nat} {us : List (SqlValue × SqlValue × SqlValue)} (h : Effects s fields done us done' columns size) :
    columns + repeats fields done us + (left fields done).length = (valFields s us).length + (left fields done').length ∧
      size + variableSize (left fields done) =
        variableSize (valFields s us) + variableSize (left fields done') + deletedBytes fields done us := by
  induction h with
  | nil done => exact ⟨by simp [repeats, valFields, present], by simp [deletedBytes, valFields, present, variableSize, extras]⟩
  | @cons done done1 done2 u us columns columns' size size' hint head tail ih =>
    obtain ⟨hc, hs⟩ := ih
    cases head with
    | skipped hplace hnull =>
      rw [repeats, deletedBytes, hplace, valFields_cons_null hnull]
      dsimp only
      omega
    | added hplace hnull hsize =>
      rename_i n
      have hextra : (valField s u).cell.extra.length = n := (cellOf_spec hsize).2.1
      rw [repeats, deletedBytes, hplace, valFields_cons hnull, variableSize_cons, List.length_cons]
      dsimp only
      omega
    | deleted hplace hf hclean htype hnull =>
      have hperm := left_perm hf hclean
      have hlen := hperm.length_eq
      have hvar := variableSize_perm hperm
      rw [variableSize_cons] at hvar
      rw [List.length_cons] at hlen
      rw [repeats, deletedBytes, hplace, valFields_cons_null hnull]
      dsimp only
      rw [if_neg hclean, if_pos ⟨hclean, hnull⟩, fieldAt_eq hf]
      omega
    | replaced hplace hf hclean htype hnull hsize =>
      have hextra := (cellOf_spec (s := s) hsize).2.1
      have hcell : (valField s u).cell.extra.length = _ := hextra
      have hperm := left_perm hf hclean
      have hlen := hperm.length_eq
      have hvar := variableSize_perm hperm
      rw [variableSize_cons] at hvar
      rw [List.length_cons] at hlen
      rw [repeats, deletedBytes, hplace, valFields_cons hnull, variableSize_cons, List.length_cons]
      dsimp only
      rw [if_neg hclean, if_neg fun h => hnull h.2]
      omega
    | repeated hplace hf hdone htype hnull =>
      rw [left_again hdone] at hc hs
      rw [repeats, deletedBytes, hplace, valFields_cons_null hnull]
      dsimp only
      rw [if_pos hdone, if_neg fun h => h.1 hdone]
      omega

/-! ## The final pass -/

/-- Elements that are skipped may be left out. -/
theorem foldlM_filter {α : Type} {f : Writer → α → Udf Writer} {p : α → Bool} {l : List α}
    (h : ∀ a ∈ l, p a = false → ∀ w, f w a = .ok w) (w : Writer) : l.foldlM f w = (l.filter p).foldlM f w := by
  induction l generalizing w with
  | nil => rfl
  | cons a l ih =>
    have hrest := ih fun b hb => h b (List.mem_cons_of_mem _ hb)
    by_cases hp : p a = true
    · rw [List.filter_cons_of_pos hp, List.foldlM_cons, List.foldlM_cons]
      exact congrArg _ (funext hrest)
    · rw [List.filter_cons_of_neg hp, List.foldlM_cons, h a List.mem_cons_self (by simpa using hp), ok_bind, hrest]

section FinalPass

variable {shape : BlobShape} {head rest : List Byte} {fields : List Field} {ws : List (List Byte)} {done : List Nat}
variable {i : Nat}

/-- A stored value is copied as its cell. -/
theorem copyValue_eq {cs : List Byte} {ids : List (List Byte)} (hl : Laid shape head ids ws cs) {word : List Byte} {c : Cell}
    (hw : ws[i]? = some word) (hr : Refers shape rest word c) (w : Writer) :
    w.copyValue (areas head ids ws cs rest) (shape.storageOffset + i * 8) c.type = putCell w c := by
  obtain ⟨hi, rfl⟩ := List.getElem?_eq_some_iff.1 hw
  cases c with
  | fixed type word =>
    obtain ⟨rfl, hs, hb⟩ := hr
    cases type
    case string => exact absurd rfl hs
    case blob => exact absurd rfl hb
    all_goals
      simp only [Cell.type, Writer.copyValue]
      rw [hl.loadWord rest hi, ok_bind]
      rfl
  | string bytes =>
    obtain ⟨hle, hn, hload⟩ := hr
    simp only [Cell.type, Writer.copyValue]
    rw [hl.loadU64 rest hi, ok_bind, hn, hl.loadRest rest hle, hload, ok_bind]
    rfl
  | blob bytes =>
    obtain ⟨hle, hn, hload⟩ := hr
    simp only [Cell.type, Writer.copyValue]
    rw [hl.loadU64 rest hi, ok_bind, hn, hl.loadRest rest hle, hload, ok_bind]
    rfl

/-- The code of a column in the copy of the blob. -/
theorem loadMarked (hl : Laid shape head (idWords fields) ws (marked (fields.map Field.cell) done)) (hf : fields[i]? = some f) :
    loadByte (areas head (idWords fields) ws (marked (fields.map Field.cell) done) rest) (shape.typeCodesOffset + i) =
      .ok (if i ∈ done then f.cell.type.code ||| dirty else f.cell.type.code) := by
  obtain ⟨hi, rfl⟩ := List.getElem?_eq_some_iff.1 hf
  have hic : i < (fields.map Field.cell).length := by rw [List.length_map]; exact hi
  have hm : i < (marked (fields.map Field.cell) done).length := by rw [length_marked]; exact hic
  have hcell : (fields.map Field.cell)[i] = fields[i].cell := List.getElem_map _
  rw [hl.loadCode rest hm, getElem_marked done hic, hcell]

theorem leftColumn_stored (hst : Stored shape ws rest (fields.map Field.cell)) (hi : i ∈ leftColumns fields done) :
    ∃ hlt : i < fields.length, i ∉ done ∧ fields[i]? = some fields[i] ∧ ∃ word, ws[i]? = some word ∧ Refers shape rest word fields[i].cell := by
  obtain ⟨hrange, hdone⟩ := List.mem_filter.1 hi
  have hlt : i < fields.length := List.mem_range.1 hrange
  have hf := List.getElem?_eq_getElem hlt
  have hw := List.getElem?_eq_getElem (show i < ws.length by rwa [hst.count, List.length_map])
  exact ⟨hlt, by simpa using hdone, hf, _, hw, hst.refers i _ _ (by rw [List.getElem?_map, hf]; rfl) hw⟩

/-- A column that is not done is copied as its field. -/
theorem fills_copyColumn (hl : Laid shape head (idWords fields) ws (marked (fields.map Field.cell) done))
    (hst : Stored shape ws rest (fields.map Field.cell)) (hwf : ∀ f ∈ fields, f.cell.WellFormed) (hi : i ∈ leftColumns fields done) :
    Fills (fun w i => w.copyColumn (areas head (idWords fields) ws (marked (fields.map Field.cell) done) rest) shape i)
      (fun i => bigEndian 8 (fieldAt fields i).id) (fun i => (fieldAt fields i).cell) i := by
  intro w head' ids' ws' cs xs f1 f2 f3 f4 hfill h1 h2 h3 h4
  obtain ⟨hlt, hdone', hf, _, hw, hr⟩ := leftColumn_stored hst hi
  dsimp only at h1 h4 ⊢
  rw [fieldAt_eq hf] at h1 h4 ⊢
  rw [length_bigEndian] at h1 ⊢
  obtain ⟨w1, hw1, hf1, hv1⟩ := hfill.putCell (hwf _ (List.getElem_mem hlt)) h2 h4
  obtain ⟨w2, hw2, hf2, hv2⟩ := hf1.typeCode h3 fields[i].cell.type.code
  obtain ⟨w3, hw3, hf3, hv3⟩ := hf2.fieldId (length_bigEndian 8 fields[i].id) h1
  have hid : (idWords fields)[i]? = some (bigEndian 8 fields[i].id) := by rw [idWords, List.getElem?_map, hf]; rfl
  obtain ⟨hiid, hgetid⟩ := List.getElem?_eq_some_iff.1 hid
  refine ⟨w3.next, ?_, hf3.next, ?_⟩
  · unfold Writer.copyColumn
    rw [loadMarked hl hf, if_neg hdone', ok_bind, ofCode?_code]
    dsimp only
    rw [copyValue_eq hl hw hr, hw1, ok_bind, hw2, ok_bind, hl.loadId rest hiid, ok_bind, hgetid, hw3]
    rfl
  · show w3.variableOffset = _
    rw [hv3, hv2, hv1]

/-- What such a column leaves alone. -/
theorem advances_copyColumn (hl : Laid shape head (idWords fields) ws (marked (fields.map Field.cell) done))
    (hst : Stored shape ws rest (fields.map Field.cell)) (hwf : ∀ f ∈ fields, f.cell.WellFormed)
    (hi : i ∈ leftColumns fields done) (w w' : Writer)
    (h : w.copyColumn (areas head (idWords fields) ws (marked (fields.map Field.cell) done) rest) shape i = .ok w') :
    Advances w w' 1 (fieldAt fields i).cell.extra.length := by
  obtain ⟨hlt, hdone', hf, _, hw, hr⟩ := leftColumn_stored hst hi
  have hid : (idWords fields)[i]? = some (bigEndian 8 fields[i].id) := by rw [idWords, List.getElem?_map, hf]; rfl
  obtain ⟨hiid, hgetid⟩ := List.getElem?_eq_some_iff.1 hid
  unfold Writer.copyColumn at h
  rw [loadMarked hl hf, if_neg hdone', ok_bind, ofCode?_code] at h
  dsimp only at h
  rw [copyValue_eq hl hw hr, hl.loadId rest hiid] at h
  obtain ⟨w1, hw1, h⟩ := bind_eq_ok h
  obtain ⟨w2, hw2, h⟩ := bind_eq_ok h
  rw [ok_bind, hgetid] at h
  obtain ⟨w3, hw3, h⟩ := bind_eq_ok h
  obtain rfl := Except.ok.inj h
  rw [fieldAt_eq hf]
  have := ((wrote_putCell (hwf _ (List.getElem_mem hlt)) hw1).trans (wrote_typeCode hw2)).trans
    (wrote_fieldId (length_bigEndian 8 fields[i].id) hw3)
  simp only [Nat.zero_add, Nat.add_zero] at this
  exact this.advances

/-- A column that is done is skipped. -/
theorem skip_copyColumn (hl : Laid shape head (idWords fields) ws (marked (fields.map Field.cell) done)) :
    ∀ i ∈ List.range fields.length, decide (i ∉ done) = false → ∀ w : Writer,
      w.copyColumn (areas head (idWords fields) ws (marked (fields.map Field.cell) done) rest) shape i = .ok w := by
  intro i hi hdone w
  have hf := List.getElem?_eq_getElem (List.mem_range.1 hi)
  have hmem : i ∈ done := by simpa using hdone
  unfold Writer.copyColumn
  rw [loadMarked hl hf, if_pos hmem, ok_bind, (ofCode?_dirty _).1]
  rfl

end FinalPass

/-! ## The update -/

/-- What an update does after its first pass: the size of the result, the two passes that write, and the header. -/
structure Updates (s : Sqlite) (junk : Nat → Byte) (b b' : List Byte) (recordType : BitVec 64) (fields : List Field)
    (slack : List Byte) (us : List (SqlValue × SqlValue × SqlValue)) (done : List Nat) (columns size : Int) (block : List Byte)
    (w w' : Writer) : Prop where
  effects : Effects s fields [] us done columns size
  shape : computeValBlobShape (fields.length + columns) (variableSize fields + slack.length + size) =
    .ok (valShape (fields.length + columns) (variableSize fields + slack.length + size))
  malloc : malloc junk (valShape (fields.length + columns) (variableSize fields + slack.length + size)).totalBytes = .ok block
  second : us.foldlM (Writer.valColumn s) ((valShape (fields.length + columns) (variableSize fields + slack.length + size)).writer block) = .ok w
  final : (List.range fields.length).foldlM (Writer.copyColumn (areas (headerBytes recordType fields.length) (idWords fields)
    (valWords fields) (marked (fields.map Field.cell) done) (extras (fields.map Field.cell) ++ slack)) (valShape fields.length 0)) w = .ok w'
  header : writeBlobHeader w'.block { magic := magic, columnCount := BitVec.ofInt 32 (fields.length + columns)
                                      recordType := recordType } = .ok b'

theorem updates_of_ok {junk : Nat → Byte} {b b' : List Byte} {recordType : BitVec 64}
    {slack : List Byte} {args : List SqlValue} (hl : Lays b recordType fields slack)
    (h : bupdateval s junk (.blob b :: args) = .ok b') : triples args ≠ [] ∧ ∃ done columns size block w w',
      Updates s junk b b' recordType fields slack (triples args) done columns size block w w' := by
  unfold bupdateval at h
  split at h
  case isTrue => cases h
  rename_i hargc
  dsimp only at h
  rw [hl.header, ok_bind, if_neg (by simp), hl.open, ok_bind] at h
  simp only [hl.count] at h
  obtain ⟨x, hx, h⟩ := bind_eq_ok h
  have hlaid := hl.laid
  rw [← marked_nil] at hlaid
  have hareas := hl.areas
  rw [← marked_nil] at hareas
  rw [hareas] at hx
  obtain ⟨done, columns, size, heffects, rfl⟩ := checkValUpdates_ok hl.stored hlaid hx
  dsimp only at h
  have hlen := hl.length_eq
  have hvariable : (b.length : Int) - (valShape fields.length 0).variableOffset + (0 + size) = variableSize fields + slack.length + size := by
    simp only [valShape, variableSize]
    omega
  rw [Int.zero_add columns, hvariable] at h
  obtain ⟨shape, hshape, h⟩ := bind_eq_ok h
  have hshape' := hshape
  rw [computeVal_eq] at hshape'
  split at hshape'
  case isFalse => cases hshape'
  obtain rfl := Except.ok.inj hshape'
  obtain ⟨block, hblock, h⟩ := bind_eq_ok h
  obtain ⟨w, hw, h⟩ := bind_eq_ok h
  obtain ⟨w', hw', h⟩ := bind_eq_ok h
  refine ⟨fun hnil => ?_, done, columns, size, block, w, w', ⟨heffects, hshape, hblock, hw, hw', h⟩⟩
  rcases args with _ | ⟨a, _ | ⟨a', _ | ⟨a'', args⟩⟩⟩
  · simp at hargc
  · simp at hargc
  · simp at hargc
  · cases hnil

section Update

variable {s : Sqlite} {junk : Nat → Byte} {b b' slack block : List Byte} {recordType : BitVec 64} {fields : List Field}
  {us : List (SqlValue × SqlValue × SqlValue)} {done : List Nat} {w w' : Writer}

/-- The fields of the result: those that are new or replaced, and those that are left. -/
def updatedFields (s : Sqlite) (fields : List Field) (us : List (SqlValue × SqlValue × SqlValue)) (done : List Nat) : List Field :=
  valFields s us ++ left fields done

theorem variableSize_append (s : Sqlite) (fields : List Field) (us : List (SqlValue × SqlValue × SqlValue)) (done : List Nat) :
    variableSize (updatedFields s fields us done) = variableSize (valFields s us) + variableSize (left fields done) := by
  rw [updatedFields, variableSize, List.map_append]
  exact (congrArg List.length List.flatMap_append).trans List.length_append

theorem Updates.counts (h : Updates s junk b b' recordType fields slack us done columns size block w w') :
    (fields.length : Int) + columns + repeats fields [] us = (updatedFields s fields us done).length ∧
      variableSize fields + size = variableSize (updatedFields s fields us done) + deletedBytes fields [] us := by
  obtain ⟨hc, hs⟩ := h.effects.counts
  rw [left_nil] at hc hs
  rw [variableSize_append, updatedFields, List.length_append]
  push_cast
  omega

/-- Values of updates that are written can be stored. -/
theorem Effects.compat {done' : List Nat} (h : Effects s fields done us done' columns size) :
    ∀ u ∈ us, u.2.1 ≠ .null → ∃ n, blobtypeVsArgtypeCompat u.2.1 (typeArg s u.2.2) = some n := by
  induction h with
  | nil => exact nofun
  | cons hint head tail ih =>
    intro v hv hnull
    rcases List.mem_cons.1 hv with rfl | hv
    · cases head with
      | skipped _ h => exact absurd h hnull
      | added _ _ h => exact ⟨_, h⟩
      | deleted _ _ _ _ h => exact absurd h hnull
      | replaced _ _ _ _ _ h => exact ⟨_, h⟩
      | repeated _ _ _ _ h => exact absurd h hnull
    · exact ih v hv hnull

theorem Updates.wellFormed (hl : Lays b recordType fields slack)
    (h : Updates s junk b b' recordType fields slack us done columns size block w w') :
    ∀ f ∈ updatedFields s fields us done, f.cell.WellFormed := by
  intro f hf
  rcases List.mem_append.1 hf with hf | hf
  · exact wellFormed_valFields h.effects.compat f hf
  · obtain ⟨i, hi, rfl⟩ := List.mem_map.1 hf
    have hlt := List.mem_range.1 (List.mem_filter.1 hi).1
    rw [fieldAt_eq (List.getElem?_eq_getElem hlt)]
    exact hl.wellFormed _ (List.getElem_mem hlt)

theorem words_append (offset : Int) (xs ys : List Cell) :
    words offset (xs ++ ys) = words offset xs ++ words (offset + (extras xs).length) ys := by
  induction xs generalizing offset with
  | nil => exact (congrArg (words · ys) (Int.add_zero offset)).symm
  | cons c xs ih =>
    have hlen : (extras (c :: xs)).length = c.extra.length + (extras xs).length := List.length_append
    rw [List.cons_append, words, words, ih, hlen, List.cons_append, Int.add_assoc]
    push_cast
    rfl

/-- Without repeated names the result is laid out with the updated fields, and with as many bytes at its end as were deleted. -/
theorem Updates.lays (hl : Lays b recordType fields slack)
    (h : Updates s junk b b' recordType fields slack us done columns size block w w') (hrepeats : repeats fields [] us = 0) :
    ∃ slack', Lays b' recordType (updatedFields s fields us done) slack' ∧ slack'.length = deletedBytes fields [] us + slack.length := by
  obtain ⟨hcolumns, hsize⟩ := h.counts
  have hwf := h.wellFormed hl
  have hmalloc := length_of_malloc h.malloc
  have hsmall := (malloc_ok h.malloc).2
  have hadd : (updatedFields s fields us done).length = (valFields s us).length + (left fields done).length := List.length_append
  have hcount : (fields.length : Int) + columns = (updatedFields s fields us done).length := by omega
  have hsecond := h.second
  have hfinal := h.final
  have hheader := h.header
  rw [hcount] at hmalloc hsmall hsecond hheader
  simp only [valShape] at hmalloc hsmall
  have hparts : block.length = 16 + 8 * (updatedFields s fields us done).length + 8 * (updatedFields s fields us done).length +
      (updatedFields s fields us done).length + (variableSize (updatedFields s fields us done) + (deletedBytes fields [] us + slack.length)) := by
    omega
  have hvariable := variableSize_append s fields us done
  generalize htotal : (variableSize fields : Int) + slack.length + size = total at *
  obtain ⟨p1, f1, f2, f3, f4, rfl, hp1, h1, h2, h3, h4⟩ := exists_parts hparts
  have hstart : Filling ((valShape (updatedFields s fields us done).length total).writer (p1 ++ (f1 ++ (f2 ++ (f3 ++ f4)))))
      p1 [] [] [] [] f1 f2 f3 f4 0 := by
    refine filling_start ?_ ?_ ?_ ?_
    · simp only [valShape, hp1]
      rfl
    · simp only [valShape, hp1, h1]
      omega
    · simp only [valShape, hp1, h1, h2]
      omega
    · simp only [valShape, hp1, h1, h2, h3]
      omega
  rw [foldlM_valColumn] at hsecond
  obtain ⟨w1, hw1, hf1, hv1⟩ := Filling.runFields (fills_present h.effects.compat) hstart
    (show (present us).map (valField s) = valFields s us from rfl) (by omega) (by omega) (by omega)
    (by rw [h4, hvariable]; unfold variableSize; omega)
  obtain rfl := Except.ok.inj (hsecond.symm.trans hw1)
  have hlaid : Laid (valShape fields.length 0) (headerBytes recordType fields.length) (idWords fields) (valWords fields)
      (marked (fields.map Field.cell) done) := hl.laid.codes (by rw [length_marked, length_codes])
  rw [foldlM_filter (skip_copyColumn hlaid)] at hfinal
  obtain ⟨w2, hw2, hf2, -⟩ := Filling.runFields (fun i hi => fills_copyColumn hlaid hl.stored hl.wellFormed hi) hf1
    (show (leftColumns fields done).map (fieldAt fields) = left fields done from rfl) (by rw [List.length_drop]; omega)
    (by rw [List.length_drop]; omega) (by rw [List.length_drop]; omega)
    (by rw [List.length_drop, h4, hvariable]; unfold variableSize; omega)
  obtain rfl := Except.ok.inj (hfinal.symm.trans hw2)
  have hoffset : (16 + 17 * (updatedFields s fields us done).length : Int) =
      ((valShape (updatedFields s fields us done).length total).writer (p1 ++ (f1 ++ (f2 ++ (f3 ++ f4))))).variableOffset := by
    simp only [BlobShape.writer, valShape]
    omega
  have hids : [] ++ (valFields s us).flatMap (fun f => bigEndian 8 f.id) ++ (left fields done).flatMap (fun f => bigEndian 8 f.id) =
      (idWords (updatedFields s fields us done)).flatten := by
    rw [List.nil_append, ← List.flatMap_append, idWords, List.flatMap_def]
    rfl
  have hwords : [] ++ (words ((valShape (updatedFields s fields us done).length total).writer
        (p1 ++ (f1 ++ (f2 ++ (f3 ++ f4))))).variableOffset ((valFields s us).map Field.cell)).flatten ++
      (words w.variableOffset ((left fields done).map Field.cell)).flatten =
        (words (16 + 17 * (updatedFields s fields us done).length) ((updatedFields s fields us done).map Field.cell)).flatten := by
    rw [List.nil_append, ← List.flatten_append, hv1, ← words_append, hoffset, updatedFields, List.map_append]
  have hcodes : [] ++ codes ((valFields s us).map Field.cell) ++ codes ((left fields done).map Field.cell) =
      codes ((updatedFields s fields us done).map Field.cell) := by
    rw [List.nil_append, updatedFields, List.map_append, codes, codes, codes, List.map_append]
  have hextras : [] ++ extras ((valFields s us).map Field.cell) ++ extras ((left fields done).map Field.cell) =
      extras ((updatedFields s fields us done).map Field.cell) := by
    rw [List.nil_append, updatedFields, List.map_append]
    exact List.flatMap_append.symm
  rw [hids, hwords, hcodes, hextras] at hf2
  have hblock := hf2.block_eq (by rw [List.length_drop, List.length_drop]; omega) (by rw [List.length_drop, List.length_drop]; omega)
    (by rw [List.length_drop, List.length_drop]; omega)
  rw [hblock, areas, BitVec.ofInt_natCast, writeBlobHeader_eq hp1] at hheader
  obtain rfl := Except.ok.inj hheader
  have hslack : ((f4.drop (extras ((valFields s us).map Field.cell)).length).drop
      (extras ((left fields done).map Field.cell)).length).length = deletedBytes fields [] us + slack.length := by
    rw [List.length_drop, List.length_drop, h4, hvariable]
    unfold variableSize
    omega
  refine ⟨_, ⟨rfl, hwf, ?_⟩, hslack⟩
  show (valBlob recordType (updatedFields s fields us done) _).length < 2 ^ 31
  rw [length_valBlob recordType hwf, hslack]
  have hlen : (extras ((updatedFields s fields us done).map Field.cell)).length = variableSize (updatedFields s fields us done) := rfl
  omega

/-- What the two passes that write leave alone. -/
theorem Updates.advances (hl : Lays b recordType fields slack) (h : Updates s junk b b' recordType fields slack us done columns size block w w') :
    Advances ((valShape (fields.length + columns) (variableSize fields + slack.length + size)).writer block) w'
      (updatedFields s fields us done).length (variableSize (updatedFields s fields us done)) := by
  have hsecond := h.second
  have hfinal := h.final
  rw [foldlM_valColumn] at hsecond
  have hspecs : ∀ spec ∈ present us, ValSpecOk s spec := by
    intro spec hspec
    obtain ⟨hmem, hnull⟩ := List.mem_filter.1 hspec
    have hne : spec.2.1 ≠ .null := by simpa using hnull
    exact ⟨hne, h.effects.compat spec hmem hne⟩
  have hlaid : Laid (valShape fields.length 0) (headerBytes recordType fields.length) (idWords fields) (valWords fields)
      (marked (fields.map Field.cell) done) := hl.laid.codes (by rw [length_marked, length_codes])
  rw [foldlM_filter (skip_copyColumn hlaid)] at hfinal
  have hnew := Advances.run (fun spec => (valField s spec).cell) (fun spec hspec => advances_valColumn (hspecs spec hspec)) hsecond
  have hleft := Advances.run (fun i => (fieldAt fields i).cell) (fun i hi => advances_copyColumn hlaid hl.stored hl.wellFormed hi) hfinal
  have hlen : (updatedFields s fields us done).length = (present us).length + (leftColumns fields done).length := by
    rw [updatedFields, List.length_append, valFields, left, List.length_map, List.length_map]
  have hsize : variableSize (updatedFields s fields us done) = (extras ((present us).map fun spec => (valField s spec).cell)).length +
        (extras ((leftColumns fields done).map fun i => (fieldAt fields i).cell)).length := by
    rw [variableSize_append, variableSize, variableSize, valFields, left, List.map_map, List.map_map]
    rfl
  rw [hlen, hsize]
  exact hnew.trans hleft

end Update

end BlobAux

end CgSql.Blobs
