import CgSql.Lemmas.BlobStored

/-!
# Reading a value blob

A value blob that is laid out passes the validation, and `bgetval` finds the first field with an id.
-/

namespace CgSql.Blobs

open Serial (ofLittleEndian)

namespace BlobAux

/-! ## Fields that are read -/

section Refers

variable {shape : BlobShape} {head cs rest : List Byte} {ids ws : List (List Byte)}

/-- A column that refers to a cell passes the validation. -/
theorem validateField_of_refers (hl : Laid shape head ids ws cs) {i : Nat} {word : List Byte} {c : Cell} (hw : ws[i]? = some word)
    (hc : cs[i]? = some c.type.code) (hr : Refers shape rest word c) :
    validateField (areas head ids ws cs rest) shape i = .ok true := by
  obtain ⟨hi, rfl⟩ := List.getElem?_eq_some_iff.1 hw
  obtain ⟨hi', hcode⟩ := List.getElem?_eq_some_iff.1 hc
  have hlen := hl.length_eq rest
  have hvariable : 0 ≤ shape.variableOffset := by
    rw [hl.variableOffset]
    omega
  unfold validateField
  rw [hl.loadCode rest hi', ok_bind, hcode, ofCode?_code]
  cases c with
  | fixed type w =>
    obtain ⟨_, hs, hb⟩ := hr
    cases type
    case string => exact absurd rfl hs
    case blob => exact absurd rfl hb
    all_goals rfl
  | string bytes =>
    obtain ⟨hle, hn, hload⟩ := hr
    have hbounds := bounds_of_load hload
    simp only [Cell.type]
    rw [hl.loadU64 rest hi, ok_bind, hn, if_neg (by omega)]
    have hoffset : (infoOffset (ofBigEndian ws[i]) + bytes.length - shape.variableOffset : Int) =
        infoOffset (ofBigEndian ws[i]) - shape.variableOffset + bytes.length := by omega
    have hlast : loadByte rest (infoOffset (ofBigEndian ws[i]) - shape.variableOffset + bytes.length) = .ok 0 := by
      rw [loadByte, load_last hload]
      rfl
    rw [loadByte, hl.loadRest rest (by omega), hoffset]
    rw [loadByte] at hlast
    rw [hlast]
    rfl
  | blob bytes =>
    obtain ⟨hle, hn, hload⟩ := hr
    have hbounds := bounds_of_load hload
    simp only [Cell.type]
    rw [hl.loadU64 rest hi, ok_bind, hn]
    have hfit : ¬((infoOffset (ofBigEndian ws[i]) : Int) < shape.variableOffset ∨
        infoOffset (ofBigEndian ws[i]) + bytes.length > (areas head ids ws cs rest).length) := by omega
    rw [decide_eq_true hfit]
    rfl

/-- It is read as the value of the cell. -/
theorem readField_of_refers (hl : Laid shape head ids ws cs) {i : Nat} {word : List Byte} {c : Cell} (hw : ws[i]? = some word)
    (hr : Refers shape rest word c) :
    readField (areas head ids ws cs rest) c.type.code (shape.storageOffset + i * 8) = .ok c.read := by
  obtain ⟨hi, rfl⟩ := List.getElem?_eq_some_iff.1 hw
  have hlen := hl.length_eq rest
  have hvariable : 0 ≤ shape.variableOffset := by
    rw [hl.variableOffset]
    omega
  unfold readField
  rw [ofCode?_code]
  cases c with
  | fixed type w =>
    obtain ⟨rfl, hs, hb⟩ := hr
    cases type
    case string => exact absurd rfl hs
    case blob => exact absurd rfl hb
    case float =>
      simp only [Cell.type]
      rw [hl.loadWord rest hi]
      rfl
    all_goals
      simp only [Cell.type]
      rw [hl.loadU64 rest hi]
      rfl
  | string bytes =>
    obtain ⟨hle, hn, hload⟩ := hr
    have hbounds := bounds_of_load hload
    simp only [Cell.type]
    rw [hl.loadU64 rest hi, ok_bind, hn, if_neg (by omega), hl.loadRest rest hle, load_init hload]
    rfl
  | blob bytes =>
    obtain ⟨hle, hn, hload⟩ := hr
    have hbounds := bounds_of_load hload
    simp only [Cell.type]
    rw [hl.loadU64 rest hi, ok_bind, hn, if_neg (by omega), hl.loadRest rest hle, hload]
    rfl

end Refers

/-- Tests that hold. -/
theorem allM_of {α : Type} {p : α → Udf Bool} {l : List α} (h : ∀ a ∈ l, p a = .ok true) : l.allM p = .ok true := by
  induction l with
  | nil => rfl
  | cons a l ih =>
    rw [List.allM, h a List.mem_cons_self, ok_bind]
    exact ih fun b hb => h b (List.mem_cons_of_mem _ hb)

/-- The search for an id among columns whose ids are known. -/
theorem findField_range {b : List Byte} {shape : BlobShape} (id : BitVec 64) {fields : List Field} (k : Nat)
    (h : ∀ (i : Nat) (f : Field), fields[i]? = some f → loadU64 b (shape.fieldIdsOffset + (k + i : Nat) * 8) = .ok f.id) :
    findField b shape id (List.range' k fields.length) = .ok ((fields.findIdx? fun f => f.id = id).map (k + ·)) := by
  induction fields generalizing k with
  | nil => rfl
  | cons f fields ih =>
    have hfirst : loadU64 b (shape.fieldIdsOffset + (k : Nat) * 8) = .ok f.id := h 0 f rfl
    have hrest : ∀ (i : Nat) (g : Field), fields[i]? = some g → loadU64 b (shape.fieldIdsOffset + (k + 1 + i : Nat) * 8) = .ok g.id := by
      intro i g hg
      have := h (i + 1) g (by simpa using hg)
      rwa [Nat.add_assoc, Nat.add_comm 1 i]
    rw [List.length_cons, List.range'_succ, findField, hfirst, ok_bind, List.findIdx?_cons]
    by_cases hid : f.id = id
    · rw [if_pos hid, decide_eq_true hid]
      rfl
    · have hshift : ((fun x => k + x) ∘ fun j => j + 1) = fun x => k + 1 + x := by
        funext j
        show k + (j + 1) = k + 1 + j
        omega
      rw [if_neg hid, ih (k + 1) hrest, decide_eq_false hid, if_neg Bool.false_ne_true, Option.map_map, hshift]

/-- The ids of fields as they are stored. -/
def idWords (fields : List Field) : List (List Byte) := fields.map fun f => bigEndian 8 f.id

/-- The search in the areas of a blob, whatever its type codes are. -/
theorem findField_areas {shape : BlobShape} {head : List Byte} {fields : List Field} {ws : List (List Byte)} {cs rest : List Byte}
    (hl : Laid shape head (idWords fields) ws cs) (id : BitVec 64) :
    findField (areas head (idWords fields) ws cs rest) shape id (List.range fields.length) = .ok (fields.findIdx? fun f => f.id = id) := by
  have hrun := @findField_range (areas head (idWords fields) ws cs rest) shape id fields 0 ?_
  · rw [List.range_eq_range', hrun]
    simp only [Nat.zero_add, Option.map_id']
  · intro i f hf
    obtain ⟨hi, rfl⟩ := List.getElem?_eq_some_iff.1 hf
    have hid : (idWords fields)[i]? = some (bigEndian 8 fields[i].id) := by
      rw [idWords, List.getElem?_map, hf]
      rfl
    rw [Nat.zero_add, loadU64, hl.loadId rest (List.getElem?_eq_some_iff.1 hid).1, ok_bind, (List.getElem?_eq_some_iff.1 hid).2,
      ofBigEndian_bigEndian]
    rfl

/-! ## Layouts of value blobs -/

/-- A value blob is laid out with these fields, and some more bytes at its end. -/
structure Lays (b : List Byte) (recordType : BitVec 64) (fields : List Field) (slack : List Byte) : Prop where
  eq : b = valBlob recordType fields slack
  wellFormed : ∀ f ∈ fields, f.cell.WellFormed
  small : b.length < 2 ^ 31

section Lays

variable {b slack : List Byte} {recordType : BitVec 64} {fields : List Field}

/-- The words of fields. -/
def valWords (fields : List Field) : List (List Byte) := words (16 + 17 * fields.length : Nat) (fields.map Field.cell)

section

variable (h : Lays b recordType fields slack)

include h

theorem Lays.cells : ∀ c ∈ fields.map Field.cell, c.WellFormed := by
  intro c hc
  obtain ⟨f, hf, rfl⟩ := List.mem_map.1 hc
  exact h.wellFormed f hf

theorem Lays.areas : b = areas (headerBytes recordType fields.length) (idWords fields)
    (valWords fields) (codes (fields.map Field.cell)) (extras (fields.map Field.cell) ++ slack) := h.eq

theorem Lays.length_eq :
    b.length = 16 + 17 * fields.length + (extras (fields.map Field.cell)).length + slack.length := by
  rw [h.eq, length_valBlob recordType h.wellFormed]

theorem Lays.laid : Laid (valShape fields.length 0) (headerBytes recordType fields.length)
    (idWords fields) (valWords fields) (codes (fields.map Field.cell)) := by
  have hhead := length_headerBytes recordType fields.length
  have hids : ∀ e ∈ idWords fields, e.length = 8 := by
    intro e he
    obtain ⟨f, _, rfl⟩ := List.mem_map.1 he
    exact length_bigEndian 8 f.id
  refine ⟨hids, wordLength_words h.cells _, by rw [valWords, length_words, length_codes], ?_, ?_, ?_, ?_⟩
  all_goals
    simp only [valShape, hhead, idWords, valWords, length_words, length_codes, List.length_map]
    omega

theorem Lays.stored : Stored (valShape fields.length 0) (valWords fields)
    (extras (fields.map Field.cell) ++ slack) (fields.map Field.cell) := by
  refine ⟨length_words _ _, ?_⟩
  have hoffset : ((16 + 17 * fields.length : Nat) : Int) = (valShape fields.length 0).variableOffset + ([] : List Byte).length := by
    simp only [valShape, List.length_nil]
    omega
  have hlen := h.length_eq
  have hsmall := h.small
  exact refers_words h.cells [] slack hoffset (by omega)

theorem Lays.header :
    readBlobHeader b = .ok { magic := magic, columnCount := BitVec.ofNat 32 fields.length, recordType := recordType } := by
  rw [h.eq]
  exact readBlobHeader_layout recordType fields.length _

theorem Lays.count : (BitVec.ofNat 32 fields.length).toNat = fields.length := by
  have hlen := h.length_eq
  have hsmall := h.small
  rw [BitVec.toNat_ofNat, Nat.mod_eq_of_lt (by omega)]

/-- The blob is opened. -/
theorem Lays.open :
    openBlob computeValBlobShape b { magic := magic, columnCount := BitVec.ofNat 32 fields.length, recordType := recordType } =
      .ok (valShape fields.length 0) := by
  have hlen := h.length_eq
  have hsmall := h.small
  have hvalid : validateBlobVariableFields b (valShape fields.length 0) fields.length = .ok true := by
    refine allM_of fun i hi => ?_
    rw [List.mem_range] at hi
    have hi' : i < (fields.map Field.cell).length := by rw [List.length_map]; exact hi
    have hc := List.getElem?_eq_getElem hi'
    have hw := List.getElem?_eq_getElem (show i < (valWords fields).length by rw [h.stored.count]; exact hi')
    rw [h.areas]
    refine validateField_of_refers h.laid hw ?_ (h.stored.refers i _ _ hc hw)
    rw [codes, List.getElem?_map, hc]
    rfl
  unfold openBlob
  simp only [h.count]
  rw [computeVal_eq, if_pos (by simp only [valShape]; omega), ok_bind, if_neg (by simp only [valShape]; omega), hvalid, ok_bind]
  rfl

/-- The search for an id. -/
theorem Lays.findField (id : BitVec 64) :
    findField b (valShape fields.length 0) id (List.range fields.length) = .ok (fields.findIdx? fun f => f.id = id) := by
  have := @findField_areas _ _ _ _ _ (extras (fields.map Field.cell) ++ slack) h.laid id
  rwa [← h.areas] at this

/-- A field is read by its id. -/
theorem Lays.bgetval (id : BitVec 64) :
    bgetval [.blob b, .integer id] = .ok ((fields.find? fun f => f.id = id).elim .null fun f => f.cell.read) := by
  unfold Blobs.bgetval
  dsimp only
  rw [h.header, ok_bind, if_neg (by simp), h.open, ok_bind]
  simp only [h.count]
  rw [h.findField id, ok_bind]
  rcases hfind : fields.findIdx? fun f => f.id = id with _ | i
  · have hnone : fields.find? (fun f => f.id = id) = none := by
      rw [List.findIdx?_eq_none_iff] at hfind
      rw [List.find?_eq_none]
      intro f hf
      simpa using hfind f hf
    rw [hnone, hfind]
    rfl
  · obtain ⟨hi, hid, hbefore⟩ := List.findIdx?_eq_some_iff_getElem.1 hfind
    have hsome : fields.find? (fun f => f.id = id) = some fields[i] :=
      List.find?_eq_some_iff_getElem.2 ⟨hid, i, hi, rfl, fun j hj => by simpa using hbefore j hj⟩
    have hc : (fields.map Field.cell)[i]? = some fields[i].cell := by
      rw [List.getElem?_map, List.getElem?_eq_getElem hi]
      rfl
    have hw := List.getElem?_eq_getElem (show i < (valWords fields).length by rw [h.stored.count, List.length_map]; exact hi)
    have hcs : i < (codes (fields.map Field.cell)).length := by
      rw [length_codes, List.length_map]
      exact hi
    have hcode : (codes (fields.map Field.cell))[i] = fields[i].cell.type.code := by
      simp only [codes, List.getElem_map]
    have hload := h.laid.loadCode (extras (fields.map Field.cell) ++ slack) hcs
    have hread := readField_of_refers h.laid hw (h.stored.refers i _ _ hc hw)
    rw [← h.areas] at hload hread
    rw [hsome, hfind]
    dsimp only
    rw [hload, ok_bind, hcode, hread]
    rfl

/-- So is the record type. -/
theorem Lays.bgetvalType : bgetvalType [.blob b] = .ok (.integer recordType) := by
  unfold Blobs.bgetvalType
  dsimp only
  rw [h.header, ok_bind, if_neg (by simp), h.open]
  rfl

end

end Lays

end BlobAux

end CgSql.Blobs
