import CgSql.Theorems.ValUpdate

/-!
# Field ids

The first pass of `bupdateval` knows that a field is named again only by the mark on its stored type code. In runs whose updates name
no new field again, and no stored field again with a null and its marked code, the ids of a blob stay distinct.
-/

namespace CgSql.Blobs

open BlobAux

/-- The ids of the columns of a value blob. -/
def fieldIds (b : List Byte) : Udf (List (BitVec 64)) := do
  let header ← readBlobHeader b
  let shape ← computeValBlobShape header.columnCount.toNat 0
  (List.range header.columnCount.toNat).mapM fun (icol : Nat) => loadU64 b (shape.fieldIdsOffset + icol * 8)

/-- The type code of a field, if it is stored. -/
def storedCode (b : List Byte) (fieldId : BitVec 64) : Udf (Option Byte) := do
  let header ← readBlobHeader b
  let shape ← computeValBlobShape header.columnCount.toNat 0
  match ← findField b shape fieldId (List.range header.columnCount.toNat) with
  | none => return none
  | some icol => do return some (← loadByte b (shape.typeCodesOffset + icol))

/-- A field that is named again is stored, and its second update is not a null with the marked type code. -/
def Guarded (s : Sqlite) (b : List Byte) (us : List (SqlValue × SqlValue × SqlValue)) : Prop :=
  us.Pairwise fun u v => updateId u = updateId v →
    ∃ code, storedCode b (updateId u) = .ok (some code) ∧ ¬(v.2.1 = .null ∧ typeArg s v.2.2 = code ||| dirty)

/-- The value blobs that are reached from one with distinct ids by guarded updates that are accepted. -/
inductive Reached (s : Sqlite) : List Byte → Prop
  | created {junk : Nat → Byte} {recordType : BitVec 64} {args : List SqlValue} {b : List Byte} {ids : List (BitVec 64)}
      (h : bcreateval s junk (.integer recordType :: args) = .ok b) (hids : fieldIds b = .ok ids) (hdistinct : ids.Nodup) : Reached s b
  | updated {junk : Nat → Byte} {b b' : List Byte} {updates : List SqlValue} (hb : Reached s b)
      (hguarded : Guarded s b (triples updates)) (h : bupdateval s junk (.blob b :: updates) = .ok b') : Reached s b'

namespace BlobAux

section Lays

variable {s : Sqlite} {junk : Nat → Byte} {b b' slack : List Byte} {recordType : BitVec 64} {fields : List Field}

theorem Lays.shape (h : Lays b recordType fields slack) : computeValBlobShape fields.length 0 = .ok (valShape fields.length 0) := by
  have hlen := h.length_eq
  have hsmall := h.small
  rw [computeVal_eq, if_pos (by simp only [valShape]; omega)]

theorem Lays.fieldIds (h : Lays b recordType fields slack) : fieldIds b = .ok (fields.map Field.id) := by
  have hrun := @mapM_range _ (fun (icol : Nat) => loadU64 b ((valShape fields.length 0).fieldIdsOffset + icol * 8)) (fields.map Field.id) ?_
  · unfold Blobs.fieldIds
    rw [h.header, ok_bind]
    simp only [h.count]
    rw [h.shape, ok_bind]
    rwa [List.length_map] at hrun
  · intro i id hid
    rw [List.getElem?_map] at hid
    obtain ⟨f, hf, rfl⟩ := Option.map_eq_some_iff.1 hid
    have hi : i < (idWords fields).length := by
      rw [idWords, List.length_map]
      exact (List.getElem?_eq_some_iff.1 hf).1
    have hword : (idWords fields)[i]? = some (bigEndian 8 f.id) := by
      rw [idWords, List.getElem?_map, hf]
      rfl
    have hload := h.laid.loadId (extras (fields.map Field.cell) ++ slack) hi
    rw [← h.areas] at hload
    rw [loadU64, hload, ok_bind, (List.getElem?_eq_some_iff.1 hword).2, ofBigEndian_bigEndian]
    rfl

theorem Lays.storedCode (h : Lays b recordType fields slack) (id : BitVec 64) {code : Byte}
    (hcode : storedCode b id = .ok (some code)) : ∃ f ∈ fields, f.id = id ∧ f.cell.type.code = code := by
  unfold Blobs.storedCode at hcode
  rw [h.header, ok_bind] at hcode
  simp only [h.count] at hcode
  rw [h.shape, ok_bind, h.findField id, ok_bind] at hcode
  rcases hfind : fields.findIdx? fun f => f.id = id with _ | i
  · rw [hfind] at hcode
    nomatch Except.ok.inj hcode
  · rw [hfind] at hcode
    obtain ⟨hi, hid, _⟩ := List.findIdx?_eq_some_iff_getElem.1 hfind
    have hcs : i < (codes (fields.map Field.cell)).length := by
      rw [length_codes, List.length_map]
      exact hi
    have hget : (codes (fields.map Field.cell))[i] = fields[i].cell.type.code := by
      simp only [codes, List.getElem_map]
    have hload := h.laid.loadCode (extras (fields.map Field.cell) ++ slack) hcs
    rw [← h.areas, hget] at hload
    dsimp only at hcode
    rw [hload, ok_bind] at hcode
    exact ⟨fields[i], List.getElem_mem hi, by simpa using hid, Option.some.inj (Except.ok.inj hcode)⟩

theorem eq_of_id_eq (hnodup : (fields.map Field.id).Nodup) {f g : Field} (hf : f ∈ fields) (hg : g ∈ fields) (h : f.id = g.id) :
    f = g := List.inj_on_of_nodup_map hnodup hf hg h

/-- A guarded update that is accepted names no field twice. -/
theorem names_nodup (hl : Lays b recordType fields slack) (hnodup : (fields.map Field.id).Nodup) {updates : List SqlValue}
    (hguarded : Guarded s b (triples updates)) (h : bupdateval s junk (.blob b :: updates) = .ok b') :
    ((triples updates).map updateId).Nodup := by
  obtain ⟨_, done, columns, size, block, w, w', hup⟩ := updates_of_ok hl h
  refine List.pairwise_map.2 ((hguarded.and hup.effects.pairwise).imp fun hrel heq => ?_)
  obtain ⟨code, hcode, hguard⟩ := hrel.1 heq
  obtain ⟨f, hf, hid, hfcode⟩ := hl.storedCode _ hcode
  obtain ⟨hnull, g, hg, hid', htype⟩ := hrel.2 heq (hid ▸ List.mem_map_of_mem hf)
  obtain rfl := eq_of_id_eq hnodup hf hg (hid.trans (heq.trans hid'.symm))
  exact hguard ⟨hnull, hfcode ▸ htype⟩

/-- It keeps the layout, and the ids distinct. -/
theorem lays_of_guarded (hl : Lays b recordType fields slack) (hnodup : (fields.map Field.id).Nodup) {updates : List SqlValue}
    (hguarded : Guarded s b (triples updates)) (h : bupdateval s junk (.blob b :: updates) = .ok b') :
    ∃ fields' slack', Lays b' recordType fields' slack' ∧ (fields'.map Field.id).Nodup := by
  have hnames := List.pairwise_map.1 (names_nodup hl hnodup hguarded h)
  obtain ⟨_, done, columns, size, block, w, w', hup⟩ := updates_of_ok hl h
  have hrepeats : repeats fields [] (triples updates) = 0 :=
    repeats_eq_zero (fun _ _ _ _ => List.not_mem_nil) (hnames.imp fun hne heq => absurd heq hne)
  obtain ⟨slack', hl', _⟩ := hup.lays hl hrepeats
  exact ⟨_, slack', hl', nodup_updated hnodup hup.effects (hnames.imp fun hne heq => absurd heq hne)⟩

/-- The blobs that are reached are laid out with distinct ids. -/
theorem lays_of_reached (h : Reached s b) : ∃ recordType fields slack, Lays b recordType fields slack ∧ (fields.map Field.id).Nodup := by
  induction h with
  | created h hids hdistinct =>
    have hl := lays_of_created h
    rw [hl.fieldIds] at hids
    exact ⟨_, _, _, hl, Except.ok.inj hids ▸ hdistinct⟩
  | updated hb hguarded h ih =>
    obtain ⟨recordType, fields, slack, hl, hnodup⟩ := ih
    obtain ⟨fields', slack', hl', hnodup'⟩ := lays_of_guarded hl hnodup hguarded h
    exact ⟨recordType, fields', slack', hl', hnodup'⟩

end Lays

end BlobAux

/-- In a blob that is reached by guarded updates no id occurs twice, and a guarded update that names an id twice is rejected. -/
theorem fieldIds_nodup {s : Sqlite} {b : List Byte} (h : Reached s b) : (∃ ids, fieldIds b = .ok ids ∧ ids.Nodup) ∧
      ∀ junk updates, Guarded s b (triples updates) → ¬((triples updates).map updateId).Nodup →
        ∀ b', bupdateval s junk (.blob b :: updates) ≠ .ok b' := by
  obtain ⟨recordType, fields, slack, hl, hnodup⟩ := lays_of_reached h
  exact ⟨⟨_, hl.fieldIds, hnodup⟩, fun junk updates hguarded htwice b' h => htwice (names_nodup hl hnodup hguarded h)⟩

set_option maxRecDepth 2000 in
/-- A field is named again with its own type code: the update is rejected. -/
theorem fieldIds_nodup_twoFields : Reached plain twoFields ∧ ∀ b', bupdateval plain (fun _ => 0)
      [.blob twoFields, .integer 1, .integer 3, .integer 1, .integer 1, .null, .integer 1] ≠ .ok b' := by
  have hreached : Reached plain twoFields :=
    @Reached.created plain (fun _ => 0) 7 [.integer 1, .integer 9, .integer 1, .integer 2, .text [97], .integer 4] twoFields [1, 2]
      (by decide) (by decide) (by decide)
  refine ⟨hreached, (fieldIds_nodup hreached).2 (fun _ => 0) [.integer 1, .integer 3, .integer 1, .integer 1, .null, .integer 1] ?_ (by decide)⟩
  refine .cons (fun v hv _ => ⟨1, by decide, ?_⟩) (.cons nofun .nil)
  obtain rfl : v = (.integer 1, .null, .integer 1) := by simpa [triples] using hv
  exact fun h => absurd h.2 (by decide)

set_option maxRecDepth 2000 in
/-- A new field is named twice, and a stored field is named again with a null and its marked type code: both are accepted. -/
theorem fieldIds_nodup_false :
    bcreateval plain (fun _ => 0) [.integer 7, .integer 1, .integer 9, .integer 1, .integer 2, .text [97], .integer 4] = .ok twoFields ∧
      (bupdateval plain (fun _ => 0)
        [.blob twoFields, .integer 5, .integer 10, .integer 1, .integer 5, .integer 20, .integer 1] >>= fieldIds) = .ok [5, 5, 1, 2] ∧
      (bcreateval plain (fun _ => 0) [.integer 7, .integer 1, .text (List.replicate 20 97), .integer 4] >>= fun b =>
        bupdateval plain (fun _ => 0) [.blob b, .integer 1, .null, .integer 4, .integer 1, .null, .integer 0x44]).isOk = true := by
  decide

end CgSql.Blobs
