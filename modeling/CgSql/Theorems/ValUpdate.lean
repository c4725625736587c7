import CgSql.Lemmas.ValUpdate
import CgSql.Theorems.KeyUpdate
import Mathlib.Data.List.Pairwise

/-!
# The law of `bupdateval`

The first pass of `bupdateval` knows a field that it has seen by the mark on its type code. New fields have no code to mark, and a
null with the marked code passes for the field itself.
-/

namespace CgSql.Blobs

open BlobAux

/-! ## The law -/

/-- The value that an update gives to its field. -/
def newValue (s : Sqlite) (u : SqlValue × SqlValue × SqlValue) : SqlValue :=
  if u.2.1 = .null then .null else (cellOf s (typeArg s u.2.2) u.2.1).read

/-- The fields of the update have their new values, the other fields have those from before, and so has the record. -/
structure UpdateLaw (s : Sqlite) (b b' : List Byte) (us : List (SqlValue × SqlValue × SqlValue)) : Prop where
  recordType : bgetvalType [.blob b'] = bgetvalType [.blob b]
  updated : ∀ u ∈ us, bgetval [.blob b', u.1] = .ok (newValue s u)
  others : ∀ id, id ∉ us.map updateId → bgetval [.blob b', .integer id] = bgetval [.blob b, .integer id]

/-- Two updates name the same field only if it is not stored, and they give it the same value. -/
def Apart (s : Sqlite) (stored : List (BitVec 64)) (us : List (SqlValue × SqlValue × SqlValue)) : Prop :=
  us.Pairwise fun u v => updateId u = updateId v → updateId u ∉ stored ∧ newValue s u = newValue s v

instance (s : Sqlite) (stored : List (BitVec 64)) (us : List (SqlValue × SqlValue × SqlValue)) : Decidable (Apart s stored us) :=
  inferInstanceAs (Decidable (us.Pairwise _))

namespace BlobAux

theorem read_ne_null (c : Cell) : c.read ≠ .null := by
  cases c with
  | fixed type word => cases type <;> exact nofun
  | string bytes => exact nofun
  | blob bytes => exact nofun

theorem newValue_eq_null {s : Sqlite} {u : SqlValue × SqlValue × SqlValue} : newValue s u = .null ↔ u.2.1 = .null := by
  unfold newValue
  split
  · exact ⟨fun _ => ‹_›, fun _ => rfl⟩
  · rename_i hnull
    exact ⟨fun h => absurd h (read_ne_null _), fun h => absurd h hnull⟩

/-- The blob of `bcreateval`. -/
theorem lays_of_created {s : Sqlite} {junk : Nat → Byte} {recordType : BitVec 64} {args : List SqlValue} {b : List Byte}
    (h : bcreateval s junk (.integer recordType :: args) = .ok b) : Lays b recordType (valFields s (triples args)) [] := by
  obtain ⟨_, _, hargv, hok, hb, hlt⟩ := valCreated_of_ok h
  cases hargv
  exact ⟨hb, wellFormed_valFields fun spec hs => (hok spec hs).2.2, hlt⟩

section Places

variable {fields : List Field} {u v : SqlValue × SqlValue × SqlValue} {us : List (SqlValue × SqlValue × SqlValue)}
variable {done : List Nat}

theorem place_some {i : Nat} (h : place fields u = some i) : ∃ f, fields[i]? = some f ∧ f.id = updateId u := by
  obtain ⟨hi, hid, _⟩ := List.findIdx?_eq_some_iff_getElem.1 h
  exact ⟨fields[i], List.getElem?_eq_getElem hi, by simpa using hid⟩

theorem place_none : place fields u = none ↔ updateId u ∉ fields.map Field.id := by
  rw [place, List.findIdx?_eq_none_iff, List.mem_map, not_exists]
  simp only [decide_eq_false_iff_not, not_and]

/-- Where ids are distinct, the column of an id is the one with that id. -/
theorem place_eq_some (hnodup : (fields.map Field.id).Nodup) {i : Nat} {f : Field} (hf : fields[i]? = some f) :
    place fields u = some i ↔ f.id = updateId u := by
  constructor
  · intro h
    obtain ⟨g, hg, hid⟩ := place_some h
    rwa [Option.some.inj (hf.symm.trans hg)]
  · intro hid
    rcases hplace : place fields u with _ | j
    · exact absurd (hid ▸ List.mem_map_of_mem (List.mem_of_getElem? hf)) (place_none.1 hplace)
    · obtain ⟨g, hg, hid'⟩ := place_some hplace
      have hsame : (fields.map Field.id)[j]? = (fields.map Field.id)[i]? := by
        rw [List.getElem?_map, List.getElem?_map, hg, hf]
        exact congrArg some (hid'.trans hid.symm)
      have hj : j < (fields.map Field.id).length := by
        rw [List.length_map]
        exact (List.getElem?_eq_some_iff.1 hg).1
      rw [(List.getElem?_inj hj hnodup).1 hsame]

/-- Stored fields that are named once are not repeated. -/
theorem repeats_eq_zero (hdone : ∀ u ∈ us, ∀ i, place fields u = some i → i ∉ done)
    (h : us.Pairwise fun u v => updateId u = updateId v → updateId u ∉ fields.map Field.id) : repeats fields done us = 0 := by
  induction us generalizing done with
  | nil => rfl
  | cons u us ih =>
    obtain ⟨hu, hus⟩ := List.pairwise_cons.1 h
    have hrest := fun v hv => hdone v (List.mem_cons_of_mem _ hv)
    rw [repeats]
    rcases hplace : place fields u with _ | i
    · exact ih hrest hus
    · dsimp only
      rw [if_neg (hdone u List.mem_cons_self i hplace), Nat.zero_add]
      refine ih (fun v hv j hj hmem => ?_) hus
      rcases List.mem_cons.1 hmem with rfl | hmem
      · obtain ⟨f, hf, hid⟩ := place_some hplace
        obtain ⟨g, hg, hid'⟩ := place_some hj
        obtain rfl := Option.some.inj (hf.symm.trans hg)
        refine hu v hv (hid.symm.trans hid') (hid ▸ List.mem_map_of_mem (List.mem_of_getElem? hf))
      · exact hrest v hv j hj hmem

/-- The columns that are done are those of the updates. -/
theorem Effects.mem_done {s : Sqlite} {done' : List Nat} {columns size : Int} (h : Effects s fields done us done' columns size)
    (i : Nat) : i ∈ done' ↔ i ∈ done ∨ ∃ u ∈ us, place fields u = some i := by
  induction h with
  | nil => simp
  | @cons done done1 done2 u us _ _ _ _ hint head tail ih =>
    have hstep : i ∈ done1 ↔ i ∈ done ∨ place fields u = some i := by
      cases head with
      | skipped hplace => simp [hplace]
      | added hplace => simp [hplace]
      | deleted hplace => simp [hplace, or_comm, eq_comm]
      | replaced hplace => simp [hplace, or_comm, eq_comm]
      | repeated hplace => simp [hplace, or_comm, eq_comm]
    simp only [ih, hstep, List.mem_cons, exists_eq_or_imp, or_assoc]

/-- The fields that are left are those that no update names. -/
theorem left_eq {s : Sqlite} {columns size : Int} (hnodup : (fields.map Field.id).Nodup)
    (h : Effects s fields [] us done columns size) : left fields done = fields.filter fun f => f.id ∉ us.map updateId := by
  have hpred : ∀ i ∈ List.range fields.length, decide (i ∉ done) = decide ((fieldAt fields i).id ∉ us.map updateId) := by
    intro i hi
    have hf := List.getElem?_eq_getElem (List.mem_range.1 hi)
    rw [fieldAt_eq hf, decide_eq_decide, not_iff_not, h.mem_done, List.mem_map]
    simp only [List.not_mem_nil, false_or, place_eq_some hnodup hf, eq_comm]
  rw [left, leftColumns, List.filter_congr hpred]
  conv_rhs => rw [← map_fieldAt fields]
  rw [List.filter_map]
  rfl

end Places

/-! ### The fields of the result -/

section Result

variable {s : Sqlite} {junk : Nat → Byte} {b b' slack slack' : List Byte} {recordType : BitVec 64} {fields : List Field}
variable {done' : List Nat}

  {us : List (SqlValue × SqlValue × SqlValue)} {done : List Nat} {columns size : Int} {block : List Byte} {w w' : Writer}

theorem Effects.integers (h : Effects s fields done us done' columns size) : ∀ u ∈ us, u.1 = .integer (updateId u) := by
  induction h with
  | nil => exact nofun
  | @cons _ _ _ u _ _ _ _ _ hint head tail ih =>
    intro v hv
    rcases List.mem_cons.1 hv with rfl | hv
    · obtain ⟨id, value, type⟩ := v
      cases id <;> first | rfl | nomatch hint
    · exact ih v hv

/-- The fields that updates write. -/
theorem mem_valFields (hint : ∀ u ∈ us, u.1 = .integer (updateId u)) {f : Field} :
    f ∈ valFields s us ↔ ∃ u ∈ us, u.2.1 ≠ .null ∧ f.id = updateId u ∧ f.cell = cellOf s (typeArg s u.2.2) u.2.1 := by
  have hid : ∀ u ∈ us, (valField s u).id = updateId u := by
    intro u hu
    rw [valField, hint u hu]
    rfl
  rw [valFields, List.mem_map]
  constructor
  · rintro ⟨u, hu, rfl⟩
    obtain ⟨hmem, hnull⟩ := List.mem_filter.1 hu
    exact ⟨u, hmem, by simpa using hnull, hid u hmem, rfl⟩
  · rintro ⟨u, hmem, hnull, hfid, hcell⟩
    refine ⟨u, List.mem_filter.2 ⟨hmem, by simpa using hnull⟩, ?_⟩
    obtain ⟨fid, cell⟩ := f
    obtain rfl : fid = updateId u := hfid
    obtain rfl : cell = _ := hcell
    rw [← hid u hmem]
    rfl

/-- What is read from the result: the field of the first update that writes it, or a field that is left. -/
theorem read_updated (heffects : Effects s fields [] us done columns size)
    (hl : Lays b' recordType (updatedFields s fields us done) slack') (id : BitVec 64) :
    (∃ u ∈ us, updateId u = id ∧ u.2.1 ≠ .null ∧ bgetval [.blob b', .integer id] = .ok (newValue s u)) ∨
      (∀ u ∈ us, updateId u = id → u.2.1 = .null) ∧ bgetval [.blob b', .integer id] =
        .ok (((left fields done).find? fun f => f.id = id).elim .null fun f => f.cell.read) := by
  have hint := heffects.integers
  rw [hl.bgetval id, updatedFields, List.find?_append]
  rcases hfind : (valFields s us).find? fun f => f.id = id with _ | f
  · refine Or.inr ⟨fun u hu hid => ?_, by rw [hfind]; rfl⟩
    by_contra hnull
    have hmem : { id := updateId u, cell := cellOf s (typeArg s u.2.2) u.2.1 } ∈ valFields s us :=
      (mem_valFields hint).2 ⟨u, hu, hnull, rfl, rfl⟩
    have := List.find?_eq_none.1 hfind _ hmem
    exact this (by simpa using hid)
  · obtain ⟨u, hu, hnull, hfid, hcell⟩ := (mem_valFields hint).1 (List.mem_of_find?_eq_some hfind)
    have hid : f.id = id := by simpa using List.find?_some hfind
    refine Or.inl ⟨u, hu, hfid.symm.trans hid, hnull, ?_⟩
    rw [newValue, if_neg hnull, ← hcell, hfind]
    rfl

/-- An update is lawful if its names are apart. -/
theorem law_of_apart (hl : Lays b recordType fields slack) (hnodup : (fields.map Field.id).Nodup)
    (h : Updates s junk b b' recordType fields slack us done columns size block w w')
    (hapart : Apart s (fields.map Field.id) us) : UpdateLaw s b b' us := by
  have hint := h.effects.integers
  have hrepeats : repeats fields [] us = 0 :=
    repeats_eq_zero (fun _ _ _ _ => List.not_mem_nil) (hapart.imp fun h heq => (h heq).1)
  obtain ⟨slack', hl', _⟩ := h.lays hl hrepeats
  have hleft := left_eq hnodup h.effects
  have hagree : ∀ u ∈ us, ∀ v ∈ us, updateId u = updateId v → newValue s u = newValue s v := by
    have hpair : us.Pairwise fun u v => updateId u = updateId v → newValue s u = newValue s v := hapart.imp fun h heq => (h heq).2
    have hflip := hpair.imp fun {u v} h (heq : updateId v = updateId u) => (h heq.symm).symm
    exact fun u hu v hv => hpair.forall_of_forall_of_flip (fun _ _ _ => rfl) hflip hu hv
  refine ⟨?_, fun u hu => ?_, fun id hid => ?_⟩
  · rw [hl.bgetvalType, hl'.bgetvalType]
  · rw [hint u hu]
    rcases read_updated h.effects hl' (updateId u) with ⟨v, hv, heq, _, hread⟩ | ⟨hall, hread⟩
    · rw [hread, hagree u hu v hv heq.symm]
    · have hnone : (left fields done).find? (fun f => f.id = updateId u) = none := by
        rw [List.find?_eq_none, hleft]
        intro f hf hfid
        have hnew := (List.mem_filter.1 hf).2
        have heq : f.id = updateId u := by simpa using hfid
        simp only [heq, List.mem_map_of_mem hu, not_true_eq_false, decide_false, Bool.false_eq_true] at hnew
      rw [hread, hnone, newValue_eq_null.2 (hall u hu rfl)]
      rfl
  · rcases read_updated h.effects hl' id with ⟨v, hv, heq, _, _⟩ | ⟨_, hread⟩
    · exact absurd (heq ▸ List.mem_map_of_mem hv) hid
    · have hsame : (fun f : Field => decide (decide (f.id ∉ us.map updateId) = true ∧ decide (f.id = id) = true)) =
          fun f => decide (f.id = id) := by
        funext f
        rw [decide_eq_decide, decide_eq_true_eq, decide_eq_true_eq]
        exact ⟨fun h => h.2, fun heq => ⟨heq ▸ hid, heq⟩⟩
      rw [hread, hl.bgetval id, hleft, List.find?_filter, hsame]

/-! ### Names that are repeated -/

theorem place_congr {u v : SqlValue × SqlValue × SqlValue} (h : updateId u = updateId v) : place fields u = place fields v := by
  rw [place, place, h]

/-- A field that is done is named again only with a null and with its marked type code. -/
theorem Effects.again (h : Effects s fields done us done' columns size) :
    ∀ v ∈ us, ∀ i ∈ done, place fields v = some i → v.2.1 = .null ∧ ∃ f, fields[i]? = some f ∧ typeArg s v.2.2 = f.cell.type.code ||| dirty := by
  induction h with
  | nil => exact nofun
  | @cons done done1 _ u us _ _ _ _ hint head tail ih =>
    intro v hv i hi hplace
    have hmore : i ∈ done1 := by
      cases head with
      | skipped => exact hi
      | added => exact hi
      | deleted => exact List.mem_cons_of_mem _ hi
      | replaced => exact List.mem_cons_of_mem _ hi
      | repeated => exact List.mem_cons_of_mem _ hi
    rcases List.mem_cons.1 hv with rfl | hv
    · cases head with
      | skipped h => nomatch hplace.symm.trans h
      | added h => nomatch hplace.symm.trans h
      | deleted h _ hclean => exact absurd (Option.some.inj (hplace.symm.trans h) ▸ hi) hclean
      | replaced h _ hclean => exact absurd (Option.some.inj (hplace.symm.trans h) ▸ hi) hclean
      | repeated h hf _ htype hnull => exact ⟨hnull, _, Option.some.inj (hplace.symm.trans h) ▸ hf, htype⟩
    · exact ih v hv i hmore hplace

/-- So of two updates of a stored field the second one is such a null. -/
theorem Effects.pairwise (h : Effects s fields done us done' columns size) :
    us.Pairwise fun u v => updateId u = updateId v → updateId u ∈ fields.map Field.id → v.2.1 = .null ∧
      ∃ f ∈ fields, f.id = updateId v ∧ typeArg s v.2.2 = f.cell.type.code ||| dirty := by
  induction h with
  | nil => exact .nil
  | @cons done done1 _ u us _ _ _ _ hint head tail ih =>
    refine .cons (fun v hv heq hstored => ?_) ih
    rcases hplace : place fields u with _ | i
    · exact absurd hstored (place_none.1 hplace)
    · have hi : i ∈ done1 := by
        cases head with
        | skipped h => nomatch hplace.symm.trans h
        | added h => nomatch hplace.symm.trans h
        | deleted h => exact Option.some.inj (hplace.symm.trans h) ▸ List.mem_cons_self
        | replaced h => exact Option.some.inj (hplace.symm.trans h) ▸ List.mem_cons_self
        | repeated h => exact Option.some.inj (hplace.symm.trans h) ▸ List.mem_cons_self
      obtain ⟨hnull, f, hf, htype⟩ := tail.again v hv i hi ((place_congr heq).symm.trans hplace)
      obtain ⟨g, hg, hid⟩ := place_some hplace
      obtain rfl := Option.some.inj (hf.symm.trans hg)
      exact ⟨hnull, f, List.mem_of_getElem? hf, hid.trans heq, htype⟩

/-- Without repeated names of other fields the ids of the result are distinct. -/
theorem nodup_updated (hnodup : (fields.map Field.id).Nodup) (h : Effects s fields [] us done columns size)
    (hnew : us.Pairwise fun u v => updateId u = updateId v → updateId u ∈ fields.map Field.id) :
    ((updatedFields s fields us done).map Field.id).Nodup := by
  have hint := h.integers
  have hpresent : (present us).Pairwise fun u v => updateId u ≠ updateId v := by
    have hboth := (h.pairwise.and hnew).sublist (List.filter_sublist (p := fun spec => decide (spec.2.1 ≠ .null)))
    refine (hboth.imp_of_mem ?_ : (us.filter _).Pairwise _)
    intro u v _ hv hrel heq
    exact absurd (hrel.1 heq (hrel.2 heq)).1 (by simpa using (List.mem_filter.1 hv).2)
  have hvals : ((valFields s us).map Field.id).Nodup := by
    rw [valFields, List.map_map]
    refine List.pairwise_map.2 (hpresent.imp_of_mem ?_)
    intro u v hu hv hne
    show (valField s u).id ≠ (valField s v).id
    rw [valField, valField, hint u (List.mem_filter.1 hu).1, hint v (List.mem_filter.1 hv).1]
    exact hne
  have hleft : ((left fields done).map Field.id).Nodup := by
    rw [left_eq hnodup h]
    exact hnodup.sublist (List.filter_sublist.map _)
  rw [updatedFields, List.map_append]
  refine List.nodup_append.2 ⟨hvals, hleft, fun id hid id' hid' heq => ?_⟩
  obtain ⟨f, hf, rfl⟩ := List.mem_map.1 hid
  obtain ⟨g, hg, rfl⟩ := List.mem_map.1 hid'
  obtain ⟨u, hu, _, hfid, _⟩ := (mem_valFields hint).1 hf
  rw [left_eq hnodup h] at hg
  have hnotin := (List.mem_filter.1 hg).2
  rw [← heq, hfid] at hnotin
  simp only [List.mem_map_of_mem hu, not_true_eq_false, decide_false, Bool.false_eq_true] at hnotin

/-! ### The size and the header of the result -/

theorem findField_some {b : List Byte} {shape : BlobShape} {id : BitVec 64} {icols : List Nat} {icol : Nat}
    (h : findField b shape id icols = .ok (some icol)) : icol ∈ icols ∧ loadU64 b (shape.fieldIdsOffset + icol * 8) = .ok id := by
  induction icols with
  | nil => nomatch Except.ok.inj h
  | cons i icols ih =>
    rw [findField] at h
    obtain ⟨found, hload, h⟩ := bind_eq_ok h
    split at h
    · rename_i hid
      obtain rfl := Option.some.inj (Except.ok.inj h)
      exact ⟨List.mem_cons_self, hid ▸ hload⟩
    · exact ⟨List.mem_cons_of_mem _ (ih h).1, (ih h).2⟩

theorem Effects.deletedBytes_le (h : Effects s fields done us done' columns size) :
    deletedBytes fields done us ≤ variableSize (left fields done) := by
  induction h with
  | nil => exact Nat.zero_le _
  | @cons done done1 _ u us _ _ _ _ hint head tail ih =>
    rw [deletedBytes]
    cases head with
    | skipped hplace =>
      rw [hplace]
      exact ih
    | added hplace =>
      rw [hplace]
      exact ih
    | deleted hplace hf hclean _ hnull =>
      have hvar := variableSize_perm (left_perm hf hclean)
      rw [variableSize_cons] at hvar
      rw [hplace]
      dsimp only
      rw [if_pos ⟨hclean, hnull⟩, fieldAt_eq hf]
      omega
    | replaced hplace hf hclean _ hnull =>
      have hvar := variableSize_perm (left_perm hf hclean)
      rw [variableSize_cons] at hvar
      rw [hplace]
      dsimp only
      rw [if_neg fun h => hnull h.2]
      omega
    | repeated hplace hf hdone =>
      rw [left_again hdone] at ih
      rw [hplace]
      dsimp only
      rw [if_neg fun h => h.1 hdone, Nat.zero_add]
      exact ih

/-- The size of the result: it has seventeen bytes less for each repeated name, and what was deleted is left at its end. -/
theorem Updates.length_eq (hl : Lays b recordType fields slack)
    (h : Updates s junk b b' recordType fields slack us done columns size block w w') :
    (b'.length : Int) = 16 + 17 * ((updatedFields s fields us done).length - repeats fields [] us : Int) +
      variableSize (updatedFields s fields us done) + deletedBytes fields [] us + slack.length := by
  obtain ⟨hcolumns, hsize⟩ := h.counts
  have hmalloc := length_of_malloc h.malloc
  have hblock := (h.advances hl).length
  have hheader := (writeBlobHeader_ok h.header).1
  rw [hheader, hblock]
  show (block.length : Int) = _
  rw [hmalloc]
  simp only [valShape]
  omega

/-- A value is read only from a blob whose column count passes the contract, and that stores the id. -/
theorem stored_of_bgetval {b : List Byte} {header : Header} {id : BitVec 64} {v : SqlValue} (hheader : readBlobHeader b = .ok header)
    (h : bgetval [.blob b, .integer id] = .ok v) : 16 + 17 * (header.columnCount.toNat : Int) < 2 ^ 31 ∧
      (v ≠ .null → ∃ icol < header.columnCount.toNat, loadU64 b (16 + icol * 8) = .ok id) := by
  unfold bgetval at h
  dsimp only at h
  rw [hheader, ok_bind] at h
  split at h
  case isTrue => nomatch h
  obtain ⟨shape, hopen, h⟩ := bind_eq_ok h
  unfold openBlob at hopen
  obtain ⟨shape', hshape, hopen⟩ := bind_eq_ok hopen
  rw [computeVal_eq] at hshape
  split at hshape
  case isFalse => nomatch hshape
  rename_i hsmall
  obtain rfl := Except.ok.inj hshape
  split at hopen
  case isTrue => nomatch hopen
  obtain ⟨valid, _, hopen⟩ := bind_eq_ok hopen
  rcases valid with _ | _
  · nomatch hopen
  obtain rfl := Except.ok.inj hopen
  refine ⟨by simp only [valShape] at hsmall; omega, fun hv => ?_⟩
  obtain ⟨found, hfound, h⟩ := bind_eq_ok h
  rcases found with _ | icol
  · exact absurd (Except.ok.inj h).symm hv
  · obtain ⟨hmem, hload⟩ := findField_some hfound
    exact ⟨icol, List.mem_range.1 hmem, hload⟩

/-- The fields of a lawful result are read from it. -/
theorem reads_of_law (hl : Lays b recordType fields slack) (hnodup : (fields.map Field.id).Nodup)
    (h : Effects s fields [] us done columns size) (hlaw : UpdateLaw s b b' us) {f : Field} (hf : f ∈ updatedFields s fields us done) :
    ∃ v, v ≠ .null ∧ bgetval [.blob b', .integer f.id] = .ok v := by
  rcases List.mem_append.1 hf with hf | hf
  · obtain ⟨u, hu, hnull, hid, _⟩ := (mem_valFields h.integers).1 hf
    refine ⟨newValue s u, fun hv => hnull (newValue_eq_null.1 hv), ?_⟩
    rw [hid, ← h.integers u hu]
    exact hlaw.updated u hu
  · rw [left_eq hnodup h] at hf
    obtain ⟨hmem, hnew⟩ := List.mem_filter.1 hf
    rw [hlaw.others f.id (by simpa using hnew), hl.bgetval f.id]
    rcases hfind : fields.find? fun g => g.id = f.id with _ | g
    · exact absurd (List.find?_eq_none.1 hfind f hmem) (by simp)
    · exact ⟨g.cell.read, read_ne_null _, by rw [hfind]; rfl⟩

/-- A lawful result without repeated names of new fields has no repeated names of stored fields either: its header has not enough
columns for its fields otherwise. -/
theorem no_repeats_of_law (hl : Lays b recordType fields slack) (hnodup : (fields.map Field.id).Nodup)
    (h : Updates s junk b b' recordType fields slack us done columns size block w w') (hus : us ≠ [])
    (hnew : us.Pairwise fun u v => updateId u = updateId v → updateId u ∈ fields.map Field.id) (hlaw : UpdateLaw s b b' us) :
    repeats fields [] us = 0 := by
  by_contra hrepeats
  obtain ⟨hcolumns, hsize⟩ := h.counts
  obtain ⟨hlength, hheader, _⟩ := writeBlobHeader_ok h.header
  obtain ⟨u, hu⟩ := List.exists_mem_of_ne_nil us hus
  have hread := hlaw.updated u hu
  rw [h.effects.integers u hu] at hread
  have hcontract := (stored_of_bgetval hheader hread).1
  dsimp only at hcontract
  rw [BitVec.toNat_ofInt] at hcontract
  rcases Int.lt_or_le ((fields.length : Int) + columns) 0 with hneg | hpos
  · have hbound : -((fields.length : Int) + columns) < 2 ^ 31 := by
      rcases Nat.eq_zero_or_pos (updatedFields s fields us done).length with hzero | hpos
      · have hnil := List.length_eq_zero_iff.1 hzero
        have hvariable : variableSize (updatedFields s fields us done) = 0 := by rw [hnil]; rfl
        have hdeleted := h.effects.deletedBytes_le
        rw [left_nil] at hdeleted
        have hpositive := (malloc_ok h.malloc).1
        have hlen := hl.length_eq
        have hsmall := hl.small
        have hfields : variableSize fields = (extras (fields.map Field.cell)).length := rfl
        simp only [valShape] at hpositive
        omega
      · have hnonneg := (h.advances hl).nonneg hpos
        simp only [BlobShape.writer, valShape] at hnonneg
        omega
    omega
  · have hsub : (updatedFields s fields us done).map Field.id ⊆ (List.range (BitVec.ofInt 32 (fields.length + columns)).toNat).filterMap
          fun (icol : Nat) => (loadU64 b' (16 + icol * 8)).toOption := by
      intro id hid
      obtain ⟨f, hf, rfl⟩ := List.mem_map.1 hid
      obtain ⟨v, hv, hget⟩ := reads_of_law hl hnodup h.effects hlaw hf
      obtain ⟨icol, hicol, hload⟩ := (stored_of_bgetval hheader hget).2 hv
      exact List.mem_filterMap.2 ⟨icol, List.mem_range.2 hicol, by rw [hload]; rfl⟩
    have hle := (List.subperm_of_subset (nodup_updated hnodup h.effects hnew) hsub).length_le
    have hfilter := List.length_filterMap_le (fun (icol : Nat) => (loadU64 b' (16 + icol * 8)).toOption)
      (List.range (BitVec.ofInt 32 (fields.length + columns)).toNat)
    have hcount : (BitVec.ofInt 32 (fields.length + columns)).toNat = ((fields.length + columns) % (2 ^ 32 : Nat)).toNat :=
      BitVec.toNat_ofInt ..
    rw [List.length_map] at hle
    rw [List.length_range] at hfilter
    omega

end Result

/-- A stored field that is not repeated is named once. -/
theorem pairwise_of_repeats {fields : List Field} {done : List Nat} {us : List (SqlValue × SqlValue × SqlValue)}
    (h : repeats fields done us = 0) :
    us.Pairwise (fun u v => updateId u = updateId v → updateId u ∉ fields.map Field.id) ∧ ∀ u ∈ us, ∀ i, place fields u = some i → i ∉ done := by
  induction us generalizing done with
  | nil => exact ⟨.nil, by simp⟩
  | cons u us ih =>
    rw [repeats] at h
    rcases hplace : place fields u with _ | i
    · rw [hplace] at h
      obtain ⟨hpair, hdone⟩ := ih h
      refine ⟨.cons (fun v _ _ => place_none.1 hplace) hpair, fun v hv j hj => ?_⟩
      rcases List.mem_cons.1 hv with rfl | hv
      · cases hplace.symm.trans hj
      · exact hdone v hv j hj
    · rw [hplace] at h
      dsimp only at h
      have hclean : i ∉ done := by
        intro hmem
        rw [if_pos hmem] at h
        omega
      rw [if_neg hclean, Nat.zero_add] at h
      obtain ⟨hpair, hdone⟩ := ih h
      refine ⟨.cons (fun v hv heq _ => ?_) hpair, fun v hv j hj => ?_⟩
      · exact hdone v hv i ((place_congr heq).symm.trans hplace) List.mem_cons_self
      · rcases List.mem_cons.1 hv with rfl | hv
        · exact Option.some.inj (hplace.symm.trans hj) ▸ hclean
        · exact fun hmem => hdone v hv j hj (List.mem_cons_of_mem _ hmem)

end BlobAux

/-- An update is lawful if its names are apart. If it is lawful, its names are apart, or it both repeats the name of a field that is
stored and the name of one that is not. -/
theorem bupdateval_law {s : Sqlite} {junk junk' : Nat → Byte} {recordType : BitVec 64} {args updates : List SqlValue}
    {b b' : List Byte} (h : bcreateval s junk (.integer recordType :: args) = .ok b)
    (hdistinct : ((valFields s (triples args)).map Field.id).Nodup) (h' : bupdateval s junk' (.blob b :: updates) = .ok b') :
    (Apart s ((valFields s (triples args)).map Field.id) (triples updates) → UpdateLaw s b b' (triples updates)) ∧
      (UpdateLaw s b b' (triples updates) → Apart s ((valFields s (triples args)).map Field.id) (triples updates) ∨
        ¬(triples updates).Pairwise (fun u v => updateId u = updateId v → updateId u ∉ (valFields s (triples args)).map Field.id) ∧
          ¬(triples updates).Pairwise fun u v =>
            updateId u = updateId v → updateId u ∈ (valFields s (triples args)).map Field.id) := by
  have hl := lays_of_created h
  obtain ⟨hus, done, columns, size, block, w, w', hupdates⟩ := updates_of_ok hl h'
  refine ⟨law_of_apart hl hdistinct hupdates, fun hlaw => ?_⟩
  by_cases hstored : (triples updates).Pairwise fun u v => updateId u = updateId v → updateId u ∉ (valFields s (triples args)).map Field.id
  · have hagree : ∀ u ∈ triples updates, ∀ v ∈ triples updates, updateId u = updateId v → newValue s u = newValue s v := by
      intro u hu v hv heq
      have hread := hlaw.updated u hu
      rw [hupdates.effects.integers u hu, heq, ← hupdates.effects.integers v hv, hlaw.updated v hv] at hread
      exact (Except.ok.inj hread).symm
    refine Or.inl (hstored.imp_of_mem fun hu hv hne heq => ⟨hne heq, hagree _ hu _ hv heq⟩)
  · refine Or.inr ⟨hstored, fun hnew => hstored ?_⟩
    exact (pairwise_of_repeats (no_repeats_of_law hl hdistinct hupdates hus hnew hlaw)).1

/-- A value blob with the number 9 in the field 1 and the string `a` in the field 2. -/
def twoFields : List Byte :=
  valBlob 7 [{ id := 1, cell := .fixed .int32 (bigEndian 8 9) }, { id := 2, cell := .string [97] }] []

set_option maxRecDepth 2000 in
/-- A field is replaced, one is deleted, and one is added. -/
theorem bupdateval_law_twoFields : UpdateLaw plain twoFields
      (valBlob 7 [{ id := 1, cell := .fixed .int32 (bigEndian 8 10) }, { id := 5, cell := .fixed .int64 (bigEndian 8 20) }] [1, 1])
      [(.integer 1, .integer 10, .integer 1), (.integer 2, .null, .integer 4), (.integer 5, .integer 20, .integer 2)] :=
  (@bupdateval_law plain (fun _ => 0) (fun _ => 1) 7 [.integer 1, .integer 9, .integer 1, .integer 2, .text [97], .integer 4]
    [.integer 1, .integer 10, .integer 1, .integer 2, .null, .integer 4, .integer 5, .integer 20, .integer 2] twoFields _ (by decide)
    (by decide) (by decide)).1 (by decide)

set_option maxRecDepth 2000 in
/-- A new field is named twice with different values: both are stored, and the first one is read. -/
theorem bupdateval_law_false : ∃ b', bcreateval plain (fun _ => 0)
        [.integer 7, .integer 1, .integer 9, .integer 1, .integer 2, .text [97], .integer 4] = .ok twoFields ∧
      bupdateval plain (fun _ => 0) [.blob twoFields, .integer 5, .integer 10, .integer 1, .integer 5, .integer 20, .integer 1] = .ok b' ∧
      ¬UpdateLaw plain twoFields b' [(.integer 5, .integer 10, .integer 1), (.integer 5, .integer 20, .integer 1)] := by
  refine ⟨valBlob 7 [{ id := 5, cell := .fixed .int32 (bigEndian 8 10) }, { id := 5, cell := .fixed .int32 (bigEndian 8 20) },
    { id := 1, cell := .fixed .int32 (bigEndian 8 9) }, { id := 2, cell := .string [97] }] [], by decide, by decide, fun hlaw => ?_⟩
  have hsecond := hlaw.updated (.integer 5, .integer 20, .integer 1) (List.mem_cons_of_mem _ List.mem_cons_self)
  have hfirst := hlaw.updated (.integer 5, .integer 10, .integer 1) List.mem_cons_self
  exact absurd (Except.ok.inj (hfirst.symm.trans hsecond)) (by decide)

end CgSql.Blobs
