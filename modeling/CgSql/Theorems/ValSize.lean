import CgSql.Theorems.ValUpdate

/-!
# The size of an updated value blob

A field that is deleted does not give its variable bytes back, and the name of a field that is repeated takes a column away that is
not there.
-/

namespace CgSql.Blobs

open BlobAux

/-- The fields of the result of an update: those that are written, and those that no update names. -/
def resultFields (s : Sqlite) (fields : List Field) (us : List (SqlValue × SqlValue × SqlValue)) : List Field :=
  valFields s us ++ left fields (us.filterMap (place fields))

namespace BlobAux

variable {junk : Nat → Byte}

/-! ## Other blocks -/

theorem malloc_alike {total : Int} {block : List Byte} (h : malloc junk total = .ok block) (junk' : Nat → Byte) :
    ∃ block', malloc junk' total = .ok block' ∧ block'.length = block.length := by
  obtain ⟨h0, hlt⟩ := malloc_ok h
  have hlen := length_of_malloc h
  obtain ⟨block', hblock', hlen'⟩ := malloc_eq junk' h0 hlt
  exact ⟨block', hblock', by omega⟩

theorem getElem?_malloc {total : Int} {block : List Byte} (h : malloc junk total = .ok block) {i : Nat}
    (hi : i < block.length) : block[i]? = some (junk i) := by
  unfold malloc at h
  split at h
  · obtain rfl := Except.ok.inj h
    rw [List.length_map, List.length_range] at hi
    rw [List.getElem?_map, List.getElem?_range hi]
    rfl
  · nomatch h

theorem writeBlobHeader_alike {a a' b : List Byte} {header : Header} (hlen : b.length = a.length)
    (h : writeBlobHeader a header = .ok a') : ∃ b', writeBlobHeader b header = .ok b' := by
  obtain ⟨a1, h1, h⟩ := bind_eq_ok h
  obtain ⟨a2, h2, h3⟩ := bind_eq_ok h
  obtain ⟨b1, hb1, hlen1⟩ := store_alike hlen h1
  obtain ⟨b2, hb2, hlen2⟩ := store_alike hlen1 h2
  obtain ⟨b3, hb3, _⟩ := store_alike hlen2 h3
  exact ⟨b3, by rw [writeBlobHeader, hb1, ok_bind, hb2, ok_bind, hb3]⟩

/-- Whether an update is accepted does not depend on what is in the new block. -/
theorem bupdateval_alike {s : Sqlite} {argv : List SqlValue} {b' : List Byte}
    (h : bupdateval s junk argv = .ok b') (junk' : Nat → Byte) : ∃ b'', bupdateval s junk' argv = .ok b'' := by
  unfold bupdateval at h ⊢
  split at h
  case isTrue => nomatch h
  rename_i hargc
  rw [if_neg hargc]
  split at h
  case h_2 => nomatch h
  rename_i b args
  dsimp only
  obtain ⟨header, hheader, h⟩ := bind_eq_ok h
  split at h
  case isTrue => nomatch h
  rename_i hmagic
  rw [hheader, ok_bind, if_neg hmagic]
  obtain ⟨shape, hshape, h⟩ := bind_eq_ok h
  obtain ⟨x, hx, h⟩ := bind_eq_ok h
  obtain ⟨newShape, hnew, h⟩ := bind_eq_ok h
  obtain ⟨block, hblock, h⟩ := bind_eq_ok h
  obtain ⟨w1, hw1, h⟩ := bind_eq_ok h
  obtain ⟨w2, hw2, h⟩ := bind_eq_ok h
  obtain ⟨block', hblock', hlen⟩ := malloc_alike hblock junk'
  have hstart : Alike (newShape.writer block) (newShape.writer block') := ⟨hlen, rfl, rfl, rfl, rfl⟩
  obtain ⟨v1, hv1, halike1⟩ := Oblivious.run (oblivious_valColumn s) _ hstart hw1
  obtain ⟨v2, hv2, halike2⟩ := Oblivious.run (oblivious_copyColumn _ _) _ halike1 hw2
  obtain ⟨b'', hb''⟩ := writeBlobHeader_alike halike2.length h
  refine ⟨b'', ?_⟩
  dsimp only at hv1 hv2
  rw [hshape, ok_bind, hx, ok_bind, hnew, ok_bind, hblock', ok_bind, hv1, ok_bind, hv2, ok_bind, hb'']

/-! ## The last byte -/

section Result

variable {s : Sqlite} {junk : Nat → Byte} {b b' slack block : List Byte} {recordType : BitVec 64} {fields : List Field}
  {us : List (SqlValue × SqlValue × SqlValue)} {done : List Nat} {columns size : Int} {w w' : Writer}

theorem updatedFields_eq (h : Effects s fields [] us done columns size) : updatedFields s fields us done = resultFields s fields us := by
  have hleft : leftColumns fields done = leftColumns fields (us.filterMap (place fields)) := by
    refine List.filter_congr fun i _ => ?_
    rw [decide_eq_decide, not_iff_not, h.mem_done, List.mem_filterMap]
    simp only [List.not_mem_nil, false_or]
  rw [updatedFields, resultFields, left, hleft, left]

/-- Where the size is right only because of repeated names, the last byte is not written. -/
theorem Updates.last (hl : Lays b recordType fields slack) (h : Updates s junk b b' recordType fields slack us done columns size block w w')
    (hsize : deletedBytes fields [] us = 17 * repeats fields [] us) (hrepeats : 0 < repeats fields [] us)
    (hfields : 0 < (updatedFields s fields us done).length) : b'[b'.length - 1]? = some (junk (b'.length - 1)) := by
  obtain ⟨hcolumns, _⟩ := h.counts
  have hlen := h.length_eq hl
  obtain ⟨hheader, _, hheaderFrame⟩ := writeBlobHeader_ok h.header
  obtain ⟨hids, hstorage, hcodes, hvariable, hblock, _, hframe⟩ := h.advances hl
  simp only [BlobShape.writer, valShape] at hids hstorage hcodes hvariable hblock hframe
  rw [hheaderFrame _ (by omega), hframe _ (by omega) (by omega) (by omega) (by omega)]
  exact getElem?_malloc h.malloc (by omega)

end Result

end BlobAux

/-- An update writes every byte of a result that has just the size of its fields, exactly if the variable bytes of the fields that it
deletes are seventeen for each repeated name, and there are no repeated names or no fields. -/
theorem bupdateval_written_iff {s : Sqlite} {junk junk' : Nat → Byte} {recordType : BitVec 64} {args updates : List SqlValue}
    {b b' : List Byte} (h : bcreateval s junk (.integer recordType :: args) = .ok b)
    (h' : bupdateval s junk' (.blob b :: updates) = .ok b') :
    (b'.length = 16 + 17 * (resultFields s (valFields s (triples args)) (triples updates)).length +
        variableSize (resultFields s (valFields s (triples args)) (triples updates)) ∧
      ∀ junk'', bupdateval s junk'' (.blob b :: updates) = .ok b') ↔
    deletedBytes (valFields s (triples args)) [] (triples updates) = 17 * repeats (valFields s (triples args)) [] (triples updates) ∧
      (repeats (valFields s (triples args)) [] (triples updates) = 0 ∨ resultFields s (valFields s (triples args)) (triples updates) = []) := by
  have hl := lays_of_created h
  obtain ⟨_, done, columns, size, block, w, w', hup⟩ := updates_of_ok hl h'
  have hlen := hup.length_eq hl
  have hfields := updatedFields_eq hup.effects
  rw [hfields, List.length_nil] at hlen
  constructor
  · rintro ⟨hsize, hwritten⟩
    have hdeleted : deletedBytes (valFields s (triples args)) [] (triples updates) =
        17 * repeats (valFields s (triples args)) [] (triples updates) := by omega
    refine ⟨hdeleted, ?_⟩
    by_contra hneither
    rw [not_or] at hneither
    have hrepeats := Nat.pos_of_ne_zero hneither.1
    have hpos := List.length_pos_of_ne_nil hneither.2
    obtain ⟨_, done', columns', size', block', v, v', hother⟩ :=
      updates_of_ok hl (hwritten fun _ => junk' (b'.length - 1) + 1)
    have hlast := hup.last hl hdeleted hrepeats (by rw [hfields]; exact hpos)
    rw [hother.last hl hdeleted hrepeats (by rw [updatedFields_eq hother.effects]; exact hpos)] at hlast
    have := Option.some.inj hlast
    bv_omega
  · rintro ⟨hdeleted, hor⟩
    refine ⟨by omega, fun junk'' => ?_⟩
    obtain ⟨b'', hb''⟩ := bupdateval_alike h' junk''
    obtain ⟨_, done', columns', size', block', v, v', hother⟩ := updates_of_ok hl hb''
    rw [hb'']
    rcases hor with hrepeats | hnil
    · obtain ⟨slack1, hl1, hslack1⟩ := hup.lays hl hrepeats
      obtain ⟨slack2, hl2, hslack2⟩ := hother.lays hl hrepeats
      have hnil1 : slack1 = [] := List.length_eq_zero_iff.1 (by rw [hslack1, List.length_nil]; omega)
      have hnil2 : slack2 = [] := List.length_eq_zero_iff.1 (by rw [hslack2, List.length_nil]; omega)
      rw [hl1.eq, hl2.eq, hnil1, hnil2, hfields, updatedFields_eq hother.effects]
    · have hlen' := hother.length_eq hl
      have hvariable : variableSize (resultFields s (valFields s (triples args)) (triples updates)) = 0 := by rw [hnil]; rfl
      have hzero : (resultFields s (valFields s (triples args)) (triples updates)).length = 0 := by rw [hnil]; rfl
      have hcolumns := hup.counts.1
      have hcolumns' := hother.counts.1
      rw [updatedFields_eq hother.effects, List.length_nil] at hlen'
      rw [hfields] at hcolumns
      rw [updatedFields_eq hother.effects] at hcolumns'
      have hsame : columns' = columns := by omega
      have hbytes := (writeBlobHeader_bytes hup.header).2
      have hbytes' := (writeBlobHeader_bytes hother.header).2
      have hblock := (writeBlobHeader_ok hup.header).1
      have hblock' := (writeBlobHeader_ok hother.header).1
      rw [List.drop_eq_nil_of_le (by omega)] at hbytes hbytes'
      rw [hbytes, hbytes', hsame]

set_option maxRecDepth 2000 in
/-- A string is replaced by a longer one. -/
theorem bupdateval_written_iff_twoFields :
    (valBlob 7 [{ id := 2, cell := .string [98, 99] }, { id := 1, cell := .fixed .int32 (bigEndian 8 9) }] []).length =
        16 + 17 * 2 + variableSize [{ id := 2, cell := .string [98, 99] }, { id := 1, cell := .fixed .int32 (bigEndian 8 9) }] ∧
      ∀ junk, bupdateval plain junk [.blob twoFields, .integer 2, .text [98, 99], .integer 4] =
        .ok (valBlob 7 [{ id := 2, cell := .string [98, 99] }, { id := 1, cell := .fixed .int32 (bigEndian 8 9) }] []) :=
  (@bupdateval_written_iff plain (fun _ => 0) (fun _ => 1) 7
    [.integer 1, .integer 9, .integer 1, .integer 2, .text [97], .integer 4] [.integer 2, .text [98, 99], .integer 4] twoFields _
      (by decide) (by decide)).2 ⟨by decide, Or.inl (by decide)⟩

set_option maxRecDepth 2000 in
/-- A string is deleted: the result has two bytes more than its field needs, and they are not written. -/
theorem bupdateval_written_false :
    bcreateval plain (fun _ => 0) [.integer 7, .integer 1, .integer 9, .integer 1, .integer 2, .text [97], .integer 4] = .ok twoFields ∧
      bupdateval plain (fun _ => 1) [.blob twoFields, .integer 2, .null, .integer 4] =
        .ok (valBlob 7 [{ id := 1, cell := .fixed .int32 (bigEndian 8 9) }] [1, 1]) ∧
      bupdateval plain (fun _ => 2) [.blob twoFields, .integer 2, .null, .integer 4] =
        .ok (valBlob 7 [{ id := 1, cell := .fixed .int32 (bigEndian 8 9) }] [2, 2]) := by
  decide

end CgSql.Blobs
