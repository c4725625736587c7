import CgSql.Lemmas.Blobs

/-!
# Filling a block

A writer fills the areas of a block from below, a column at a time. What it has filled after some columns is the start of the layout
of their cells, and what is still free is arbitrary.
-/

namespace CgSql.Blobs

open Serial (littleEndian)

namespace BlobAux

variable {w : Writer} {head cs xs f1 f2 f3 f4 : List Byte} {code : Byte} {v : SqlValue} {n : Nat} {s : Sqlite}

/-! ## What is filled -/

/-- The filled and the free part of each area, and how far the word that was last written is ahead of the place for words. -/
structure Filling (w : Writer) (head ids ws cs xs f1 f2 f3 f4 : List Byte) (pending : Nat) : Prop where
  block : w.block = head ++ (ids ++ f1 ++ (ws ++ f2 ++ (cs ++ f3 ++ (xs ++ f4))))
  fieldIds : w.fieldIdsOffset = head.length + ids.length
  storage : w.storageOffset + pending = head.length + (ids.length + f1.length) + ws.length
  typeCodes : w.typeCodesOffset = head.length + (ids.length + f1.length) + (ws.length + f2.length) + cs.length
  variableOffset : w.variableOffset = head.length + (ids.length + f1.length) + (ws.length + f2.length) + (cs.length + f3.length) + xs.length

section Filling

variable {w : Writer} {head ids ws cs xs f1 f2 f3 f4 : List Byte} {pending : Nat}
variable {bytes : List Byte}

theorem Filling.typeCode (hf : Filling w head ids ws cs xs f1 f2 f3 f4 pending) (h : 1 ≤ f3.length) (code : Byte) :
    ∃ w', w.typeCode code = .ok w' ∧ Filling w' head ids ws (cs ++ [code]) xs f1 f2 (f3.drop 1) f4 pending ∧
      w'.variableOffset = w.variableOffset := by
  have hparts : ∀ cs, head ++ (ids ++ f1 ++ (ws ++ f2 ++ (cs ++ (xs ++ f4)))) = (head ++ (ids ++ f1 ++ (ws ++ f2))) ++ (cs ++ (xs ++ f4)) := by
    intro cs
    simp only [List.append_assoc]
  have hstore := store_border w.typeCodesOffset (head ++ (ids ++ f1 ++ (ws ++ f2))) cs f3 [code] (xs ++ f4)
    (by rw [hf.typeCodes]; simp only [List.length_append]; push_cast; omega) h
  rw [← hparts, ← hf.block] at hstore
  rw [Writer.typeCode, hstore]
  refine ⟨_, rfl, ?_, rfl⟩
  have hlen := List.length_drop (i := 1) (l := f3)
  refine ⟨?_, hf.fieldIds, hf.storage, ?_, ?_⟩
  · simp only [List.length_singleton, List.append_assoc]
  · rw [hf.typeCodes, List.length_append, List.length_singleton]
    push_cast
    omega
  · rw [hf.variableOffset, List.length_append, List.length_singleton, hlen]
    push_cast
    omega

theorem Filling.fieldId (hf : Filling w head ids ws cs xs f1 f2 f3 f4 pending) (hb : bytes.length = 8) (h : 8 ≤ f1.length) :
    ∃ w', w.fieldId bytes = .ok w' ∧ Filling w' head (ids ++ bytes) ws cs xs (f1.drop 8) f2 f3 f4 pending ∧
      w'.variableOffset = w.variableOffset := by
  have hstore := store_border w.fieldIdsOffset head ids f1 bytes (ws ++ f2 ++ (cs ++ f3 ++ (xs ++ f4))) hf.fieldIds (by omega)
  rw [← hf.block] at hstore
  rw [Writer.fieldId, hstore]
  refine ⟨_, rfl, ?_, rfl⟩
  have hlen := List.length_drop (i := 8) (l := f1)
  refine ⟨?_, ?_, ?_, ?_, ?_⟩
  · rw [hb]
  · rw [hf.fieldIds, List.length_append, hb]
    push_cast
    omega
  · rw [hf.storage, List.length_append, hb, hlen]
    push_cast
    omega
  · rw [hf.typeCodes, List.length_append, hb, hlen]
    push_cast
    omega
  · rw [hf.variableOffset, List.length_append, hb, hlen]
    push_cast
    omega

theorem Filling.word (hf : Filling w head ids ws cs xs f1 f2 f3 f4 0) (hb : bytes.length = 8) (h : 8 ≤ f2.length) :
    ∃ w', w.word bytes = .ok w' ∧ Filling w' head ids (ws ++ bytes) cs xs f1 (f2.drop 8) f3 f4 8 ∧ w'.variableOffset = w.variableOffset := by
  have hparts : ∀ ws, head ++ (ids ++ f1 ++ (ws ++ (cs ++ f3 ++ (xs ++ f4)))) = (head ++ (ids ++ f1)) ++ (ws ++ (cs ++ f3 ++ (xs ++ f4))) := by
    intro ws
    simp only [List.append_assoc]
  have hstorage := hf.storage
  have hstore := store_border w.storageOffset (head ++ (ids ++ f1)) ws f2 bytes (cs ++ f3 ++ (xs ++ f4))
    (by simp only [List.length_append]; push_cast at hstorage ⊢; omega) (by omega)
  rw [← hparts, ← hf.block] at hstore
  rw [Writer.word, hstore]
  refine ⟨_, rfl, ?_, rfl⟩
  have hlen := List.length_drop (i := 8) (l := f2)
  refine ⟨?_, hf.fieldIds, ?_, ?_, ?_⟩
  · simp only [hb, List.append_assoc]
  · rw [List.length_append, hb]
    push_cast at hstorage ⊢
    omega
  · rw [hf.typeCodes, List.length_append, hb, hlen]
    push_cast
    omega
  · rw [hf.variableOffset, List.length_append, hb, hlen]
    push_cast
    omega

theorem Filling.copyBytes (hf : Filling w head ids ws cs xs f1 f2 f3 f4 pending) (h : bytes.length ≤ f4.length) :
    ∃ w', w.copyBytes bytes = .ok w' ∧ Filling w' head ids ws cs (xs ++ bytes) f1 f2 f3 (f4.drop bytes.length) pending ∧
      w'.variableOffset = w.variableOffset + bytes.length := by
  have hparts : ∀ xs, head ++ (ids ++ f1 ++ (ws ++ f2 ++ (cs ++ f3 ++ xs))) =
      (head ++ (ids ++ f1 ++ (ws ++ f2 ++ (cs ++ f3)))) ++ (xs ++ []) := by
    intro xs
    simp only [List.append_assoc, List.append_nil]
  have hstore := store_border w.variableOffset (head ++ (ids ++ f1 ++ (ws ++ f2 ++ (cs ++ f3)))) xs f4 bytes []
    (by rw [hf.variableOffset]; simp only [List.length_append]; push_cast; omega) h
  rw [← hparts, ← hf.block] at hstore
  rw [Writer.copyBytes, hstore]
  refine ⟨_, rfl, ?_, rfl⟩
  refine ⟨?_, hf.fieldIds, hf.storage, hf.typeCodes, ?_⟩
  · simp only [List.append_assoc, List.append_nil]
  · rw [hf.variableOffset, List.length_append]
    push_cast
    omega

theorem Filling.next (hf : Filling w head ids ws cs xs f1 f2 f3 f4 8) : Filling w.next head ids ws cs xs f1 f2 f3 f4 0 := by
  refine ⟨hf.block, hf.fieldIds, ?_, hf.typeCodes, hf.variableOffset⟩
  have := hf.storage
  simp only [Writer.next]
  push_cast at this ⊢
  omega

/-! ## Cells -/

/-- A cell is written: its word, and its variable bytes. -/
def putCell (w : Writer) (c : Cell) : Udf Writer :=
  match c with
  | .fixed _ word => w.word word
  | c => do
    let w ← w.word (c.word w.variableOffset)
    w.copyBytes c.extra

theorem length_word {c : Cell} (hc : c.WellFormed) (offset : Int) : (c.word offset).length = 8 := by
  cases c with
  | fixed type word => exact hc.2.2
  | string bytes => exact length_bigEndian 8 _
  | blob bytes => exact length_bigEndian 8 _

theorem Filling.putCell (hf : Filling w head ids ws cs xs f1 f2 f3 f4 0) {c : Cell} (hc : c.WellFormed) (h2 : 8 ≤ f2.length)
    (h4 : c.extra.length ≤ f4.length) : ∃ w', putCell w c = .ok w' ∧
      Filling w' head ids (ws ++ c.word w.variableOffset) cs (xs ++ c.extra) f1 (f2.drop 8) f3 (f4.drop c.extra.length) 8 ∧
      w'.variableOffset = w.variableOffset + c.extra.length := by
  obtain ⟨w1, hw1, hf1, hv1⟩ := hf.word (length_word hc w.variableOffset) h2
  cases c with
  | fixed type word =>
    refine ⟨w1, hw1, ?_, ?_⟩
    · rw [Cell.extra, List.append_nil, List.length_nil, List.drop_zero]
      exact hf1
    · rw [hv1, Cell.extra, List.length_nil]
      omega
  | string bytes =>
    obtain ⟨w2, hw2, hf2, hv2⟩ := hf1.copyBytes h4
    refine ⟨w2, ?_, hf2, by rw [hv2, hv1]⟩
    simp only [BlobAux.putCell, hw1, ok_bind, hw2]
  | blob bytes =>
    obtain ⟨w2, hw2, hf2, hv2⟩ := hf1.copyBytes h4
    refine ⟨w2, ?_, hf2, by rw [hv2, hv1]⟩
    simp only [BlobAux.putCell, hw1, ok_bind, hw2]

end Filling

/-! ## Columns -/

/-- A function writes one column: its field id if there is one, its cell, and its type code. -/
def Fills {α : Type} (f : Writer → α → Udf Writer) (id : α → List Byte) (cell : α → Cell) (a : α) : Prop :=
  ∀ ⦃w : Writer⦄ ⦃head ids ws cs xs f1 f2 f3 f4 : List Byte⦄, Filling w head ids ws cs xs f1 f2 f3 f4 0 →
    (id a).length ≤ f1.length → 8 ≤ f2.length → 1 ≤ f3.length → (cell a).extra.length ≤ f4.length →
    ∃ w', f w a = .ok w' ∧ Filling w' head (ids ++ id a) (ws ++ (cell a).word w.variableOffset) (cs ++ [(cell a).type.code])
      (xs ++ (cell a).extra) (f1.drop (id a).length) (f2.drop 8) (f3.drop 1) (f4.drop (cell a).extra.length) 0 ∧
      w'.variableOffset = w.variableOffset + (cell a).extra.length

/-- A loop over columns fills the areas with their layout. -/
theorem Filling.run {α : Type} {f : Writer → α → Udf Writer} {id : α → List Byte} {cell : α → Cell} {l : List α}
    (hl : ∀ a ∈ l, Fills f id cell a) {ids ws : List Byte}
    (hf : Filling w head ids ws cs xs f1 f2 f3 f4 0) (h1 : (l.flatMap id).length ≤ f1.length) (h2 : 8 * l.length ≤ f2.length)
    (h3 : l.length ≤ f3.length) (h4 : (extras (l.map cell)).length ≤ f4.length) :
    ∃ w', l.foldlM f w = .ok w' ∧ Filling w' head (ids ++ l.flatMap id)
      (ws ++ (words w.variableOffset (l.map cell)).flatten) (cs ++ codes (l.map cell)) (xs ++ extras (l.map cell))
      (f1.drop (l.flatMap id).length) (f2.drop (8 * l.length)) (f3.drop l.length) (f4.drop (extras (l.map cell)).length) 0 ∧
      w'.variableOffset = w.variableOffset + (extras (l.map cell)).length := by
  induction l generalizing w ids ws cs xs f1 f2 f3 f4 with
  | nil =>
    refine ⟨w, rfl, ?_, ?_⟩
    · simpa [words, codes, extras] using hf
    · simp [extras]
  | cons a l ih =>
    have hextras : extras ((a :: l).map cell) = (cell a).extra ++ extras (l.map cell) := rfl
    have hcodes : codes ((a :: l).map cell) = (cell a).type.code :: codes (l.map cell) := rfl
    have hwords : words w.variableOffset ((a :: l).map cell) =
        (cell a).word w.variableOffset :: words (w.variableOffset + (cell a).extra.length) (l.map cell) := rfl
    rw [List.flatMap_cons, List.length_append] at h1
    rw [List.length_cons] at h2 h3
    rw [hextras, List.length_append] at h4
    obtain ⟨w1, hw1, hf1, hv1⟩ := hl a List.mem_cons_self hf (by omega) (by omega) (by omega) (by omega)
    obtain ⟨w2, hw2, hf2, hv2⟩ := ih (fun b hb => hl b (List.mem_cons_of_mem _ hb)) hf1 (by rw [List.length_drop]; omega)
      (by rw [List.length_drop]; omega) (by rw [List.length_drop]; omega) (by rw [List.length_drop]; omega)
    refine ⟨w2, by rw [List.foldlM_cons, hw1]; exact hw2, ?_, ?_⟩
    · rw [hv1] at hf2
      rw [hextras, hcodes, hwords]
      simp only [List.drop_drop, List.append_assoc] at hf2
      simp only [List.flatMap_cons, List.flatten_cons, List.length_append, List.length_cons, List.cons_append,
        List.nil_append, Nat.mul_add, Nat.mul_one, Nat.add_comm l.length 1] at hf2 ⊢
      exact hf2
    · rw [hv2, hv1, hextras, List.length_append]
      push_cast
      omega

/-- The ids of fields, and what a loop over columns with fields fills. -/
theorem length_ids (fields : List Field) : (fields.flatMap fun f => bigEndian 8 f.id).length = 8 * fields.length := by
  induction fields with
  | nil => rfl
  | cons f fields ih => rw [List.flatMap_cons, List.length_append, length_bigEndian, ih, List.length_cons, Nat.mul_succ, Nat.add_comm]

theorem Filling.runFields {α : Type} {f : Writer → α → Udf Writer} {field : α → Field} {l : List α}
    (hl : ∀ a ∈ l, Fills f (fun a => bigEndian 8 (field a).id) (fun a => (field a).cell) a)
    {ids ws : List Byte} (hf : Filling w head ids ws cs xs f1 f2 f3 f4 0)
    {fields : List Field} (hfields : l.map field = fields) (h1 : 8 * fields.length ≤ f1.length)
    (h2 : 8 * fields.length ≤ f2.length) (h3 : fields.length ≤ f3.length) (h4 : (extras (fields.map Field.cell)).length ≤ f4.length) :
    ∃ w', l.foldlM f w = .ok w' ∧ Filling w' head (ids ++ fields.flatMap fun f => bigEndian 8 f.id)
      (ws ++ (words w.variableOffset (fields.map Field.cell)).flatten) (cs ++ codes (fields.map Field.cell))
      (xs ++ extras (fields.map Field.cell)) (f1.drop (8 * fields.length)) (f2.drop (8 * fields.length))
      (f3.drop fields.length) (f4.drop (extras (fields.map Field.cell)).length) 0 ∧
      w'.variableOffset = w.variableOffset + (extras (fields.map Field.cell)).length := by
  subst hfields
  have hids : (l.flatMap fun a => bigEndian 8 (field a).id) = (l.map field).flatMap fun f => bigEndian 8 f.id := by
    rw [List.flatMap_map]
  have hcells : l.map (fun a => (field a).cell) = (l.map field).map Field.cell := by
    rw [List.map_map]
    rfl
  have hlen : (l.map field).length = l.length := List.length_map _
  have hrun := Filling.run hl hf (by rw [hids, length_ids]; exact h1) (by rw [← hlen]; exact h2) (by rw [← hlen]; exact h3)
    (by rw [hcells]; exact h4)
  rw [hids, hcells, length_ids, hlen] at hrun
  rw [hlen]
  exact hrun

/-- A block with nothing free but at its end is a layout. -/
theorem Filling.block_eq {ids ws : List (List Byte)}
    {pending : Nat} (hf : Filling w head ids.flatten ws.flatten cs xs f1 f2 f3 f4 pending) (h1 : f1.length = 0)
    (h2 : f2.length = 0) (h3 : f3.length = 0) : w.block = areas head ids ws cs (xs ++ f4) := by
  rw [hf.block, List.length_eq_zero_iff.1 h1, List.length_eq_zero_iff.1 h2, List.length_eq_zero_iff.1 h3]
  simp only [areas, List.append_nil]

/-- A new block in parts. -/
theorem exists_parts {b : List Byte} {a1 a2 a3 a4 a5 : Nat} (h : b.length = a1 + a2 + a3 + a4 + a5) :
    ∃ p1 p2 p3 p4 p5 : List Byte, b = p1 ++ (p2 ++ (p3 ++ (p4 ++ p5))) ∧ p1.length = a1 ∧ p2.length = a2 ∧ p3.length = a3 ∧
      p4.length = a4 ∧ p5.length = a5 := by
  refine ⟨b.take a1, (b.drop a1).take a2, ((b.drop a1).drop a2).take a3, (((b.drop a1).drop a2).drop a3).take a4,
    (((b.drop a1).drop a2).drop a3).drop a4, ?_, ?_, ?_, ?_, ?_, ?_⟩
  · rw [List.take_append_drop, List.take_append_drop, List.take_append_drop, List.take_append_drop]
  all_goals
    simp only [List.length_take, List.length_drop]
    omega

/-- The writer of a shape at its start. -/
theorem filling_start {shape : BlobShape} (h1 : shape.fieldIdsOffset = head.length)
    (h2 : shape.storageOffset = head.length + f1.length) (h3 : shape.typeCodesOffset = head.length + f1.length + f2.length)
    (h4 : shape.variableOffset = head.length + f1.length + f2.length + f3.length) :
    Filling (shape.writer (head ++ (f1 ++ (f2 ++ (f3 ++ f4))))) head [] [] [] [] f1 f2 f3 f4 0 := by
  refine ⟨?_, ?_, ?_, ?_, ?_⟩
  · simp only [BlobShape.writer, List.nil_append]
  · simp only [BlobShape.writer, h1, List.length_nil]
    omega
  · simp only [BlobShape.writer, h2, List.length_nil]
    omega
  · simp only [BlobShape.writer, h3, List.length_nil]
    omega
  · simp only [BlobShape.writer, h4, List.length_nil]
    omega

/-! ## Values -/

theorem code_of_ofCode? {type : BlobType} (h : BlobType.ofCode? code = some type) : type.code = code := by
  have := List.find?_some h
  simpa using this

theorem ofCode?_code (type : BlobType) : BlobType.ofCode? type.code = some type := by
  cases type <;> rfl

theorem length_fixedWord (s : Sqlite) (type : BlobType) (v : SqlValue) : (fixedWord s type v).length = 8 := by
  cases type
  case float => exact Serial.SerialAux.littleEndian_length 8 _
  all_goals exact length_bigEndian 8 _

/-- What can be stored with a code: numbers with the codes of words, a text as a string, and a blob as a blob. -/
theorem compat_cases (h : blobtypeVsArgtypeCompat v code = some n) :
    (∃ type, BlobType.ofCode? code = some type ∧ type ≠ .string ∧ type ≠ .blob ∧ n = 0) ∨
      (∃ bytes, BlobType.ofCode? code = some .string ∧ v = .text bytes ∧ n = bytes.length + 1) ∨
      (∃ bytes, BlobType.ofCode? code = some .blob ∧ v = .blob bytes ∧ n = bytes.length) := by
  unfold blobtypeVsArgtypeCompat at h
  split at h
  · exact Or.inl ⟨.bool, ‹_›, nofun, nofun, (Option.some.inj h).symm⟩
  · exact Or.inl ⟨.int32, ‹_›, nofun, nofun, (Option.some.inj h).symm⟩
  · exact Or.inl ⟨.int64, ‹_›, nofun, nofun, (Option.some.inj h).symm⟩
  · exact Or.inl ⟨.float, ‹_›, nofun, nofun, (Option.some.inj h).symm⟩
  · exact Or.inl ⟨.float, ‹_›, nofun, nofun, (Option.some.inj h).symm⟩
  · exact Or.inr (Or.inl ⟨_, ‹_›, rfl, (Option.some.inj h).symm⟩)
  · exact Or.inr (Or.inr ⟨_, ‹_›, rfl, (Option.some.inj h).symm⟩)
  · nomatch h

/-- The cell of a number. -/
theorem cellOf_fixed {type : BlobType} (h : BlobType.ofCode? code = some type)
    (hs : type ≠ .string) (hb : type ≠ .blob) (v : SqlValue) : cellOf s code v = .fixed type (fixedWord s type v) := by
  unfold cellOf
  rw [h]
  cases type
  case string => exact absurd rfl hs
  case blob => exact absurd rfl hb
  all_goals rfl

/-- A value that can be stored with a code has a cell of that code, of the size that was found. -/
theorem cellOf_spec (h : blobtypeVsArgtypeCompat v code = some n) :
    (cellOf s code v).WellFormed ∧ (cellOf s code v).extra.length = n ∧ (cellOf s code v).type.code = code := by
  rcases compat_cases h with ⟨type, hcode, hs, hb, rfl⟩ | ⟨bytes, hcode, rfl, rfl⟩ | ⟨bytes, hcode, rfl, rfl⟩
  · rw [cellOf_fixed hcode hs hb]
    exact ⟨⟨hs, hb, length_fixedWord s type v⟩, rfl, code_of_ofCode? hcode⟩
  · have hcell : cellOf s code (.text bytes) = .string bytes := by
      rw [cellOf, hcode]
      rfl
    rw [hcell]
    exact ⟨trivial, List.length_append, code_of_ofCode? hcode⟩
  · have hcell : cellOf s code (.blob bytes) = .blob bytes := by
      rw [cellOf, hcode]
      rfl
    rw [hcell]
    exact ⟨trivial, rfl, code_of_ofCode? hcode⟩

/-- Such a value is written as its cell. -/
theorem value_eq (h : blobtypeVsArgtypeCompat v code = some n) (w : Writer) : w.value s code v = putCell w (cellOf s code v) := by
  unfold cellOf Writer.value
  rcases compat_cases h with ⟨type, hcode, _, _, _⟩ | ⟨bytes, hcode, _, _⟩ | ⟨bytes, hcode, _, _⟩
  · rw [hcode]
    cases type <;> rfl
  · rw [hcode]
    rfl
  · rw [hcode]
    rfl

/-! ## Columns of values -/

/-- A column that `bcreatekey` accepts. -/
def KeySpecOk (s : Sqlite) (spec : SqlValue × SqlValue) : Prop :=
  spec.2.isInteger = true ∧ ∃ n, blobtypeVsArgtypeCompat spec.1 (typeArg s spec.2) = some n

/-- Its cell. -/
def keyCell (s : Sqlite) (spec : SqlValue × SqlValue) : Cell := cellOf s (typeArg s spec.2) spec.1

theorem fills_keyColumn {spec : SqlValue × SqlValue} (h : KeySpecOk s spec) : Fills (Writer.keyColumn s) (fun _ => []) (keyCell s) spec := by
  intro w head ids ws cs xs f1 f2 f3 f4 hf _ h2 h3 h4
  obtain ⟨_, n, hn⟩ := h
  obtain ⟨hc, _, hcode⟩ := cellOf_spec (s := s) hn
  obtain ⟨w1, hw1, hf1, hv1⟩ := hf.typeCode h3 (typeArg s spec.2)
  obtain ⟨w2, hw2, hf2, hv2⟩ := hf1.putCell hc h2 h4
  refine ⟨w2.next, ?_, ?_, ?_⟩
  · rw [Writer.keyColumn, hw1, ok_bind, value_eq hn, hw2]
    rfl
  · rw [hv1] at hf2
    rw [List.append_nil, List.length_nil, List.drop_zero, keyCell, hcode]
    exact hf2.next
  · show w2.variableOffset = _
    rw [hv2, hv1]
    rfl

/-- A column that `bcreateval` writes. -/
def ValSpecOk (s : Sqlite) (spec : SqlValue × SqlValue × SqlValue) : Prop :=
  spec.2.1 ≠ .null ∧ ∃ n, blobtypeVsArgtypeCompat spec.2.1 (typeArg s spec.2.2) = some n

/-- Its field. -/
def valField (s : Sqlite) (spec : SqlValue × SqlValue × SqlValue) : Field :=
  { id := spec.1.int64 s, cell := cellOf s (typeArg s spec.2.2) spec.2.1 }

theorem fills_valColumn {spec : SqlValue × SqlValue × SqlValue} (h : ValSpecOk s spec) :
    Fills (Writer.valColumn s) (fun spec => bigEndian 8 (valField s spec).id) (fun spec => (valField s spec).cell) spec := by
  intro w head ids ws cs xs f1 f2 f3 f4 hf h1 h2 h3 h4
  obtain ⟨hnull, n, hn⟩ := h
  obtain ⟨hc, _, hcode⟩ := cellOf_spec (s := s) hn
  rw [length_bigEndian] at h1
  obtain ⟨w1, hw1, hf1, hv1⟩ := hf.typeCode h3 (typeArg s spec.2.2)
  obtain ⟨w2, hw2, hf2, hv2⟩ := hf1.fieldId (length_bigEndian 8 (spec.1.int64 s)) h1
  obtain ⟨w3, hw3, hf3, hv3⟩ := hf2.putCell hc h2 h4
  refine ⟨w3.next, ?_, ?_, ?_⟩
  · rw [Writer.valColumn, if_neg hnull, hw1, ok_bind, hw2, ok_bind, value_eq hn, hw3]
    rfl
  · rw [hv2, hv1] at hf3
    rw [length_bigEndian]
    simp only [valField, hcode]
    exact hf3.next
  · show w3.variableOffset = _
    rw [hv3, hv2, hv1]
    rfl

end BlobAux

end CgSql.Blobs
