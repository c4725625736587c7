import CgSql.Lemmas.BlobWrite

/-!
# What is created

`bcreatekey` and `bcreateval` succeed exactly on arguments that they accept and whose layout has the size of an `int`, and what they
return is the layout.
-/

namespace CgSql.Blobs

namespace BlobAux

variable {s : Sqlite} {specs : List (SqlValue × SqlValue)} {total : Int} {junk : Nat → Byte} {b : List Byte} {argv : List SqlValue}

/-- The cells of columns that are created. -/
def keyCells (s : Sqlite) (specs : List (SqlValue × SqlValue)) : List Cell := specs.map (keyCell s)

/-! ## Sizes -/

theorem createKeySize_eq (h : ∀ spec ∈ specs, KeySpecOk s spec) : createKeySize s specs = .ok (extras (keyCells s specs)).length := by
  induction specs with
  | nil => rfl
  | cons spec specs ih =>
    obtain ⟨hint, n, hn⟩ := h spec List.mem_cons_self
    have hextra : (keyCell s spec).extra.length = n := (cellOf_spec hn).2.1
    have hsplit : extras (keyCells s (spec :: specs)) = (keyCell s spec).extra ++ extras (keyCells s specs) := rfl
    rw [createKeySize, if_pos hint, hn]
    simp only [ih fun spec hs => h spec (List.mem_cons_of_mem _ hs), ok_bind, pure_eq_ok]
    rw [hsplit, List.length_append, hextra]
    push_cast
    rfl

theorem keySpecs_ok {size : Int} (h : createKeySize s specs = .ok size) : ∀ spec ∈ specs, KeySpecOk s spec := by
  induction specs generalizing size with
  | nil => exact nofun
  | cons spec specs ih =>
    rw [createKeySize] at h
    split at h
    · rename_i hint
      split at h
      · rename_i n hn
        obtain ⟨rest, hrest, _⟩ := bind_eq_ok h
        intro x hx
        rcases List.mem_cons.1 hx with rfl | hx
        · exact ⟨hint, n, hn⟩
        · exact ih hrest x hx
      · nomatch h
    · nomatch h

theorem malloc_eq (junk : Nat → Byte) (h0 : 0 < total) (h : total < 2 ^ 31) : ∃ b, malloc junk total = .ok b ∧ (b.length : Int) = total := by
  refine ⟨_, if_pos ⟨h0, h⟩, ?_⟩
  rw [List.length_map, List.length_range]
  omega

theorem malloc_ok (h : malloc junk total = .ok b) : 0 < total ∧ total < 2 ^ 31 := by
  unfold malloc at h
  split at h
  · assumption
  · nomatch h

theorem length_of_malloc (h : malloc junk total = .ok b) : (b.length : Int) = total := by
  obtain ⟨h0, hlt⟩ := malloc_ok h
  obtain ⟨b', hb', hlen⟩ := malloc_eq junk h0 hlt
  rw [Except.ok.inj (h.symm.trans hb'), hlen]

theorem length_words (offset : Int) (cells : List Cell) : (words offset cells).length = cells.length := by
  induction cells generalizing offset with
  | nil => rfl
  | cons c cells ih => rw [words, List.length_cons, List.length_cons, ih]

theorem wordLength_words {cells : List Cell} (h : ∀ c ∈ cells, c.WellFormed) (offset : Int) : ∀ e ∈ words offset cells, e.length = 8 := by
  induction cells generalizing offset with
  | nil => exact nofun
  | cons c cells ih =>
    intro e he
    rw [words] at he
    rcases List.mem_cons.1 he with rfl | he
    · exact length_word (h c List.mem_cons_self) offset
    · exact ih (fun c hc => h c (List.mem_cons_of_mem _ hc)) _ e he

theorem length_codes (cells : List Cell) : (codes cells).length = cells.length := List.length_map _

/-- The size of a key blob. -/
theorem length_keyBlob (recordType : BitVec 64) {cells : List Cell} (h : ∀ c ∈ cells, c.WellFormed) :
    (keyBlob recordType cells).length = 16 + 9 * cells.length + (extras cells).length := by
  have hnil : ∀ e ∈ ([] : List (List Byte)), e.length = 8 := nofun
  rw [keyBlob, length_areas hnil (wordLength_words h _), length_headerBytes, length_words, length_codes, List.length_nil]
  omega

theorem length_valBlob (recordType : BitVec 64) {fields : List Field} (h : ∀ f ∈ fields, f.cell.WellFormed)
    (slack : List Byte) : (valBlob recordType fields slack).length =
      16 + 17 * fields.length + (extras (fields.map Field.cell)).length + slack.length := by
  have hids : ∀ e ∈ fields.map fun f => bigEndian 8 f.id, e.length = 8 := by
    intro e he
    obtain ⟨f, _, rfl⟩ := List.mem_map.1 he
    exact length_bigEndian 8 f.id
  have hcells : ∀ c ∈ fields.map Field.cell, c.WellFormed := by
    intro c hc
    obtain ⟨f, hf, rfl⟩ := List.mem_map.1 hc
    exact h f hf
  rw [valBlob, length_areas hids (wordLength_words hcells _), length_headerBytes, length_words, length_codes, List.length_map,
    List.length_map, List.length_append]
  omega

/-! ## Key blobs -/

theorem wellFormed_keyCells (h : ∀ spec ∈ specs, KeySpecOk s spec) : ∀ c ∈ keyCells s specs, c.WellFormed := by
  intro c hc
  obtain ⟨spec, hspec, rfl⟩ := List.mem_map.1 hc
  obtain ⟨_, n, hn⟩ := h spec hspec
  exact (cellOf_spec hn).1

/-- The loop of `bcreatekey` in a block of the right size. -/
theorem createKey_fill (recordType : BitVec 64)
    (h : ∀ spec ∈ specs, KeySpecOk s spec) {size : Nat} (hsize : (extras (keyCells s specs)).length = size)
    (hb : (b.length : Int) = (keyShape specs.length size).totalBytes) :
    ∃ b' w, writeBlobHeader b { recordType := recordType, columnCount := BitVec.ofNat 32 specs.length, magic := magic } = .ok b' ∧
      specs.foldlM (Writer.keyColumn s) ((keyShape specs.length size).writer b') = .ok w ∧ w.block = keyBlob recordType (keyCells s specs) := by
  have hlen : b.length = 16 + 0 + 8 * specs.length + specs.length + size := by
    simp only [keyShape] at hb
    omega
  obtain ⟨p1, p2, f2, f3, f4, rfl, hp1, hp2, h2, h3, h4⟩ := exists_parts hlen
  obtain rfl := List.length_eq_zero_iff.1 hp2
  have hhead := length_headerBytes recordType specs.length
  have hstart : Filling ((keyShape specs.length size).writer (headerBytes recordType specs.length ++ ([] ++ (f2 ++ (f3 ++ f4)))))
      (headerBytes recordType specs.length) [] [] [] [] [] f2 f3 f4 0 := by
    refine filling_start ?_ ?_ ?_ ?_
    · rw [hhead]
      rfl
    · rw [hhead]
      rfl
    · rw [hhead, h2]
      simp only [keyShape, List.length_nil]
      omega
    · rw [hhead, h2, h3]
      simp only [keyShape, List.length_nil]
      omega
  obtain ⟨w, hw, hf, _⟩ := Filling.run (fun spec hs => fills_keyColumn (h spec hs)) hstart (by simp) (by omega) (by omega)
    (by show (extras (keyCells s specs)).length ≤ _; omega)
  refine ⟨_, w, writeBlobHeader_eq hp1 _ recordType specs.length, hw, ?_⟩
  have hids : ([] : List Byte) ++ specs.flatMap (fun _ => []) = ([] : List (List Byte)).flatten := by simp
  rw [hids, List.nil_append] at hf
  have hblock := hf.block_eq (by simp) (by rw [List.length_drop]; omega) (by rw [List.length_drop]; omega)
  have hrest : f4.drop (extras (specs.map (keyCell s))).length = [] :=
    List.drop_eq_nil_of_le (by show _ ≤ (extras (keyCells s specs)).length; omega)
  rw [hblock, hrest, keyBlob, keyCells, List.length_map]
  simp only [List.nil_append, List.append_nil]
  congr 2
  simp only [BlobShape.writer, keyShape]
  omega

/-- What `bcreatekey` accepts, and what it returns. -/
def KeyCreated (s : Sqlite) (argv : List SqlValue) (b : List Byte) : Prop :=
  ∃ recordType args, argv = .integer recordType :: args ∧ ¬(argv.length < 3 ∨ argv.length % 2 = 0) ∧
    (∀ spec ∈ pairs args, KeySpecOk s spec) ∧ b = keyBlob recordType (keyCells s (pairs args)) ∧ b.length < 2 ^ 31

theorem keyCreated_of_ok (h : bcreatekey s junk argv = .ok b) : KeyCreated s argv b := by
  unfold bcreatekey at h
  split at h
  · nomatch h
  · rename_i hargc
    split at h
    · rename_i recordType args
      obtain ⟨size, hsize, h⟩ := bind_eq_ok h
      have hok := keySpecs_ok hsize
      rw [createKeySize_eq hok] at hsize
      obtain rfl := Except.ok.inj hsize
      obtain ⟨shape, hshape, h⟩ := bind_eq_ok h
      rw [computeKey_eq] at hshape
      split at hshape
      · obtain rfl := Except.ok.inj hshape
        obtain ⟨b0, hb0, h⟩ := bind_eq_ok h
        obtain ⟨h0, hlt⟩ := malloc_ok hb0
        obtain ⟨b0', hb0', hlen⟩ := malloc_eq junk h0 hlt
        obtain rfl := Except.ok.inj (hb0.symm.trans hb0')
        obtain ⟨b1, w, hb1, hw, hblock⟩ := createKey_fill recordType hok rfl hlen
        rw [hb1, ok_bind, hw, ok_bind, hblock] at h
        refine ⟨recordType, args, rfl, hargc, hok, (Except.ok.inj h).symm, ?_⟩
        rw [← Except.ok.inj h, length_keyBlob _ (wellFormed_keyCells hok), keyCells, List.length_map]
        simp only [keyShape, keyCells] at hlt
        omega
      · nomatch hshape
    · nomatch h

theorem bcreatekey_eq (junk : Nat → Byte) (h : KeyCreated s argv b) : bcreatekey s junk argv = .ok b := by
  obtain ⟨recordType, args, rfl, hargc, hok, rfl, hlt⟩ := h
  have hn : (keyCells s (pairs args)).length = (pairs args).length := List.length_map _
  rw [length_keyBlob _ (wellFormed_keyCells hok), hn] at hlt
  have hshape : computeKeyBlobShape (pairs args).length (extras (keyCells s (pairs args))).length =
      .ok (keyShape (pairs args).length (extras (keyCells s (pairs args))).length) := by
    rw [computeKey_eq, if_pos (by simp only [keyShape]; omega)]
  have hpos : 0 < (keyShape (pairs args).length (extras (keyCells s (pairs args))).length).totalBytes := by
    simp only [keyShape]
    omega
  obtain ⟨b0, hb0, hlen⟩ := malloc_eq junk hpos (by simp only [keyShape]; omega)
  obtain ⟨b1, w, hb1, hw, hblock⟩ := createKey_fill recordType hok rfl hlen
  unfold bcreatekey
  rw [if_neg hargc]
  dsimp only
  rw [createKeySize_eq hok, ok_bind, hshape, ok_bind, hb0, ok_bind, hb1, ok_bind, hw, ok_bind, hblock]
  rfl

/-! ## Value blobs -/

/-- The columns that are not null. -/
def present (specs : List (SqlValue × SqlValue × SqlValue)) : List (SqlValue × SqlValue × SqlValue) :=
  specs.filter fun spec => spec.2.1 ≠ .null

/-- The fields of columns that are created. -/
def valFields (s : Sqlite) (specs : List (SqlValue × SqlValue × SqlValue)) : List Field := (present specs).map (valField s)

/-- A column that `bcreateval` accepts. -/
def ValSpecAccepted (s : Sqlite) (spec : SqlValue × SqlValue × SqlValue) : Prop :=
  spec.2.2.isInteger = true ∧ spec.1.isInteger = true ∧ (spec.2.1 ≠ .null → ∃ n, blobtypeVsArgtypeCompat spec.2.1 (typeArg s spec.2.2) = some n)

theorem valSpecs_ok {specs : List (SqlValue × SqlValue × SqlValue)} {x : Nat × Int}
    (h : createValSize s specs = .ok x) : (∀ spec ∈ specs, ValSpecAccepted s spec) ∧ x.1 = (valFields s specs).length ∧
      x.2 = (extras ((valFields s specs).map Field.cell)).length := by
  induction specs generalizing x with
  | nil =>
    obtain rfl := Except.ok.inj h
    exact ⟨nofun, rfl, rfl⟩
  | cons spec specs ih =>
    obtain ⟨fieldId, value, type⟩ := spec
    rw [createValSize] at h
    split at h
    · rename_i hint
      split at h
      · rename_i hnull
        obtain ⟨hok, h1, h2⟩ := ih h
        have hpresent : present ((fieldId, value, type) :: specs) = present specs :=
          List.filter_cons_of_neg (by simpa using hnull)
        refine ⟨fun x hx => ?_, by rw [h1, valFields, valFields, hpresent], by rw [h2, valFields, valFields, hpresent]⟩
        rcases List.mem_cons.1 hx with rfl | hx
        · exact ⟨hint.1, hint.2, fun hne => absurd hnull hne⟩
        · exact hok x hx
      · rename_i hnull
        split at h
        · rename_i n hn
          obtain ⟨y, hy, h⟩ := bind_eq_ok h
          obtain rfl := Except.ok.inj h
          obtain ⟨hok, h1, h2⟩ := ih hy
          have hpresent : present ((fieldId, value, type) :: specs) = (fieldId, value, type) :: present specs :=
            List.filter_cons_of_pos (by simpa using hnull)
          have hsize : (cellOf s (typeArg s type) value).extra.length = n := (cellOf_spec hn).2.1
          refine ⟨fun x hx => ?_, ?_, ?_⟩
          · rcases List.mem_cons.1 hx with rfl | hx
            · exact ⟨hint.1, hint.2, fun _ => ⟨n, hn⟩⟩
            · exact hok x hx
          · rw [valFields, hpresent, List.map_cons, List.length_cons]
            exact congrArg (· + 1) h1
          · have hsplit : extras ((valFields s ((fieldId, value, type) :: specs)).map Field.cell) =
                (cellOf s (typeArg s type) value).extra ++ extras ((valFields s specs).map Field.cell) := by
              rw [valFields, hpresent]
              rfl
            rw [hsplit, List.length_append, hsize]
            push_cast
            exact congrArg _ h2
        · nomatch h
    · nomatch h

/-- Columns that are null are not written. -/
theorem foldlM_valColumn (s : Sqlite) (specs : List (SqlValue × SqlValue × SqlValue)) (w : Writer) :
    specs.foldlM (Writer.valColumn s) w = (present specs).foldlM (Writer.valColumn s) w := by
  induction specs generalizing w with
  | nil => rfl
  | cons spec specs ih =>
    by_cases hnull : spec.2.1 = .null
    · have hpresent : present (spec :: specs) = present specs := List.filter_cons_of_neg (by simpa using hnull)
      have hskip : w.valColumn s spec = .ok w := if_pos hnull
      rw [List.foldlM_cons, hskip, ok_bind, hpresent, ih]
    · have hpresent : present (spec :: specs) = spec :: present specs := List.filter_cons_of_pos (by simpa using hnull)
      rw [hpresent, List.foldlM_cons, List.foldlM_cons]
      exact congrArg _ (funext fun w => ih w)

/-- The columns that are present are those that are written. -/
theorem fills_present {specs : List (SqlValue × SqlValue × SqlValue)}
    (h : ∀ spec ∈ specs, spec.2.1 ≠ .null → ∃ n, blobtypeVsArgtypeCompat spec.2.1 (typeArg s spec.2.2) = some n) : ∀ spec ∈ present specs,
      Fills (Writer.valColumn s) (fun spec => bigEndian 8 (valField s spec).id) (fun spec => (valField s spec).cell) spec := by
  intro spec hspec
  obtain ⟨hmem, hnull⟩ := List.mem_filter.1 hspec
  have hne : spec.2.1 ≠ .null := by simpa using hnull
  exact fills_valColumn ⟨hne, h spec hmem hne⟩

theorem wellFormed_valFields {specs : List (SqlValue × SqlValue × SqlValue)}
    (h : ∀ spec ∈ specs, spec.2.1 ≠ .null → ∃ n, blobtypeVsArgtypeCompat spec.2.1 (typeArg s spec.2.2) = some n) :
    ∀ f ∈ valFields s specs, f.cell.WellFormed := by
  intro f hf
  obtain ⟨spec, hspec, rfl⟩ := List.mem_map.1 hf
  obtain ⟨hmem, hnull⟩ := List.mem_filter.1 hspec
  obtain ⟨n, hn⟩ := h spec hmem (by simpa using hnull)
  exact (cellOf_spec hn).1

/-- A writer that has filled the areas with the fields of a value blob. -/
theorem valBlob_of_filling {w : Writer} {head f1 f2 f3 f4 : List Byte} {fields : List Field} {offset : Int}
    (hf : Filling w head (fields.flatMap fun f => bigEndian 8 f.id) (words offset (fields.map Field.cell)).flatten
      (codes (fields.map Field.cell)) (extras (fields.map Field.cell)) f1 f2 f3 f4 0)
    (h1 : f1.length = 0) (h2 : f2.length = 0) (h3 : f3.length = 0) (hoffset : offset = 16 + 17 * fields.length)
    {recordType : BitVec 64} (hhead : head = headerBytes recordType fields.length) : w.block = valBlob recordType fields f4 := by
  have hids : (fields.flatMap fun f => bigEndian 8 f.id) = (fields.map fun f => bigEndian 8 f.id).flatten := by
    rw [List.flatMap_def]
  rw [hids] at hf
  rw [hf.block_eq h1 h2 h3, valBlob, hhead, hoffset]

/-- What `bcreateval` accepts, and what it returns. -/
def ValCreated (s : Sqlite) (argv : List SqlValue) (b : List Byte) : Prop :=
  ∃ recordType args, argv = .integer recordType :: args ∧ (∀ spec ∈ triples args, ValSpecAccepted s spec) ∧
    b = valBlob recordType (valFields s (triples args)) [] ∧ b.length < 2 ^ 31

theorem valCreated_of_ok (h : bcreateval s junk argv = .ok b) : ValCreated s argv b := by
  unfold bcreateval at h
  split at h
  · cases h
  rename_i hargc
  split at h
  · rename_i recordType args
    obtain ⟨⟨n, size⟩, hx, h⟩ := bind_eq_ok h
    obtain ⟨hok, hn, hsize⟩ := valSpecs_ok hx
    have hcompat := fun spec hs => (hok spec hs).2.2
    obtain ⟨shape, hshape, h⟩ := bind_eq_ok h
    rw [computeVal_eq] at hshape
    split at hshape
    · obtain rfl := Except.ok.inj hshape
      obtain ⟨b0, hb0, h⟩ := bind_eq_ok h
      obtain ⟨h0, hlt⟩ := malloc_ok hb0
      obtain ⟨b0', hb0', hlen⟩ := malloc_eq junk h0 hlt
      obtain rfl := Except.ok.inj (hb0.symm.trans hb0')
      simp only at hn hsize
      subst hn hsize
      refine ⟨recordType, args, rfl, hok, ?_⟩
      generalize triples args = specs at *
      have hparts : b0.length = 16 + 8 * (valFields s specs).length + 8 * (valFields s specs).length +
          (valFields s specs).length + (extras ((valFields s specs).map Field.cell)).length := by
        simp only [valShape] at hlen
        omega
      obtain ⟨p1, f1, f2, f3, f4, rfl, hp1, h1, h2, h3, h4⟩ := exists_parts hparts
      obtain ⟨b1, hb1, h⟩ := bind_eq_ok h
      rw [writeBlobHeader_eq hp1] at hb1
      obtain rfl := Except.ok.inj hb1
      have hhead := length_headerBytes recordType (valFields s specs).length
      have hstart : Filling ((valShape (valFields s specs).length (extras ((valFields s specs).map Field.cell)).length).writer
          (headerBytes recordType (valFields s specs).length ++ (f1 ++ (f2 ++ (f3 ++ f4)))))
          (headerBytes recordType (valFields s specs).length) [] [] [] [] f1 f2 f3 f4 0 := by
        refine filling_start ?_ ?_ ?_ ?_
        · rw [hhead]
          rfl
        · rw [hhead, h1]
          simp only [valShape]
          omega
        · rw [hhead, h1, h2]
          simp only [valShape]
          omega
        · rw [hhead, h1, h2, h3]
          simp only [valShape]
          omega
      have hfields : (present specs).map (valField s) = valFields s specs := rfl
      obtain ⟨w, hw, hf, _⟩ := Filling.runFields (fills_present hcompat) hstart hfields (Nat.le_of_eq h1.symm)
        (Nat.le_of_eq h2.symm) (Nat.le_of_eq h3.symm) (Nat.le_of_eq h4.symm)
      rw [foldlM_valColumn, hw, ok_bind] at h
      have hrest : f4.drop (extras ((valFields s specs).map Field.cell)).length = [] := List.drop_eq_nil_of_le (Nat.le_of_eq h4)
      have hblock := valBlob_of_filling hf (by rw [List.length_drop]; exact Nat.sub_eq_zero_of_le (Nat.le_of_eq h1))
        (by rw [List.length_drop]; exact Nat.sub_eq_zero_of_le (Nat.le_of_eq h2))
        (by rw [List.length_drop]; exact Nat.sub_eq_zero_of_le (Nat.le_of_eq h3))
        (by simp only [BlobShape.writer, valShape]; omega) rfl
      rw [hblock, hrest] at h
      obtain rfl := Except.ok.inj h
      refine ⟨rfl, ?_⟩
      rw [length_valBlob _ (wellFormed_valFields hcompat)]
      simp only [valShape] at hlt
      simp only [List.length_nil]
      omega
    · cases hshape
  · cases h

end BlobAux

end CgSql.Blobs
