import CgSql.Theorems.Serial

/-!
# Cursors from bytes

A row that C has written is read back exactly under the condition of the shared format: a bit that is lost is a null or a bool that
comes back as another. And from bytes of any kind the reader stays within its arrays, unless there are so many type codes that
their 16-bit counter starts again at zero.
-/

namespace CgSql.Serial

/-! ## The round trip -/

/-- The row is written, and its bytes are read as the row with a cursor of its shape. -/
def ReadsBack {sh : Shape} (row : Row sh) : Prop :=
  ∃ b, cursorToBytebuf row = some b ∧ cursorFromBytes sh b.bytes = pure row.values

/-- What a decoder that returns did first. -/
theorem Decode.bind_eq_pure {α β : Type} {x : Decode α} {f : α → Decode β} {b : β} (h : (x >>= f) = pure b) : ∃ a, x = pure a ∧ f a = pure b := by
  rcases x with _ | (e | a)
  · nomatch h
  · nomatch h
  · exact ⟨a, rfl, h⟩

/-- A decoder returns one result. -/
theorem Decode.pure_inj {α : Type} {a b : α} (h : (pure a : Decode α) = pure b) : a = b := by
  injection h with h
  exact Except.ok.inj h

namespace SerialAux

variable {cols : List Column} {values : List (Option Value)} {bits : List Byte} {sh : Shape} {n : Counts} {i total : Nat}

/-- A shape can be read from itself. -/
theorem accepts_self (c : Column) : c.accepts c.code = true := (accepts_iff c c).2 ⟨rfl, id⟩

theorem zip_self_accepts (cols : List Column) : (cols.zip cols).all (fun p => p.1.accepts p.2.code) = true := by
  induction cols with
  | nil => rfl
  | cons c cols ih => rw [List.zip_cons_cons, List.all_cons, accepts_self, ih, Bool.and_self]

theorem readable_self (cols : List Column) : readable cols cols = true := by
  rw [readable, zip_self_accepts, List.drop_length]
  rfl

theorem adapt_self (hfit : List.Forall₂ Column.Fits cols values) : adapt cols values = values := by
  induction hfit with
  | nil => rfl
  | cons _ _ ih => rw [adapt, ih]

/-- A value that is read as it was has its bit, and the reader goes on after it. -/
theorem value_bit {nc ni bi : Nat} {c : Column} {v : Value} (hfew : bits.length ≤ 2 ^ 13)
    (hfit : c.Fits (some v)) (hbool : c.type = .bool → (nc + bi) / 8 < bits.length) {rest : List Byte} {r : Reader}
    (h : Reader.value bits nc { input := payload (some v) ++ rest, nullableIndex := ni, boolIndex := bi } c.type = pure (v, r)) :
    (∀ b, v = .bool b → bit bits (nc + bi) = b) ∧ r = { input := rest, nullableIndex := ni, boolIndex := nextBool c bi } := by
  by_cases hb : ∃ b, v = .bool b
  · obtain ⟨b, rfl⟩ := hb
    -- the bytes are those of any bool: it is read from the bit
    have hlt := hbool hfit.1.symm
    have hread := @readerValue_eq bits nc ni bi c (.bool (bit bits (nc + bi))) hfew ⟨hfit.1, trivial⟩ (fun b hb => ⟨hlt, Value.bool.inj hb⟩) rest
    have heq := Decode.pure_inj (hread.symm.trans h)
    obtain ⟨hv, hr⟩ := Prod.mk.inj heq
    refine ⟨fun b' hb' => ?_, hr.symm⟩
    rw [Value.bool.inj hv, Value.bool.inj hb']
  · have hread := @readerValue_eq bits nc ni bi c v hfew hfit (fun b h => absurd ⟨b, h⟩ hb) rest
    have heq := Decode.pure_inj (hread.symm.trans h)
    exact ⟨fun b h => absurd ⟨b, h⟩ hb, (Prod.mk.inj heq).2.symm⟩

/-- A column that is read as it was has its bits, and the reader goes on after it. -/
theorem column_bits {bytes : List Byte} {ni bi : Nat} {c c' : Column} {v : Option Value}
    (hfew : bits.length ≤ 2 ^ 13) (hi : i < n.actual) (hcode : bytes[i]? = some c.code) (htype : c.type = c'.type) (hfit : c.Fits v)
    (hnull : c.notNull = false → ni / 8 < bits.length) (hbool : c.type = .bool → (n.nullables + bi) / 8 < bits.length)
    (rest : List Byte) {r : Reader}
    (h : Reader.column bytes bits n i c' { input := payload v ++ rest, nullableIndex := ni, boolIndex := bi } = pure (v, r)) :
    (c.notNull = false → bit bits ni = v.isSome) ∧ (∀ b, v = some (.bool b) → bit bits (n.nullables + bi) = b) ∧
      r = { input := rest, nullableIndex := nextNullable c ni, boolIndex := nextBool c bi } := by
  have hfetch : Reader.fetchData bytes bits n.actual i
      { input := payload v ++ rest, nullableIndex := ni, boolIndex := bi } =
      pure (c.notNull || bit bits ni, { input := payload v ++ rest, nullableIndex := nextNullable c ni, boolIndex := bi }) := by
    unfold Reader.fetchData nextNullable
    rw [if_neg (by omega)]
    simp only [Decode.at, hcode, pure_bind, isUpper_code]
    rcases hn : c.notNull with _ | _
    · simp [getBit?_eq (hnull hn)]
    · rfl
  unfold Reader.column at h
  rw [hfetch, pure_bind] at h
  rcases hpresent : c.notNull || bit bits ni with _ | _
  · simp only [hpresent, Bool.false_eq_true, if_false] at h
    obtain ⟨rfl, rfl⟩ := Prod.mk.inj (Decode.pure_inj h)
    obtain ⟨_, hbit⟩ := Bool.or_eq_false_iff.1 hpresent
    exact ⟨fun _ => hbit, fun b hb => (by cases hb), by simp [nextBool, htype, payload]⟩
  · simp only [hpresent, if_true] at h
    obtain ⟨x, hx, h⟩ := Decode.bind_eq_pure h
    obtain ⟨rfl, rfl⟩ := Prod.mk.inj (Decode.pure_inj h)
    rw [← htype] at hx
    obtain ⟨hvalue, hr⟩ := value_bit hfew hfit hbool hx
    refine ⟨fun hn => ?_, fun b hb => hvalue b (Option.some.inj hb), hr⟩
    rw [hn, Bool.false_or] at hpresent
    rw [hpresent]
    rfl

/-- The columns that are read as they were have their bits. -/
theorem bitsOk_of_read {bytes : List Byte}
    (hlen : bits.length = (total + 7) / 8) (hfew : bits.length ≤ 2 ^ 13) (hfit : List.Forall₂ Column.Fits cols values)
    {ni bi : Nat} (hw : Within n.nullables total ni bi cols) (hi : i + cols.length = n.actual)
    (hbytes : ∃ more, bytes.drop i = luaTypes cols ++ more) (needed : List Column)
    (hacc : (needed.zip cols).all (fun p => p.1.accepts p.2.code) = true)
    (h : Reader.columns bytes bits n i needed { input := payloads values, nullableIndex := ni, boolIndex := bi } = pure (adapt needed values)) :
    BitsOk bits n.nullables ni bi (cols.take needed.length) (values.take needed.length) := by
  induction hfit generalizing i ni bi needed with
  | nil => simp [BitsOk]
  | @cons c v cols values hcv hfit ih =>
    rcases needed with _ | ⟨c', needed⟩
    · simp [BitsOk]
    rw [List.length_cons] at hi
    rw [List.zip_cons_cons, List.all_cons, Bool.and_eq_true] at hacc
    obtain ⟨hni, hbi, hle⟩ := hw.head
    obtain ⟨more, hbytes⟩ := hbytes
    have hcode : bytes[i]? = some c.code := by
      have := congrArg (·[0]?) hbytes
      simpa [luaTypes] using this
    have hdrop : bytes.drop (i + 1) = luaTypes cols ++ more := by
      rw [← List.drop_drop, hbytes]
      rfl
    have hnull : c.notNull = false → ni / 8 < bits.length := fun hn => by have := hni hn; omega
    have hbool : c.type = .bool → (n.nullables + bi) / 8 < bits.length := fun ht => by have := hbi ht; omega
    obtain ⟨x, hcol, h⟩ := Decode.bind_eq_pure h
    obtain ⟨values', hcols, h⟩ := Decode.bind_eq_pure h
    obtain ⟨hv, rfl⟩ := List.cons.inj (Decode.pure_inj h)
    obtain ⟨v', r⟩ := x
    obtain rfl : v' = v := hv
    obtain ⟨hnullBit, hboolBit, rfl⟩ := column_bits hfew (by omega) hcode ((accepts_iff c' c).1 hacc.1).1 hcv hnull hbool (payloads values) hcol
    refine ⟨fun hn => ⟨hnull hn, hnullBit hn⟩, ?_, ih hw.tail (by omega) ⟨more, hdrop⟩ needed hacc.2 hcols⟩
    rintro b rfl
    exact ⟨hbool (type_of_fits hcv).symm, hboolBit b rfl⟩

/-- The codes of a row are read with a cursor of any shape that accepts them, whatever the bits are. -/
theorem cursorFromBytes_bits (row : Row sh) (needed : Shape) (hlen : bits.length = bitBytes sh.columns)
    (hacc : (needed.columns.zip sh.columns).all (fun p => p.1.accepts p.2.code) = true) :
    cursorFromBytes needed (encoded sh.columns row.values bits) = if (needed.columns.drop sh.columns.length).any (·.notNull) then Decode.error
      else Reader.columns (encoded sh.columns row.values bits) bits
        { nullables := nullableCount sh.columns, bools := boolCount sh.columns, actual := sh.columns.length
          next := min sh.columns.length needed.columns.length } 0 needed.columns
        { input := payloads row.values, nullableIndex := 0, boolIndex := 0 } := by
  obtain ⟨cols, hshort, hfew⟩ := sh
  obtain ⟨values, hfit⟩ := row
  obtain ⟨needed, hneeded, _⟩ := needed
  have hcodes := readCodes_eq hneeded (bits ++ payloads values) cols { nullables := 0, bools := 0, actual := 0, next := 0 }
    (by simp) (by simpa using hshort) (by simpa using hfew)
  have hbytes : encoded cols values bits = luaTypes cols ++ 0 :: (bits ++ payloads values) := by simp [encoded]
  have hbits : inlineBytes (bits ++ payloads values) ((nullableCount cols + boolCount cols + 7) / 8) = some (bits, payloads values) := by
    have h : bits.length = (nullableCount cols + boolCount cols + 7) / 8 := hlen
    rw [← h]
    exact inlineBytes_write _ _
  have hdrop : needed.drop (min cols.length needed.length) = needed.drop cols.length := by
    by_cases h : cols.length ≤ needed.length
    · rw [Nat.min_eq_left h]
    · rw [Nat.min_eq_right (by omega), List.drop_length, List.drop_eq_nil_of_le (by omega)]
  simp only [Nat.zero_add, List.drop_zero, hacc, if_true] at hcodes
  unfold cursorFromBytes
  simp only [hbytes, hcodes, pure_bind, hdrop, hbits, Decode.checked]

/-- The bits that C leaves in the buffer are right for the first columns exactly if these start within the capacity. -/
theorem bitsOk_iff_keepsBits {capacity nc : Nat}
    (hlen : bits.length = (total + 7) / 8) (hfit : List.Forall₂ Column.Fits cols values) {start ni bi : Nat} (hw : Within nc total ni bi cols)
    (h : ∀ j, Ahead nc ni bi j → j < total → (bit bits j = true ↔ j ∈ keptMarks capacity nc start ni bi cols values)) (k : Nat) :
    BitsOk bits nc ni bi (cols.take k) (values.take k) ↔ KeepsBits capacity start (cols.take k) (values.take k) := by
  induction hfit generalizing start ni bi k with
  | nil => simp [BitsOk, KeepsBits]
  | @cons c v cols values hcv hfit ih =>
    rcases k with _ | k
    · simp [BitsOk, KeepsBits]
    obtain ⟨hni, hbi, hle⟩ := hw.head
    -- what is kept for the columns that follow is not the null bit of this one, and not the bit of its value
    have hlater : ∀ j ∈ keptMarks capacity nc (start + size v) (nextNullable c ni) (nextBool c bi) cols values,
        Ahead nc (nextNullable c ni) (nextBool c bi) j :=
      fun j hj => (mem_allMarks hw.tail hfit (keptMarks_subset _ _ _ _ _ _ _ hj)).1
    have hrest := @ih (start + size v) _ _ hw.tail (fun j hj hlt => by
      obtain ⟨hnot, hahead⟩ := ahead_tail hw hcv hj
      rw [h j hahead hlt, keptMarks, List.mem_append]
      constructor
      · intro hmem
        refine hmem.resolve_left fun hhead => hnot ?_
        split at hhead
        · exact hhead
        · simp at hhead
      · exact Or.inr) k
    have hnull : c.notNull = false → (bit bits ni = true ↔ start ≤ capacity ∧ v.isSome = true) := by
      intro hn
      have hlt := hni hn
      rw [h ni (Or.inl ⟨Nat.le_refl _, hlt⟩) (by omega), keptMarks, List.mem_append]
      constructor
      · intro hmem
        rcases hmem with hmem | hmem
        · split at hmem
          · rename_i hstart
            rcases mem_marks hmem with ⟨_, hv, _⟩ | ⟨rfl, _⟩
            · exact ⟨hstart, hv⟩
            · exact ⟨hstart, rfl⟩
          · simp at hmem
        · have := hlater _ hmem
          unfold Ahead nextNullable at this
          simp only [hn, Bool.false_eq_true, if_false] at this
          omega
      · rintro ⟨hstart, hv⟩
        refine Or.inl ?_
        rw [if_pos hstart]
        simp [marks, hn, hv]
    have hbool : ∀ b, v = some (.bool b) → (bit bits (nc + bi) = true ↔ start ≤ capacity ∧ b = true) := by
      rintro b rfl
      have htype : c.type = .bool := (type_of_fits hcv).symm
      have hlt := hbi htype
      rw [h (nc + bi) (Or.inr (Nat.le_refl _)) hlt, keptMarks, List.mem_append]
      constructor
      · intro hmem
        rcases hmem with hmem | hmem
        · split at hmem
          · rename_i hstart
            rcases mem_marks hmem with ⟨hn, _, hj⟩ | ⟨hv, _⟩
            · have := hni hn
              omega
            · exact ⟨hstart, by simpa using hv⟩
          · simp at hmem
        · have := hlater _ hmem
          unfold Ahead nextBool at this
          simp only [htype, if_true] at this
          omega
      · rintro ⟨hstart, rfl⟩
        refine Or.inl ?_
        rw [if_pos hstart]
        simp [marks]
    have hnullLt : c.notNull = false → ni / 8 < bits.length := fun hn => by have := hni hn; omega
    have hboolLt : ∀ b, v = some (.bool b) → (nc + bi) / 8 < bits.length := by
      rintro b rfl
      have := hbi (type_of_fits hcv).symm
      omega
    simp only [List.take_succ_cons, BitsOk, KeepsBits, hrest]
    constructor
    · rintro ⟨hn, hb, hkeeps⟩
      refine ⟨fun hsets => ?_, hkeeps⟩
      rw [setsBit, Bool.or_eq_true, Bool.and_eq_true, Bool.not_eq_true', decide_eq_true_iff] at hsets
      rcases hsets with ⟨hc, hv⟩ | hv
      · exact ((hnull hc).1 ((hn hc).2.trans hv)).1
      · exact ((hbool true hv).1 (hb true hv).2).1
    · rintro ⟨hstart, hkeeps⟩
      refine ⟨fun hc => ⟨hnullLt hc, ?_⟩, fun b hv => ⟨hboolLt b hv, ?_⟩, hkeeps⟩
      · rw [Bool.eq_iff_iff, hnull hc, and_iff_right_iff_imp]
        intro hv
        exact hstart (by simp [setsBit, hc, hv])
      · rw [Bool.eq_iff_iff, hbool b hv, and_iff_right_iff_imp]
        rintro rfl
        exact hstart (by simp [setsBit, hv])

/-- The bits that C leaves in the buffer. -/
def leftBits {sh : Shape} (row : Row sh) : List Byte :=
  setBits (List.replicate (bitBytes sh.columns) 0)
    (keptMarks sh.capacity (nullableCount sh.columns) (sh.columns.length + 1 + bitBytes sh.columns) 0 0 sh.columns row.values)

theorem length_leftBits (row : Row sh) : (leftBits row).length = bitBytes sh.columns := by
  rw [leftBits, length_setBits, List.length_replicate]

/-- They are right for the first columns exactly if these start within the capacity. -/
theorem bitsOk_leftBits (row : Row sh) (k : Nat) : BitsOk (leftBits row) (nullableCount sh.columns) 0 0 (sh.columns.take k) (row.values.take k) ↔
      KeepsBits sh.capacity (sh.columns.length + 1 + bitBytes sh.columns) (sh.columns.take k) (row.values.take k) := by
  have hw := within_start sh.columns
  refine bitsOk_iff_keepsBits (length_leftBits row) row.fits hw (fun j _ _ => ?_) k
  rw [leftBits, bit_setBits fun i hi => ?_, bit_zeros, Bool.false_or, decide_eq_true_iff]
  rw [List.length_replicate]
  exact div_lt_bytes (mem_allMarks hw row.fits (keptMarks_subset _ _ _ _ _ _ _ hi)).2

/-- The bytes of a row are read as its values exactly if the columns that are read start within the capacity. -/
theorem cursorFromBytes_leftBits_iff (row : Row sh) (needed : Shape)
    (hacc : (needed.columns.zip sh.columns).all (fun p => p.1.accepts p.2.code) = true)
    (hextra : (needed.columns.drop sh.columns.length).any (·.notNull) = false) :
    cursorFromBytes needed (encoded sh.columns row.values (leftBits row)) = pure (adapt needed.columns row.values) ↔
      KeepsBits sh.capacity (sh.columns.length + 1 + bitBytes sh.columns) (sh.columns.take needed.columns.length)
        (row.values.take needed.columns.length) := by
  have hlen := length_leftBits row
  have hfew := sh.fewBits
  have hbytes : (nullableCount sh.columns + boolCount sh.columns + 7) / 8 = (leftBits row).length := hlen.symm
  have hdrop : (encoded sh.columns row.values (leftBits row)).drop 0 =
      luaTypes sh.columns ++ ([0] ++ leftBits row ++ payloads row.values) := by simp [encoded]
  rw [cursorFromBytes_bits row needed hlen hacc, hextra, if_neg (by simp), ← bitsOk_leftBits]
  constructor
  · intro h
    exact bitsOk_of_read (n := { nullables := nullableCount sh.columns, bools := _, actual := sh.columns.length, next := _ })
      hbytes.symm (by omega) row.fits (within_start sh.columns) (Nat.zero_add _) ⟨_, hdrop⟩ needed.columns hacc h
  · intro h
    exact readerColumns_eq (n := { nullables := nullableCount sh.columns, bools := _, actual := sh.columns.length, next := _ })
      (by omega) row.fits (Nat.zero_add _) hdrop needed.columns h hacc

/-- A row that is read back has lost no bits. -/
theorem fitting_of_readsBack {row : Row sh} (h : ReadsBack row) : Fitting row := by
  obtain ⟨b, hb, hread⟩ := h
  have heq := cursorToBytebuf_eq row
  rw [hb, Option.map_some] at heq
  obtain ⟨r, hr, hbytes⟩ := Option.map_eq_some_iff.1 heq.symm
  have htake : row.values.take sh.columns.length = row.values := List.take_of_length_le (Nat.le_of_eq row.fits.length_eq.symm)
  refine ⟨Option.isSome_iff_exists.2 ⟨r, hr⟩, ?_⟩
  have hkeeps := (cursorFromBytes_leftBits_iff row sh (zip_self_accepts _) (by simp)).1 (by rw [adapt_self row.fits, ← hread, ← hbytes]; rfl)
  rwa [List.take_length, htake] at hkeeps

end SerialAux

open SerialAux in
/-- A row is read back exactly if its size stays in 32 bits and every column that sets a bit starts within the capacity. -/
theorem readsBack_iff_fitting {sh : Shape} (row : Row sh) : ReadsBack row ↔ Fitting row := by
  constructor
  · exact fitting_of_readsBack
  · intro h
    obtain ⟨b, hb, hbytes⟩ := Option.map_eq_some_iff.1 ((written_iff row).2 h)
    refine ⟨b, hb, ?_⟩
    rw [hbytes, cursorFromBytes_eq, if_pos (readable_self _), adapt_self row.fits]

/-- The true bool after a long string comes back as false. -/
theorem readsBack_false : ¬ReadsBack longRow := fun h => longRow_not_fitting (SerialAux.fitting_of_readsBack h)

/-! ## Bytes of any kind -/

/-- The reader stays within its arrays: it ends with a row, or with an error. -/
def Ends (needed : Shape) (bytes : List Byte) : Prop :=
  (∃ values, cursorFromBytes needed bytes = pure values) ∨ cursorFromBytes needed bytes = Decode.error

/-- The type codes: the bytes before the first NUL, or all of them if there is none. -/
def typeCodes (bytes : List Byte) : List Byte := bytes.takeWhile (· ≠ 0)

/-- So many type codes that their counter is zero again, with all of the needed columns among the first. -/
structure Overlong (needed : Shape) (bytes : List Byte) : Prop where
  many : 2 ^ 16 ≤ (typeCodes bytes).length
  accepted : (needed.columns.zip (typeCodes bytes)).all (fun p => p.1.accepts p.2) = true

namespace SerialAux

variable {α : Type} {bytes codes : List Byte} {code : Byte}

/-! ### Within bounds -/

/-- No read is out of bounds. -/
def Bounded {α : Type} (x : Decode α) : Prop := x ≠ throw .outOfBounds

theorem bounded_pure (a : α) : Bounded (pure a : Decode α) := by
  intro h
  injection h with h
  nomatch h

theorem bounded_error : Bounded (Decode.error : Decode α) := by
  intro h
  nomatch h

theorem bounded_checked (o : Option α) : Bounded (Decode.checked o) := by
  rcases o with _ | a
  · exact bounded_error
  · exact bounded_pure a

theorem Bounded.bind {β : Type} {x : Decode α} {f : α → Decode β} (hx : Bounded x) (hf : ∀ a, x = pure a → Bounded (f a)) :
    Bounded (x >>= f) := by
  rcases x with _ | (e | a)
  · exact bounded_error
  · exact absurd rfl hx
  · exact hf a rfl

/-- What is not a fault is a result or an error. -/
theorem ends_iff_bounded {needed : Shape} : Ends needed bytes ↔ Bounded (cursorFromBytes needed bytes) := by
  constructor
  · intro h
    rcases h with ⟨values, h⟩ | h
    · rw [h]
      exact bounded_pure values
    · rw [h]
      exact bounded_error
  · intro h
    rcases hx : cursorFromBytes needed bytes with _ | (e | values)
    · exact Or.inr hx
    · exact absurd hx h
    · exact Or.inl ⟨values, hx⟩

/-- A code that is accepted is a letter of the column's type. -/
theorem letter_of_accepts {c : Column} (h : c.accepts code = true) :
    isUpper code = !isLower code ∧ isBoolCode code = decide (c.type = .bool) := by
  unfold Column.accepts at h
  rw [Bool.and_eq_true, decide_eq_true_iff] at h
  have hcode : code = c.type.letter ∨ code = c.type.letter + 32 := by
    rcases hl : isLower code with _ | _
    · exact Or.inl (by simpa [hl] using h.2)
    · refine Or.inr ?_
      have h2 : code - 32 = c.type.letter := by simpa [hl] using h.2
      rw [← h2, BitVec.sub_add_cancel]
  rcases hcode with rfl | rfl
  · rcases c.type <;> decide
  · rcases c.type <;> decide

/-- A value is read within bounds if the bit of a bool is; only a bool moves the index of the bits. -/
theorem value_bounded (bits : List Byte) (nc : Nat) (r : Reader) (c : Column)
    (hbool : c.type = .bool → (nc + r.boolIndex) % 2 ^ 16 / 8 < bits.length) :
    Bounded (r.value bits nc c.type) ∧ ∀ x, r.value bits nc c.type = pure x →
      x.2.nullableIndex = r.nullableIndex ∧ x.2.boolIndex = nextBool c r.boolIndex := by
  -- what is read from the input is checked, and leaves the indices
  have hinput : ∀ {α : Type} (o : Option (α × List Byte)) (f : α → Value),
      Bounded (Decode.checked o >>= fun x => pure (f x.1, { r with input := x.2 })) ∧
        ∀ x, (Decode.checked o >>= fun x => pure (f x.1, { r with input := x.2 })) = (pure x : Decode (Value × Reader)) →
          x.2.nullableIndex = r.nullableIndex ∧ x.2.boolIndex = r.boolIndex := by
    intro α o f
    refine ⟨(bounded_checked o).bind fun a _ => bounded_pure _, fun x hx => ?_⟩
    obtain ⟨a, _, h⟩ := Decode.bind_eq_pure hx
    rw [← Decode.pure_inj h]
    exact ⟨rfl, rfl⟩
  unfold nextBool
  rcases ht : c.type with _ | _ | _ | _ | _ | _
  case bool =>
    have hget := getBit?_eq (hbool ht)
    simp only [Reader.value, hget, Option.elim_some, pure_bind, if_true]
    refine ⟨bounded_pure _, fun x hx => ?_⟩
    rw [← Decode.pure_inj hx]
    exact ⟨rfl, rfl⟩
  case blob =>
    refine ⟨(bounded_checked _).bind fun a _ => (bounded_checked _).bind fun b _ => bounded_pure _, fun x hx => ?_⟩
    obtain ⟨a, _, h⟩ := Decode.bind_eq_pure hx
    obtain ⟨b, _, h⟩ := Decode.bind_eq_pure h
    rw [← Decode.pure_inj h]
    exact ⟨rfl, rfl⟩
  case int32 => exact hinput (readVarint32 r.input) Value.int32
  case int64 => exact hinput (readVarint64 r.input) Value.int64
  case double => exact hinput (readDouble r.input) Value.double
  case string => exact hinput (inlineStr r.input) Value.string

/-- A column that is stored is read within bounds if its bits are, and the indices go on after them. -/
theorem column_bounded {bits : List Byte} {c : Column} (r : Reader)
    (hi : i < n.actual) (hcode : bytes[i]? = some code) (hacc : c.accepts code = true)
    (hnull : isLower code = true → r.nullableIndex / 8 < bits.length)
    (hbool : c.type = .bool → (n.nullables + r.boolIndex) % 2 ^ 16 / 8 < bits.length) :
    Bounded (r.column bytes bits n i c) ∧ ∀ x, r.column bytes bits n i c = pure x →
      x.2.nullableIndex = r.nullableIndex + (if isLower code then 1 else 0) ∧ x.2.boolIndex = nextBool c r.boolIndex := by
  obtain ⟨hupper, _⟩ := letter_of_accepts hacc
  have hfetch : ∃ b, r.fetchData bytes bits n.actual i =
      pure (b, { r with nullableIndex := r.nullableIndex + if isLower code then 1 else 0 }) := by
    unfold Reader.fetchData
    rw [if_neg (by omega)]
    simp only [Decode.at, hcode, pure_bind, hupper]
    rcases hl : isLower code with _ | _
    · exact ⟨true, rfl⟩
    · exact ⟨bit bits r.nullableIndex, by simp [getBit?_eq (hnull hl)]⟩
  obtain ⟨b, hfetch⟩ := hfetch
  unfold Reader.column
  rw [hfetch, pure_bind]
  rcases b with _ | _
  · refine ⟨bounded_pure _, fun x hx => ?_⟩
    rw [← Decode.pure_inj hx]
    exact ⟨rfl, rfl⟩
  · obtain ⟨hvalue, hindices⟩ := value_bounded bits n.nullables
      { r with nullableIndex := r.nullableIndex + if isLower code then 1 else 0 } c hbool
    simp only [if_true]
    refine ⟨hvalue.bind fun a _ => bounded_pure _, fun x hx => ?_⟩
    obtain ⟨a, ha, h⟩ := Decode.bind_eq_pure hx
    rw [← Decode.pure_inj h]
    exact hindices a ha

/-- The last loop stays within its arrays. -/
theorem columns_bounded {bits : List Byte} (hlen : bits.length = (total + 7) / 8)
    (hi : i + codes.length = n.actual) {more : List Byte} (hbytes : bytes.drop i = codes ++ more)
    (needed : List Column) (hacc : (needed.zip codes).all (fun p => p.1.accepts p.2) = true) (r : Reader)
    (hnull : r.nullableIndex + codes.countP isLower ≤ n.nullables)
    (hbool : n.nullables + r.boolIndex + codes.countP isBoolCode ≤ total) : Bounded (r.columns bytes bits n i needed) := by
  induction codes generalizing i needed r with
  | nil =>
    rw [readerColumns_beyond (by simp at hi; omega) needed r]
    exact bounded_pure _
  | cons code codes ih =>
    rcases needed with _ | ⟨c, needed⟩
    · exact bounded_pure _
    rw [List.length_cons] at hi
    rw [List.countP_cons] at hnull hbool
    rw [List.zip_cons_cons, List.all_cons, Bool.and_eq_true] at hacc
    have hhead : c.accepts code = true := hacc.1
    have hcode : bytes[i]? = some code := by
      have := congrArg (·[0]?) hbytes
      simpa using this
    have hdrop : bytes.drop (i + 1) = codes ++ more := by
      rw [← List.drop_drop, hbytes]
      rfl
    obtain ⟨_, hbit⟩ := letter_of_accepts hhead
    have hindex : c.type = .bool → (n.nullables + r.boolIndex) % 2 ^ 16 / 8 < bits.length := by
      intro ht
      have hmod : (n.nullables + r.boolIndex) % 2 ^ 16 ≤ n.nullables + r.boolIndex := Nat.mod_le _ _
      rw [hbit, if_pos (by simpa using ht)] at hbool
      omega
    obtain ⟨hcol, hindices⟩ := column_bounded r (by omega) hcode hhead (fun hl => by rw [if_pos hl] at hnull; omega) hindex
    refine hcol.bind fun x hx => Bounded.bind ?_ fun values _ => bounded_pure _
    obtain ⟨hni, hbi⟩ := hindices x hx
    refine ih (by omega) hdrop needed hacc.2 x.2 (by omega) ?_
    rw [hbi]
    unfold nextBool
    rw [hbit] at hbool
    simp only [decide_eq_true_eq] at hbool
    by_cases ht : c.type = .bool
    · rw [if_pos ht] at hbool ⊢
      omega
    · rw [if_neg ht] at hbool ⊢
      omega

/-! ### The first loop -/

/-- The bytes are the type codes, and what begins with a NUL if there is one. -/
theorem eq_typeCodes (bytes : List Byte) :
    0 ∉ typeCodes bytes ∧ ∃ tail, bytes = typeCodes bytes ++ tail ∧ (tail = [] ∨ ∃ rest, tail = 0 :: rest) := by
  refine ⟨fun h => ?_, bytes.dropWhile (· ≠ 0), List.takeWhile_append_dropWhile.symm, ?_⟩
  · have := List.all_eq_true.1 List.all_takeWhile 0 h
    simp at this
  · rcases hrest : bytes.dropWhile (· ≠ 0) with _ | ⟨b, rest⟩
    · exact Or.inl hrest
    · have hne : bytes.dropWhile (· ≠ 0) ≠ [] := by
        rw [hrest]
        exact List.cons_ne_nil b rest
      have hb := List.head_dropWhile_not (fun b : Byte => decide (b ≠ 0)) hne
      simp only [hrest, List.head_cons, decide_eq_false_iff_not, not_not] at hb
      exact Or.inr ⟨rest, by rw [hrest, hb]⟩

/-- The counters before the first code. -/
def zeros : Counts := { nullables := 0, bools := 0, actual := 0, next := 0 }

/-- The first loop on codes that the counters have room for. -/
theorem readCodes_start {needed : List Column} (hneeded : needed.length < 2 ^ 16) (rest codes : List Byte) (hnul : 0 ∉ codes)
    (hcodes : codes.length < 2 ^ 16) : readCodes needed zeros (codes ++ rest) =
      if (needed.zip codes).all (fun p => p.1.accepts p.2) then readCodes needed (countsAfter needed zeros codes) rest
      else Decode.error := by
  have hlower := List.countP_le_length (p := isLower) (l := codes)
  have hbools := List.countP_le_length (p := isBoolCode) (l := codes)
  have hread := readCodes_append hneeded rest codes hnul zeros (Nat.zero_min _).symm (by simpa [zeros] using hcodes)
    (by simp only [zeros]; omega) (by simp only [zeros]; omega)
  exact hread

/-- With room for all of the codes the reader stays within its arrays. -/
theorem bounded_of_short (needed : Shape) {tail : List Byte} (hnul : 0 ∉ codes) (hcodes : codes.length < 2 ^ 16)
    (htail : tail = [] ∨ ∃ rest, tail = 0 :: rest) : Bounded (cursorFromBytes needed (codes ++ tail)) := by
  show Bounded (readCodes needed.columns zeros (codes ++ tail) >>= _)
  rw [readCodes_start needed.short tail codes hnul hcodes]
  by_cases hacc : (needed.columns.zip codes).all (fun p => p.1.accepts p.2) = true
  · rw [if_pos hacc]
    rcases htail with rfl | ⟨rest, rfl⟩
    · exact bounded_error
    · rw [readCodes, if_pos rfl, pure_bind]
      simp only
      split
      · exact bounded_error
      · refine (bounded_checked _).bind fun bits hbits => ?_
        have hlen : bits.1.length =
            ((countsAfter needed.columns zeros codes).nullables + (countsAfter needed.columns zeros codes).bools + 7) / 8 := by
          unfold inlineBytes at hbits
          split at hbits
          · rename_i hle
            rw [← Decode.pure_inj hbits]
            exact List.length_take_of_le hle
          · cases hbits
        exact columns_bounded hlen rfl rfl needed.columns hacc _ (by simp [countsAfter, zeros]) (by simp [countsAfter, zeros])
  · rw [if_neg hacc]
    exact bounded_error

/-- With one code more than the counters have room for, and the needed columns accepted, the code is checked against a column
that is not there. -/
theorem not_bounded {needed : Shape} {rest : List Byte} (hnul : 0 ∉ codes) (hcodes : codes.length + 1 = 2 ^ 16) (hcode : code ≠ 0)
    (hacc : (needed.columns.zip codes).all (fun p => p.1.accepts p.2) = true) :
    ¬Bounded (cursorFromBytes needed (codes ++ code :: rest)) := by
  have hshort := needed.short
  have hactual : ((countsAfter needed.columns zeros codes).add code).actual = 0 := by
    simp only [Counts.add, countsAfter, zeros]
    omega
  have hnext : ((countsAfter needed.columns zeros codes).add code).next = needed.columns.length := by
    simp only [Counts.add, countsAfter, zeros]
    omega
  have hfault : readCodes needed.columns zeros (codes ++ code :: rest) = throw .outOfBounds := by
    rw [readCodes_start hshort _ codes hnul (by omega), if_pos hacc, readCodes, if_neg hcode]
    simp only [hactual, hnext, Nat.zero_le, if_true, Decode.at, List.getElem?_length]
    rfl
  intro h
  refine h ?_
  show (readCodes needed.columns zeros (codes ++ code :: rest) >>= _) = _
  rw [hfault]
  rfl

/-- The needed columns are checked against the first codes. -/
theorem zip_take {needed : List Column} (codes : List Byte) {k : Nat} (hk : needed.length ≤ k) :
    needed.zip (codes.take k) = needed.zip codes := by
  induction needed generalizing codes k with
  | nil => rfl
  | cons c needed ih =>
    rw [List.length_cons] at hk
    obtain ⟨k, rfl⟩ : ∃ j, k = j + 1 := ⟨k - 1, by omega⟩
    rcases codes with _ | ⟨code, codes⟩
    · rfl
    · rw [List.take_succ_cons, List.zip_cons_cons, List.zip_cons_cons, ih codes (by omega)]

/-- When there is one code more, the reader leaves its arrays if it accepts the needed columns, and ends with an error if not. -/
theorem bounded_iff_of_many (needed : Shape) (hnul : 0 ∉ codes) (hmany : 2 ^ 16 ≤ codes.length)
    (tail : List Byte) : Bounded (cursorFromBytes needed (codes ++ tail)) ↔
      ¬(needed.columns.zip codes).all (fun p => p.1.accepts p.2) = true := by
  have hshort := needed.short
  have hlen : (codes.take (2 ^ 16 - 1)).length = 2 ^ 16 - 1 := List.length_take_of_le (by omega)
  have hnul' : 0 ∉ codes.take (2 ^ 16 - 1) := fun h => hnul (List.mem_of_mem_take h)
  obtain ⟨code, rest, hrest⟩ : ∃ code rest, codes.drop (2 ^ 16 - 1) = code :: rest :=
    ⟨_, _, List.drop_eq_getElem_cons (by omega)⟩
  have hcode : code ≠ 0 := by
    intro h
    refine hnul (List.mem_of_mem_drop (i := 2 ^ 16 - 1) ?_)
    rw [hrest, h]
    exact List.mem_cons_self
  have hsplit : codes ++ tail = codes.take (2 ^ 16 - 1) ++ code :: (rest ++ tail) := by
    rw [← List.cons_append, ← hrest, ← List.append_assoc, List.take_append_drop]
  rw [hsplit, ← zip_take codes (k := 2 ^ 16 - 1) (by omega)]
  constructor
  · exact fun hb hacc => not_bounded hnul' (by omega) hcode hacc hb
  · intro hacc
    show Bounded (readCodes needed.columns zeros _ >>= _)
    rw [readCodes_start hshort _ _ hnul' (by omega), if_neg hacc]
    exact bounded_error

/-- The reader stays within its arrays exactly on bytes that are not overlong. -/
theorem bounded_iff (needed : Shape) (bytes : List Byte) : Bounded (cursorFromBytes needed bytes) ↔ ¬Overlong needed bytes := by
  obtain ⟨hnul, tail, hbytes, htail⟩ := eq_typeCodes bytes
  by_cases hmany : 2 ^ 16 ≤ (typeCodes bytes).length
  · have hiff := bounded_iff_of_many needed hnul hmany tail
    rw [← hbytes] at hiff
    rw [hiff, not_iff_not]
    exact ⟨fun h => ⟨hmany, h⟩, Overlong.accepted⟩
  · have hb := bounded_of_short needed hnul (Nat.lt_of_not_le hmany) htail
    rw [← hbytes] at hb
    exact ⟨fun _ h => hmany h.many, fun _ => hb⟩

end SerialAux

/-- The reader ends with a row or an error, and within its arrays, exactly from the bytes that are not overlong. -/
theorem ends_iff_not_overlong (needed : Shape) (bytes : List Byte) : Ends needed bytes ↔ ¬Overlong needed bytes :=
  SerialAux.ends_iff_bounded.trans (SerialAux.bounded_iff needed bytes)

/-- A cursor with one column. -/
def oneInt : Shape := ⟨[⟨.int32, true⟩], by decide, by decide⟩

/-- With 65536 codes of INTs the reader looks for a second column. -/
theorem ends_false : ¬Ends oneInt (List.replicate (2 ^ 16) 73) := by
  have hcodes : typeCodes (List.replicate (2 ^ 16) 73) = List.replicate (2 ^ 16) 73 := by
    unfold typeCodes
    rw [List.takeWhile_replicate, if_pos (by decide)]
  have hlong : Overlong oneInt (List.replicate (2 ^ 16) 73) := by
    constructor
    · exact Nat.le_of_eq (by rw [hcodes, List.length_replicate])
    · have hmany : 2 ^ 16 = 65535 + 1 := rfl
      rw [hcodes, hmany, List.replicate_succ]
      rfl
  intro h
  exact (SerialAux.bounded_iff _ _).1 (SerialAux.ends_iff_bounded.1 h) hlong

end CgSql.Serial
