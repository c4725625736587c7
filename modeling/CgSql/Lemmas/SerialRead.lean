import CgSql.Lemmas.SerialWrite

/-!
# What the two readers read

From the bytes of a row both decoders get its values, with nulls for the columns that it does not have, for every list of needed
columns that the row's columns can be read from, and both refuse the others. From any other bytes Lua gets a row or a code.
-/

namespace CgSql.Serial

open Varint

/-- A code that is not OK, and no error. -/
def Stop.NonOk (s : Stop) : Prop := s ≠ .raised ∧ s ≠ .code 0

namespace SerialAux

variable {needed : List Column} {bytes bits : List Byte} {α : Type} {nc : Nat} {n : Counts}

/-! ## Shapes that can be read -/

/-- The needed columns can be read from the stored ones. -/
def readable (needed stored : List Column) : Bool :=
  (needed.zip stored).all (fun p => p.1.accepts p.2.code) && !(needed.drop stored.length).any (·.notNull)

/-- The values of the needed columns. -/
def adapt : List Column → List (Option Value) → List (Option Value)
  | [], _ => []
  | _ :: needed, v :: values => v :: adapt needed values
  | _ :: needed, [] => none :: adapt needed []

/-- Facts about pairs of columns can be checked one by one. -/
theorem forall_columns {p : Column → Column → Bool} (h : ([DataType.int32, .int64, .double, .bool, .string, .blob].all fun t =>
      [DataType.int32, .int64, .double, .bool, .string, .blob].all fun t' =>
        [true, false].all fun n => [true, false].all fun n' => p ⟨t, n⟩ ⟨t', n'⟩) = true) (c c' : Column) : p c c' = true := by
  obtain ⟨t, n⟩ := c
  obtain ⟨t', n'⟩ := c'
  have hmem : ∀ t : DataType, t ∈ [DataType.int32, .int64, .double, .bool, .string, .blob] := by
    intro t
    rcases t <;> simp
  have hbool : ∀ b : Bool, b ∈ [true, false] := by
    intro b
    rcases b <;> simp
  exact List.all_eq_true.1 (List.all_eq_true.1 (List.all_eq_true.1 (List.all_eq_true.1 h t (hmem t)) t' (hmem t')) n (hbool n)) n' (hbool n')

/-- A column is accepted if it has the type, and is not nullable where the needed one is NOT NULL. -/
theorem accepts_iff (c c' : Column) : c.accepts c'.code = true ↔ c'.type = c.type ∧ (c.notNull = true → c'.notNull = true) := by
  have h := forall_columns (p := fun c c' => c.accepts c'.code = (decide (c'.type = c.type) && (!c.notNull || c'.notNull))) (by decide) c c'
  rw [of_decide_eq_true h]
  rcases c.notNull with _ | _
  · simp
  · simp

/-- Lua accepts the same columns. -/
theorem luaAccepts_iff (c c' : Column) : (c.code = c'.code ∨ c'.code.toNat + 32 = c.code.toNat) ↔ c.accepts c'.code = true := by
  have h := forall_columns (p := fun c c' => decide (c.code = c'.code ∨ c'.code.toNat + 32 = c.code.toNat) = c.accepts c'.code) (by decide) c c'
  rw [← of_decide_eq_true h, decide_eq_true_iff]

/-- The case of a code. -/
theorem isLower_code (c : Column) : isLower c.code = !c.notNull := by
  obtain ⟨t, n⟩ := c
  cases t <;> cases n <;> decide

theorem isUpper_code (c : Column) : isUpper c.code = c.notNull := by
  obtain ⟨t, n⟩ := c
  cases t <;> cases n <;> decide

theorem ofCode?_code (c : Column) : Column.ofCode? c.code = some c := by
  obtain ⟨t, n⟩ := c
  cases t <;> cases n <;> decide

theorem code_ne_zero (c : Column) : c.code ≠ 0 := by
  obtain ⟨t, n⟩ := c
  cases t <;> cases n <;> decide

/-! ## The bits -/

/-- The bits of a vector are those of the columns. -/
def BitsOk (bits : List Byte) (nc : Nat) : Nat → Nat → List Column → List (Option Value) → Prop
  | ni, bi, c :: cols, v :: values =>
    (c.notNull = false → ni / 8 < bits.length ∧ bit bits ni = v.isSome) ∧
      (∀ b, v = some (.bool b) → (nc + bi) / 8 < bits.length ∧ bit bits (nc + bi) = b) ∧
      BitsOk bits nc (nextNullable c ni) (nextBool c bi) cols values
  | _, _, _, _ => True

/-- They are those of the first columns. -/
theorem bitsOk_take {ni bi : Nat} {cols : List Column} {values : List (Option Value)}
    (h : BitsOk bits nc ni bi cols values) (k : Nat) : BitsOk bits nc ni bi (cols.take k) (values.take k) := by
  induction k generalizing cols values ni bi with
  | zero => simp [BitsOk]
  | succ k ih =>
    rcases cols with _ | ⟨c, cols⟩
    · simp [BitsOk]
    rcases values with _ | ⟨v, values⟩
    · simp [BitsOk]
    obtain ⟨hnull, hbool, h⟩ := h
    exact ⟨hnull, hbool, ih h⟩

/-- The bits that are set for columns are the bits of the columns. -/
theorem bitsOk_of_mem {total : Nat} {cols : List Column} {values : List (Option Value)}
    (hfit : List.Forall₂ Column.Fits cols values) (hlen : bits.length = (total + 7) / 8) {ni bi : Nat} (hw : Within nc total ni bi cols)
    (h : ∀ j, Ahead nc ni bi j → j < total → (bit bits j = true ↔ j ∈ allMarks nc ni bi cols values)) : BitsOk bits nc ni bi cols values := by
  induction hfit generalizing ni bi with
  | nil => trivial
  | @cons c v cols values hcv hfit ih =>
    obtain ⟨hni, hbi, hle⟩ := hw.head
    -- what is set for the columns that follow is not the null bit of this one, and not the bit of its value
    have hnotin : ∀ j, j ∈ allMarks nc (nextNullable c ni) (nextBool c bi) cols values →
        Ahead nc (nextNullable c ni) (nextBool c bi) j := fun j hj => (mem_allMarks hw.tail hfit hj).1
    refine ⟨fun hn => ?_, fun b hb => ?_, ih hw.tail fun j hj hlt => ?_⟩
    · have hlt := hni hn
      refine ⟨by rw [hlen]; exact div_lt_bytes (by omega), ?_⟩
      rw [Bool.eq_iff_iff, h ni (Or.inl ⟨Nat.le_refl _, hlt⟩) (by omega), allMarks, List.mem_append]
      constructor
      · intro hmem
        rcases hmem with hmem | hmem
        · rcases mem_marks hmem with ⟨_, hv, _⟩ | ⟨rfl, _⟩
          · exact hv
          · rfl
        · have := hnotin _ hmem
          unfold Ahead nextNullable at this
          simp only [hn, Bool.false_eq_true, if_false] at this
          omega
      · intro hv
        refine Or.inl ?_
        unfold marks
        simp [hn, hv]
    · subst hb
      have htype : c.type = .bool := (type_of_fits hcv).symm
      have hlt := hbi htype
      refine ⟨by rw [hlen]; exact div_lt_bytes hlt, ?_⟩
      rw [Bool.eq_iff_iff, h (nc + bi) (Or.inr (Nat.le_refl _)) hlt, allMarks, List.mem_append]
      constructor
      · intro hmem
        rcases hmem with hmem | hmem
        · rcases mem_marks hmem with ⟨hn, _, hj⟩ | ⟨hv, _⟩
          · have := hni hn
            omega
          · simpa using hv
        · have := hnotin _ hmem
          unfold Ahead nextBool at this
          simp only [htype, if_true] at this
          omega
      · intro hb
        refine Or.inl ?_
        unfold marks
        simp [hb]
    · obtain ⟨hnot, hahead⟩ := ahead_tail hw hcv hj
      rw [h j hahead hlt, allMarks, List.mem_append]
      constructor
      · intro hmem
        exact hmem.resolve_left hnot
      · exact Or.inr

/-- The bits of a row are those of its columns. -/
theorem bitsOk_rowBits {cols : List Column} {values : List (Option Value)} (hfit : List.Forall₂ Column.Fits cols values) :
    BitsOk (rowBits cols values) (nullableCount cols) 0 0 cols values := by
  have hlen : (rowBits cols values).length = (nullableCount cols + boolCount cols + 7) / 8 := by simp [rowBits, bitBytes]
  refine bitsOk_of_mem hfit hlen (within_start cols) ?_
  intro j _ _
  unfold rowBits
  rw [bit_setBits fun i hi => ?_, bit_zeros, Bool.false_or, decide_eq_true_iff]
  rw [List.length_replicate]
  exact div_lt_bytes (mem_allMarks (within_start cols) hfit hi).2

/-! ## C -/

/-- Codes of bools. -/
def isBoolCode (code : Byte) : Bool := code = 102 ∨ code = 70

/-- The counts after these codes. -/
def countsAfter (needed : List Column) (n : Counts) (codes : List Byte) : Counts :=
  { nullables := n.nullables + codes.countP isLower, bools := n.bools + codes.countP isBoolCode
    actual := n.actual + codes.length, next := min (n.actual + codes.length) needed.length }

/-- As long as its counters have room, the first loop of C checks the codes and goes on after them. -/
theorem readCodes_append (hneeded : needed.length < 2 ^ 16) (rest codes : List Byte) (hnul : 0 ∉ codes)
    (n : Counts) (hnext : n.next = min n.actual needed.length) (hactual : n.actual + codes.length < 2 ^ 16)
    (hnullables : n.nullables + codes.countP isLower < 2 ^ 16) (hbools : n.bools + codes.countP isBoolCode < 2 ^ 16) :
    readCodes needed n (codes ++ rest) =
      if ((needed.drop n.actual).zip codes).all (fun p => p.1.accepts p.2) then readCodes needed (countsAfter needed n codes) rest
      else Decode.error := by
  induction codes generalizing n with
  | nil => simp [countsAfter, ← hnext]
  | cons code codes ih =>
    rw [List.length_cons] at hactual
    rw [List.countP_cons] at hnullables hbools
    rw [List.mem_cons, not_or] at hnul
    have hadd : n.add code =
        { n with nullables := n.nullables + if isLower code then 1 else 0
                 bools := n.bools + if isBoolCode code then 1 else 0, actual := n.actual + 1 } := by
      unfold Counts.add isBoolCode at *
      simp only [decide_eq_true_eq] at hbools ⊢
      rw [Nat.mod_eq_of_lt (by omega), Nat.mod_eq_of_lt (by omega), Nat.mod_eq_of_lt (by omega)]
    have hafter : ∀ next, countsAfter needed { n.add code with next := next } codes = countsAfter needed n (code :: codes) := by
      intro next
      have hactual : n.actual + 1 + codes.length = n.actual + (codes.length + 1) := by omega
      simp only [hadd, countsAfter, List.countP_cons, List.length_cons, hactual]
      simp only [Nat.add_comm, Nat.add_left_comm]
    rw [List.cons_append, readCodes, if_neg fun h => hnul.1 h.symm]
    simp only [hadd] at hafter ⊢
    by_cases hk : n.actual + 1 ≤ needed.length
    · have hn : n.next = n.actual := by omega
      have hget : needed[n.actual]? = some needed[n.actual] := List.getElem?_eq_getElem (by omega)
      have hdrop : needed.drop n.actual = needed[n.actual] :: needed.drop (n.actual + 1) :=
        List.drop_eq_getElem_cons (by omega)
      rw [if_pos hk, hdrop]
      simp only [hn, Decode.at, hget, pure_bind, List.zip_cons_cons, List.all_cons]
      by_cases hacc : needed[n.actual].accepts code = true
      · simp only [hacc, if_true, Bool.true_and]
        rw [ih hnul.2 _ (by simp only; rw [Nat.mod_eq_of_lt (by omega)]; omega) (by simp only; omega) (by simp only; omega)
          (by simp only; omega), hafter]
      · simp [hacc]
    · have hdrop : needed.drop n.actual = [] := List.drop_eq_nil_of_le (by omega)
      have hdrop' : needed.drop (n.actual + 1) = [] := List.drop_eq_nil_of_le (by omega)
      rw [if_neg hk, ih hnul.2 _ (by simp only; omega) (by simp only; omega) (by simp only; omega) (by simp only; omega), hafter]
      simp only [hdrop, hdrop', List.zip_nil_left, List.all_nil, if_true]

/-- The codes of columns count as the columns do. -/
theorem countP_isLower (cols : List Column) : (luaTypes cols).countP isLower = nullableCount cols := by
  unfold luaTypes nullableCount
  rw [List.countP_map]
  exact List.countP_congr fun c _ => by simp [Function.comp, isLower_code]

theorem countP_isBoolCode (cols : List Column) : (luaTypes cols).countP isBoolCode = boolCount cols := by
  unfold luaTypes boolCount
  rw [List.countP_map]
  refine List.countP_congr fun c _ => ?_
  rw [← code_bool c]
  simp [Function.comp, isBoolCode, or_comm]

/-- Codes of columns are no NULs. -/
theorem nul_notMem_luaTypes (cols : List Column) : 0 ∉ luaTypes cols := by
  intro h
  obtain ⟨c, _, hc⟩ := List.mem_map.1 h
  exact code_ne_zero c hc

/-- The first loop of C gets the counts if it accepts the columns. -/
theorem readCodes_eq (hneeded : needed.length < 2 ^ 16) (rest : List Byte) (cols : List Column)
    (n : Counts) (hnext : n.next = min n.actual needed.length) (hactual : n.actual + cols.length < 2 ^ 16)
    (hcounts : n.nullables + nullableCount cols + (n.bools + boolCount cols) < 2 ^ 16) : readCodes needed n (luaTypes cols ++ 0 :: rest) =
      if ((needed.drop n.actual).zip cols).all (fun p => p.1.accepts p.2.code) then
        pure ({ nullables := n.nullables + nullableCount cols, bools := n.bools + boolCount cols
                actual := n.actual + cols.length, next := min (n.actual + cols.length) needed.length }, rest)
      else Decode.error := by
  have hlen : (luaTypes cols).length = cols.length := by rw [luaTypes, List.length_map]
  have hzip : ((needed.drop n.actual).zip (luaTypes cols)).all (fun p => p.1.accepts p.2) =
      ((needed.drop n.actual).zip cols).all (fun p => p.1.accepts p.2.code) := by
    rw [luaTypes, List.zip_map_right, List.all_map]
    rfl
  rw [readCodes_append hneeded _ _ (nul_notMem_luaTypes cols) n hnext (by omega) (by rw [countP_isLower]; omega)
    (by rw [countP_isBoolCode]; omega), hzip, countsAfter, countP_isLower, countP_isBoolCode, hlen, readCodes, if_pos rfl]

/-- C reads the value of a column. -/
theorem readerValue_eq {ni bi : Nat} {c : Column} {v : Value} (hfew : bits.length ≤ 2 ^ 13)
    (hfit : c.Fits (some v)) (hbit : ∀ b, v = .bool b → (nc + bi) / 8 < bits.length ∧ bit bits (nc + bi) = b) (rest : List Byte) :
    Reader.value bits nc { input := payload (some v) ++ rest, nullableIndex := ni, boolIndex := bi } c.type =
      pure (v, { input := rest, nullableIndex := ni, boolIndex := nextBool c bi }) := by
  obtain ⟨htype, hsized⟩ := hfit
  unfold nextBool
  rw [← htype]
  rcases v with v | v | v | b | bytes | bytes
  · have hread := readVarint32_write v rest
    rw [← flatten_singletons (writeVarint (zigzag v))] at hread
    simp [Reader.value, Value.type, payload, Value.chunks, hread, Decode.checked]
  · have hread := readVarint64_write v rest
    rw [← flatten_singletons (writeVarint (zigzag v))] at hread
    simp [Reader.value, Value.type, payload, Value.chunks, hread, Decode.checked]
  · simp [Reader.value, Value.type, payload, Value.chunks, readDouble_write, Decode.checked]
  · obtain ⟨hlt, hb⟩ := hbit b rfl
    have hmod : (nc + bi) % 2 ^ 16 = nc + bi := Nat.mod_eq_of_lt (by omega)
    simp only [Reader.value, Value.type, hmod, getBit?_eq hlt, hb]
    rfl
  · have hnul : 0 ∉ bytes := hsized
    have happ : payload (some (.string bytes)) ++ rest = bytes ++ 0 :: rest := by simp [payload, Value.chunks]
    simp only [Reader.value, Value.type, happ, inlineStr_write hnul, Decode.checked]
    rfl
  · have hlen : bytes.length < 2 ^ 31 := hsized
    have hread := readVarint32_write (BitVec.ofNat 32 bytes.length) (bytes ++ rest)
    rw [← flatten_singletons (writeVarint (zigzag (BitVec.ofNat 32 bytes.length)))] at hread
    have hnat : (BitVec.ofNat 32 bytes.length).toNat = bytes.length := by
      rw [BitVec.toNat_ofNat, Nat.mod_eq_of_lt (by omega)]
    simp [Reader.value, Value.type, payload, Value.chunks, hread, hnat, inlineBytes_write, Decode.checked]

/-- C reads a column that is stored. -/
theorem readerColumn_eq {i ni bi : Nat} {c c' : Column} {v : Option Value}
    (hfew : bits.length ≤ 2 ^ 13) (hi : i < n.actual) (hcode : bytes[i]? = some c.code) (htype : c.type = c'.type) (hfit : c.Fits v)
    (hnull : c.notNull = false → ni / 8 < bits.length ∧ bit bits ni = v.isSome)
    (hbit : ∀ b, v = some (.bool b) → (n.nullables + bi) / 8 < bits.length ∧ bit bits (n.nullables + bi) = b) (rest : List Byte) :
    Reader.column bytes bits n i c' { input := payload v ++ rest, nullableIndex := ni, boolIndex := bi } =
      pure (v, { input := rest, nullableIndex := nextNullable c ni, boolIndex := nextBool c bi }) := by
  have hfetch : Reader.fetchData bytes bits n.actual i
      { input := payload v ++ rest, nullableIndex := ni, boolIndex := bi } =
      pure (v.isSome, { input := payload v ++ rest, nullableIndex := nextNullable c ni, boolIndex := bi }) := by
    unfold Reader.fetchData nextNullable
    rw [if_neg (by omega)]
    simp only [Decode.at, hcode, pure_bind, isUpper_code]
    rcases hn : c.notNull with _ | _
    · obtain ⟨hlt, hb⟩ := hnull hn
      simp [getBit?_eq hlt, hb]
    · rcases v with _ | v
      · exact absurd (show c.notNull = false from hfit) (by simp [hn])
      · rfl
  unfold Reader.column
  rw [hfetch, pure_bind]
  rcases v with _ | v
  · unfold nextBool
    rw [htype]
    rfl
  · have hread : Reader.value bits n.nullables
        { input := payload (some v) ++ rest, nullableIndex := nextNullable c ni, boolIndex := bi } c.type = _ :=
      readerValue_eq hfew hfit (fun b hb => hbit b (congrArg some hb)) rest
    rw [htype] at hread
    simp only [Option.isSome_some, if_true, hread]
    rfl

/-- C reads nulls for the columns that are not stored. -/
theorem readerColumns_beyond {i : Nat} (hi : n.actual ≤ i) (needed : List Column)
    (r : Reader) : Reader.columns bytes bits n i needed r = pure (adapt needed []) := by
  induction needed generalizing i r with
  | nil => rfl
  | cons c' needed ih =>
    have hfetch : Reader.column bytes bits n i c' r = pure (none, { r with boolIndex := nextBool c' r.boolIndex }) := by
      unfold Reader.column Reader.fetchData
      rw [if_pos hi]
      rfl
    rw [Reader.columns, hfetch, pure_bind, ih (by omega)]
    rfl

/-- The last loop of C reads the row. -/
theorem readerColumns_eq {cols : List Column} {values : List (Option Value)}
    (hfew : bits.length ≤ 2 ^ 13) (hfit : List.Forall₂ Column.Fits cols values) {i ni bi : Nat} (hi : i + cols.length = n.actual)
    {more : List Byte} (hbytes : bytes.drop i = luaTypes cols ++ more) (needed : List Column)
    (hbits : BitsOk bits n.nullables ni bi (cols.take needed.length) (values.take needed.length))
    (hacc : (needed.zip cols).all (fun p => p.1.accepts p.2.code) = true) :
    Reader.columns bytes bits n i needed { input := payloads values, nullableIndex := ni, boolIndex := bi } = pure (adapt needed values) := by
  induction hfit generalizing i ni bi needed with
  | nil => exact readerColumns_beyond (by simp at hi; omega) needed _
  | @cons c v cols values hcv hfit ih =>
    rcases needed with _ | ⟨c', needed⟩
    · rfl
    rw [List.length_cons] at hi
    rw [List.zip_cons_cons, List.all_cons, Bool.and_eq_true] at hacc
    obtain ⟨hnull, hbit, hbits⟩ := hbits
    have hcode : bytes[i]? = some c.code := by
      have := congrArg (·[0]?) hbytes
      simpa [luaTypes] using this
    have hdrop : bytes.drop (i + 1) = luaTypes cols ++ more := by
      rw [← List.drop_drop, hbytes]
      rfl
    have hcol : Reader.column bytes bits n i c'
        { input := payload v ++ payloads values, nullableIndex := ni, boolIndex := bi } = _ :=
      readerColumn_eq hfew (by omega) hcode ((accepts_iff c' c).1 hacc.1).1 hcv hnull hbit (payloads values)
    have hrest := ih (by omega) hdrop needed hbits hacc.2
    show (Reader.column bytes bits n i c' _ >>= fun x => Reader.columns bytes bits n (i + 1) needed x.2 >>= _) = _
    erw [hcol]
    rw [pure_bind]
    erw [hrest]
    rfl

/-- C reads the bytes of a row exactly if the needed columns can be read from the row's. -/
theorem cursorFromBytes_eq {sh : Shape} (row : Row sh) (needed : Shape) :
    cursorFromBytes needed (encoded sh.columns row.values (rowBits sh.columns row.values)) =
      if readable needed.columns sh.columns then pure (adapt needed.columns row.values) else Decode.error := by
  obtain ⟨cols, hshort, hfew⟩ := sh
  obtain ⟨values, hfit⟩ := row
  obtain ⟨needed, hneeded, _⟩ := needed
  have hcodes := readCodes_eq hneeded (rowBits cols values ++ payloads values) cols
    { nullables := 0, bools := 0, actual := 0, next := 0 } (by simp) (by simpa using hshort) (by simpa using hfew)
  have hlen : (rowBits cols values).length = (nullableCount cols + boolCount cols + 7) / 8 := by simp [rowBits, bitBytes]
  have hbytes : encoded cols values (rowBits cols values) = luaTypes cols ++ 0 :: (rowBits cols values ++ payloads values) := by
    simp [encoded]
  simp only [Nat.zero_add, List.drop_zero] at hcodes
  unfold cursorFromBytes
  simp only [hbytes, hcodes, readable]
  have hdrop : needed.drop (min cols.length needed.length) = needed.drop cols.length := by
    by_cases h : cols.length ≤ needed.length
    · rw [Nat.min_eq_left h]
    · rw [Nat.min_eq_right (by omega), List.drop_length, List.drop_eq_nil_of_le (by omega)]
  have hbits : inlineBytes (rowBits cols values ++ payloads values) ((nullableCount cols + boolCount cols + 7) / 8) =
      some (rowBits cols values, payloads values) := by
    rw [← hlen]
    exact inlineBytes_write _ _
  by_cases hacc : (needed.zip cols).all (fun p => p.1.accepts p.2.code) = true
  · simp only [hacc, if_true, pure_bind, hdrop, Bool.true_and]
    by_cases hmissing : (needed.drop cols.length).any (·.notNull) = true
    · simp only [hmissing, if_true, Bool.not_true, Bool.false_eq_true, if_false]
    · simp only [hmissing, hbits, Decode.checked, pure_bind, Bool.false_eq_true, if_false, Bool.not_false, if_true]
      have hread := @readerColumns_eq (luaTypes cols ++ 0 :: (rowBits cols values ++ payloads values)) (rowBits cols values)
        { nullables := nullableCount cols, bools := boolCount cols, actual := cols.length
          next := min cols.length needed.length } cols values (by omega) hfit 0 0 0 (Nat.zero_add _) _ rfl needed
        (bitsOk_take (bitsOk_rowBits hfit) _) hacc
      exact hread
  · simp only [hacc, Bool.false_eq_true, if_false, Bool.false_and]
    rfl

/-! ## Lua -/

/-- Lua reads the value of a column. -/
theorem luaValue_eq {ni bi : Nat} {c : Column} {v : Value} (hfit : c.Fits (some v))
    (hbit : ∀ b, v = .bool b → (nc + bi) / 8 < bits.length ∧ bit bits (nc + bi) = b) (rest : List Byte) (rc : Int × Int) :
    LuaReader.value bits nc { rest := payload (some v) ++ rest, nullableIndex := ni, boolIndex := bi } rc c.type =
      .ok (v.toLua, { rest := rest, nullableIndex := ni, boolIndex := bi }) := by
  obtain ⟨htype, hsized⟩ := hfit
  rw [← htype]
  rcases v with v | v | v | b | bytes | bytes
  · have happ : payload (some (.int32 v)) ++ rest = writeVarint (zigzag v) ++ rest := by
      simp [payload, Value.chunks, flatten_singletons]
    simp only [LuaReader.value, Value.type, happ, varintDecode32_write]
    rfl
  · have happ : payload (some (.int64 v)) ++ rest = writeVarint (zigzag v) ++ rest := by
      simp [payload, Value.chunks, flatten_singletons]
    simp only [LuaReader.value, Value.type, happ, varintDecode64_write]
    rfl
  · have happ : payload (some (.double v)) ++ rest = littleEndian 8 v ++ rest := by simp [payload, Value.chunks]
    simp only [LuaReader.value, Value.type, happ, unpackD_write]
    rfl
  · obtain ⟨hlt, hb⟩ := hbit b rfl
    simp only [LuaReader.value, Value.type, luaGetBit_eq hlt, hb]
    rfl
  · have hnul : 0 ∉ bytes := hsized
    have happ : payload (some (.string bytes)) ++ rest = bytes ++ 0 :: rest := by simp [payload, Value.chunks]
    simp only [LuaReader.value, Value.type, happ, unpackZ_write hnul]
    rfl
  · have hlen : bytes.length < 2 ^ 31 := hsized
    have happ : payload (some (.blob bytes)) ++ rest = writeVarint (zigzag (BitVec.ofNat 32 bytes.length)) ++ (bytes ++ rest) := by
      simp [payload, Value.chunks, flatten_singletons]
    simp only [LuaReader.value, Value.type, happ, varintDecode32_write, Lua.check, size_signExtend hlen]
    show (Lua.check rc.2 (pcall (unpackC (bytes ++ rest) (BitVec.ofNat 64 bytes.length))) >>= _) = _
    rw [unpackC_write hlen]
    rfl

/-- A column that may be null is null when it is empty. -/
theorem luaEmpty_nullable {c : Column} (h : c.notNull = false) : luaEmpty c = none := by
  unfold luaEmpty
  simp [h]

/-- Lua reads a column that is stored. -/
theorem luaReaderColumn_eq {ni bi : Nat} {c c' : Column} {v : Option Value}
    (hacc : c'.accepts c.code = true) (hfit : c.Fits v) (hnull : c.notNull = false → ni / 8 < bits.length ∧ bit bits ni = v.isSome)
    (hbit : ∀ b, v = some (.bool b) → (nc + bi) / 8 < bits.length ∧ bit bits (nc + bi) = b) (rest : List Byte) :
    LuaReader.column bits nc { rest := payload v ++ rest, nullableIndex := ni, boolIndex := bi } (luaEmpty c') c.code =
      .ok (v.map Value.toLua, { rest := rest, nullableIndex := nextNullable c ni, boolIndex := nextBool c bi }) := by
  unfold LuaReader.column
  rw [ofCode?_code]
  obtain ⟨t, n⟩ := c
  rcases n with _ | _
  · obtain ⟨hlt, hb⟩ := hnull rfl
    have hnull' : c'.notNull = false := by
      have h := ((accepts_iff c' ⟨t, false⟩).1 hacc).2
      simpa using h
    simp only [luaGetBit_eq hlt, hb]
    rcases v with _ | v
    · rw [luaEmpty_nullable hnull']
      rfl
    · have hread := @luaValue_eq bits nc ni bi _ v hfit (fun b hb => hbit b (congrArg some hb)) rest t.nullableCodes
      simp only at hread
      simp only [Option.isSome_some, LuaReader.optional, hread]
      rfl
  · rcases v with _ | v
    · exact absurd (show true = false from hfit) (by simp)
    · have hread := @luaValue_eq bits nc ni bi _ v hfit (fun b hb => hbit b (congrArg some hb)) rest t.notNullCodes
      simp only at hread
      simp only [hread]
      rfl

/-- The first columns are compared, and then the others. -/
theorem readable_cons (c c' : Column) (needed cols : List Column) :
    readable (c' :: needed) (c :: cols) = (c'.accepts c.code && readable needed cols) := by
  simp [readable, Bool.and_assoc]

/-- Columns that may be null are null when they are not stored. -/
theorem map_luaEmpty (h : ∀ c ∈ needed, c.notNull = false) : needed.map luaEmpty = (adapt needed []).map (·.map Value.toLua) := by
  induction needed with
  | nil => rfl
  | cons c needed ih =>
    rw [List.map_cons, luaEmpty_nullable (h c List.mem_cons_self), ih fun c hc => h c (List.mem_cons_of_mem _ hc)]
    rfl

/-- The last loop of Lua reads the row. -/
theorem luaReaderColumns_eq {cols : List Column} {values : List (Option Value)}
    (hfit : List.Forall₂ Column.Fits cols values) {ni bi : Nat} (hbits : BitsOk bits nc ni bi cols values)
    (needed : List Column) (hread : readable needed cols = true) :
    LuaReader.columns bits nc { rest := payloads values, nullableIndex := ni, boolIndex := bi } needed (luaTypes cols) =
      .ok ((adapt needed values).map (·.map Value.toLua)) := by
  induction hfit generalizing ni bi needed with
  | nil =>
    have hnil : LuaReader.columns bits nc { rest := [], nullableIndex := ni, boolIndex := bi } needed [] = .ok (needed.map luaEmpty) := by
      rcases needed with _ | ⟨c, needed⟩
      · rfl
      · rfl
    exact hnil.trans (congrArg Except.ok (map_luaEmpty (by simpa [readable] using hread)))
  | @cons c v cols values hcv hfit ih =>
    rcases needed with _ | ⟨c', needed⟩
    · rfl
    rw [readable_cons, Bool.and_eq_true] at hread
    obtain ⟨hnull, hbit, hbits⟩ := hbits
    have hcol : LuaReader.column bits nc
        { rest := payload v ++ payloads values, nullableIndex := ni, boolIndex := bi } (luaEmpty c') c.code = _ :=
      luaReaderColumn_eq hread.1 hcv hnull hbit (payloads values)
    have hrest := ih hbits needed hread.2
    show (LuaReader.column bits nc _ (luaEmpty c') c.code >>= fun x =>
      LuaReader.columns bits nc x.2 needed (luaTypes cols) >>= _) = _
    erw [hcol]
    show (LuaReader.columns bits nc _ needed (luaTypes cols) >>= _) = _
    rw [hrest]
    rfl

/-- The checks of Lua are those of C. -/
theorem luaCheckTypes_eq (needed cols : List Column) :
    luaCheckTypes needed (luaTypes cols) = if readable needed cols then .ok () else .error .typeMismatch := by
  induction needed generalizing cols with
  | nil =>
    rcases cols with _ | ⟨c, cols⟩
    · rfl
    · rfl
  | cons c' needed ih =>
    rcases cols with _ | ⟨c, cols⟩
    · have hany : ((c' :: needed).any fun c => decide (c.code.toNat < 97)) = (c' :: needed).any (·.notNull) := by
        refine List.any_congr rfl fun c => ?_
        have hn := code_nullable c
        rcases hc : c.notNull with _ | _
        · rw [hc, Bool.not_false, decide_eq_true_iff] at hn
          exact decide_eq_false (by omega)
        · rw [hc, Bool.not_true, decide_eq_false_iff_not] at hn
          exact decide_eq_true (by omega)
      show (if ((c' :: needed).any fun c => decide (c.code.toNat < 97)) = true then Except.error Stop.typeMismatch else .ok ()) = _
      rw [hany]
      simp only [readable, List.zip_nil_right, List.all_nil, List.length_nil, List.drop_zero, Bool.true_and]
      rcases (c' :: needed).any (·.notNull) with _ | _
      · rfl
      · rfl
    · show luaCheckTypes (c' :: needed) (c.code :: luaTypes cols) = _
      rw [luaCheckTypes, readable_cons]
      by_cases hacc : c'.accepts c.code = true
      · rw [if_pos ((luaAccepts_iff c' c).2 hacc), ih]
        simp [hacc]
      · rw [if_neg fun h => hacc ((luaAccepts_iff c' c).1 h)]
        simp [hacc]

/-- Lua reads the bytes of a row exactly if C does, and reads the same values. -/
theorem cursorFromBlob_eq {sh : Shape} (row : Row sh) (needed : Shape) :
    cursorFromBlob needed (encoded sh.columns row.values (rowBits sh.columns row.values)) =
      if readable needed.columns sh.columns then .ok ((adapt needed.columns row.values).map (·.map Value.toLua)) else .error .typeMismatch := by
  obtain ⟨cols, hshort, hfew⟩ := sh
  obtain ⟨values, hfit⟩ := row
  obtain ⟨needed, hneeded, _⟩ := needed
  have hlen : (rowBits cols values).length = (nullableCount cols + boolCount cols + 7) / 8 := by simp [rowBits, bitBytes]
  have hbytes : encoded cols values (rowBits cols values) = luaTypes cols ++ 0 :: (rowBits cols values ++ payloads values) := by
    simp [encoded]
  have hnul : 0 ∉ luaTypes cols := nul_notMem_luaTypes cols
  unfold cursorFromBlob
  simp only [hbytes, unpackZ_write hnul]
  show (luaCheckTypes needed (luaTypes cols) >>= fun _ => _) = _
  rw [luaCheckTypes_eq]
  by_cases hread : readable needed cols = true
  · simp only [hread, if_true, luaNullables_luaTypes, luaBools_luaTypes, ← hlen]
    have hrow := luaReaderColumns_eq hfit (bitsOk_rowBits hfit) needed hread
    show LuaReader.columns ((rowBits cols values ++ payloads values).take _) _ _ _ _ = _
    simp only [List.take_left, List.drop_left]
    exact hrow
  · simp only [hread, Bool.false_eq_true, if_false]
    rfl

/-! ## Other bytes -/

/-- What ends early ends with a code that is not OK. -/
def EndsWell {α : Type} (x : Lua α) : Prop := ∀ s, x = .error s → s.NonOk

theorem endsWell_ok (a : α) : EndsWell (.ok a : Lua α) := by
  intro s h
  nomatch h

theorem EndsWell.bind {β : Type} {x : Lua α} {f : α → Lua β} (hx : EndsWell x) (hf : ∀ a, EndsWell (f a)) : EndsWell (x >>= f) := by
  intro s h
  rcases x with s' | a
  · rw [show s = s' from (Except.error.inj h).symm]
    exact hx s' rfl
  · exact hf a s h

theorem endsWell_check {rc : Int} (hrc : rc ≠ 0) (o : Option α) : EndsWell (Lua.check rc o) := by
  intro s h
  rcases o with _ | a
  · rw [← Except.error.inj h]
    exact ⟨by simp, fun h0 => hrc (Stop.code.inj h0)⟩
  · nomatch h

/-- A read of a value ends well if its codes are not OK. -/
theorem endsWell_value (bits : List Byte) (nc : Nat) (r : LuaReader) {rc : Int × Int} (h1 : rc.1 ≠ 0) (h2 : rc.2 ≠ 0)
    (t : DataType) : EndsWell (r.value bits nc rc t) := by
  rcases t
  case blob => exact (endsWell_check h1 _).bind fun size => (endsWell_check h2 _).bind fun x => endsWell_ok _
  all_goals exact (endsWell_check h1 _).bind fun x => endsWell_ok _

theorem endsWell_column (bits : List Byte) (nc : Nat) (r : LuaReader) (default : Option LuaValue) (code : Byte) :
    EndsWell (r.column bits nc default code) := by
  have hcodes : ∀ t : DataType, t.notNullCodes.1 ≠ 0 ∧ t.notNullCodes.2 ≠ 0 ∧ t.nullBitCode ≠ 0 ∧
      t.nullableCodes.1 ≠ 0 ∧ t.nullableCodes.2 ≠ 0 := by
    intro t
    rcases t <;> decide
  unfold LuaReader.column
  split
  · exact endsWell_ok _
  · rename_i t _
    obtain ⟨h1, h2, _⟩ := hcodes t
    exact (endsWell_value bits nc r h1 h2 t).bind fun x => endsWell_ok _
  · rename_i t _
    obtain ⟨_, _, h3, h4, h5⟩ := hcodes t
    refine (endsWell_check h3 _).bind fun bit => EndsWell.bind ?_ fun x => endsWell_ok _
    rcases bit with _ | _
    · exact endsWell_ok _
    · exact (endsWell_value bits nc r h4 h5 t).bind fun x => endsWell_ok _

theorem endsWell_columns (bits : List Byte) (nc : Nat) (r : LuaReader) (cols : List Column) (types : List Byte) :
    EndsWell (LuaReader.columns bits nc r cols types) := by
  induction cols generalizing r types with
  | nil => exact endsWell_ok _
  | cons c cols ih =>
    rcases types with _ | ⟨code, types⟩
    · exact endsWell_ok _
    · exact (endsWell_column bits nc r _ code).bind fun x => (ih x.2 types).bind fun values => endsWell_ok _

theorem endsWell_checkTypes (cols : List Column) (types : List Byte) : EndsWell (luaCheckTypes cols types) := by
  have hmismatch : EndsWell (.error .typeMismatch : Lua Unit) := by
    intro s h
    rw [← Except.error.inj h]
    exact ⟨by simp, by simp⟩
  induction cols generalizing types with
  | nil =>
    rcases types with _ | ⟨code, types⟩
    · exact endsWell_ok _
    · exact endsWell_ok _
  | cons c cols ih =>
    rcases types with _ | ⟨code, types⟩
    · unfold luaCheckTypes
      split
      · exact hmismatch
      · exact endsWell_ok _
    · unfold luaCheckTypes
      split
      · exact ih types
      · exact hmismatch

/-- From every string of bytes Lua gets a row or a code that is not OK. -/
theorem endsWell_cursorFromBlob (needed : Shape) (buffer : List Byte) : EndsWell (cursorFromBlob needed buffer) :=
  (endsWell_check (by decide) _).bind fun _ => (endsWell_checkTypes _ _).bind fun _ => endsWell_columns _ _ _ _ _

end SerialAux

end CgSql.Serial
