import CgSql.Lemmas.SerialRead

/-!
# One serialization format

The Lua and the C runtime write the same bytes for a row, and read them alike, unless C sets a bit after its buffer has moved: then
the bit is set in the storage that was freed. `KeepsBits` says from the sizes of a row's columns that this does not happen.
-/

namespace CgSql.Serial

open Varint

/-! ## The condition -/

/-- A bit is set for the column: one that is nullable has a value, or a bool is true. -/
def setsBit (c : Column) (v : Option Value) : Bool := (!c.notNull && v.isSome) || v = some (.bool true)

/-- Every column that sets a bit starts within the capacity; the first starts at `start`. -/
def KeepsBits (capacity : Nat) : Nat → List Column → List (Option Value) → Prop
  | start, c :: cols, v :: values =>
    (setsBit c v = true → start ≤ capacity) ∧ KeepsBits capacity (start + size v) cols values
  | _, _, _ => True

/-- The buffer when the pointer to the bits is taken: it has room for the type codes and the bits. -/
def Shape.startBuf (sh : Shape) : Option (ByteBuf × Bits) := do
  (← ByteBuf.open.appendAll (header sh.columns)).allocBits sh.columns

/-- Its capacity: 1024 bytes if the codes and bits fit them. -/
def Shape.capacity (sh : Shape) : Nat := sh.startBuf.elim 0 (·.1.max)

/-- All that is appended for a row, in order. -/
def appends {sh : Shape} (row : Row sh) : List (List Byte) :=
  header sh.columns ++ List.replicate (bitBytes sh.columns) 0 :: row.values.flatMap (·.elim [] Value.chunks)

/-- The exact condition: the buffer's size stays in 32 bits, and every column that sets a bit starts within the capacity that the
buffer has when the pointer to the bits is taken. -/
structure Fitting {sh : Shape} (row : Row sh) : Prop where
  sizes : (ByteBuf.open.appendAll (appends row)).isSome = true
  bits : KeepsBits sh.capacity (sh.columns.length + 1 + bitBytes sh.columns) sh.columns row.values

/-! ## The format -/

/-- Lua decodes the bytes, or returns a code that is not OK. -/
def Total (reader : Shape) (bytes : List Byte) : Prop :=
  (∃ values, cursorFromBlob reader bytes = .ok values) ∨ ∃ s, cursorFromBlob reader bytes = .error s ∧ s.NonOk

/-- Lua and C read the same row, or neither reads one. -/
def Agrees (reader : Shape) (bytes : List Byte) : Prop :=
  (∃ values, cursorFromBytes reader bytes = pure values ∧ cursorFromBlob reader bytes = .ok (values.map (·.map Value.toLua))) ∨
  (cursorFromBytes reader bytes = Decode.error ∧ ∃ s, cursorFromBlob reader bytes = .error s ∧ s.NonOk)

/-- Both write the same bytes for the row, both read them alike with a cursor of any shape, and Lua ends without an error on every
string of bytes. -/
structure SharedFormat {sh : Shape} (row : Row sh) : Prop where
  written : ∃ bytes, cursorToBlob row = .ok bytes ∧ (cursorToBytebuf row).map (·.bytes) = some bytes ∧ ∀ reader, Agrees reader bytes
  total : ∀ reader bytes, Total reader bytes

namespace SerialAux

variable {nc ni bi capacity start : Nat} {cols : List Column} {values : List (Option Value)}

/-! ## Kept bits -/

/-- Bits are set for a column exactly if the condition asks about it. -/
theorem marks_eq_nil {c : Column} {v : Option Value} : marks nc ni bi c v = [] ↔ setsBit c v = false := by
  unfold marks setsBit
  by_cases hn : (!c.notNull && v.isSome) = true
  · simp [hn]
  · by_cases hb : v = some (.bool true)
    · simp [hb]
    · simp [hb]

/-- The kept bits are among all of them. -/
theorem keptMarks_subset (capacity nc start ni bi : Nat) (cols : List Column) (values : List (Option Value)) :
    keptMarks capacity nc start ni bi cols values ⊆ allMarks nc ni bi cols values := by
  induction cols generalizing values start ni bi with
  | nil => simp [keptMarks]
  | cons c cols ih =>
    rcases values with _ | ⟨v, values⟩
    · simp [keptMarks]
    rw [keptMarks, allMarks]
    intro j hj
    rcases List.mem_append.1 hj with hj | hj
    · split at hj
      · exact List.mem_append_left _ hj
      · simp at hj
    · exact List.mem_append_right _ (ih _ _ _ _ hj)

/-- Beyond the capacity no bit is kept. -/
theorem keptMarks_beyond (h : capacity < start) : keptMarks capacity nc start ni bi cols values = [] := by
  induction cols generalizing values start ni bi with
  | nil => simp [keptMarks]
  | cons c cols ih =>
    rcases values with _ | ⟨v, values⟩
    · simp [keptMarks]
    rw [keptMarks, if_neg (by omega), List.nil_append]
    exact ih (by omega)

/-- Without bits the condition holds. -/
theorem keepsBits_of_nil (h : allMarks nc ni bi cols values = []) : KeepsBits capacity start cols values := by
  induction cols generalizing values start ni bi with
  | nil => simp [KeepsBits]
  | cons c cols ih =>
    rcases values with _ | ⟨v, values⟩
    · simp [KeepsBits]
    rw [allMarks, List.append_eq_nil_iff] at h
    refine ⟨fun hs => ?_, ih h.2⟩
    rw [marks_eq_nil.1 h.1] at hs
    simp at hs

/-- Bits that are all kept meet the condition. -/
theorem keepsBits_of_subset {total : Nat} (hw : Within nc total ni bi cols) (hfit : List.Forall₂ Column.Fits cols values)
    (h : allMarks nc ni bi cols values ⊆ keptMarks capacity nc start ni bi cols values) : KeepsBits capacity start cols values := by
  induction hfit generalizing start ni bi with
  | nil => trivial
  | @cons c v cols values hcv hfit ih =>
    rw [allMarks, keptMarks] at h
    by_cases hstart : start ≤ capacity
    · rw [if_pos hstart] at h
      refine ⟨fun _ => hstart, ih hw.tail fun j hj => ?_⟩
      have hnot := (ahead_tail hw hcv (mem_allMarks hw.tail hfit hj).1).1
      rcases List.mem_append.1 (h (List.mem_append_right _ hj)) with h | h
      · exact absurd h hnot
      · exact h
    · rw [if_neg hstart, List.nil_append, keptMarks_beyond (by omega)] at h
      have hnil := List.append_eq_nil_iff.1 (List.subset_nil.1 h)
      refine ⟨fun hs => ?_, keepsBits_of_nil hnil.2⟩
      rw [marks_eq_nil.1 hnil.1] at hs
      simp at hs

/-- Under the condition the kept bits are all of them. -/
theorem kept_eq (h : KeepsBits capacity start cols values) : keptMarks capacity nc start ni bi cols values = allMarks nc ni bi cols values := by
  induction cols generalizing values start ni bi with
  | nil => simp [keptMarks, allMarks]
  | cons c cols ih =>
    rcases values with _ | ⟨v, values⟩
    · simp [keptMarks, allMarks]
    obtain ⟨hhead, htail⟩ := h
    rw [keptMarks, allMarks, ih htail]
    by_cases hstart : start ≤ capacity
    · rw [if_pos hstart]
    · have hnone : marks nc ni bi c v = [] := by
        rw [marks_eq_nil, Bool.eq_false_iff]
        exact fun hs => hstart (hhead hs)
      rw [if_neg hstart, hnone]

/-! ## The bytes of C -/

/-- The header is the type codes with their terminator. -/
theorem flatten_header (cols : List Column) : (header cols).flatten = luaTypes cols ++ [0] := by
  induction cols with
  | nil => rfl
  | cons c cols ih =>
    show c.code :: (header cols).flatten = _
    rw [ih]
    rfl

/-- What C writes, if it writes anything. -/
theorem cursorToBytebuf_eq {sh : Shape} (row : Row sh) : (cursorToBytebuf row).map (·.bytes) = (ByteBuf.open.appendAll (appends row)).map fun _ =>
      encoded sh.columns row.values (setBits (List.replicate (bitBytes sh.columns) 0)
        (keptMarks sh.capacity (nullableCount sh.columns) (sh.columns.length + 1 + bitBytes sh.columns) 0 0 sh.columns row.values)) := by
  have hopen : Tracks 0 1024 ByteBuf.open := ⟨by decide, Or.inl ⟨rfl, rfl⟩⟩
  unfold cursorToBytebuf appends Shape.capacity Shape.startBuf
  rw [appendAll_append]
  rcases hb : ByteBuf.open.appendAll (header sh.columns) with _ | b
  · rfl
  have hbytes : b.bytes = luaTypes sh.columns ++ [0] := by
    rw [appendAll_bytes hb, flatten_header]
    rfl
  simp only [Option.bind_some, appendAll_cons, ByteBuf.allocBits, Option.bind_eq_bind]
  rcases hb' : b.append (List.replicate (bitBytes sh.columns) 0) with _ | b'
  · rfl
  have hbytes' : b'.bytes = luaTypes sh.columns ++ [0] ++ List.replicate (bitBytes sh.columns) 0 := by
    rw [(append_cases hb').1, hbytes]
  have hlen : b'.bytes.length = sh.columns.length + 1 + bitBytes sh.columns := by
    rw [hbytes', List.length_append, List.length_append, luaTypes, List.length_map, List.length_replicate]
    rfl
  have hself : withBytes b' (luaTypes sh.columns ++ [0] ++ (List.replicate (bitBytes sh.columns) 0 ++ [])) = b' := by
    rw [List.append_nil, ← hbytes']
    rfl
  have htracks : Tracks b'.moves b'.max b' := ⟨((hopen.appendAll hb).append hb').room, Or.inl ⟨rfl, rfl⟩⟩
  have hrun : (Writer.columns { offset := b.bytes.length, size := bitBytes sh.columns, moves := b'.moves }
      (nullableCount sh.columns) { buf := withBytes b' _, nullableIndex := 0, boolIndex := 0 } sh.columns row.values).map (·.buf.bytes) = _ :=
    columns_eq (congrArg List.length hbytes) row.fits (List.length_replicate (a := 0)).symm (by rw [List.append_nil, ← hbytes']) htracks
  rw [hself, hlen] at hrun
  have hmap : ∀ o : Option Writer, (o.bind fun w => some w.buf).map (·.bytes) = o.map (·.buf.bytes) := by
    intro o
    rcases o with _ | w
    · rfl
    · rfl
  simp only [Option.bind_some, Option.pure_def, Option.elim_some, hmap, hrun, encoded, List.nil_append, List.append_assoc]

/-- The bytes of a row differ where the bits do. -/
theorem encoded_inj {bits bits' : List Byte} (h : encoded cols values bits = encoded cols values bits') : bits = bits' :=
  List.append_cancel_left (List.append_cancel_right h)

/-- C writes the bytes of Lua exactly under the condition. -/
theorem written_iff {sh : Shape} (row : Row sh) :
    (cursorToBytebuf row).map (·.bytes) = some (encoded sh.columns row.values (rowBits sh.columns row.values)) ↔ Fitting row := by
  have hw := within_start sh.columns
  have hall : ∀ j ∈ allMarks (nullableCount sh.columns) 0 0 sh.columns row.values,
      j / 8 < (List.replicate (bitBytes sh.columns) (0 : Byte)).length := by
    intro j hj
    rw [List.length_replicate]
    exact div_lt_bytes (mem_allMarks hw row.fits hj).2
  rw [cursorToBytebuf_eq]
  constructor
  · intro h
    obtain ⟨r, hr, heq⟩ := Option.map_eq_some_iff.1 h
    refine ⟨Option.isSome_iff_exists.2 ⟨r, hr⟩, keepsBits_of_subset hw row.fits fun j hj => ?_⟩
    have hbit := congrArg (fun bits => bit bits j) (encoded_inj heq)
    simp only [rowBits] at hbit
    rw [bit_setBits fun i hi => hall i (keptMarks_subset _ _ _ _ _ _ _ hi), bit_setBits hall, bit_zeros, Bool.false_or,
      Bool.false_or, decide_eq_true hj] at hbit
    exact of_decide_eq_true hbit
  · rintro ⟨hsizes, hkeeps⟩
    obtain ⟨r, hr⟩ := Option.isSome_iff_exists.1 hsizes
    rw [hr, kept_eq hkeeps]
    rfl

end SerialAux

/-! ## When the format is shared -/

open SerialAux in
/-- Lua writes what C writes, and reads what C reads, exactly for the rows whose columns that set a bit start within the capacity. -/
theorem shared_iff_fitting {sh : Shape} (row : Row sh) : SharedFormat row ↔ Fitting row := by
  constructor
  · intro ⟨⟨bytes, hlua, hc, _⟩, _⟩
    rw [cursorToBlob_eq] at hlua
    rw [← Except.ok.inj hlua] at hc
    exact (written_iff row).1 hc
  · intro h
    refine ⟨⟨_, cursorToBlob_eq row, (written_iff row).2 h, fun reader => ?_⟩, fun reader bytes => ?_⟩
    · by_cases hread : readable reader.columns sh.columns = true
      · refine Or.inl ⟨adapt reader.columns row.values, ?_, ?_⟩
        · rw [cursorFromBytes_eq, if_pos hread]
        · rw [cursorFromBlob_eq, if_pos hread]
      · refine Or.inr ⟨?_, .typeMismatch, ?_, by simp, by simp⟩
        · rw [cursorFromBytes_eq, if_neg hread]
        · rw [cursorFromBlob_eq, if_neg hread]
    · rcases h : cursorFromBlob reader bytes with s | values
      · exact Or.inr ⟨s, h, endsWell_cursorFromBlob reader bytes s h⟩
      · exact Or.inl ⟨values, h⟩

/-- Letters have no NUL. -/
theorem nul_notMem_replicate (n : Nat) : (0 : Byte) ∉ List.replicate n 97 := by
  intro h
  exact absurd (List.eq_of_mem_replicate h) (by decide)

/-- A row with a string of 1100 bytes before a bool that is true. -/
def longRow : Row ⟨[⟨.string, true⟩, ⟨.bool, true⟩], by decide, by decide⟩ where
  values := [some (.string (List.replicate 1100 97)), some (.bool true)]
  fits := .cons ⟨rfl, nul_notMem_replicate 1100⟩ (.cons ⟨rfl, trivial⟩ .nil)

/-- Its bool starts beyond the capacity. -/
theorem longRow_not_fitting : ¬Fitting longRow := by
  intro ⟨_, _, hbool, _⟩
  have hsize : size (some (.string (List.replicate 1100 97))) = 1101 := by
    show [List.replicate 1100 (97 : Byte) ++ [0]].flatten.length = 1101
    rw [List.flatten_singleton, List.length_append, List.length_replicate]
    rfl
  have hstart := hbool rfl
  rw [hsize] at hstart
  exact absurd hstart (by decide)

open SerialAux in
/-- The buffer has moved when the bool is set, and C writes the bytes of a bool that is false. -/
theorem shared_false : ¬SharedFormat longRow := by
  intro ⟨⟨bytes, hlua, hc, _⟩, _⟩
  rw [cursorToBlob_eq] at hlua
  rw [← Except.ok.inj hlua] at hc
  exact longRow_not_fitting ((written_iff longRow).1 hc)

end CgSql.Serial
