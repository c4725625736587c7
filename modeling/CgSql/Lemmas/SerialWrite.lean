import CgSql.Lemmas.Serial

/-!
# What the two writers write

The type codes, the bits that the columns set, and the values. Lua sets all of the bits. C appends the same bytes to its buffer, and
the bits that it sets are those of the columns that start within the capacity.
-/

namespace CgSql.Serial

open Varint

/-- The number of bytes that are appended for a column. -/
def size (v : Option Value) : Nat := (v.elim [] Value.chunks).flatten.length

namespace SerialAux

/-! ## What is written -/

/-- The bytes of a column. -/
def payload (v : Option Value) : List Byte := (v.elim [] Value.chunks).flatten

/-- The bytes of the columns. -/
def payloads (values : List (Option Value)) : List Byte := values.flatMap payload

/-- The bits that a column sets. -/
def marks (nc ni bi : Nat) (c : Column) (v : Option Value) : List Nat :=
  (if !c.notNull && v.isSome then [ni] else []) ++ if v = some (.bool true) then [nc + bi] else []

/-- The index of the null bits after a column. -/
def nextNullable (c : Column) (ni : Nat) : Nat := if c.notNull then ni else ni + 1

/-- The bits that the columns set. -/
def allMarks (nc : Nat) : Nat → Nat → List Column → List (Option Value) → List Nat
  | ni, bi, c :: cols, v :: values => marks nc ni bi c v ++ allMarks nc (nextNullable c ni) (nextBool c bi) cols values
  | _, _, _, _ => []

/-- Those that are set within the capacity. -/
def keptMarks (capacity nc : Nat) : Nat → Nat → Nat → List Column → List (Option Value) → List Nat
  | start, ni, bi, c :: cols, v :: values =>
    (if start ≤ capacity then marks nc ni bi c v else []) ++
      keptMarks capacity nc (start + size v) (nextNullable c ni) (nextBool c bi) cols values
  | _, _, _, _, _ => []

/-- Set bits in order. -/
def setBits (bits : List Byte) (is : List Nat) : List Byte := is.foldl setBit bits

@[simp] theorem length_setBits (bits : List Byte) (is : List Nat) : (setBits bits is).length = bits.length := by
  induction is generalizing bits with
  | nil => rfl
  | cons i is ih =>
    show (setBits (setBit bits i) is).length = _
    rw [ih, length_setBit]

theorem setBits_append (bits : List Byte) (is js : List Nat) : setBits bits (is ++ js) = setBits (setBits bits is) js :=
  List.foldl_append

/-- The bits that are set are those in the list. -/
theorem bit_setBits {bits : List Byte} {is : List Nat} (h : ∀ i ∈ is, i / 8 < bits.length) (j : Nat) :
    bit (setBits bits is) j = (bit bits j || decide (j ∈ is)) := by
  induction is generalizing bits with
  | nil => simp [setBits]
  | cons i is ih =>
    show bit (setBits (setBit bits i) is) j = _
    rw [ih fun k hk => by rw [length_setBit]; exact h k (List.mem_cons_of_mem _ hk), bit_setBit (h i List.mem_cons_self)]
    simp only [List.mem_cons, Bool.decide_or, Bool.or_assoc]

/-- The columns that have null bits and bool bits from `ni` and `bi` on are within the counts. -/
structure Within (nc total ni bi : Nat) (cols : List Column) : Prop where
  nullables : ni + nullableCount cols = nc
  bools : nc + bi + boolCount cols = total

theorem Within.tail {nc total ni bi : Nat} {c : Column} {cols : List Column} (h : Within nc total ni bi (c :: cols)) :
    Within nc total (nextNullable c ni) (nextBool c bi) cols := by
  obtain ⟨hn, hb⟩ := h
  unfold nullableCount at hn
  unfold boolCount at hb
  rw [List.countP_cons] at hn hb
  constructor
  · unfold nextNullable nullableCount
    rcases hc : c.notNull with _ | _
    · simp only [hc, Bool.not_false, if_true] at hn
      simp only [Bool.false_eq_true, if_false]
      omega
    · simp only [hc, Bool.not_true, Bool.false_eq_true, if_false] at hn
      simp only [if_true]
      omega
  · unfold nextBool boolCount
    by_cases hc : c.type = .bool
    · simp only [hc, decide_true, if_true] at hb ⊢
      omega
    · simp only [hc, decide_false, Bool.false_eq_true, if_false] at hb ⊢
      omega

/-- The null bit of a nullable column, and the bit of a bool. -/
theorem Within.head {nc total ni bi : Nat} {c : Column} {cols : List Column} (h : Within nc total ni bi (c :: cols)) :
    (c.notNull = false → ni < nc) ∧ (c.type = .bool → nc + bi < total) ∧ nc ≤ total := by
  obtain ⟨hn, hb⟩ := h
  unfold nullableCount at hn
  unfold boolCount at hb
  rw [List.countP_cons] at hn hb
  refine ⟨fun hc => ?_, fun hc => ?_, by omega⟩
  · simp only [hc, Bool.not_false, if_true] at hn
    omega
  · simp only [hc, decide_true, if_true] at hb
    omega

/-- The bits of the columns from `ni` and `bi` on. -/
def Ahead (nc ni bi j : Nat) : Prop := (ni ≤ j ∧ j < nc) ∨ nc + bi ≤ j

/-- What a column sets is its own. -/
theorem mem_marks {nc ni bi j : Nat} {c : Column} {v : Option Value} (h : j ∈ marks nc ni bi c v) :
    (c.notNull = false ∧ v.isSome = true ∧ j = ni) ∨ (v = some (.bool true) ∧ j = nc + bi) := by
  unfold marks at h
  rw [List.mem_append] at h
  rcases h with h | h
  · split at h
    · rename_i hc
      simp only [Bool.and_eq_true, Bool.not_eq_true'] at hc
      exact Or.inl ⟨hc.1, hc.2, List.mem_singleton.1 h⟩
    · simp at h
  · split at h
    · rename_i hv
      exact Or.inr ⟨hv, List.mem_singleton.1 h⟩
    · simp at h

/-- A value that fits a column has its type. -/
theorem type_of_fits {c : Column} {v : Value} (h : c.Fits (some v)) : v.type = c.type := h.1

/-- What is ahead after a column is not what it sets, and was ahead before. -/
theorem ahead_tail {nc total ni bi j : Nat} {c : Column} {cols : List Column} {v : Option Value}
    (hw : Within nc total ni bi (c :: cols)) (hfit : c.Fits v) (hj : Ahead nc (nextNullable c ni) (nextBool c bi) j) :
    j ∉ marks nc ni bi c v ∧ Ahead nc ni bi j := by
  obtain ⟨hni, _, _⟩ := hw.head
  unfold Ahead nextNullable nextBool at hj
  constructor
  · intro hm
    rcases mem_marks hm with ⟨hc, _, rfl⟩ | ⟨rfl, rfl⟩
    · have := hni hc
      simp only [hc, Bool.false_eq_true, if_false] at hj
      split at hj
      · omega
      · omega
    · have ht : c.type = .bool := (type_of_fits hfit).symm
      simp only [ht, if_true] at hj
      omega
  · unfold Ahead
    split at hj
    · split at hj
      · omega
      · omega
    · split at hj
      · omega
      · omega

variable {values : List (Option Value)}

/-- The bits that the columns set are ahead, and within the counts. -/
theorem mem_allMarks {nc total j : Nat} {cols : List Column} {ni bi : Nat}
    (hw : Within nc total ni bi cols) (hfit : List.Forall₂ Column.Fits cols values) (h : j ∈ allMarks nc ni bi cols values) :
    Ahead nc ni bi j ∧ j < total := by
  induction hfit generalizing ni bi with
  | nil => simp [allMarks] at h
  | @cons c v cols values hcv hfit ih =>
    obtain ⟨hni, hbi, hle⟩ := hw.head
    rw [allMarks, List.mem_append] at h
    rcases h with h | h
    · rcases mem_marks h with ⟨hc, _, rfl⟩ | ⟨rfl, rfl⟩
      · have := hni hc
        exact ⟨Or.inl ⟨Nat.le_refl _, this⟩, by omega⟩
      · exact ⟨Or.inr (Nat.le_refl _), hbi (type_of_fits hcv).symm⟩
    · obtain ⟨hj, hlt⟩ := ih hw.tail h
      exact ⟨(ahead_tail hw hcv hj).2, hlt⟩

/-! ## Lua -/

/-- Bytes that are appended one by one. -/
theorem flatten_singletons (bytes : List Byte) : (bytes.map fun b => [b]).flatten = bytes := by
  induction bytes with
  | nil => rfl
  | cons b bytes ih =>
    rw [List.map_cons, List.flatten_cons, ih]
    rfl

/-- The piece of a value is what C appends. -/
theorem luaPiece_toLua {c : Column} {v : Value} (h : c.Fits (some v)) : luaPiece c.type v.toLua = .ok (payload (some v)) := by
  obtain ⟨htype, hsized⟩ := h
  rw [← htype]
  rcases v with v | v | v | b | bytes | bytes
  · show Except.ok (varintEncode (luaZigzag32 (v.signExtend 64))) = .ok ((writeVarint (zigzag v)).map fun b => [b]).flatten
    rw [encode32_eq, flatten_singletons]
  · show Except.ok (varintEncode (luaZigzag64 v)) = .ok ((writeVarint (zigzag v)).map fun b => [b]).flatten
    rw [encode64_eq, flatten_singletons]
  · show Except.ok (littleEndian 8 v) = .ok [littleEndian 8 v].flatten
    simp
  · rfl
  · have hnul : 0 ∉ bytes := hsized
    show packZ bytes = .ok [bytes ++ [0]].flatten
    rw [packZ, if_neg hnul]
    simp
  · have hlen : bytes.length < 2 ^ 31 := hsized
    show Except.ok (varintEncode (luaZigzag32 (BitVec.ofNat 64 bytes.length)) ++ bytes) =
      .ok ((writeVarint (zigzag (BitVec.ofNat 32 bytes.length))).map (fun b => [b]) ++ [bytes]).flatten
    rw [← size_signExtend hlen, encode32_eq, List.flatten_append, flatten_singletons]
    simp

/-- A bool is true for Lua as it is for C. -/
theorem isTrue_toLua {v : Value} (h : v.type = .bool) : v.toLua.isTrue = true ↔ some v = some (.bool true) := by
  rcases v with v | v | v | b | bytes | bytes
  case bool => rcases b with _ | _ <;> decide
  all_goals exact absurd h (by simp [Value.type])

/-- The bit of a bool is within the vector. -/
theorem luaSetBool_eq {nc total : Nat} {w : LuaWriter} {ni : Nat} {c : Column} {cols : List Column} {v : Value}
    (hw : Within nc total ni w.boolIndex (c :: cols)) (hlen : w.bits.length = (total + 7) / 8) (hfit : c.Fits (some v)) :
    w.setBool nc c.type v.toLua = .ok (setBits w.bits (if some v = some (.bool true) then [nc + w.boolIndex] else [])) := by
  have htype : v.type = c.type := hfit.1
  unfold LuaWriter.setBool
  by_cases hv : some v = some (.bool true)
  · have hbool : c.type = .bool := by
      rw [← htype, Option.some.inj hv]
      rfl
    have hlt := div_lt_bytes (hw.head.2.1 hbool)
    rw [if_pos ⟨hbool, (isTrue_toLua (htype.trans hbool)).2 hv⟩, luaSetBit, if_pos (by omega), if_pos hv]
    rfl
  · have hnot : ¬(c.type = .bool ∧ v.toLua.isTrue = true) :=
      fun h => hv ((isTrue_toLua (htype.trans h.1)).1 h.2)
    rw [if_neg hnot, if_neg hv]
    rfl

/-- What Lua does with a column. -/
theorem luaColumn_eq {nc total : Nat} {w : LuaWriter} {c : Column} {cols : List Column} {v : Option Value}
    (hw : Within nc total w.nullableIndex w.boolIndex (c :: cols)) (hlen : w.bits.length = (total + 7) / 8) (hfit : c.Fits v) :
    w.column nc c (v.map Value.toLua) = .ok
      { bits := setBits w.bits (marks nc w.nullableIndex w.boolIndex c v), pieces := w.pieces ++ payload v
        nullableIndex := nextNullable c w.nullableIndex, boolIndex := nextBool c w.boolIndex } := by
  unfold LuaWriter.column marks nextNullable
  rcases v with _ | v
  · have hnull : c.notNull = false := hfit
    simp [hnull, setBits, payload, bind, Except.bind, pure, Except.pure]
  · rcases hn : c.notNull with _ | _
    · have hlt := div_lt_bytes (Nat.lt_of_lt_of_le (hw.head.1 hn) hw.head.2.2)
      have hset : luaSetBit w.bits w.nullableIndex = .ok (setBit w.bits w.nullableIndex) := by
        rw [luaSetBit, if_pos (by omega)]
      have hbool := @luaSetBool_eq nc total { w with bits := setBit w.bits w.nullableIndex } w.nullableIndex c cols v hw
        (by simpa using hlen) hfit
      simp only [Option.map_some, hset, hbool, luaPiece_toLua hfit, bind, Except.bind, pure, Except.pure, Bool.not_false,
        Option.isSome_some, Bool.true_and, if_true, Bool.false_eq_true, if_false, setBits_append]
      rfl
    · simp only [Option.map_some, Lua.check, luaSetBool_eq hw hlen hfit, luaPiece_toLua hfit, bind, Except.bind, pure,
        Except.pure, Bool.not_true, Bool.false_and, Bool.false_eq_true, if_true, if_false, List.nil_append]

/-- The loop of Lua sets all of the bits. -/
theorem luaColumns_eq {nc total : Nat} {cols : List Column}
    (hfit : List.Forall₂ Column.Fits cols values) {w : LuaWriter} (hw : Within nc total w.nullableIndex w.boolIndex cols)
    (hlen : w.bits.length = (total + 7) / 8) : ∃ w', w.columns nc cols (values.map (·.map Value.toLua)) = .ok w' ∧
      w'.bits = setBits w.bits (allMarks nc w.nullableIndex w.boolIndex cols values) ∧ w'.pieces = w.pieces ++ payloads values := by
  induction hfit generalizing w with
  | nil => exact ⟨w, rfl, rfl, by simp [payloads]⟩
  | @cons c v cols values hcv hfit ih =>
    obtain ⟨w', hrun, hbits, hpieces⟩ := @ih
      { bits := setBits w.bits (marks nc w.nullableIndex w.boolIndex c v), pieces := w.pieces ++ payload v
        nullableIndex := nextNullable c w.nullableIndex, boolIndex := nextBool c w.boolIndex } hw.tail (by simpa using hlen)
    refine ⟨w', ?_, ?_, ?_⟩
    · rw [List.map_cons, LuaWriter.columns, luaColumn_eq hw hlen hcv]
      exact hrun
    · rw [hbits, allMarks, setBits_append]
    · rw [hpieces, List.append_assoc]
      rfl

/-- The codes count as the columns do. -/
theorem code_nullable (c : Column) : decide (97 ≤ c.code.toNat) = !c.notNull := by
  obtain ⟨t, n⟩ := c
  cases t <;> cases n <;> decide

theorem code_bool (c : Column) : decide (c.code = 70 ∨ c.code = 102) = decide (c.type = .bool) := by
  obtain ⟨t, n⟩ := c
  cases t <;> cases n <;> decide

theorem luaNullables_luaTypes (cols : List Column) : luaNullables (luaTypes cols) = nullableCount cols := by
  unfold luaNullables luaTypes nullableCount
  rw [List.countP_map]
  exact List.countP_congr fun c _ => by simp [Function.comp, ← code_nullable c]

theorem luaBools_luaTypes (cols : List Column) : luaBools (luaTypes cols) = boolCount cols := by
  unfold luaBools luaTypes boolCount
  rw [List.countP_map]
  exact List.countP_congr fun c _ => by simp [Function.comp, ← code_bool c]

/-- The columns of a shape are within its counts. -/
theorem within_start (cols : List Column) : Within (nullableCount cols) (nullableCount cols + boolCount cols) 0 0 cols :=
  ⟨by omega, by omega⟩

/-- The bytes of a row, with these bits. -/
def encoded (cols : List Column) (values : List (Option Value)) (bits : List Byte) : List Byte :=
  luaTypes cols ++ [0] ++ bits ++ payloads values

/-- The bits of a row. -/
def rowBits (cols : List Column) (values : List (Option Value)) : List Byte :=
  setBits (List.replicate (bitBytes cols) 0) (allMarks (nullableCount cols) 0 0 cols values)

/-- What Lua writes. -/
theorem cursorToBlob_eq {sh : Shape} (row : Row sh) : cursorToBlob row = .ok (encoded sh.columns row.values (rowBits sh.columns row.values)) := by
  unfold cursorToBlob
  simp only [luaNullables_luaTypes, luaBools_luaTypes]
  obtain ⟨w', hrun, hbits, hpieces⟩ := @luaColumns_eq _ _ _ _ row.fits
    { bits := List.replicate (bitBytes sh.columns) 0, pieces := [], nullableIndex := 0, boolIndex := 0 }
    (within_start sh.columns) (by simp [bitBytes])
  show (LuaWriter.columns _ _ _ _ >>= fun w => pure _) = _
  erw [hrun]
  show Except.ok _ = _
  rw [hbits, hpieces]
  rfl

/-! ## C -/

/-- The same buffer with other bytes. -/
def withBytes (b : ByteBuf) (bytes : List Byte) : ByteBuf := { b with bytes := bytes }

/-- An append depends on the bytes by their number. -/
theorem append_withBytes {b : ByteBuf} {bytes : List Byte} (h : bytes.length = b.bytes.length) (data : List Byte) :
    (withBytes b bytes).append data = (b.append data).map fun r => withBytes r (bytes ++ data) := by
  unfold ByteBuf.append
  simp only [withBytes, h]
  by_cases hfits : data.length ≤ b.max - b.bytes.length
  · rw [if_pos hfits, if_pos hfits]
    rfl
  · rw [if_neg hfits, if_neg hfits, Option.map_if]
    rfl

/-- What an append can do. -/
theorem append_cases {b r : ByteBuf} {data : List Byte} (h : b.append data = some r) : r.bytes = b.bytes ++ data ∧
      ((data.length ≤ b.max - b.bytes.length ∧ r.max = b.max ∧ r.moves = b.moves) ∨
        (¬data.length ≤ b.max - b.bytes.length ∧ data.length + b.max ≤ r.max ∧ r.moves = b.moves + 1)) := by
  have hmax : data.length + b.max ≤ if b.max > 1024 * 1024 then data.length + 200 * 1024 + b.max else data.length + 2 * b.max := by
    split
    · omega
    · omega
  unfold ByteBuf.append at h
  simp only at h
  generalize (if b.max > 1024 * 1024 then data.length + 200 * 1024 + b.max else data.length + 2 * b.max) = max at h hmax
  by_cases hfits : data.length ≤ b.max - b.bytes.length
  · rw [if_pos hfits] at h
    rw [← Option.some.inj h]
    exact ⟨rfl, Or.inl ⟨hfits, rfl, rfl⟩⟩
  · rw [if_neg hfits] at h
    by_cases hlt : max < 2 ^ 32
    · rw [if_pos hlt] at h
      rw [← Option.some.inj h]
      exact ⟨rfl, Or.inr ⟨hfits, hmax, rfl⟩⟩
    · rw [if_neg hlt] at h
      exact absurd h (by simp)

theorem appendAll_cons (b : ByteBuf) (data : List Byte) (chunks : List (List Byte)) :
    b.appendAll (data :: chunks) = (b.append data).bind fun r => r.appendAll chunks := rfl

/-- What each append keeps, all of them keep. -/
theorem appendAll_keeps {P : ByteBuf → Prop} (hP : ∀ {b r data}, P b → b.append data = some r → P r) {b r : ByteBuf}
    {chunks : List (List Byte)} (h : P b) (hr : b.appendAll chunks = some r) : P r := by
  induction chunks generalizing b with
  | nil =>
    rw [← show b = r from Option.some.inj hr]
    exact h
  | cons data chunks ih =>
    rw [appendAll_cons] at hr
    obtain ⟨b', hb, hr⟩ := Option.bind_eq_some_iff.1 hr
    exact ih (hP h hb) hr

theorem appendAll_append (b : ByteBuf) (xs ys : List (List Byte)) : b.appendAll (xs ++ ys) = (b.appendAll xs).bind fun r => r.appendAll ys := by
  induction xs generalizing b with
  | nil => rfl
  | cons data xs ih =>
    rw [List.cons_append, appendAll_cons, appendAll_cons]
    rcases b.append data with _ | r
    · rfl
    · exact ih r

theorem appendAll_bytes {b r : ByteBuf} {chunks : List (List Byte)} (h : b.appendAll chunks = some r) : r.bytes = b.bytes ++ chunks.flatten := by
  induction chunks generalizing b with
  | nil => simp [← show b = r from Option.some.inj h]
  | cons data chunks ih =>
    rw [appendAll_cons] at h
    obtain ⟨b', hb, h⟩ := Option.bind_eq_some_iff.1 h
    rw [ih h, (append_cases hb).1, List.append_assoc]
    rfl

theorem appendAll_withBytes {b : ByteBuf} {bytes : List Byte} (h : bytes.length = b.bytes.length) (chunks : List (List Byte)) :
    (withBytes b bytes).appendAll chunks = (b.appendAll chunks).map fun r => withBytes r (bytes ++ chunks.flatten) := by
  induction chunks generalizing b bytes with
  | nil => simp [ByteBuf.appendAll]
  | cons data chunks ih =>
    rw [appendAll_cons, appendAll_cons, append_withBytes h]
    rcases hb : b.append data with _ | r
    · rfl
    · have hlen : (bytes ++ data).length = r.bytes.length := by rw [(append_cases hb).1, List.length_append, List.length_append, h]
      show (withBytes r (bytes ++ data)).appendAll chunks = _
      rw [ih hlen, List.append_assoc]
      rfl

/-- The buffer has the storage that the bits are in as long as its bytes are within the capacity that it had then. -/
structure Tracks (moves capacity : Nat) (b : ByteBuf) : Prop where
  room : b.bytes.length ≤ b.max
  storage : (b.moves = moves ∧ b.max = capacity) ∨ (moves < b.moves ∧ capacity < b.bytes.length)

variable {capacity moves : Nat} {hdr : List Byte}

theorem Tracks.moves_iff {b : ByteBuf} (h : Tracks moves capacity b) : b.moves = moves ↔ b.bytes.length ≤ capacity := by
  obtain ⟨hroom, hstorage⟩ := h
  constructor
  · intro _
    omega
  · intro _
    omega

theorem Tracks.append {b r : ByteBuf} {data : List Byte} (h : Tracks moves capacity b)
    (hr : b.append data = some r) : Tracks moves capacity r := by
  obtain ⟨hroom, hstorage⟩ := h
  obtain ⟨hbytes, hcases⟩ := append_cases hr
  have hlen : r.bytes.length = b.bytes.length + data.length := by rw [hbytes, List.length_append]
  rcases hcases with ⟨hfits, hmax, hmoves⟩ | ⟨hfits, hmax, hmoves⟩
  · exact ⟨by omega, by omega⟩
  · exact ⟨by omega, by omega⟩

theorem Tracks.appendAll {b r : ByteBuf} {chunks : List (List Byte)} (h : Tracks moves capacity b)
    (hr : b.appendAll chunks = some r) : Tracks moves capacity r := appendAll_keeps Tracks.append h hr

/-- A bit is set in the buffer if the buffer has not moved. -/
theorem setBit_withBytes (b : ByteBuf) (bits : Bits) {cb rest : List Byte} (hoff : bits.offset = hdr.length)
    (hsize : bits.size = cb.length) (i : Nat) : (withBytes b (hdr ++ (cb ++ rest))).setBit bits i =
      withBytes b (hdr ++ (if b.moves = bits.moves then setBit cb i else cb) ++ rest) := by
  have hdrop : (hdr ++ (cb ++ rest)).drop hdr.length = cb ++ rest := List.drop_left
  have hdrop2 : (hdr ++ (cb ++ rest)).drop (hdr.length + cb.length) = rest := by
    rw [← List.drop_drop, hdrop, List.drop_left]
  unfold ByteBuf.setBit
  by_cases hm : b.moves = bits.moves
  · have hm' : (withBytes b (hdr ++ (cb ++ rest))).moves = bits.moves := hm
    rw [if_pos hm', if_pos hm]
    simp only [withBytes, hoff, hsize, List.take_left, hdrop, hdrop2, List.append_assoc]
  · have hm' : ¬(withBytes b (hdr ++ (cb ++ rest))).moves = bits.moves := hm
    rw [if_neg hm', if_neg hm, List.append_assoc]

/-- What C does with a column: the buffer as it is without bits, with the bits if it has not moved. -/
theorem column_eq {nc ni bi : Nat} {bits : Bits} {b : ByteBuf} {cb rest : List Byte} {c : Column}
    {v : Option Value} (hoff : bits.offset = hdr.length) (hsize : bits.size = cb.length)
    (hb : b.bytes.length = (hdr ++ (cb ++ rest)).length) (ht : Tracks bits.moves capacity b) (hfit : c.Fits v) :
    Writer.column bits nc { buf := withBytes b (hdr ++ (cb ++ rest)), nullableIndex := ni, boolIndex := bi } c v =
      (b.appendAll (v.elim [] Value.chunks)).map fun r =>
        { buf := withBytes r (hdr ++ (setBits cb (if b.bytes.length ≤ capacity then marks nc ni bi c v else []) ++ (rest ++ payload v)))
          nullableIndex := nextNullable c ni, boolIndex := nextBool c bi } := by
  have hmoves := ht.moves_iff
  have hset : ∀ (cb' : List Byte) (i : Nat), cb'.length = cb.length → (withBytes b (hdr ++ (cb' ++ rest))).setBit bits i =
        withBytes b (hdr ++ (setBits cb' (if b.bytes.length ≤ capacity then [i] else []) ++ rest)) := by
    intro cb' i hlen
    rw [setBit_withBytes b bits hoff (hsize.trans hlen.symm), List.append_assoc]
    by_cases hcap : b.bytes.length ≤ capacity
    · rw [if_pos (hmoves.2 hcap), if_pos hcap]
      rfl
    · rw [if_neg (fun h => hcap (hmoves.1 h)), if_neg hcap]
      rfl
  have happend : ∀ (cb' : List Byte) (v : Value), cb'.length = cb.length → (withBytes b (hdr ++ (cb' ++ rest))).appendAll v.chunks =
        (b.appendAll v.chunks).map fun r => withBytes r (hdr ++ (cb' ++ (rest ++ payload (some v)))) := by
    intro cb' v hlen
    rw [appendAll_withBytes (by simp [hb, hlen])]
    simp [payload, List.append_assoc]
  have hbool : ∀ (cb' : List Byte) (ni : Nat) (v : Value), cb'.length = cb.length →
      Writer.setBool { buf := withBytes b (hdr ++ (cb' ++ rest)), nullableIndex := ni, boolIndex := bi } bits nc v =
        withBytes b (hdr ++ (setBits cb'
          (if b.bytes.length ≤ capacity then (if some v = some (.bool true) then [nc + bi] else []) else []) ++ rest)) := by
    intro cb' ni v hlen
    unfold Writer.setBool
    by_cases hv : v = .bool true
    · rw [if_pos hv, if_pos (congrArg some hv)]
      exact hset cb' (nc + bi) hlen
    · rw [if_neg hv, if_neg fun h => hv (Option.some.inj h), ite_self]
      rfl
  unfold Writer.column marks nextNullable
  rcases v with _ | v
  · have hnull : c.notNull = false := hfit
    simp [hnull, setBits, payload, ByteBuf.appendAll]
  · rcases hn : c.notNull with _ | _
    · have h1 := hset cb ni rfl
      have h2 := hbool (setBits cb (if b.bytes.length ≤ capacity then [ni] else [])) ni v (by simp)
      have h3 := happend (setBits (setBits cb (if b.bytes.length ≤ capacity then [ni] else []))
        (if b.bytes.length ≤ capacity then (if some v = some (.bool true) then [nc + bi] else []) else [])) v (by simp)
      simp only [Bool.false_eq_true, if_false, h1, h2, h3, Bool.not_false, Option.isSome_some, Bool.true_and, if_true, Option.elim_some]
      rcases b.appendAll v.chunks with _ | r
      · rfl
      · by_cases hcap : b.bytes.length ≤ capacity
        · simp only [hcap, if_true, setBits_append]
          rfl
        · simp only [hcap, if_false]
          rfl
    · have h2 := hbool cb ni v rfl
      have h3 := happend (setBits cb
        (if b.bytes.length ≤ capacity then (if some v = some (.bool true) then [nc + bi] else []) else [])) v (by simp)
      simp only [Option.bind_some, h2, h3, Bool.not_true, Bool.false_and, Bool.false_eq_true, if_true, if_false,
        List.nil_append, Option.elim_some]
      rcases b.appendAll v.chunks with _ | r
      · rfl
      · rfl

/-- The loop of C keeps the bits of the columns that start within the capacity. -/
theorem columns_eq {nc : Nat} {bits : Bits} (hoff : bits.offset = hdr.length) {cols : List Column} (hfit : List.Forall₂ Column.Fits cols values)
    {ni bi : Nat} {b : ByteBuf} {cb rest : List Byte} (hsize : bits.size = cb.length)
    (hb : b.bytes.length = (hdr ++ (cb ++ rest)).length) (ht : Tracks bits.moves capacity b) :
    (Writer.columns bits nc { buf := withBytes b (hdr ++ (cb ++ rest)), nullableIndex := ni, boolIndex := bi } cols values).map (·.buf.bytes) =
      (b.appendAll (values.flatMap (·.elim [] Value.chunks))).map fun _ =>
        hdr ++ (setBits cb (keptMarks capacity nc b.bytes.length ni bi cols values) ++ (rest ++ payloads values)) := by
  induction hfit generalizing ni bi b cb rest with
  | nil => simp [Writer.columns, keptMarks, setBits, payloads, ByteBuf.appendAll, withBytes]
  | @cons c v cols values hcv hfit ih =>
    rw [Writer.columns, column_eq hoff hsize hb ht hcv, List.flatMap_cons, appendAll_append]
    rcases hr : b.appendAll (v.elim [] Value.chunks) with _ | r
    · rfl
    have hlen : r.bytes.length = b.bytes.length + size v := by
      rw [appendAll_bytes hr, List.length_append]
      rfl
    have hstep := @ih (nextNullable c ni) (nextBool c bi) r
      (setBits cb (if b.bytes.length ≤ capacity then marks nc ni bi c v else [])) (rest ++ payload v)
      (by simpa using hsize)
      (by simp only [hlen, hb, List.length_append, length_setBits, payload, size]; omega) (ht.appendAll hr)
    refine Eq.trans hstep ?_
    rw [keptMarks, setBits_append, hlen, List.append_assoc]
    rfl

end SerialAux

end CgSql.Serial
