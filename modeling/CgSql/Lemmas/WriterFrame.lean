import CgSql.Lemmas.BlobCreate

/-!
# What a writer leaves alone

Whatever the block is, a writer that succeeds moves its places by the sizes of the columns that it has written, and leaves the bytes
behind these places as they were.
-/

namespace CgSql.Blobs

namespace BlobAux

variable {b b' : List Byte} {w w' : Writer} {α : Type}

/-! ## Steps -/

/-- A store keeps the size, lies in the block, and leaves the bytes behind it. -/
theorem store_ok {bytes : List Byte} {offset : Int} (h : store b offset bytes = .ok b') :
    b'.length = b.length ∧ 0 ≤ offset ∧ offset + bytes.length ≤ b.length ∧ ∀ i : Nat, offset + bytes.length ≤ i → b'[i]? = b[i]? := by
  unfold store at h
  rcases hwrite : Memory.write b offset bytes with _ | block
  · rw [hwrite] at h
    nomatch h
  · rw [hwrite] at h
    obtain rfl := Except.ok.inj h
    have ⟨h0, hle⟩ := Memory.bounds_of_write hwrite
    exact ⟨Memory.length_of_write hwrite, h0, hle, fun i hi => Memory.getElem?_write_above hwrite hi⟩

/-- Some steps within a column: how far the places have moved, and what is left alone behind them. -/
structure Wrote (w w' : Writer) (ids codes bytes : Nat) : Prop where
  fieldIds : w'.fieldIdsOffset = w.fieldIdsOffset + ids
  storage : w'.storageOffset = w.storageOffset
  typeCodes : w'.typeCodesOffset = w.typeCodesOffset + codes
  variableOffset : w'.variableOffset = w.variableOffset + bytes
  length : w'.block.length = w.block.length
  nonneg : 0 < codes → 0 ≤ w.typeCodesOffset
  frame : ∀ i : Nat, w'.fieldIdsOffset ≤ i → w.storageOffset + 8 ≤ i → w'.typeCodesOffset ≤ i → w'.variableOffset ≤ i → w'.block[i]? = w.block[i]?

section Steps

variable {w w' w'' : Writer} {ids codes bytes ids' codes' bytes' : Nat}

theorem Wrote.trans (h : Wrote w w' ids codes bytes) (h' : Wrote w' w'' ids' codes' bytes') :
    Wrote w w'' (ids + ids') (codes + codes') (bytes + bytes') := by
  refine ⟨?_, h'.storage.trans h.storage, ?_, ?_, h'.length.trans h.length, fun hpos => ?_, fun i h1 h2 h3 h4 => ?_⟩
  · rw [h'.fieldIds, h.fieldIds]
    push_cast
    omega
  · rw [h'.typeCodes, h.typeCodes]
    push_cast
    omega
  · rw [h'.variableOffset, h.variableOffset]
    push_cast
    omega
  · rcases Nat.eq_zero_or_pos codes with h0 | hpos'
    · have := h'.nonneg (by omega)
      have := h.typeCodes
      omega
    · exact h.nonneg hpos'
  · have hi := h'.fieldIds
    have hc := h'.typeCodes
    have hv := h'.variableOffset
    rw [h'.frame i h1 (by rw [h.storage]; exact h2) h3 h4, h.frame i (by omega) h2 (by omega) (by omega)]

/-- A type code. -/
theorem wrote_typeCode {code : Byte} (h : w.typeCode code = .ok w') : Wrote w w' 0 1 0 := by
  unfold Writer.typeCode at h
  obtain ⟨block, hstore, h⟩ := bind_eq_ok h
  obtain rfl := Except.ok.inj h
  obtain ⟨hlen, h0, _, hframe⟩ := store_ok hstore
  exact ⟨(Int.add_zero _).symm, rfl, rfl, (Int.add_zero _).symm, hlen, fun _ => h0, fun i _ _ hi _ => hframe i hi⟩

/-- A field id. -/
theorem wrote_fieldId {id : List Byte} (hid : id.length = 8) (h : w.fieldId id = .ok w') : Wrote w w' 8 0 0 := by
  unfold Writer.fieldId at h
  obtain ⟨block, hstore, h⟩ := bind_eq_ok h
  obtain rfl := Except.ok.inj h
  obtain ⟨hlen, _, _, hframe⟩ := store_ok hstore
  rw [hid] at hframe
  exact ⟨rfl, rfl, (Int.add_zero _).symm, (Int.add_zero _).symm, hlen, nofun, fun i hi _ _ _ => hframe i hi⟩

/-- A word. -/
theorem wrote_word {word : List Byte} (hword : word.length = 8) (h : w.word word = .ok w') : Wrote w w' 0 0 0 := by
  unfold Writer.word at h
  obtain ⟨block, hstore, h⟩ := bind_eq_ok h
  obtain rfl := Except.ok.inj h
  obtain ⟨hlen, _, _, hframe⟩ := store_ok hstore
  rw [hword] at hframe
  exact ⟨(Int.add_zero _).symm, rfl, (Int.add_zero _).symm, (Int.add_zero _).symm, hlen, nofun, fun i _ hi _ _ => hframe i hi⟩

/-- Bytes of the variable part. -/
theorem wrote_copyBytes {bytes : List Byte} (h : w.copyBytes bytes = .ok w') : Wrote w w' 0 0 bytes.length := by
  unfold Writer.copyBytes at h
  obtain ⟨block, hstore, h⟩ := bind_eq_ok h
  obtain rfl := Except.ok.inj h
  obtain ⟨hlen, _, _, hframe⟩ := store_ok hstore
  exact ⟨(Int.add_zero _).symm, rfl, (Int.add_zero _).symm, rfl, hlen, nofun, fun i _ _ _ hi => hframe i hi⟩

/-- A cell. -/
theorem wrote_putCell {c : Cell} (hc : c.WellFormed) (h : putCell w c = .ok w') : Wrote w w' 0 0 c.extra.length := by
  have hword := length_word hc w.variableOffset
  cases c with
  | fixed type word => exact wrote_word hword h
  | string bytes =>
    obtain ⟨w1, hw1, h⟩ := bind_eq_ok h
    have := (wrote_word hword hw1).trans (wrote_copyBytes h)
    simpa only [Nat.zero_add] using this
  | blob bytes =>
    obtain ⟨w1, hw1, h⟩ := bind_eq_ok h
    have := (wrote_word hword hw1).trans (wrote_copyBytes h)
    simpa only [Nat.zero_add] using this

end Steps

/-- A header takes the place of the first sixteen bytes. -/
theorem writeBlobHeader_bytes {count : BitVec 32} {recordType : BitVec 64}
    (h : writeBlobHeader b { magic := magic, columnCount := count, recordType := recordType } = .ok b') :
    16 ≤ b.length ∧ b' = headerBytes recordType count.toNat ++ b.drop 16 := by
  have hcount : count = BitVec.ofNat 32 count.toNat := by rw [BitVec.ofNat_toNat, BitVec.setWidth_eq]
  have hlong : 16 ≤ b.length := by
    obtain ⟨b1, h1, h2⟩ := bind_eq_ok h
    obtain ⟨b2, h2, h3⟩ := bind_eq_ok h2
    have := (store_ok h1).1
    have := (store_ok h2).1
    have := (store_ok h3).2.2.1
    rw [length_bigEndian] at this
    omega
  have hhead : (b.take 16).length = 16 := by rw [List.length_take, Nat.min_eq_left hlong]
  rw [hcount, ← List.take_append_drop 16 b, writeBlobHeader_eq hhead] at h
  exact ⟨hlong, (Except.ok.inj h).symm⟩

/-- It is read back, and the bytes behind it stay. -/
theorem writeBlobHeader_ok {count : BitVec 32} {recordType : BitVec 64}
    (h : writeBlobHeader b { magic := magic, columnCount := count, recordType := recordType } = .ok b') :
    b'.length = b.length ∧ readBlobHeader b' = .ok { magic := magic, columnCount := count, recordType := recordType } ∧
      ∀ i : Nat, 16 ≤ i → b'[i]? = b[i]? := by
  obtain ⟨hlong, rfl⟩ := writeBlobHeader_bytes h
  refine ⟨?_, ?_, fun i hi => ?_⟩
  · rw [List.length_append, length_headerBytes, List.length_drop]
    omega
  · rw [readBlobHeader_layout, BitVec.ofNat_toNat, BitVec.setWidth_eq]
  · rw [List.getElem?_append_right (by rw [length_headerBytes]; exact hi), length_headerBytes, List.getElem?_drop, Nat.add_sub_cancel' hi]

/-! ## Columns -/

/-- Whole columns. -/
structure Advances (w w' : Writer) (n size : Nat) : Prop where
  fieldIds : w'.fieldIdsOffset = w.fieldIdsOffset + 8 * n
  storage : w'.storageOffset = w.storageOffset + 8 * n
  typeCodes : w'.typeCodesOffset = w.typeCodesOffset + n
  variableOffset : w'.variableOffset = w.variableOffset + size
  length : w'.block.length = w.block.length
  nonneg : 0 < n → 0 ≤ w.typeCodesOffset
  frame : ∀ i : Nat, w'.fieldIdsOffset ≤ i → w'.storageOffset ≤ i → w'.typeCodesOffset ≤ i → w'.variableOffset ≤ i → w'.block[i]? = w.block[i]?

theorem Advances.refl (w : Writer) : Advances w w 0 0 :=
  ⟨(Int.add_zero _).symm, (Int.add_zero _).symm, (Int.add_zero _).symm, (Int.add_zero _).symm, rfl, nofun, fun _ _ _ _ _ => rfl⟩

theorem Advances.trans {w'' : Writer} {n n' size size' : Nat} (h : Advances w w' n size) (h' : Advances w' w'' n' size') :
    Advances w w'' (n + n') (size + size') := by
  have hi := h'.fieldIds
  have hs := h'.storage
  have hc := h'.typeCodes
  have hv := h'.variableOffset
  refine ⟨?_, ?_, ?_, ?_, h'.length.trans h.length, fun hpos => ?_, fun i h1 h2 h3 h4 => ?_⟩
  · rw [hi, h.fieldIds]
    push_cast
    omega
  · rw [hs, h.storage]
    push_cast
    omega
  · rw [hc, h.typeCodes]
    push_cast
    omega
  · rw [hv, h.variableOffset]
    push_cast
    omega
  · rcases Nat.eq_zero_or_pos n with h0 | hpos'
    · have := h'.nonneg (by omega)
      have := h.typeCodes
      omega
    · exact h.nonneg hpos'
  · rw [h'.frame i h1 h2 h3 h4, h.frame i (by omega) (by omega) (by omega) (by omega)]

/-- The steps of a column, and the next column. -/
theorem Wrote.advances {size : Nat} (h : Wrote w w' 8 1 size) : Advances w w'.next 1 size := by
  refine ⟨h.fieldIds, ?_, h.typeCodes, h.variableOffset, h.length, h.nonneg, fun i h1 h2 h3 h4 => h.frame i h1 ?_ h3 h4⟩
  · rw [Writer.next, h.storage]
    rfl
  · rw [Writer.next, h.storage] at h2
    exact h2

/-- A loop over columns. -/
theorem Advances.run {f : Writer → α → Udf Writer} (cell : α → Cell) {l : List α}
    (hl : ∀ a ∈ l, ∀ w w', f w a = .ok w' → Advances w w' 1 (cell a).extra.length) (h : l.foldlM f w = .ok w') :
    Advances w w' l.length (extras (l.map cell)).length := by
  induction l generalizing w with
  | nil =>
    obtain rfl := Except.ok.inj h
    exact .refl w
  | cons a l ih =>
    rw [List.foldlM_cons] at h
    obtain ⟨w1, hw1, h⟩ := bind_eq_ok h
    have := (hl a List.mem_cons_self w w1 hw1).trans (ih (fun b hb => hl b (List.mem_cons_of_mem _ hb)) h)
    have hlen : (extras ((a :: l).map cell)).length = (cell a).extra.length + (extras (l.map cell)).length := List.length_append
    rwa [hlen, List.length_cons, Nat.add_comm l.length 1]

/-- A column that is created. -/
theorem advances_valColumn {s : Sqlite} {spec : SqlValue × SqlValue × SqlValue} (h : ValSpecOk s spec) (w w' : Writer)
    (hw : w.valColumn s spec = .ok w') : Advances w w' 1 (valField s spec).cell.extra.length := by
  obtain ⟨hnull, n, hn⟩ := h
  unfold Writer.valColumn at hw
  rw [if_neg hnull] at hw
  obtain ⟨w1, hw1, hw⟩ := bind_eq_ok hw
  obtain ⟨w2, hw2, hw⟩ := bind_eq_ok hw
  obtain ⟨w3, hw3, hw⟩ := bind_eq_ok hw
  obtain rfl := Except.ok.inj hw
  rw [value_eq hn] at hw3
  have := ((wrote_typeCode hw1).trans (wrote_fieldId (length_bigEndian 8 _) hw2)).trans (wrote_putCell (cellOf_spec hn).1 hw3)
  simp only [Nat.zero_add, Nat.add_zero] at this
  exact this.advances

/-! ## Other blocks -/

/-- Two writers at the same places in blocks of the same size. -/
structure Alike (w v : Writer) : Prop where
  length : v.block.length = w.block.length
  fieldIds : v.fieldIdsOffset = w.fieldIdsOffset
  storage : v.storageOffset = w.storageOffset
  typeCodes : v.typeCodesOffset = w.typeCodesOffset
  variableOffset : v.variableOffset = w.variableOffset

/-- Whether a step succeeds, and where it leads, does not depend on what is in the block. -/
def Oblivious (f : Writer → Udf Writer) : Prop :=
  ∀ ⦃w w' v : Writer⦄, Alike w v → f w = .ok w' → ∃ v', f v = .ok v' ∧ Alike w' v'

/-- A store depends on the size of the block only. -/
theorem store_alike {a a' bytes : List Byte} {offset : Int} (hlen : b.length = a.length) (h : store a offset bytes = .ok a') :
    ∃ b', store b offset bytes = .ok b' ∧ b'.length = a'.length := by
  obtain ⟨hsame, h0, hle, _⟩ := store_ok h
  obtain ⟨b', hb'⟩ := Memory.write_isSome h0 (show offset + bytes.length ≤ b.length by rw [hlen]; exact hle)
  refine ⟨b', ?_, ?_⟩
  · rw [store, hb']
    rfl
  · rw [hsame, Memory.length_of_write hb', hlen]

theorem Oblivious.bind {f g : Writer → Udf Writer} (hf : Oblivious f) (hg : Oblivious g) : Oblivious fun w => f w >>= g := by
  intro w w' v hwv h
  obtain ⟨w1, hw1, h⟩ := bind_eq_ok h
  obtain ⟨v1, hv1, halike⟩ := hf hwv hw1
  obtain ⟨v', hv', halike'⟩ := hg halike h
  refine ⟨v', ?_, halike'⟩
  show (f v >>= g) = _
  rw [hv1]
  exact hv'

/-- What does not concern the block comes first. -/
theorem oblivious_bind {x : Udf α} {f : α → Writer → Udf Writer} (hf : ∀ a, Oblivious (f a)) : Oblivious fun w => x >>= fun a => f a w := by
  intro w w' v hwv h
  obtain ⟨a, ha, h⟩ := bind_eq_ok h
  subst ha
  exact hf a hwv h

theorem oblivious_ok : Oblivious fun w => .ok w := by
  intro w w' v hwv h
  obtain rfl := Except.ok.inj h
  exact ⟨v, rfl, hwv⟩

theorem oblivious_next : Oblivious fun w => .ok w.next := by
  intro w w' v hwv h
  obtain rfl := Except.ok.inj h
  exact ⟨v.next, rfl, ⟨hwv.length, hwv.fieldIds, congrArg (· + 8) hwv.storage, hwv.typeCodes, hwv.variableOffset⟩⟩

theorem oblivious_typeCode (code : Byte) : Oblivious fun w => w.typeCode code := by
  intro w w' v hwv h
  obtain ⟨block, hstore, h⟩ := bind_eq_ok h
  obtain rfl := Except.ok.inj h
  obtain ⟨block', hstore', hlen⟩ := store_alike hwv.length hstore
  refine ⟨{ v with block := block', typeCodesOffset := v.typeCodesOffset + 1 }, ?_,
    ⟨hlen, hwv.fieldIds, hwv.storage, congrArg (· + 1) hwv.typeCodes, hwv.variableOffset⟩⟩
  show v.typeCode code = _
  rw [Writer.typeCode, hwv.typeCodes, hstore']
  rfl

theorem oblivious_fieldId (id : List Byte) : Oblivious fun w => w.fieldId id := by
  intro w w' v hwv h
  obtain ⟨block, hstore, h⟩ := bind_eq_ok h
  obtain rfl := Except.ok.inj h
  obtain ⟨block', hstore', hlen⟩ := store_alike hwv.length hstore
  refine ⟨{ v with block := block', fieldIdsOffset := v.fieldIdsOffset + 8 }, ?_,
    ⟨hlen, congrArg (· + 8) hwv.fieldIds, hwv.storage, hwv.typeCodes, hwv.variableOffset⟩⟩
  show v.fieldId id = _
  rw [Writer.fieldId, hwv.fieldIds, hstore']
  rfl

theorem oblivious_word (word : Int → List Byte) : Oblivious fun w => w.word (word w.variableOffset) := by
  intro w w' v hwv h
  obtain ⟨block, hstore, h⟩ := bind_eq_ok h
  obtain rfl := Except.ok.inj h
  obtain ⟨block', hstore', hlen⟩ := store_alike hwv.length hstore
  refine ⟨{ v with block := block' }, ?_, ⟨hlen, hwv.fieldIds, hwv.storage, hwv.typeCodes, hwv.variableOffset⟩⟩
  show v.word (word v.variableOffset) = _
  rw [Writer.word, hwv.storage, hwv.variableOffset, hstore']
  rfl

theorem oblivious_copyBytes (bytes : List Byte) : Oblivious fun w => w.copyBytes bytes := by
  intro w w' v hwv h
  obtain ⟨block, hstore, h⟩ := bind_eq_ok h
  obtain rfl := Except.ok.inj h
  obtain ⟨block', hstore', hlen⟩ := store_alike hwv.length hstore
  refine ⟨{ v with block := block', variableOffset := v.variableOffset + bytes.length }, ?_,
    ⟨hlen, hwv.fieldIds, hwv.storage, hwv.typeCodes, congrArg (· + (bytes.length : Int)) hwv.variableOffset⟩⟩
  show v.copyBytes bytes = _
  rw [Writer.copyBytes, hwv.variableOffset, hstore']
  rfl

/-- Writing a value does too. -/
theorem oblivious_value (s : Sqlite) (code : Byte) (v : SqlValue) : Oblivious fun w => w.value s code v := by
  unfold Writer.value
  rcases BlobType.ofCode? code with _ | type
  · exact oblivious_ok
  · cases type
    case string =>
      exact (oblivious_word fun offset => bigEndian 8 (info offset v.bytes.length)).bind (oblivious_copyBytes (v.bytes ++ [0]))
    case blob => exact (oblivious_word fun offset => bigEndian 8 (info offset v.bytes.length)).bind (oblivious_copyBytes v.bytes)
    all_goals exact oblivious_word fun _ => fixedWord s _ v

/-- Writing a column does. -/
theorem oblivious_valColumn (s : Sqlite) (spec : SqlValue × SqlValue × SqlValue) : Oblivious fun w => w.valColumn s spec := by
  unfold Writer.valColumn
  by_cases hnull : spec.2.1 = .null
  · simp only [if_pos hnull]
    exact oblivious_ok
  · simp only [if_neg hnull]
    exact (oblivious_typeCode _).bind ((oblivious_fieldId _).bind ((oblivious_value s _ _).bind oblivious_next))

/-- So does a copied value. -/
theorem oblivious_copyValue (b : List Byte) (offset : Int) (type : BlobType) : Oblivious fun w => w.copyValue b offset type := by
  have hword := oblivious_bind (x := load b offset 8) fun word => oblivious_word fun _ => word
  cases type
  case string =>
    exact oblivious_bind fun val => oblivious_bind fun text =>
      (oblivious_word fun offset => bigEndian 8 (info offset (infoLen val))).bind (oblivious_copyBytes text)
  case blob =>
    exact oblivious_bind fun val => oblivious_bind fun data =>
      (oblivious_word fun offset => bigEndian 8 (info offset (infoLen val))).bind (oblivious_copyBytes data)
  all_goals exact hword

/-- So does a copied column. -/
theorem oblivious_copyColumn (b : List Byte) (shape : BlobShape) (icol : Nat) : Oblivious fun w => w.copyColumn b shape icol := by
  unfold Writer.copyColumn
  refine oblivious_bind fun code => ?_
  rcases BlobType.ofCode? code with _ | type
  · exact oblivious_ok
  · exact (oblivious_copyValue b _ type).bind ((oblivious_typeCode code).bind
      (oblivious_bind fun fieldId => (oblivious_fieldId fieldId).bind oblivious_next))

/-- Loops. -/
theorem Oblivious.run {f : Writer → α → Udf Writer} (hf : ∀ a, Oblivious fun w => f w a) (l : List α) : Oblivious fun w => l.foldlM f w := by
  induction l with
  | nil => exact oblivious_ok
  | cons a l ih => exact (hf a).bind ih

end BlobAux

end CgSql.Blobs
