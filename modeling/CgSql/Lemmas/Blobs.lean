import CgSql.Blobs
import CgSql.Lemmas.Serial

/-!
# Blocks, words and columns

What loads and stores do, on blocks that are known as parts; what the words of columns are read as; and what the loops of the user
defined functions do for one column.
-/

namespace CgSql.Blobs

/-! ## Steps -/

@[simp] theorem ok_bind {α β : Type} (a : α) (f : α → Udf β) : (Except.ok a >>= f) = f a := rfl

@[simp] theorem error_bind {α β : Type} (e : Stop) (f : α → Udf β) : (Except.error e >>= f) = .error e := rfl

@[simp] theorem pure_eq_ok {α : Type} (a : α) : (pure a : Udf α) = .ok a := rfl

@[simp] theorem throw_eq_error {α : Type} (e : Stop) : (throw e : Udf α) = .error e := rfl

/-- What a function that succeeds did first. -/
theorem bind_eq_ok {α β : Type} {x : Udf α} {f : α → Udf β} {b : β} (h : (x >>= f) = .ok b) : ∃ a, x = .ok a ∧ f a = .ok b := by
  rcases x with e | a
  · nomatch h
  · exact ⟨a, rfl, h⟩

theorem map_eq_ok {α β : Type} {x : Udf α} {f : α → β} {b : β} (h : x.map f = .ok b) : ∃ a, x = .ok a ∧ f a = b := by
  rcases x with e | a
  · nomatch h
  · exact ⟨a, rfl, Except.ok.inj h⟩

namespace BlobAux

variable {b bytes : List Byte} {offset : Int} {n len : Nat}

/-! ## Loads -/

theorem load_eq (offset : Int) (n : Nat) (h0 : 0 ≤ offset) (h : offset + n ≤ b.length) :
    ∃ bytes, load b offset n = .ok bytes ∧ bytes.length = n := by
  obtain ⟨bytes, hread⟩ := Option.isSome_iff_exists.1 (Memory.isSome_read.2 ⟨h0, h⟩)
  refine ⟨bytes, ?_, Memory.length_of_read hread⟩
  rw [load, hread]
  rfl

theorem loadByte_eq (offset : Int) (h0 : 0 ≤ offset) (h : offset + 1 ≤ b.length) : ∃ byte, loadByte b offset = .ok byte := by
  obtain ⟨bytes, hload, _⟩ := load_eq offset 1 h0 h
  refine ⟨bytes.headD 0, ?_⟩
  rw [loadByte, hload]
  rfl

theorem loadU64_eq (offset : Int) (h0 : 0 ≤ offset) (h : offset + 8 ≤ b.length) : ∃ v, loadU64 b offset = .ok v := by
  obtain ⟨bytes, hload, _⟩ := load_eq offset 8 h0 h
  refine ⟨ofBigEndian bytes, ?_⟩
  rw [loadU64, hload]
  rfl

/-- A load that succeeds is one of the block. -/
theorem read_of_load (h : load b offset n = .ok bytes) : Memory.read b offset n = some bytes := by
  unfold load at h
  rcases hread : Memory.read b offset n with _ | bytes'
  · rw [hread] at h
    nomatch h
  · rw [hread] at h
    rw [← Except.ok.inj h]

theorem bounds_of_load (h : load b offset n = .ok bytes) : 0 ≤ offset ∧ offset + n ≤ b.length :=
  Memory.isSome_read.1 (Option.isSome_iff_exists.2 ⟨bytes, read_of_load h⟩)

/-- The bytes of a string, and its NUL. -/
theorem load_init {last : Byte} (h : load b offset (bytes.length + 1) = .ok (bytes ++ [last])) : load b offset bytes.length = .ok bytes := by
  rw [load, (Memory.read_split bytes [last] (read_of_load h)).1]
  rfl

theorem load_last {last : Byte}
    (h : load b offset (bytes.length + 1) = .ok (bytes ++ [last])) : load b (offset + bytes.length) 1 = .ok [last] := by
  have hread : Memory.read b (offset + bytes.length) 1 = some [last] := (Memory.read_split bytes [last] (read_of_load h)).2
  rw [load, hread]
  rfl

/-- A load finds the part at its offset. -/
theorem load_part (offset : Int) (pre cells post : List Byte) (ho : offset = pre.length) (hn : cells.length = n) :
    load (pre ++ (cells ++ post)) offset n = .ok cells := by
  rw [load, Memory.read_part ho hn]
  rfl

/-- A store replaces the part at its offset. -/
theorem store_part (offset : Int) (pre old cells post : List Byte) (ho : offset = pre.length)
    (hlen : old.length = cells.length) : store (pre ++ (old ++ post)) offset cells = .ok (pre ++ (cells ++ post)) := by
  rw [store, Memory.write_part ho hlen]
  rfl

/-- A store at the border of a part that is filled from below. -/
theorem store_border (offset : Int) (pre filled free cells post : List Byte) (ho : offset = pre.length + filled.length)
    (hlen : cells.length ≤ free.length) : store (pre ++ (filled ++ free ++ post)) offset cells =
      .ok (pre ++ (filled ++ cells ++ free.drop cells.length ++ post)) := by
  rw [store, Memory.write_border ho hlen]
  rfl

/-- A header is read from every blob. -/
theorem readBlobHeader_eq (b : List Byte) : ∃ h, readBlobHeader b = .ok h := by
  unfold readBlobHeader
  by_cases hlen : b.length < 16
  · exact ⟨_, if_pos hlen⟩
  · rw [if_neg hlen]
    obtain ⟨r, hr, _⟩ := load_eq (b := b) 0 8 (by omega) (by omega)
    obtain ⟨m, hm, _⟩ := load_eq (b := b) 8 4 (by omega) (by omega)
    obtain ⟨c, hc, _⟩ := load_eq (b := b) 12 4 (by omega) (by omega)
    rw [hr, hm, hc]
    exact ⟨_, rfl⟩

/-! ## Shapes -/

/-- The shape of key blobs. -/
def keyShape (n : Int) (variableSize : Int) : BlobShape :=
  { fieldIdsOffset := 16, storageOffset := 16, typeCodesOffset := 16 + n * 8, variableOffset := 16 + n * 8 + n
    totalBytes := 16 + n + n * 8 + variableSize }

/-- The shape of value blobs. -/
def valShape (n : Int) (variableSize : Int) : BlobShape :=
  { fieldIdsOffset := 16, storageOffset := 16 + n * 8, typeCodesOffset := 16 + n * 8 + n * 8
    variableOffset := 16 + n * 8 + n * 8 + n, totalBytes := 16 + n * 8 + n + n * 8 + variableSize }

theorem computeKey_eq (n v : Int) : computeKeyBlobShape n v =
      if 0 ≤ (keyShape n v).totalBytes ∧ (keyShape n v).totalBytes < 2 ^ 32 then .ok (keyShape n v) else .error .contract := rfl

theorem computeVal_eq (n v : Int) : computeValBlobShape n v =
      if -2 ^ 31 ≤ (valShape n v).totalBytes ∧ (valShape n v).totalBytes < 2 ^ 31 then .ok (valShape n v) else .error .contract := rfl

/-! ## Numbers -/

theorem length_bigEndian (n : Nat) (v : BitVec 64) : (bigEndian n v).length = n := by
  induction n with
  | zero => rfl
  | succ n ih => rw [bigEndian, List.length_cons, ih]

/-- The bits after the bytes of a number are those of the number, and then those from before. -/
theorem getLsbD_foldl_bigEndian (n : Nat) (v acc : BitVec 64) {j : Nat} (hj : j < 64) :
    ((bigEndian n v).foldl (fun (v : BitVec 64) (b : Byte) => v <<< 8 ||| b.setWidth 64) acc).getLsbD j =
      if j < 8 * n then v.getLsbD j else acc.getLsbD (j - 8 * n) := by
  induction n generalizing acc with
  | zero => simp [bigEndian]
  | succ n ih =>
    rw [bigEndian, List.foldl_cons, ih]
    by_cases hlow : j < 8 * n
    · rw [if_pos hlow, if_pos (by omega)]
    · rw [if_neg hlow, BitVec.getLsbD_or, BitVec.getLsbD_shiftLeft, BitVec.getLsbD_setWidth, BitVec.getLsbD_setWidth, BitVec.getLsbD_ushiftRight]
      have hlt : j - 8 * n < 64 := by omega
      by_cases hbyte : j < 8 * (n + 1)
      · have h8 : j - 8 * n < 8 := by omega
        have hj' : 8 * n + (j - 8 * n) = j := by omega
        simp [hbyte, h8, hlt, hj']
      · have h8 : ¬j - 8 * n < 8 := by omega
        have hj' : j - 8 * n - 8 = j - 8 * (n + 1) := by omega
        simp [hbyte, h8, hlt, hj']

/-- The eight bytes of a number give it back. -/
theorem ofBigEndian_bigEndian (v : BitVec 64) : ofBigEndian (bigEndian 8 v) = v := by
  refine BitVec.eq_of_getLsbD_eq fun j hj => ?_
  rw [ofBigEndian, getLsbD_foldl_bigEndian 8 v 0 hj, if_pos hj]

/-- So do the four bytes of a shorter one. -/
theorem ofBigEndian_bigEndian_four (v : BitVec 32) : (ofBigEndian (bigEndian 4 (v.setWidth 64))).setWidth 32 = v := by
  refine BitVec.eq_of_getLsbD_eq fun j hj => ?_
  have h64 : j < 64 := by omega
  rw [BitVec.getLsbD_setWidth, ofBigEndian, getLsbD_foldl_bigEndian 4 _ 0 h64, if_pos hj, BitVec.getLsbD_setWidth]
  simp [hj, h64]

theorem toNat_info {offset : Nat} (ho : offset < 2 ^ 32) (hl : len < 2 ^ 32) : (info offset len).toNat = offset * 2 ^ 32 + len := by
  have hoffset : (BitVec.ofInt 64 offset).toNat = offset := by
    rw [BitVec.ofInt_natCast, BitVec.toNat_ofNat, Nat.mod_eq_of_lt (by omega)]
  have hlen : (BitVec.ofNat 64 len).toNat = len := by rw [BitVec.toNat_ofNat, Nat.mod_eq_of_lt (by omega)]
  have hhigh : offset <<< 32 = offset * 2 ^ 32 := Nat.shiftLeft_eq offset 32
  unfold info
  rw [BitVec.toNat_or, BitVec.toNat_shiftLeft, hoffset, hlen, Nat.mod_eq_of_lt (by omega), ← Nat.shiftLeft_add_eq_or_of_lt hl, hhigh]

theorem infoLen_info {offset : Nat} (ho : offset < 2 ^ 32) (hl : len < 2 ^ 32) : infoLen (info offset len) = len := by
  rw [infoLen, BitVec.toNat_setWidth, toNat_info ho hl]
  omega

theorem infoOffset_info {offset : Nat} (ho : offset < 2 ^ 32) (hl : len < 2 ^ 32) : infoOffset (info offset len) = offset := by
  rw [infoOffset, BitVec.toNat_ushiftRight, toNat_info ho hl, Nat.shiftRight_eq_div_pow]
  omega

/-! ## Headers -/

theorem length_headerBytes (recordType : BitVec 64) (n : Nat) : (headerBytes recordType n).length = 16 := by
  simp [headerBytes, length_bigEndian]

/-- The header of a layout is read back. -/
theorem readBlobHeader_layout (recordType : BitVec 64) (n : Nat) (rest : List Byte) : readBlobHeader (headerBytes recordType n ++ rest) =
      .ok { magic := magic, columnCount := BitVec.ofNat 32 n, recordType := recordType } := by
  have hlen := length_headerBytes recordType n
  have h0 : load (headerBytes recordType n ++ rest) 0 8 = .ok (bigEndian 8 recordType) := by
    have := load_part 0 [] (bigEndian 8 recordType)
      (bigEndian 4 (magic.setWidth 64) ++ (bigEndian 4 ((BitVec.ofNat 32 n).setWidth 64) ++ rest)) rfl (length_bigEndian 8 _)
    simpa only [headerBytes, List.nil_append, List.append_assoc] using this
  have h8 : load (headerBytes recordType n ++ rest) 8 4 = .ok (bigEndian 4 (magic.setWidth 64)) := by
    have := load_part 8 (bigEndian 8 recordType) (bigEndian 4 (magic.setWidth 64))
      (bigEndian 4 ((BitVec.ofNat 32 n).setWidth 64) ++ rest) (by rw [length_bigEndian]; rfl) (length_bigEndian 4 _)
    simpa only [headerBytes, List.append_assoc] using this
  have h12 : load (headerBytes recordType n ++ rest) 12 4 = .ok (bigEndian 4 ((BitVec.ofNat 32 n).setWidth 64)) := by
    have := load_part 12 (bigEndian 8 recordType ++ bigEndian 4 (magic.setWidth 64)) (bigEndian 4 ((BitVec.ofNat 32 n).setWidth 64)) rest
      (by rw [List.length_append, length_bigEndian, length_bigEndian]; rfl) (length_bigEndian 4 _)
    simpa only [headerBytes, List.append_assoc] using this
  unfold readBlobHeader
  rw [if_neg (by rw [List.length_append, hlen]; omega), h0, h8, h12]
  simp only [ok_bind, pure_eq_ok, ofBigEndian_bigEndian, ofBigEndian_bigEndian_four]

/-- A header is written over the first sixteen bytes. -/
theorem writeBlobHeader_eq {head : List Byte} (hlen : head.length = 16) (rest : List Byte) (recordType : BitVec 64) (n : Nat) :
    writeBlobHeader (head ++ rest) { magic := magic, columnCount := BitVec.ofNat 32 n, recordType := recordType } =
      .ok (headerBytes recordType n ++ rest) := by
  have hparts : head ++ rest = [] ++ (head.take 8 ++ ((head.drop 8).take 4 ++ (head.drop 12 ++ rest))) := by
    have h12 : head.drop 12 = (head.drop 8).drop 4 := by rw [List.drop_drop]
    rw [List.nil_append, h12, ← List.append_assoc ((head.drop 8).take 4), List.take_append_drop, ← List.append_assoc, List.take_append_drop]
  have h0 := store_part 0 [] (head.take 8) (bigEndian 8 recordType) ((head.drop 8).take 4 ++ (head.drop 12 ++ rest)) rfl
    (by rw [length_bigEndian, List.length_take, hlen]; rfl)
  have h8 := store_part 8 (bigEndian 8 recordType) ((head.drop 8).take 4) (bigEndian 4 (magic.setWidth 64))
    (head.drop 12 ++ rest) (by rw [length_bigEndian]; rfl)
    (by rw [length_bigEndian, List.length_take, List.length_drop, hlen]; rfl)
  have h12 := store_part 12 (bigEndian 8 recordType ++ bigEndian 4 (magic.setWidth 64)) (head.drop 12)
    (bigEndian 4 ((BitVec.ofNat 32 n).setWidth 64)) rest
    (by rw [List.length_append, length_bigEndian, length_bigEndian]; rfl)
    (by rw [length_bigEndian, List.length_drop, hlen])
  simp only [List.append_assoc, List.nil_append] at h0 h12
  unfold writeBlobHeader
  rw [hparts, List.nil_append, h0, ok_bind, h8, ok_bind, h12]
  simp only [headerBytes, List.append_assoc]

/-! ## Areas -/

/-- A shape is that of these areas. -/
structure Laid (shape : BlobShape) (head : List Byte) (ids words : List (List Byte)) (codes : List Byte) : Prop where
  idLength : ∀ e ∈ ids, e.length = 8
  wordLength : ∀ e ∈ words, e.length = 8
  count : words.length = codes.length
  fieldIds : shape.fieldIdsOffset = head.length
  storage : shape.storageOffset = head.length + 8 * ids.length
  typeCodes : shape.typeCodesOffset = head.length + 8 * ids.length + 8 * words.length
  variableOffset : shape.variableOffset = head.length + 8 * ids.length + 8 * words.length + codes.length

theorem length_areas {ids ws : List (List Byte)} (hi : ∀ e ∈ ids, e.length = 8) (hw : ∀ e ∈ ws, e.length = 8) (head cs rest : List Byte) :
    (areas head ids ws cs rest).length = head.length + 8 * ids.length + 8 * ws.length + cs.length + rest.length := by
  unfold areas
  rw [List.length_append, List.length_append, List.length_append, List.length_append, Memory.length_flatten_table hi,
    Memory.length_flatten_table hw]
  omega

section Areas

variable {shape : BlobShape} {head cs : List Byte} {ids ws : List (List Byte)}
variable {i : Nat}

section

variable (hl : Laid shape head ids ws cs)

include hl

theorem Laid.length_eq (rest : List Byte) :
    ((areas head ids ws cs rest).length : Int) = shape.variableOffset + rest.length := by
  rw [length_areas hl.idLength hl.wordLength, hl.variableOffset]
  push_cast
  rfl

/-- The type code of a column. -/
theorem Laid.loadCode (rest : List Byte) (hi : i < cs.length) :
    loadByte (areas head ids ws cs rest) (shape.typeCodesOffset + i) = .ok cs[i] := by
  have hparts : areas head ids ws cs rest = (head ++ (ids.flatten ++ ws.flatten)) ++ (cs ++ rest) := by
    simp only [areas, List.append_assoc]
  have hoffset : shape.typeCodesOffset + i = ((head ++ (ids.flatten ++ ws.flatten)).length : Int) + i := by
    rw [hl.typeCodes, List.length_append, List.length_append, Memory.length_flatten_table hl.idLength, Memory.length_flatten_table hl.wordLength]
    push_cast
    omega
  rw [loadByte, load, hparts, Memory.read_cell hi hoffset]
  rfl

theorem Laid.storeCode (rest : List Byte) (hi : i < cs.length) (c : Byte) :
    store (areas head ids ws cs rest) (shape.typeCodesOffset + i) [c] = .ok (areas head ids ws (cs.set i c) rest) := by
  have hparts : ∀ cs, areas head ids ws cs rest = (head ++ (ids.flatten ++ ws.flatten)) ++ (cs ++ rest) := by
    intro cs
    simp only [areas, List.append_assoc]
  have hoffset : shape.typeCodesOffset + i = ((head ++ (ids.flatten ++ ws.flatten)).length : Int) + i := by
    rw [hl.typeCodes, List.length_append, List.length_append, Memory.length_flatten_table hl.idLength, Memory.length_flatten_table hl.wordLength]
    push_cast
    omega
  rw [store, hparts, Memory.write_cell hi hoffset, hparts]
  rfl

theorem Laid.setCode (i : Nat) (c : Byte) : Laid shape head ids ws (cs.set i c) := by
  obtain ⟨h1, h2, h3, h4, h5, h6, h7⟩ := hl
  exact ⟨h1, h2, by rw [List.length_set, h3], h4, h5, h6, by rw [List.length_set, h7]⟩

/-- The word of a column. -/
theorem Laid.loadWord (rest : List Byte) (hi : i < ws.length) :
    load (areas head ids ws cs rest) (shape.storageOffset + i * 8) 8 = .ok ws[i] := by
  have hparts : areas head ids ws cs rest = (head ++ ids.flatten) ++ (ws.flatten ++ (cs ++ rest)) := by
    simp only [areas, List.append_assoc]
  have hoffset : shape.storageOffset + i * 8 = ((head ++ ids.flatten).length : Int) + (8 : Nat) * i := by
    rw [hl.storage, List.length_append, Memory.length_flatten_table hl.idLength]
    push_cast
    omega
  rw [load, hparts, Memory.read_entry hl.wordLength hi hoffset]
  rfl

theorem Laid.storeWord (rest : List Byte) (hi : i < ws.length) {w : List Byte} (hw : w.length = 8) :
    store (areas head ids ws cs rest) (shape.storageOffset + i * 8) w = .ok (areas head ids (ws.set i w) cs rest) := by
  have hparts : ∀ ws, areas head ids ws cs rest = (head ++ ids.flatten) ++ (ws.flatten ++ (cs ++ rest)) := by
    intro ws
    simp only [areas, List.append_assoc]
  have hoffset : shape.storageOffset + i * 8 = ((head ++ ids.flatten).length : Int) + (8 : Nat) * i := by
    rw [hl.storage, List.length_append, Memory.length_flatten_table hl.idLength]
    push_cast
    omega
  rw [store, hparts, Memory.write_entry hl.wordLength hi hw hoffset, hparts]
  rfl

theorem Laid.setWord (i : Nat) {w : List Byte} (hw : w.length = 8) : Laid shape head ids (ws.set i w) cs := by
  obtain ⟨h1, h2, h3, h4, h5, h6, h7⟩ := hl
  refine ⟨h1, fun e he => ?_, by rw [List.length_set, h3], h4, h5, by rw [List.length_set, h6], by rw [List.length_set, h7]⟩
  rcases List.mem_or_eq_of_mem_set he with he | rfl
  · exact h2 e he
  · exact hw

theorem Laid.loadU64 (rest : List Byte) (hi : i < ws.length) :
    loadU64 (areas head ids ws cs rest) (shape.storageOffset + i * 8) = .ok (ofBigEndian ws[i]) := by
  rw [Blobs.loadU64, hl.loadWord rest hi]
  rfl

/-- The field id of a column. -/
theorem Laid.loadId (rest : List Byte) (hi : i < ids.length) :
    load (areas head ids ws cs rest) (shape.fieldIdsOffset + i * 8) 8 = .ok ids[i] := by
  have hoffset : shape.fieldIdsOffset + i * 8 = (head.length : Int) + (8 : Nat) * i := by
    rw [hl.fieldIds]
    push_cast
    omega
  rw [load, areas, Memory.read_entry hl.idLength hi hoffset]
  rfl

/-- What is behind the type codes. -/
theorem Laid.loadRest (rest : List Byte) {offset : Int} (h : shape.variableOffset ≤ offset)
    (n : Nat) : load (areas head ids ws cs rest) offset n = load rest (offset - shape.variableOffset) n := by
  have hparts : areas head ids ws cs rest = (head ++ (ids.flatten ++ (ws.flatten ++ cs))) ++ rest := by
    simp only [areas, List.append_assoc]
  have hlen : ((head ++ (ids.flatten ++ (ws.flatten ++ cs))).length : Int) = shape.variableOffset := by
    rw [hl.variableOffset, List.length_append, List.length_append, List.length_append, Memory.length_flatten_table hl.idLength,
      Memory.length_flatten_table hl.wordLength]
    push_cast
    omega
  rw [load, load, hparts, Memory.read_append_right (by omega), hlen]

/-- Bytes are stored behind the ones that are there, if there is room. -/
theorem Laid.storeRest (filled free bytes : List Byte) {offset : Int}
    (h : offset = shape.variableOffset + filled.length) : store (areas head ids ws cs (filled ++ free)) offset bytes =
      if bytes.length ≤ free.length then .ok (areas head ids ws cs (filled ++ bytes ++ free.drop bytes.length)) else .error .fault := by
  have hparts : ∀ rest, areas head ids ws cs rest = (head ++ (ids.flatten ++ (ws.flatten ++ cs))) ++ (rest ++ []) := by
    intro rest
    simp only [areas, List.append_assoc, List.append_nil]
  have hlen : ((head ++ (ids.flatten ++ (ws.flatten ++ cs))).length : Int) = shape.variableOffset := by
    rw [hl.variableOffset, List.length_append, List.length_append, List.length_append, Memory.length_flatten_table hl.idLength,
      Memory.length_flatten_table hl.wordLength]
    push_cast
    omega
  split
  · rename_i hle
    rw [store, hparts, Memory.write_border (by rw [hlen, h]) hle, hparts]
    rfl
  · rename_i hle
    have hnone : Memory.write (areas head ids ws cs (filled ++ free)) offset bytes = none := by
      rw [Memory.write_eq_none, hl.length_eq, List.length_append]
      push_cast
      omega
    rw [store, hnone]
    rfl

end

end Areas

end BlobAux

end CgSql.Blobs
