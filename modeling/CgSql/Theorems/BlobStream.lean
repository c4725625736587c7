import CgSql.Theorems.DynCursor

/-!
# Blob streams

The offsets of a stream are read where the products of the source do not wrap around: the check in front of the reads is made with a
product that has wrapped already. And a stream that was made from blobs gives back each of them, as long as its offsets are found with
products that are not negative.
-/

namespace CgSql.DynCursor

open Serial SerialAux

/-! ## Reading any blob -/

/-- A blob: its size is a `cql_int32` that is not negative. -/
structure Blob where
  bytes : List Byte
  size : bytes.length < 2 ^ 31

/-- The offsets are read inside of the blob, and what follows is an error on a cleared cursor, or the decoding of a part of the blob. -/
def Safe (blob : Blob) (index : BitVec 32) : Prop :=
  ∀ (beyond : Beyond) (needed : Shape) (cursor : Cursor needed), ∃ out, cursorFromBlobStream beyond blob.bytes index cursor = some out ∧
    (out = (false, cursor.start.error) ∨
      ∃ start size, start + size ≤ blob.bytes.length ∧ out = cursorFromBytes beyond ((blob.bytes.drop start).take size) cursor)

/-- The count that a blob starts with. -/
def firstCount (bytes : List Byte) : Nat := ((ofLittleEndian (bytes.take 4)).setWidth 32).toNat

/-- The products wrap around so that the check is passed, and an offset is read in front of the blob. -/
structure Wraps (blob : Blob) (index : BitVec 32) : Prop where
  header : 4 ≤ blob.bytes.length
  counted : index.toNat < firstCount blob.bytes
  wraps : index.toNat = 2 ^ 30 - 2 ∨ index.toNat = 2 ^ 31 - 2 ∨ (index.toNat = 2 ^ 30 - 1 ∧ firstCount blob.bytes ≤ blob.bytes.length)

namespace StreamAux

variable {bytes : List Byte}

theorem read32_of_le {offset : Int} (h : 0 ≤ offset) (h' : offset + 4 ≤ bytes.length) :
    read32 bytes offset = some ((ofLittleEndian ((bytes.drop offset.toNat).take 4)).setWidth 32) :=
  if_pos ⟨h, h'⟩

theorem read32_eq_none_iff {offset : Int} : read32 bytes offset = none ↔ ¬(0 ≤ offset ∧ offset + 4 ≤ bytes.length) := by
  rw [read32]
  split <;> simp_all

/-- A product with 4 in unsigned arithmetic. -/
theorem toNat_add_mul_four (index : BitVec 32) (k : Nat) (hk : k < 2 ^ 32) :
    ((index + BitVec.ofNat 32 k) * 4).toNat = 4 * (index.toNat + k) % 2 ^ 32 := by
  rw [BitVec.toNat_mul, BitVec.toNat_add, BitVec.toNat_ofNat, Nat.mod_eq_of_lt hk]
  show (index.toNat + k) % 2 ^ 32 * 4 % 2 ^ 32 = _
  omega

/-- The same as an offset. -/
theorem toInt_add_mul_four (index : BitVec 32) (k : Nat) (hk : k < 2 ^ 32) : ((index + BitVec.ofNat 32 k) * 4).toInt =
    if 4 * (index.toNat + k) % 2 ^ 32 < 2 ^ 31 then ((4 * (index.toNat + k) % 2 ^ 32 : Nat) : Int)
    else ((4 * (index.toNat + k) % 2 ^ 32 : Nat) : Int) - 2 ^ 32 := by
  rw [BitVec.toInt_eq_toNat_cond, toNat_add_mul_four index k hk]
  split <;> split <;> omega

theorem slt_zero_iff (index : BitVec 32) : index.slt 0 = true ↔ 2 ^ 31 ≤ index.toNat := by
  have hzero : (0 : BitVec 32).toInt = 0 := rfl
  rw [BitVec.slt_iff_toInt_lt, hzero, BitVec.toInt_eq_toNat_cond]
  split <;> omega

theorem zero_slt_iff {index : BitVec 32} (h : index.toNat < 2 ^ 31) : (0 : BitVec 32).slt index = true ↔ 0 < index.toNat := by
  have hzero : (0 : BitVec 32).toInt = 0 := rfl
  rw [BitVec.slt_iff_toInt_lt, hzero, BitVec.toInt_eq_toNat_cond]
  split <;> omega

/-- The check in front of the reads. -/
def Checked (len count index : Nat) : Prop := index < 2 ^ 31 ∧ index < count ∧ 4 * (index + 2) % 2 ^ 32 ≤ len

/-- What the checks make of bytes that have a count. -/
theorem streamRange_eq (hsize : bytes.length < 2 ^ 32) (h : 4 ≤ bytes.length) (index : BitVec 32) :
    (¬Checked bytes.length (firstCount bytes) index.toNat ∧ streamRange bytes index = .error) ∨
    (Checked bytes.length (firstCount bytes) index.toNat ∧ streamRange bytes index = match read32 bytes ((index + 1) * 4).toInt with
      | none => .outside
      | some stop =>
        if stop.toNat > bytes.length then .error
        else
          match if 0 < index.toNat then read32 bytes (index * 4).toInt
            else some (((ofLittleEndian (bytes.take 4)).setWidth 32 + 1) * 4) with
          | none => .outside
          | some start => if start.toNat > stop.toNat then .error else .bytes start (stop - start)) := by
  have hlen : (BitVec.ofNat 32 bytes.length).toNat = bytes.length := by
    rw [BitVec.toNat_ofNat, Nat.mod_eq_of_lt hsize]
  have hsmall : ¬ BitVec.ofNat 32 bytes.length < 4 := by
    rw [BitVec.lt_def, hlen]
    exact Nat.not_lt.mpr h
  have hcount : read32 bytes 0 = some ((ofLittleEndian (bytes.take 4)).setWidth 32) :=
    read32_of_le (Int.le_refl 0) (by omega)
  have hcheck : (index.slt 0 = true ∨ index ≥ (ofLittleEndian (bytes.take 4)).setWidth 32 ∨
      (index + 2) * 4 > BitVec.ofNat 32 bytes.length) ↔ ¬Checked bytes.length (firstCount bytes) index.toNat := by
    have hproduct := toNat_add_mul_four index 2 (by omega)
    rw [slt_zero_iff, ge_iff_le, BitVec.le_def, gt_iff_lt, BitVec.lt_def, hlen]
    show _ ∨ _ ∨ _ < ((index + BitVec.ofNat 32 2) * 4).toNat ↔ _
    rw [hproduct, Checked, firstCount]
    omega
  simp only [streamRange, if_neg hsmall, hcount]
  by_cases hpass : Checked bytes.length (firstCount bytes) index.toNat
  · refine Or.inr ⟨hpass, ?_⟩
    rw [if_neg (mt hcheck.mp (not_not_intro hpass))]
    cases read32 bytes ((index + 1) * 4).toInt with
    | none => rfl
    | some stop =>
      have hstop : stop > BitVec.ofNat 32 bytes.length ↔ stop.toNat > bytes.length := by
        rw [gt_iff_lt, BitVec.lt_def, hlen]
      have hstart := if_congr (zero_slt_iff hpass.1) (Eq.refl (read32 bytes (index * 4).toInt))
        (Eq.refl (some (((ofLittleEndian (bytes.take 4)).setWidth 32 + 1) * 4)))
      exact if_congr hstop rfl (hstart ▸ rfl)
  · exact Or.inl ⟨hpass, if_pos (hcheck.mpr hpass)⟩

/-- An error, where there is no count. -/
theorem streamRange_short (h : bytes.length < 4) (index : BitVec 32) : streamRange bytes index = .error := by
  have hsmall : BitVec.ofNat 32 bytes.length < 4 := by
    rw [BitVec.lt_def, BitVec.toNat_ofNat, Nat.mod_eq_of_lt (by omega)]
    exact h
  simp only [streamRange, if_pos hsmall]

/-- A part that is decoded lies inside of the bytes. -/
theorem le_of_streamRange (hsize : bytes.length < 2 ^ 32) {index start size : BitVec 32}
    (h : streamRange bytes index = .bytes start size) : start.toNat + size.toNat ≤ bytes.length := by
  by_cases hshort : bytes.length < 4
  · rw [streamRange_short hshort] at h
    nomatch h
  rcases streamRange_eq hsize (Nat.le_of_not_lt hshort) index with ⟨-, heq⟩ | ⟨-, heq⟩
  · rw [heq] at h
    nomatch h
  rw [heq] at h
  split at h
  · nomatch h
  rename_i stop _
  split at h
  · nomatch h
  rename_i hstop
  split at h
  · nomatch h
  rename_i first _
  split at h
  · nomatch h
  rename_i hfirst
  obtain ⟨rfl, rfl⟩ := Range.bytes.inj h
  rw [BitVec.toNat_sub_of_le (BitVec.le_def.mpr (Nat.le_of_not_lt hfirst))]
  omega

/-- The offsets are read outside of a blob exactly where the products wrap around. -/
theorem streamRange_outside_iff (blob : Blob) (index : BitVec 32) : streamRange blob.bytes index = .outside ↔ Wraps blob index := by
  have hsize := blob.size
  by_cases hshort : blob.bytes.length < 4
  · rw [streamRange_short hshort]
    exact ⟨nofun, fun hwraps => absurd hwraps.header (Nat.not_le.mpr hshort)⟩
  have hstop := toInt_add_mul_four index 1 (by omega)
  have hstart := toInt_add_mul_four index 0 (by omega)
  have hadd : index + BitVec.ofNat 32 0 = index := BitVec.add_zero _
  rw [hadd] at hstart
  constructor
  · intro h
    rcases streamRange_eq (Nat.lt_trans hsize (by decide)) (Nat.le_of_not_lt hshort) index with ⟨-, heq⟩ | ⟨⟨hindex, hcount, hpass⟩, heq⟩
    · rw [heq] at h
      nomatch h
    refine ⟨Nat.le_of_not_lt hshort, hcount, ?_⟩
    rw [heq] at h
    split at h
    · -- the end of the part is read outside
      rename_i hread
      rw [read32_eq_none_iff, show index + 1 = index + BitVec.ofNat 32 1 from rfl, hstop] at hread
      split at hread <;> omega
    rename_i stop hread
    have hin : 0 ≤ ((index + 1) * 4).toInt ∧ ((index + 1) * 4).toInt + 4 ≤ blob.bytes.length := by
      by_contra hout
      rw [read32_eq_none_iff.mpr hout] at hread
      nomatch hread
    split at h
    · nomatch h
    rename_i hle
    split at h
    · -- its start is read outside: then its end is the count
      rename_i hread'
      by_cases hpos : 0 < index.toNat
      · rw [if_pos hpos, read32_eq_none_iff, hstart] at hread'
        rw [show index + 1 = index + BitVec.ofNat 32 1 from rfl, hstop] at hin
        have hlast : index.toNat = 2 ^ 30 - 1 ∨ index.toNat = 2 ^ 31 - 1 := by
          split at hread' <;> split at hin <;> omega
        have hzero : ((index + 1) * 4).toInt = 0 := by
          rw [show index + 1 = index + BitVec.ofNat 32 1 from rfl, hstop]
          split <;> omega
        rw [hzero, read32_of_le (Int.le_refl 0) (by omega)] at hread
        have hcounts : stop.toNat = firstCount blob.bytes := by
          rw [← Option.some.inj hread]
          rfl
        omega
      · rw [if_neg hpos] at hread'
        nomatch hread'
    · split at h
      · nomatch h
      · nomatch h
  · intro hwraps
    obtain ⟨hheader, hcounted, hcases⟩ := hwraps
    have hpass : Checked blob.bytes.length (firstCount blob.bytes) index.toNat := by
      refine ⟨by omega, hcounted, ?_⟩
      rcases hcases with h | h | ⟨h, -⟩
      · rw [h]
        omega
      · rw [h]
        omega
      · rw [h]
        exact hheader
    rcases streamRange_eq (Nat.lt_trans hsize (by decide)) hheader index with ⟨hnot, -⟩ | ⟨-, heq⟩
    · exact absurd hpass hnot
    rw [heq]
    by_cases hlast : index.toNat = 2 ^ 30 - 1
    · have hle : firstCount blob.bytes ≤ blob.bytes.length := by omega
      have hzero : ((index + 1) * 4).toInt = 0 := by
        rw [show index + 1 = index + BitVec.ofNat 32 1 from rfl, hstop, hlast]
        decide
      have hread : read32 blob.bytes (index * 4).toInt = none := by
        rw [read32_eq_none_iff, hstart, hlast]
        simp
      have hnot : ¬ ((ofLittleEndian (blob.bytes.take 4)).setWidth 32).toNat > blob.bytes.length := Nat.not_lt.mpr hle
      rw [hzero, read32_of_le (Int.le_refl 0) (by omega)]
      show (if ((ofLittleEndian (blob.bytes.take 4)).setWidth 32).toNat > blob.bytes.length then _ else _) = _
      rw [if_neg hnot, if_pos (by omega), hread]
    · have hread : read32 blob.bytes ((index + 1) * 4).toInt = none := by
        rw [read32_eq_none_iff, show index + 1 = index + BitVec.ofNat 32 1 from rfl, hstop]
        rcases hcases with h | h | ⟨h, -⟩
        · simp [h]
        · simp [h]
        · exact absurd h hlast
      rw [hread]

/-- What follows the offsets is safe unless an offset is read outside. -/
theorem safe_iff (blob : Blob) (index : BitVec 32) : Safe blob index ↔ streamRange blob.bytes index ≠ .outside := by
  constructor
  · intro hsafe houtside
    obtain ⟨out, hout, -⟩ := hsafe ⟨fun _ => none, fun _ => 0, fun _ => false⟩ ⟨[], by decide, by decide⟩ ⟨false, [], .nil⟩
    rw [cursorFromBlobStream, houtside] at hout
    nomatch hout
  · intro hne beyond needed cursor
    rw [cursorFromBlobStream]
    rcases hrange : streamRange blob.bytes index with _ | _ | ⟨start, size⟩
    · exact absurd hrange hne
    · exact ⟨_, rfl, Or.inl rfl⟩
    · exact ⟨_, rfl, Or.inr ⟨start.toNat, size.toNat, le_of_streamRange (Nat.lt_trans blob.size (by decide)) hrange, rfl⟩⟩

end StreamAux

/-! ## Reading what was made -/

/-- Every blob of the list is handed to `cql_cursor_from_bytes` as it is. -/
def Handed (blobs : List (List Byte)) : Prop :=
  ∃ stream, makeBlobStream blobs = some stream ∧ ∀ i blob, blobs[i]? = some blob → ∀ (beyond : Beyond) (needed : Shape) (cursor : Cursor needed),
      cursorFromBlobStream beyond stream (BitVec.ofNat 32 i) cursor = some (cursorFromBytes beyond blob cursor)

/-- The size of the buffer stays in 32 bits, and the offsets are found with products that are not negative. -/
structure FitsStream (blobs : List (List Byte)) : Prop where
  sizes : (ByteBuf.open.appendAll (streamChunks blobs)).isSome = true
  few : blobs.length < 2 ^ 29

/-- The size of a stream: the count, the offsets and the blobs. -/
def streamSize (blobs : List (List Byte)) : Nat := 4 * (blobs.length + 1) + blobs.flatten.length

namespace StreamAux

variable {blobs : List (List Byte)} {i : Nat} {b : ByteBuf}

theorem length_bytes32 (v : BitVec 32) : (bytes32 v).length = 4 := littleEndian_length 4 _

theorem ofLittleEndian_bytes32 (v : BitVec 32) : (ofLittleEndian (bytes32 v)).setWidth 32 = v := by
  rw [bytes32, ofLittleEndian_littleEndian 4 (v.setWidth 64) (by rw [BitVec.toNat_setWidth]; omega)]
  exact BitVec.setWidth_setWidth_of_le v (by decide)

/-- An offset is read back where it was written. -/
theorem read32_append {front : List Byte} {v : BitVec 32} {back : List Byte} {offset : Int} (h : offset = front.length) :
    read32 (front ++ bytes32 v ++ back) offset = some v := by
  have hlen := length_bytes32 v
  subst h
  rw [read32_of_le (by omega) (by simp only [List.length_append]; omega), Int.toNat_natCast, List.append_assoc, List.drop_left,
    ← hlen, List.take_left, ofLittleEndian_bytes32]

theorem length_streamOffsets (offset : BitVec 32) (blobs : List (List Byte)) : (streamOffsets offset blobs).length = blobs.length := by
  induction blobs generalizing offset with
  | nil => rfl
  | cons blob blobs ih => rw [streamOffsets, List.length_cons, List.length_cons, ih]

/-- The offsets are where the blobs end. -/
theorem streamOffsets_get {offset : BitVec 32} (h : i < blobs.length) :
    (streamOffsets offset blobs)[i]? = some (offset + BitVec.ofNat 32 (blobs.take (i + 1)).flatten.length) := by
  induction blobs generalizing offset i with
  | nil => nomatch h
  | cons blob blobs ih =>
    rw [streamOffsets]
    cases i with
    | zero => simp
    | succ i =>
      rw [List.getElem?_cons_succ, ih (Nat.lt_of_succ_lt_succ h), List.take_succ_cons, List.flatten_cons, List.length_append,
        BitVec.ofNat_add, BitVec.add_assoc]

/-- The count and the offsets of a stream. -/
def words (blobs : List (List Byte)) : List (BitVec 32) :=
  BitVec.ofNat 32 blobs.length :: streamOffsets ((1 + BitVec.ofNat 32 blobs.length) * 4) blobs

theorem length_words (blobs : List (List Byte)) : (words blobs).length = blobs.length + 1 := by
  rw [words, List.length_cons, length_streamOffsets]

theorem length_flatMap_bytes32 (ws : List (BitVec 32)) : (ws.flatMap bytes32).length = 4 * ws.length := by
  induction ws with
  | nil => rfl
  | cons w ws ih =>
    rw [List.flatMap_cons, List.length_append, length_bytes32, ih, List.length_cons]
    omega

/-- The bytes of a stream. -/
def streamBytes (blobs : List (List Byte)) : List Byte := (words blobs).flatMap bytes32 ++ blobs.flatten

theorem length_streamBytes (blobs : List (List Byte)) : (streamBytes blobs).length = streamSize blobs := by
  rw [streamBytes, List.length_append, length_flatMap_bytes32, length_words, streamSize]

theorem flatten_streamChunks (blobs : List (List Byte)) : (streamChunks blobs).flatten = streamBytes blobs := by
  rw [streamChunks, List.flatten_append, streamBytes]
  rfl

/-- A stream that is made has these bytes. -/
theorem makeBlobStream_eq (blobs : List (List Byte)) :
    makeBlobStream blobs = (ByteBuf.open.appendAll (streamChunks blobs)).map fun _ => streamBytes blobs := by
  rw [makeBlobStream]
  cases h : ByteBuf.open.appendAll (streamChunks blobs) with
  | none => rfl
  | some r =>
    rw [Option.map_some, Option.map_some, appendAll_bytes h, flatten_streamChunks]
    rfl

/-- The words of a stream are read at their places. -/
theorem read32_word {k : Nat} {w : BitVec 32} (h : (words blobs)[k]? = some w) {offset : Int}
    (hoffset : offset = 4 * k) : read32 (streamBytes blobs) offset = some w := by
  obtain ⟨hk, hw⟩ := List.getElem?_eq_some_iff.mp h
  have hsplit : words blobs = (words blobs).take k ++ w :: (words blobs).drop (k + 1) := by
    rw [← hw, List.getElem_cons_drop, List.take_append_drop]
  have hbytes : streamBytes blobs = ((words blobs).take k).flatMap bytes32 ++ bytes32 w ++
      (((words blobs).drop (k + 1)).flatMap bytes32 ++ blobs.flatten) := by
    conv_lhs => rw [streamBytes, hsplit]
    simp
  rw [hbytes]
  refine read32_append ?_
  rw [length_flatMap_bytes32, List.length_take, Nat.min_eq_left (Nat.le_of_lt hk), hoffset]
  rfl

/-! ### The size of the buffer -/

/-- What is used of a buffer has room in it, and its size is a `cql_uint32`. -/
structure Room (b : ByteBuf) : Prop where
  used : b.bytes.length ≤ b.max
  max : b.max < 2 ^ 32

theorem Room.append {r : ByteBuf} {data : List Byte} (h : Room b) (hr : b.append data = some r) : Room r := by
  have hused := h.used
  have hlen : r.bytes.length = b.bytes.length + data.length := by rw [(append_cases hr).1, List.length_append]
  have hroom : r.bytes.length ≤ r.max := by
    rcases (append_cases hr).2 with ⟨hfits, hmax, -⟩ | ⟨-, hmax, -⟩
    · omega
    · omega
  refine ⟨hroom, ?_⟩
  by_cases hfits : data.length ≤ b.max - b.bytes.length
  · rw [ByteBuf.append, if_pos hfits] at hr
    rw [← Option.some.inj hr]
    exact h.max
  · rw [ByteBuf.append, if_neg hfits] at hr
    obtain ⟨hlt, hr⟩ := Option.ite_none_right_eq_some.mp hr
    rw [← Option.some.inj hr]
    exact hlt

/-- The free part of a buffer is about half of its used part at most. -/
structure Slack (b : ByteBuf) : Prop where
  used : b.bytes.length ≤ b.max
  free : 2 * (b.max - b.bytes.length) ≤ b.bytes.length + 2 ^ 22

theorem Slack.append {data : List Byte} (h : Slack b) (hsize : b.bytes.length + data.length < 2 ^ 31) :
    ∃ r, b.append data = some r ∧ r.bytes = b.bytes ++ data ∧ Slack r := by
  have hused := h.used
  have hfree := h.free
  by_cases hfits : data.length ≤ b.max - b.bytes.length
  · refine ⟨_, if_pos hfits, rfl, ?_, ?_⟩
    · simp only [List.length_append]
      omega
    · simp only [List.length_append]
      omega
  · have hmax : (if b.max > 1024 * 1024 then data.length + 200 * 1024 + b.max else data.length + 2 * b.max) < 2 ^ 32 := by
      split <;> omega
    refine ⟨_, (if_neg hfits).trans (if_pos hmax), rfl, ?_, ?_⟩
    · simp only [List.length_append]
      split <;> omega
    · simp only [List.length_append]
      split <;> omega

theorem Slack.appendAll {chunks : List (List Byte)} (h : Slack b)
    (hsize : b.bytes.length + chunks.flatten.length < 2 ^ 31) : (b.appendAll chunks).isSome = true := by
  induction chunks generalizing b with
  | nil => rfl
  | cons data chunks ih =>
    rw [List.flatten_cons, List.length_append] at hsize
    obtain ⟨r, hr, hbytes, hslack⟩ := h.append (show b.bytes.length + data.length < 2 ^ 31 by omega)
    rw [appendAll_cons, hr]
    refine ih hslack ?_
    rw [hbytes, List.length_append]
    omega

/-- A stream that is made is less than 4 GB. -/
theorem streamSize_lt (h : (ByteBuf.open.appendAll (streamChunks blobs)).isSome = true) : streamSize blobs < 2 ^ 32 := by
  obtain ⟨r, hr⟩ := Option.isSome_iff_exists.1 h
  have hroom : Room r := appendAll_keeps Room.append ⟨by decide, by decide⟩ hr
  have hbytes : r.bytes = streamBytes blobs := (appendAll_bytes hr).trans (flatten_streamChunks blobs)
  rw [← length_streamBytes, ← hbytes]
  exact Nat.lt_of_le_of_lt hroom.used hroom.max

/-- A stream of less than 2 GB is made. -/
theorem fitsStream_of_size (h : streamSize blobs < 2 ^ 31) : FitsStream blobs := by
  have hfew : blobs.length < 2 ^ 29 := by
    rw [streamSize] at h
    omega
  refine ⟨Slack.appendAll ⟨by decide, by decide⟩ ?_, hfew⟩
  rw [flatten_streamChunks, length_streamBytes]
  exact Nat.lt_of_le_of_lt (Nat.le_of_eq (Nat.zero_add _)) h

/-! ### The ranges of a stream -/

theorem words_zero (blobs : List (List Byte)) : (words blobs)[0]? = some (BitVec.ofNat 32 blobs.length) := rfl

theorem words_succ (h : i < blobs.length) : (words blobs)[i + 1]? =
    some (BitVec.ofNat 32 (4 * (blobs.length + 1) + (blobs.take (i + 1)).flatten.length)) := by
  have hstart : (1 + BitVec.ofNat 32 blobs.length) * 4 = BitVec.ofNat 32 (4 * (blobs.length + 1)) := by
    rw [Nat.mul_comm, Nat.add_comm blobs.length, BitVec.ofNat_mul, BitVec.ofNat_add]
    rfl
  rw [words, List.getElem?_cons_succ, streamOffsets_get h, hstart, BitVec.ofNat_add]

theorem firstCount_streamBytes (h : streamSize blobs < 2 ^ 32) : firstCount (streamBytes blobs) = blobs.length := by
  have hlen := length_streamBytes blobs
  rw [streamSize] at h hlen
  have hread := read32_word (words_zero blobs) (Int.mul_zero 4).symm
  rw [read32_of_le (Int.le_refl 0) (by omega)] at hread
  have hcount := congrArg BitVec.toNat (Option.some.inj hread)
  rw [BitVec.toNat_ofNat, Nat.mod_eq_of_lt (by omega)] at hcount
  exact hcount

/-- The check passes for the blobs of a stream. -/
theorem checked_made (hsize : streamSize blobs < 2 ^ 32) (hi : i < blobs.length) :
    Checked (streamBytes blobs).length (firstCount (streamBytes blobs)) (BitVec.ofNat 32 i).toNat := by
  have hlen := length_streamBytes blobs
  rw [firstCount_streamBytes hsize, hlen, BitVec.toNat_ofNat]
  rw [streamSize] at hsize ⊢
  refine ⟨?_, ?_, ?_⟩
  · omega
  · omega
  · omega

/-- The part of a stream for a blob: where it starts and its size. -/
theorem streamRange_made (hsize : streamSize blobs < 2 ^ 32) (hfew : blobs.length < 2 ^ 29)
    {blob : List Byte} (hi : blobs[i]? = some blob) : ∃ start size, streamRange (streamBytes blobs) (BitVec.ofNat 32 i) = .bytes start size ∧
      start.toNat = 4 * (blobs.length + 1) + (blobs.take i).flatten.length ∧ size.toNat = blob.length := by
  obtain ⟨hlt, hblob⟩ := List.getElem?_eq_some_iff.mp hi
  have hlen := length_streamBytes blobs
  have htake : (blobs.take (i + 1)).flatten.length = (blobs.take i).flatten.length + blob.length := by
    rw [List.take_add_one, hi, List.flatten_append, List.length_append]
    simp
  have htotal : (blobs.take (i + 1)).flatten.length ≤ blobs.flatten.length := by
    conv_rhs => rw [← List.take_append_drop (i + 1) blobs, List.flatten_append, List.length_append]
    exact Nat.le_add_right _ _
  have hbound := hsize
  rw [streamSize] at hbound
  have hindex : (BitVec.ofNat 32 i).toNat = i := by rw [BitVec.toNat_ofNat, Nat.mod_eq_of_lt (by omega)]
  -- the end of the part
  have hstopOffset : ((BitVec.ofNat 32 i + 1) * 4).toInt = 4 * ((i + 1 : Nat) : Int) := by
    rw [show BitVec.ofNat 32 i + 1 = BitVec.ofNat 32 i + BitVec.ofNat 32 1 from rfl, toInt_add_mul_four _ 1 (by omega), hindex]
    split <;> omega
  have hstop := read32_word (words_succ hlt) hstopOffset
  have hstopNat : (BitVec.ofNat 32 (4 * (blobs.length + 1) + (blobs.take (i + 1)).flatten.length)).toNat =
      4 * (blobs.length + 1) + (blobs.take (i + 1)).flatten.length := by
    rw [BitVec.toNat_ofNat, Nat.mod_eq_of_lt (by omega)]
  -- the start of the part
  have hstart : ∃ start : BitVec 32, start.toNat = 4 * (blobs.length + 1) + (blobs.take i).flatten.length ∧
      (if 0 < (BitVec.ofNat 32 i).toNat then read32 (streamBytes blobs) (BitVec.ofNat 32 i * 4).toInt
        else some (((ofLittleEndian ((streamBytes blobs).take 4)).setWidth 32 + 1) * 4)) = some start := by
    rw [hindex]
    cases i with
    | zero =>
      refine ⟨_, ?_, if_neg (Nat.lt_irrefl 0)⟩
      have hcount := firstCount_streamBytes hsize
      rw [firstCount] at hcount
      show (((ofLittleEndian ((streamBytes blobs).take 4)).setWidth 32 + BitVec.ofNat 32 1) * 4).toNat = _
      rw [toNat_add_mul_four _ 1 (by omega), hcount]
      simp
      omega
    | succ i =>
      have hoffset : (BitVec.ofNat 32 (i + 1) * 4).toInt = 4 * ((i + 1 : Nat) : Int) := by
        have h := toInt_add_mul_four (BitVec.ofNat 32 (i + 1)) 0 (by omega)
        rw [show BitVec.ofNat 32 (i + 1) + BitVec.ofNat 32 0 = BitVec.ofNat 32 (i + 1) from BitVec.add_zero _] at h
        rw [h, hindex]
        split <;> omega
      refine ⟨_, ?_, (if_pos (Nat.succ_pos i)).trans (read32_word (words_succ (Nat.lt_of_succ_lt hlt)) hoffset)⟩
      rw [BitVec.toNat_ofNat, Nat.mod_eq_of_lt (by omega)]
  obtain ⟨start, hstartNat, hstart⟩ := hstart
  have hlarge : (streamBytes blobs).length < 2 ^ 32 := hlen ▸ hsize
  have hheader : 4 ≤ (streamBytes blobs).length := by
    rw [hlen, streamSize]
    omega
  rcases streamRange_eq hlarge hheader (BitVec.ofNat 32 i) with ⟨hnot, -⟩ | ⟨-, heq⟩
  · exact absurd (checked_made hsize hlt) hnot
  rw [heq, hstop, hstart]
  dsimp only
  rw [if_neg (by rw [hstopNat, hlen, streamSize]; omega), if_neg (by rw [hstartNat, hstopNat]; omega)]
  refine ⟨_, _, rfl, hstartNat, ?_⟩
  rw [BitVec.toNat_sub_of_le (by rw [BitVec.le_def, hstartNat, hstopNat]; omega), hstopNat, hstartNat]
  omega

/-- The bytes of the part are those of the blob. -/
theorem slice_streamBytes {blob : List Byte} (hi : blobs[i]? = some blob) :
    ((streamBytes blobs).drop (4 * (blobs.length + 1) + (blobs.take i).flatten.length)).take blob.length = blob := by
  obtain ⟨hlt, hblob⟩ := List.getElem?_eq_some_iff.mp hi
  have hsplit : blobs.flatten = (blobs.take i).flatten ++ (blob ++ (blobs.drop (i + 1)).flatten) := by
    conv_lhs => rw [← List.take_append_drop i blobs, List.flatten_append, ← List.getElem_cons_drop hlt, hblob, List.flatten_cons]
  have hwords : ((words blobs).flatMap bytes32).length = 4 * (blobs.length + 1) := by
    rw [length_flatMap_bytes32, length_words]
  rw [streamBytes, hsplit, ← hwords, ← List.drop_drop, List.drop_left, List.drop_left, List.take_left]

theorem handed_of_fits (h : FitsStream blobs) : Handed blobs := by
  have hsize := streamSize_lt h.sizes
  obtain ⟨r, hr⟩ := Option.isSome_iff_exists.1 h.sizes
  refine ⟨streamBytes blobs, by rw [makeBlobStream_eq, hr, Option.map_some], ?_⟩
  intro i blob hi beyond needed cursor
  obtain ⟨start, size, hrange, hstart, hsizes⟩ := streamRange_made hsize h.few hi
  rw [cursorFromBlobStream, hrange]
  dsimp only
  rw [hstart, hsizes, slice_streamBytes hi]

/-- With too many blobs the offset of the last one is read in front of the stream. -/
theorem fits_of_handed (h : Handed blobs) : FitsStream blobs := by
  obtain ⟨stream, hmake, hall⟩ := h
  rw [makeBlobStream_eq] at hmake
  obtain ⟨r, hr, rfl⟩ := Option.map_eq_some_iff.mp hmake
  have hsome : (ByteBuf.open.appendAll (streamChunks blobs)).isSome = true := Option.isSome_iff_exists.mpr ⟨r, hr⟩
  have hsize := streamSize_lt hsome
  have hbound := hsize
  rw [streamSize] at hbound
  have hlen := length_streamBytes blobs
  refine ⟨hsome, ?_⟩
  by_contra hmany
  have hlt : blobs.length - 1 < blobs.length := by omega
  have hindex : (BitVec.ofNat 32 (blobs.length - 1)).toNat = blobs.length - 1 := by
    rw [BitVec.toNat_ofNat, Nat.mod_eq_of_lt (by omega)]
  have hread : read32 (streamBytes blobs) ((BitVec.ofNat 32 (blobs.length - 1) + 1) * 4).toInt = none := by
    rw [read32_eq_none_iff, show BitVec.ofNat 32 (blobs.length - 1) + 1 = BitVec.ofNat 32 (blobs.length - 1) + BitVec.ofNat 32 1 from rfl,
      toInt_add_mul_four _ 1 (by omega), hindex]
    split <;> omega
  have houtside : streamRange (streamBytes blobs) (BitVec.ofNat 32 (blobs.length - 1)) = .outside := by
    have hlarge : (streamBytes blobs).length < 2 ^ 32 := hlen ▸ hsize
    have hheader : 4 ≤ (streamBytes blobs).length := by
      rw [hlen, streamSize]
      omega
    rcases streamRange_eq hlarge hheader (BitVec.ofNat 32 (blobs.length - 1)) with
      ⟨hnot, -⟩ | ⟨-, heq⟩
    · exact absurd (checked_made hsize hlt) hnot
    · rw [heq, hread]
  have hout := hall (blobs.length - 1) _ (List.getElem?_eq_getElem hlt) ⟨fun _ => none, fun _ => 0, fun _ => false⟩
    ⟨[], by decide, by decide⟩ ⟨false, [], .nil⟩
  rw [cursorFromBlobStream, houtside] at hout
  nomatch hout

end StreamAux

open StreamAux in
/-- Reading from a stream is safe exactly where the products do not wrap around; a stream that was made gives each of its blobs
exactly if the buffer's size stays in 32 bits and there are less than `2 ^ 29` blobs, as it is for every stream of less than 2 GB. -/
theorem blobStream_iff (blob : Blob) (index : BitVec 32) (blobs : List (List Byte)) :
    (Safe blob index ↔ ¬Wraps blob index) ∧ (Handed blobs ↔ FitsStream blobs) ∧ (2 ^ 31 ≤ streamSize blobs ∨ Handed blobs) := by
  refine ⟨?_, ⟨fits_of_handed, handed_of_fits⟩, ?_⟩
  · rw [safe_iff, Ne, streamRange_outside_iff]
  · by_cases hsize : streamSize blobs < 2 ^ 31
    · exact Or.inr (handed_of_fits (fitsStream_of_size hsize))
    · exact Or.inl (Nat.le_of_not_lt hsize)

/-- Four bytes that count more blobs than can be. -/
def fullCount : Blob := ⟨[0xff, 0xff, 0xff, 0xff], by decide⟩

/-- At index `2 ^ 30 - 2` the product of the check is 0, and the offset of the read is -4. -/
theorem safe_false : ¬Safe fullCount 0x3ffffffe := by
  intro hsafe
  exact (StreamAux.safe_iff fullCount 0x3ffffffe).mp hsafe (by decide)

/-! ## Streams of rows -/

/-- The bytes of a row. -/
def rowBytes {sh : Shape} (row : Row sh) : List Byte := (cursorToBytebuf row).elim [] (·.bytes)

open StreamAux DynAux in
/-- From a stream of rows a cursor, also one of another shape, gets each row, adapted to its columns, or every read is an error. -/
theorem streamed_rows (beyond : Beyond) {sh : Shape} (needed : Shape) (rows : List (Row sh)) (hrows : ∀ row ∈ rows, Fitting row)
    (hstream : FitsStream (rows.map rowBytes)) : ∃ stream, makeBlobStream (rows.map rowBytes) = some stream ∧
      ∀ i row, rows[i]? = some row → ∀ cursor : Cursor needed, (cursorFromBlobStream beyond stream (BitVec.ofNat 32 i) cursor).map outcome =
        some (if readable needed.columns sh.columns then some (adapt needed.columns row.values) else none) := by
  obtain ⟨stream, hmake, hall⟩ := handed_of_fits hstream
  refine ⟨stream, hmake, fun i row hi cursor => ?_⟩
  rw [hall i (rowBytes row) (by rw [List.getElem?_map, hi]; rfl), Option.map_some]
  obtain ⟨b, hb, hbytes⟩ := Option.map_eq_some_iff.1 ((written_iff row).2 (hrows row (List.mem_of_getElem? hi)))
  have hread := cursorFromBytes_eq row needed
  rw [← hbytes, show b.bytes = rowBytes row by rw [rowBytes, hb]; rfl] at hread
  have h := follows_cursorFromBytes beyond (rowBytes row) cursor
  split
  · next hreadable => rw [h.ok _ (hread.trans (if_pos hreadable))]
  · next hnot => rw [h.error (hread.trans (if_neg hnot))]

/-- A nullable number and a bool. -/
def flagged : Shape := ⟨[⟨.int32, false⟩, ⟨.bool, true⟩], by decide, by decide⟩

/-- A row of `flagged`. -/
def flaggedRow (n : Option (BitVec 32)) (b : Bool) : Row flagged where
  values := [n.map .int32, some (.bool b)]
  fits := by
    refine .cons ?_ (.cons ⟨rfl, trivial⟩ .nil)
    cases n with
    | none => rfl
    | some _ => exact ⟨rfl, trivial⟩

/-- Two rows, read with a cursor that has a text as well. -/
theorem streamed_rows_five :
    ∃ stream, makeBlobStream [rowBytes (flaggedRow (some 5) true), rowBytes (flaggedRow none false)] = some stream ∧
    ∀ cursor : Cursor ⟨[⟨.int32, false⟩, ⟨.bool, true⟩, ⟨.string, false⟩], by decide, by decide⟩,
      (cursorFromBlobStream ⟨fun _ => none, fun _ => 0, fun _ => false⟩ stream 0 cursor).map outcome =
        some (some [some (.int32 5), some (.bool true), none]) ∧
      (cursorFromBlobStream ⟨fun _ => none, fun _ => 0, fun _ => false⟩ stream 1 cursor).map outcome =
        some (some [none, some (.bool false), none]) := by
  have hrows : ∀ row ∈ [flaggedRow (some 5) true, flaggedRow none false], Fitting row := by
    intro row hrow
    rcases List.mem_cons.mp hrow with rfl | hrow
    · exact ⟨by decide +kernel, fun _ => by decide +kernel, fun _ => by decide +kernel, trivial⟩
    · obtain rfl := List.mem_singleton.mp hrow
      exact ⟨by decide +kernel, nofun, nofun, trivial⟩
  obtain ⟨stream, hmake, h⟩ := streamed_rows ⟨fun _ => none, fun _ => 0, fun _ => false⟩
    ⟨[⟨.int32, false⟩, ⟨.bool, true⟩, ⟨.string, false⟩], by decide, by decide⟩ [flaggedRow (some 5) true, flaggedRow none false] hrows
    (StreamAux.fitsStream_of_size (by decide +kernel))
  exact ⟨stream, hmake, fun cursor => ⟨h 0 _ rfl cursor, h 1 _ rfl cursor⟩⟩

end CgSql.DynCursor
