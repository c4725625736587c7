import CgSql.LuaSerial

/-!
# The two codecs piece by piece

Varints, doubles, strings and bits: what C and Lua write is the same, and both read it back.
-/

namespace CgSql.Serial

open Varint

namespace SerialAux

variable {w i : Nat} {bytes bits : List Byte}

/-! ## Varints -/

set_option maxRecDepth 4000 in
/-- The high bit of a byte. -/
theorem and_high (b : Byte) : b &&& 0x80 = 0 ↔ b.toNat < 128 := by
  have h : ∀ n : Fin 256, BitVec.ofNat 8 n &&& 0x80 = 0 ↔ n.val < 128 := by decide
  have hb := h ⟨b.toNat, b.isLt⟩
  simpa using hb

/-- The low bits of an integer as a byte. -/
theorem low_bits (i : BitVec w) (hw : 8 ≤ w) : (i &&& 0x7f).setWidth 8 = BitVec.ofNat 8 (i.toNat % 128) := by
  refine BitVec.eq_of_toNat_eq ?_
  have h127 : (0x7f : BitVec w).toNat = 127 := by
    show 127 % 2 ^ w = 127
    exact Nat.mod_eq_of_lt (Nat.lt_of_lt_of_le (by decide : 127 < 2 ^ 8) (Nat.pow_le_pow_right (by decide) hw))
  have hand : (i &&& 0x7f).toNat = i.toNat % 128 := by
    rw [BitVec.toNat_and, h127]
    exact Nat.and_two_pow_sub_one_eq_mod i.toNat 7
  rw [BitVec.toNat_setWidth, hand, BitVec.toNat_ofNat]

/-- The same with the high bit set. -/
theorem low_bits_or (i : BitVec w) (hw : 8 ≤ w) : (i &&& 0x7f).setWidth 8 ||| 0x80 = BitVec.ofNat 8 (i.toNat % 128 + 128) := by
  have h : ∀ n : Fin 128, BitVec.ofNat 8 n ||| 0x80 = BitVec.ofNat 8 (n + 128) := by decide
  rw [low_bits i hw]
  exact h ⟨i.toNat % 128, Nat.mod_lt _ (by decide)⟩

theorem toNat_shift (i : BitVec w) : (i >>> 7).toNat = i.toNat / 128 := by
  rw [BitVec.toNat_ushiftRight, Nat.shiftRight_eq_div_pow]

/-- C writes the bytes of the number. -/
theorem writeVarint_eq (hw : 8 ≤ w) (i : BitVec w) : writeVarint i = encode i.toNat := by
  induction i using writeVarint.induct with
  | case1 i _ h =>
    have hlt : i.toNat < 128 := by
      have h0 := congrArg BitVec.toNat h
      rw [toNat_shift] at h0
      simp only [BitVec.ofNat_eq_ofNat, BitVec.toNat_ofNat, Nat.zero_mod] at h0
      omega
    rw [writeVarint, encode, if_pos hlt]
    have h' : i >>> 7 = 0 := h
    simp only [h', if_true, low_bits i hw, Nat.mod_eq_of_lt hlt]
  | case2 i _ h ih =>
    have h' : ¬i >>> 7 = 0 := h
    have hge : ¬i.toNat < 128 := by
      intro hlt
      refine h' (BitVec.eq_of_toNat_eq ?_)
      rw [toNat_shift]
      simp only [BitVec.ofNat_eq_ofNat, BitVec.toNat_ofNat, Nat.zero_mod]
      omega
    have ih' : writeVarint (i >>> 7) = encode (i >>> 7).toNat := ih
    rw [writeVarint, encode, if_neg hge]
    simp only [h', if_false, low_bits_or i hw, ih', toNat_shift]

/-- Numbers below `2 ^ 63` are positive when they are not zero. -/
theorem slt_shift (x : BitVec 64) : (0#64).slt (x >>> 7) = true ↔ x.toNat / 128 ≠ 0 := by
  rw [BitVec.slt_iff_toInt_lt, BitVec.toInt_eq_toNat_cond, BitVec.toInt_eq_toNat_cond, toNat_shift]
  have := x.isLt
  simp only [BitVec.toNat_ofNat, Nat.zero_mod]
  split
  · split
    · omega
    · omega
  · omega

/-- After its first byte the loop of Lua goes on as long as bits are left. -/
theorem varintEncodeLoop_eq (n : Nat) : ∀ (x : BitVec 64) (result : List Byte), x.toNat ≤ n →
    result = [] ∨ (0#64).slt x = true → varintEncodeLoop x result = result ++ encode x.toNat := by
  induction n using Nat.strongRecOn with
  | ind n ih =>
    intro x result hle hgo
    rw [varintEncodeLoop, if_pos hgo.symm]
    by_cases hx : x.toNat / 128 = 0
    · have hstop : (0#64).slt (x >>> 7) = false := Bool.eq_false_iff.2 fun h => (slt_shift x).1 h hx
      rw [varintEncodeLoop, if_neg (by simp [hstop])]
      simp only [hstop, Bool.false_eq_true, if_false]
      rw [low_bits x (by decide), encode, if_pos (by omega), Nat.mod_eq_of_lt (by omega)]
    · have hmore : (0#64).slt (x >>> 7) = true := (slt_shift x).2 hx
      simp only [hmore, if_true]
      have hbyte : (x &&& 0x7F ||| 0x80).setWidth 8 = BitVec.ofNat 8 (x.toNat % 128 + 128) := by
        rw [BitVec.setWidth_or]
        exact low_bits_or x (by decide)
      rw [ih (x >>> 7).toNat (by rw [toNat_shift]; omega) (x >>> 7) _ (Nat.le_refl _) (Or.inr hmore), hbyte, toNat_shift,
        List.append_assoc, List.singleton_append]
      conv_rhs => rw [encode, if_neg (by omega)]

/-- Lua writes the bytes of the number. -/
theorem varintEncode_eq (x : BitVec 64) : varintEncode x = encode x.toNat := by
  rw [varintEncode, varintEncodeLoop_eq x.toNat x [] (Nat.le_refl _) (Or.inl rfl), List.nil_append]

/-- Both read varints alike. -/
theorem varintDecodeLoop_eq (lim shift : Nat) (result : BitVec 64) (x : List Byte) :
    varintDecodeLoop lim result shift x = Varint.read lim shift result x := by
  induction lim generalizing shift result x with
  | zero => rfl
  | succ lim ih =>
    rcases x with _ | ⟨b, rest⟩
    · rfl
    have hlow : b.setWidth 64 &&& 0x7F = (b &&& 0x7f).setWidth 64 := by
      rw [BitVec.setWidth_and]
      rfl
    rw [varintDecodeLoop, Varint.read, hlow]
    simp only [and_high b, ih]

/-! ## Zigzag -/

theorem luaZigzag64_eq (x : BitVec 64) : luaZigzag64 x = zigzag x := by
  unfold luaZigzag64 zigzag
  rw [sshiftRight_eq]
  have hslt : x.slt 0 = x.msb := BitVec.slt_zero_eq_msb
  rw [hslt]
  rcases x.msb with _ | _
  · simp
  · rw [if_pos rfl, if_pos rfl, BitVec.xor_comm]
    rfl

theorem luaUnzigzag_eq (x : BitVec 64) : luaUnzigzag x = unzigzag x := rfl

/-- The bits of a sign. -/
theorem getLsbD_sign (w : Nat) (b : Bool) (j : Nat) : (if b then BitVec.allOnes w else 0#w).getLsbD j = (decide (j < w) && b) := by
  rcases b with _ | _
  · rw [if_neg Bool.false_ne_true, BitVec.getLsbD_zero, Bool.and_false]
  · rw [if_pos rfl, BitVec.getLsbD_allOnes, Bool.and_true]

/-- The code of a number of 32 bits is the same in 64. -/
theorem zigzag_signExtend (v : BitVec 32) : zigzag (v.signExtend 64) = (zigzag v).setWidth 64 := by
  refine BitVec.eq_of_getLsbD_eq fun j hj => ?_
  have hmsb : (v.signExtend 64).msb = v.msb := by
    rw [BitVec.msb_signExtend]
    simp
  unfold zigzag
  rw [sshiftRight_eq, sshiftRight_eq, hmsb, BitVec.getLsbD_xor, BitVec.getLsbD_setWidth, BitVec.getLsbD_xor,
    BitVec.getLsbD_shiftLeft, BitVec.getLsbD_shiftLeft, BitVec.getLsbD_signExtend, getLsbD_sign, getLsbD_sign]
  have hj2 : j - 1 < 64 := by omega
  by_cases h32 : j < 32
  · have hj1 : j - 1 < 32 := by omega
    simp only [h32, hj, hj1, hj2, decide_true, Bool.true_and, if_true]
  · have hj0 : ¬j < 1 := by omega
    have hbit : (if j - 1 < 32 then v.getLsbD (j - 1) else v.msb) = v.msb := by
      split
      · rw [BitVec.msb_eq_getLsbD_last]
        congr 1
        omega
      · rfl
    simp only [h32, hj, hj0, hj2, hbit, decide_true, decide_false, Bool.true_and, Bool.false_and, Bool.not_false, Bool.xor_self]

theorem luaZigzag32_eq (v : BitVec 32) : luaZigzag32 (v.signExtend 64) = (zigzag v).setWidth 64 := by
  unfold luaZigzag32
  rw [luaZigzag64_eq, zigzag_signExtend]
  refine BitVec.eq_of_getLsbD_eq fun j hj => ?_
  have hmask : (0xFFFFFFFF : BitVec 64) = (BitVec.allOnes 32).setWidth 64 := by decide
  rw [hmask, BitVec.getLsbD_and, BitVec.getLsbD_setWidth, BitVec.getLsbD_setWidth, BitVec.getLsbD_allOnes]
  by_cases h32 : j < 32
  · simp [h32, hj]
  · have hbit : (zigzag v).getLsbD j = false := BitVec.getLsbD_of_ge _ _ (by omega)
    simp [h32, hbit]

/-- What Lua writes for an INT is what C writes. -/
theorem encode32_eq (v : BitVec 32) : varintEncode (luaZigzag32 (v.signExtend 64)) = writeVarint (zigzag v) := by
  rw [varintEncode_eq, luaZigzag32_eq, writeVarint_eq (by decide), BitVec.toNat_setWidth,
    Nat.mod_eq_of_lt (Nat.lt_trans (zigzag v).isLt (by decide))]

/-- The same for a LONG INT. -/
theorem encode64_eq (v : BitVec 64) : varintEncode (luaZigzag64 v) = writeVarint (zigzag v) := by
  rw [varintEncode_eq, luaZigzag64_eq, writeVarint_eq (by decide)]

/-- C reads an INT back. -/
theorem readVarint32_write (v : BitVec 32) (rest : List Byte) : readVarint32 (writeVarint (zigzag v) ++ rest) = some (v, rest) := by
  have hlt : (zigzag v).toNat < 128 ^ (4 + 1) := Nat.lt_trans (zigzag v).isLt (by decide)
  unfold readVarint32
  rw [writeVarint_eq (by decide)]
  have h := read_encode_zero (w := 32) hlt rest
  rw [BitVec.ofNat_toNat, BitVec.setWidth_eq] at h
  exact (congrArg (Option.map _) h).trans (by simp [unzigzag_zigzag])

/-- C reads a LONG INT back. -/
theorem readVarint64_write (v : BitVec 64) (rest : List Byte) : readVarint64 (writeVarint (zigzag v) ++ rest) = some (v, rest) := by
  have hlt : (zigzag v).toNat < 128 ^ (9 + 1) := Nat.lt_trans (zigzag v).isLt (by decide)
  unfold readVarint64
  rw [writeVarint_eq (by decide)]
  have h := read_encode_zero (w := 64) hlt rest
  rw [BitVec.ofNat_toNat, BitVec.setWidth_eq] at h
  exact (congrArg (Option.map _) h).trans (by simp [unzigzag_zigzag])

/-- Lua reads an INT back. -/
theorem varintDecode32_write (v : BitVec 32) (rest : List Byte) :
    varintDecode 5 (writeVarint (zigzag v) ++ rest) = some (v.signExtend 64, rest) := by
  have hlt : (zigzag v).toNat < 128 ^ (4 + 1) := Nat.lt_trans (zigzag v).isLt (by decide)
  unfold varintDecode
  rw [varintDecodeLoop_eq, writeVarint_eq (by decide)]
  have h := read_encode_zero (w := 64) hlt rest
  have hback : unzigzag ((zigzag v).setWidth 64) = v.signExtend 64 := by
    rw [← zigzag_signExtend, unzigzag_zigzag]
  exact (congrArg (Option.map _) h).trans (by simp [luaUnzigzag_eq, hback])

/-- Lua reads a LONG INT back. -/
theorem varintDecode64_write (v : BitVec 64) (rest : List Byte) : varintDecode 10 (writeVarint (zigzag v) ++ rest) = some (v, rest) := by
  have hlt : (zigzag v).toNat < 128 ^ (9 + 1) := Nat.lt_trans (zigzag v).isLt (by decide)
  unfold varintDecode
  rw [varintDecodeLoop_eq, writeVarint_eq (by decide)]
  have h := read_encode_zero (w := 64) hlt rest
  rw [BitVec.ofNat_toNat, BitVec.setWidth_eq] at h
  exact (congrArg (Option.map _) h).trans (by simp [luaUnzigzag_eq, unzigzag_zigzag])

/-! ## Doubles, strings and blobs -/

/-- A value is its low byte and the others. -/
theorem setWidth_split (v : BitVec 64) : (v >>> 8) <<< 8 ||| (v.setWidth 8).setWidth 64 = v := by
  refine BitVec.eq_of_getLsbD_eq fun j hj => ?_
  rw [BitVec.getLsbD_or, BitVec.getLsbD_shiftLeft, BitVec.getLsbD_ushiftRight, BitVec.getLsbD_setWidth, BitVec.getLsbD_setWidth]
  by_cases h8 : j < 8
  · simp [h8, hj]
  · have : 8 + (j - 8) = j := by omega
    simp [h8, hj, this]

theorem littleEndian_length (n : Nat) (v : BitVec 64) : (littleEndian n v).length = n := by
  induction n generalizing v with
  | zero => rfl
  | succ n ih => rw [littleEndian, List.length_cons, ih]

/-- The bytes of a value give it back. -/
theorem ofLittleEndian_littleEndian (n : Nat) (v : BitVec 64) (h : v.toNat < 2 ^ (8 * n)) : ofLittleEndian (littleEndian n v) = v := by
  induction n generalizing v with
  | zero =>
    refine BitVec.eq_of_toNat_eq ?_
    have h0 : v.toNat = 0 := by simpa using h
    rw [h0]
    rfl
  | succ n ih =>
    have hshift : (v >>> 8).toNat < 2 ^ (8 * n) := by
      rw [BitVec.toNat_ushiftRight, Nat.shiftRight_eq_div_pow, Nat.div_lt_iff_lt_mul (by decide), ← Nat.pow_add]
      exact h
    have hrest := ih (v >>> 8) hshift
    unfold ofLittleEndian at hrest ⊢
    rw [littleEndian, List.foldr_cons, hrest, setWidth_split]

/-- Both read a double back. -/
theorem take_littleEndian (v : BitVec 64) (rest : List Byte) :
    8 ≤ (littleEndian 8 v ++ rest).length ∧ ofLittleEndian ((littleEndian 8 v ++ rest).take 8) = v ∧
      (littleEndian 8 v ++ rest).drop 8 = rest := by
  have hlen := littleEndian_length 8 v
  refine ⟨by rw [List.length_append, hlen]; omega, ?_, ?_⟩
  · rw [List.take_left' hlen]
    exact ofLittleEndian_littleEndian 8 v v.isLt
  · exact List.drop_left' hlen

theorem readDouble_write (v : BitVec 64) (rest : List Byte) : readDouble (littleEndian 8 v ++ rest) = some (v, rest) := by
  obtain ⟨hlen, htake, hdrop⟩ := take_littleEndian v rest
  rw [readDouble, inlineBytes, if_pos hlen, Option.map_some, htake, hdrop]

theorem unpackD_write (v : BitVec 64) (rest : List Byte) : unpackD (littleEndian 8 v ++ rest) = .ok (v, rest) := by
  obtain ⟨hlen, htake, hdrop⟩ := take_littleEndian v rest
  rw [unpackD, if_pos hlen, htake, hdrop]

/-- Bytes without NUL end at the NUL that follows. -/
theorem takeWhile_nul (h : 0 ∉ bytes) (rest : List Byte) :
    (bytes ++ 0 :: rest).takeWhile (· ≠ 0) = bytes ∧ (bytes ++ 0 :: rest).dropWhile (· ≠ 0) = 0 :: rest := by
  have hall : ∀ b ∈ bytes, decide (b ≠ 0) = true := by
    intro b hb
    have : b ≠ 0 := fun h0 => h (h0 ▸ hb)
    simpa using this
  constructor
  · rw [List.takeWhile_append_of_pos hall]
    simp
  · rw [List.dropWhile_append_of_pos hall]
    simp

/-- Both read a string back. -/
theorem inlineStr_write (h : 0 ∉ bytes) (rest : List Byte) : inlineStr (bytes ++ 0 :: rest) = some (bytes, rest) := by
  obtain ⟨htake, hdrop⟩ := takeWhile_nul h rest
  rw [inlineStr, if_pos (by simp), htake, hdrop]
  rfl

theorem unpackZ_write (h : 0 ∉ bytes) (rest : List Byte) : unpackZ (bytes ++ 0 :: rest) = .ok (bytes, rest) := by
  obtain ⟨htake, hdrop⟩ := takeWhile_nul h rest
  rw [unpackZ, if_pos (by simp), htake, hdrop]
  rfl

/-- Both read the bytes of a blob back. -/
theorem inlineBytes_write (bytes rest : List Byte) : inlineBytes (bytes ++ rest) bytes.length = some (bytes, rest) := by
  rw [inlineBytes, if_pos (by simp), List.take_left, List.drop_left]

/-- Sizes of blobs in 32 and in 64 bits. -/
theorem size_signExtend {n : Nat} (h : n < 2 ^ 31) : (BitVec.ofNat 32 n).signExtend 64 = BitVec.ofNat 64 n := by
  have hmsb : (BitVec.ofNat 32 n).msb = false := by
    rw [BitVec.msb_eq_false_iff_two_mul_lt, BitVec.toNat_ofNat, Nat.mod_eq_of_lt (by omega)]
    omega
  rw [BitVec.signExtend_eq_setWidth_of_msb_false hmsb]
  refine BitVec.eq_of_toNat_eq ?_
  rw [BitVec.toNat_setWidth, BitVec.toNat_ofNat, BitVec.toNat_ofNat, Nat.mod_eq_of_lt (by omega : n < 2 ^ 32)]

theorem unpackC_write (h : bytes.length < 2 ^ 31) (rest : List Byte) :
    unpackC (bytes ++ rest) (BitVec.ofNat 64 bytes.length) = .ok (bytes, rest) := by
  have hnat : (BitVec.ofNat 64 bytes.length).toNat = bytes.length := by
    rw [BitVec.toNat_ofNat, Nat.mod_eq_of_lt (by omega)]
  have hslt : (BitVec.ofNat 64 bytes.length).slt 0 = false := by
    have hzero : (BitVec.ofNat 64 bytes.length).slt 0 = (BitVec.ofNat 64 bytes.length).msb := BitVec.slt_zero_eq_msb
    rw [hzero, BitVec.msb_eq_false_iff_two_mul_lt, hnat]
    omega
  rw [unpackC, hslt, if_neg Bool.false_ne_true, hnat, if_pos (by simp), List.take_left, List.drop_left]

/-! ## Bits -/

/-- A mask of one bit. -/
theorem mask_eq (k : Nat) : (1 : Byte) <<< k = BitVec.twoPow 8 k := rfl

/-- A byte with a mask of one bit. -/
theorem and_mask (b : Byte) {k : Nat} (hk : k < 8) : b &&& (1 : Byte) <<< k ≠ 0 ↔ b.getLsbD k = true := by
  rw [mask_eq, BitVec.and_twoPow]
  rcases hb : b.getLsbD k with _ | _
  · simp
  · simp only [if_true, ne_eq, iff_true]
    intro h0
    have hbit := congrArg (fun v : Byte => v.getLsbD k) h0
    simp [hk] at hbit

/-- A bit of a vector of bytes. -/
def bit (bits : List Byte) (i : Nat) : Bool := (bits.getD (i / 8) 0).getLsbD (i % 8)

theorem getBit?_eq (h : i / 8 < bits.length) : getBit? bits i = some (bit bits i) := by
  have hmod : i % 8 < 8 := Nat.mod_lt i (by decide)
  unfold getBit? bit
  rw [List.getElem?_eq_getElem h, Option.map_some, List.getD_eq_getElem?_getD, List.getElem?_eq_getElem h, Option.getD_some]
  have hiff := and_mask bits[i / 8] hmod
  rw [Option.some.injEq, Bool.eq_iff_iff, decide_eq_true_iff]
  exact hiff

theorem luaGetBit_eq (h : i / 8 < bits.length) : luaGetBit bits i = some (bit bits i) := by
  have hmod : i % 8 < 8 := Nat.mod_lt i (by decide)
  unfold luaGetBit bit
  rw [if_neg (by omega)]
  have hiff := and_mask (bits.getD (i / 8) 0) hmod
  rw [Option.some.injEq, Bool.eq_iff_iff, decide_eq_true_iff]
  exact hiff

@[simp] theorem length_setBit (bits : List Byte) (i : Nat) : (setBit bits i).length = bits.length := by
  simp [setBit]

/-- A bit that is set is set, and the others are as they were. -/
theorem bit_setBit (h : i / 8 < bits.length) (j : Nat) : bit (setBit bits i) j = (bit bits j || decide (j = i)) := by
  have hmod : i % 8 < 8 := Nat.mod_lt i (by decide)
  unfold bit setBit
  rw [List.getD_eq_getElem?_getD, List.getElem?_modify, List.getD_eq_getElem?_getD]
  by_cases hbyte : i / 8 = j / 8
  · rw [← hbyte, List.getElem?_eq_getElem h]
    simp only [Option.map_eq_map, Option.map_some, Option.getD_some, if_true]
    have hkey : (BitVec.twoPow 8 (i % 8)).getLsbD (j % 8) = decide (j = i) := by
      rw [BitVec.getLsbD_twoPow]
      have : (i % 8 = j % 8) ↔ j = i := by omega
      simp [hmod, this]
    rw [mask_eq, BitVec.getLsbD_or, hkey]
  · have hne : j ≠ i := fun h => hbyte (by rw [h])
    simp [hbyte, hne]

@[simp] theorem bit_zeros (n j : Nat) : bit (List.replicate n 0) j = false := by
  unfold bit
  have hzero : (List.replicate n (0 : Byte)).getD (j / 8) 0 = 0 := by
    rw [List.getD_eq_getElem?_getD, List.getElem?_replicate]
    split
    · rfl
    · rfl
  rw [hzero]
  simp

/-- The bits of a type's counts fit the vector. -/
theorem div_lt_bytes {total : Nat} (h : i < total) : i / 8 < (total + 7) / 8 := by omega

end SerialAux

end CgSql.Serial
