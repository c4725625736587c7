import Mathlib.Algebra.Order.Ring.Int
import Mathlib.Data.BitVec

/-!
# Variable-length integers

Integers as bytes of seven bits each, lowest first, where every byte but the last has its high bit set, and the zigzag code that
makes small negative numbers small. Bytes and integers are bit vectors.
-/

namespace Varint

variable {n m w : Nat}

/-- Bytes. -/
abbrev Byte := BitVec 8

/-! ## Bytes of a number -/

/-- The bytes of a number. -/
def encode (n : Nat) : List Byte :=
  if n < 128 then [BitVec.ofNat 8 n] else BitVec.ofNat 8 (n % 128 + 128) :: encode (n / 128)
termination_by n
decreasing_by omega

/-- Read at most `limit` bytes into the bits of `result` from `offset` on. -/
def read {w : Nat} : Nat → Nat → BitVec w → List Byte → Option (BitVec w × List Byte)
  | 0, _, _, _ => none
  | _ + 1, _, _, [] => none
  | limit + 1, offset, result, b :: rest =>
    let result := result ||| ((b &&& 0x7f).setWidth w <<< offset)
    if b &&& 0x80 = 0 then some (result, rest) else read limit (offset + 7) result rest

/-- The number of bytes of a number below `128 ^ k`. -/
theorem encode_length {k : Nat} (h : n < 128 ^ (k + 1)) : (encode n).length ≤ k + 1 := by
  induction k generalizing n with
  | zero =>
    rw [encode, if_pos (by simpa using h)]
    simp
  | succ k ih =>
    rw [encode]
    split
    · simp
    · rw [List.length_cons]
      have := ih (n := n / 128) (by rw [Nat.div_lt_iff_lt_mul (by decide)]; rw [Nat.pow_succ] at h; exact h)
      omega

/-- The seven low bits of a byte below 128, and its high bit. -/
theorem low_byte (h : m < 128) : BitVec.ofNat 8 m &&& 0x7f = BitVec.ofNat 8 m ∧ BitVec.ofNat 8 m &&& 0x80 = 0 := by
  have hm : ∀ m : Fin 128, BitVec.ofNat 8 m &&& 0x7f = BitVec.ofNat 8 m ∧ BitVec.ofNat 8 m &&& 0x80 = 0 := by decide
  exact hm ⟨m, h⟩

/-- The same of a byte from 128 on. -/
theorem high_byte (h : m < 128) : BitVec.ofNat 8 (m + 128) &&& 0x7f = BitVec.ofNat 8 m ∧ BitVec.ofNat 8 (m + 128) &&& 0x80 ≠ 0 := by
  have hm : ∀ m : Fin 128, BitVec.ofNat 8 (m + 128) &&& 0x7f = BitVec.ofNat 8 m ∧ BitVec.ofNat 8 (m + 128) &&& 0x80 ≠ 0 := by decide
  exact hm ⟨m, h⟩

/-- A byte as a number of another width. -/
theorem setWidth_byte (h : m < 256) : (BitVec.ofNat 8 m).setWidth w = BitVec.ofNat w m := by
  refine BitVec.eq_of_toNat_eq ?_
  simp [Nat.mod_eq_of_lt h]

/-- A number is its low seven bits and the others. -/
theorem ofNat_split (w n : Nat) : BitVec.ofNat w (n % 128) ||| BitVec.ofNat w (n / 128) <<< 7 = BitVec.ofNat w n := by
  refine BitVec.eq_of_getLsbD_eq fun i hi => ?_
  simp only [BitVec.getLsbD_or, BitVec.getLsbD_ofNat, BitVec.getLsbD_shiftLeft, hi, decide_true, Bool.true_and]
  have hmod : (n % 128).testBit i = (decide (i < 7) && n.testBit i) := Nat.testBit_mod_two_pow n 7 i
  have hdiv : (n / 128).testBit (i - 7) = n.testBit (i - 7 + 7) := Nat.testBit_div_two_pow (n := 7) n (i - 7)
  rw [hmod, hdiv]
  by_cases h7 : i < 7
  · simp [h7]
  · have : i - 7 + 7 = i := by omega
    have hlt : i - 7 < w := by omega
    simp [h7, this, hlt]

/-- Reading what was written gives the number, in the bits from the offset on, and leaves what follows. -/
theorem read_encode {limit : Nat} (h : n < 128 ^ (limit + 1)) (offset : Nat) (result : BitVec w) (rest : List Byte) :
    read (limit + 1) offset result (encode n ++ rest) = some (result ||| BitVec.ofNat w n <<< offset, rest) := by
  induction limit generalizing n offset result with
  | zero =>
    have hn : n < 128 := by simpa using h
    obtain ⟨hlow, hhigh⟩ := low_byte hn
    rw [encode, if_pos hn, List.singleton_append, read, if_pos hhigh, hlow, setWidth_byte (by omega)]
  | succ limit ih =>
    rw [encode]
    split
    · rename_i hn
      obtain ⟨hlow, hhigh⟩ := low_byte hn
      rw [List.singleton_append, read, if_pos hhigh, hlow, setWidth_byte (by omega)]
    · obtain ⟨hlow, hhigh⟩ := high_byte (Nat.mod_lt n (by decide : 0 < 128))
      have hdiv : n / 128 < 128 ^ (limit + 1) := by
        rw [Nat.div_lt_iff_lt_mul (by decide), ← Nat.pow_succ]
        exact h
      rw [List.cons_append, read, if_neg hhigh, ih hdiv, hlow, setWidth_byte (by omega)]
      have hshift : BitVec.ofNat w (n / 128) <<< (offset + 7) = BitVec.ofNat w (n / 128) <<< 7 <<< offset := by
        rw [← BitVec.shiftLeft_add, Nat.add_comm]
      rw [hshift, BitVec.or_assoc, ← BitVec.shiftLeft_or_distrib, ofNat_split]

/-- A number of `w` bits is read back from nothing. -/
theorem read_encode_zero {limit : Nat} (h : n < 128 ^ (limit + 1)) (rest : List Byte) :
    read (limit + 1) 0 (0#w) (encode n ++ rest) = some (BitVec.ofNat w n, rest) := by
  rw [read_encode h 0]
  simp

/-! ## Zigzag -/

/-- Non-negative numbers go to the even ones, negative numbers to the odd ones. -/
def zigzag {w : Nat} (i : BitVec w) : BitVec w := i.sshiftRight (w - 1) ^^^ i <<< 1

/-- Back from there. -/
def unzigzag {w : Nat} (i : BitVec w) : BitVec w := (i >>> 1) ^^^ -(i &&& 1)

/-- The sign of a number in all of its bits. -/
theorem sshiftRight_eq (i : BitVec w) : i.sshiftRight (w - 1) = if i.msb then BitVec.allOnes w else 0#w := by
  refine BitVec.eq_of_getLsbD_eq fun j hj => ?_
  rw [BitVec.getLsbD_sshiftRight]
  have hmsb : (if w - 1 + j < w then i.getLsbD (w - 1 + j) else i.msb) = i.msb := by
    split
    · have : w - 1 + j = w - 1 := by omega
      rw [this, BitVec.msb_eq_getLsbD_last]
    · rfl
  rw [hmsb]
  have hnot : ¬w ≤ j := by omega
  rcases hm : i.msb with _ | _
  · simp [hnot]
  · simp [hnot, hj]

/-- What a code says of the sign. -/
theorem neg_low (b : Bool) : -(if b then 1#w else 0#w) = if b then BitVec.allOnes w else 0#w := by
  rcases b with _ | _
  · simp
  · simp [BitVec.neg_one_eq_allOnes]

/-- The low bit of a code is the sign. -/
theorem zigzag_and_one (i : BitVec w) (hw : 0 < w) : zigzag i &&& 1 = if i.msb then 1#w else 0#w := by
  refine BitVec.eq_of_getLsbD_eq fun j hj => ?_
  unfold zigzag
  rw [sshiftRight_eq, BitVec.getLsbD_and, BitVec.getLsbD_xor, BitVec.getLsbD_shiftLeft]
  rcases Nat.eq_zero_or_pos j with rfl | hpos
  · rcases hm : i.msb with _ | _
    · simp
    · simp [hw]
  · have hne : j ≠ 0 := by omega
    have hone : (1 : BitVec w).getLsbD j = false := by
      have : (1 : BitVec w) = 1#w := rfl
      rw [this, BitVec.getLsbD_one]
      simp [hne]
    rw [hone, Bool.and_false]
    rcases hm : i.msb with _ | _
    · simp
    · simp [BitVec.getLsbD_one, hne]

/-- The other bits of a code are those of the number, or their complements. -/
theorem zigzag_shift (i : BitVec w) (j : Nat) (hj : j < w) : (zigzag i >>> 1).getLsbD j = (i.msb ^^ i.getLsbD j) := by
  unfold zigzag
  rw [sshiftRight_eq, BitVec.getLsbD_ushiftRight, BitVec.getLsbD_xor, BitVec.getLsbD_shiftLeft]
  have hsub : 1 + j - 1 = j := by omega
  by_cases hlast : 1 + j < w
  · rcases hm : i.msb with _ | _
    · simp [hlast, hsub]
    · simp [hlast, hsub]
  · have hj' : j = w - 1 := by omega
    have hbit : i.getLsbD j = i.msb := by rw [BitVec.msb_eq_getLsbD_last, hj']
    rw [hbit]
    rcases hm : i.msb with _ | _
    · simp [hlast]
    · simp [hlast]

/-- Decoding undoes encoding. -/
theorem unzigzag_zigzag (i : BitVec w) : unzigzag (zigzag i) = i := by
  rcases Nat.eq_zero_or_pos w with rfl | hw
  · exact Subsingleton.elim _ _
  refine BitVec.eq_of_getLsbD_eq fun j hj => ?_
  unfold unzigzag
  rw [BitVec.getLsbD_xor, zigzag_shift i j hj, zigzag_and_one i hw, neg_low]
  rcases hm : i.msb with _ | _
  · simp
  · simp [hj]

end Varint
