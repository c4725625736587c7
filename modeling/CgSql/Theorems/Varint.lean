import CgSql.InputBuf
import CgSql.Lemmas.Serial

/-!
# The varint codecs

The readers take what the writers write, for both widths, and stop on every other input.
-/

namespace CgSql.Input

open Varint (zigzag unzigzag)

namespace InputBuf

variable {buf : InputBuf}

@[simp]
theorem advance_zero : buf.advance 0 = buf := rfl

@[simp]
theorem advance_advance (m n : Nat) : (buf.advance m).advance n = buf.advance (m + n) := by
  simp [advance, Nat.add_assoc, Nat.sub_sub]

theorem valid_advance {n : Nat} (h : buf.Valid) (hn : n ≤ buf.remaining) : (buf.advance n).Valid := by
  simp only [Valid, advance] at *
  omega

theorem length_input (h : buf.Valid) : buf.input.length = buf.remaining := by
  simp only [Valid] at h
  simp only [input, List.length_take, List.length_drop]
  omega

theorem input_advance {n : Nat} : (buf.advance n).input = buf.input.drop n := by
  simp only [input, advance, List.drop_take, List.drop_drop]

/-- The next byte, if there is one. -/
theorem read_one (h : buf.Valid) :
    (buf.input = [] ∧ buf.read 1 = some (none, buf)) ∨ ∃ b rest, buf.input = b :: rest ∧ buf.read 1 = some (some [b], buf.advance 1) := by
  cases hin : buf.input with
  | nil =>
    have hzero : buf.remaining = 0 := by rw [← length_input h, hin, List.length_nil]
    exact .inl ⟨rfl, by rw [read, if_pos (by omega)]⟩
  | cons b rest =>
    have hpos : 0 < buf.remaining := by rw [← length_input h, hin, List.length_cons]; omega
    refine .inr ⟨b, rest, rfl, ?_⟩
    have hload : buf.load 1 = some [b] := by
      simp only [Valid] at h
      rw [load, if_pos (by omega)]
      have htake : (buf.memory.drop buf.data).take 1 = buf.input.take 1 := by
        rw [input, List.take_take, Nat.min_eq_left hpos]
      rw [htake, hin, List.take_succ_cons, List.take_zero]
    rw [read, if_neg (by omega), hload, Option.map_some]

/-- The loop reads as on a list of bytes, and takes as many of them as that does. -/
theorem readVarintLoop_eq {w left offset : Nat} {result : BitVec w} (h : buf.Valid) (hshift : offset + 7 * left < w + 7) :
    (∃ value rest n, Varint.read left offset result buf.input = some (value, rest) ∧ buf.input.drop n = rest ∧ n ≤ left ∧ n ≤ buf.remaining ∧
      buf.readVarintLoop left offset result = some (some (unzigzag value), buf.advance n)) ∨
    (Varint.read left offset result buf.input = none ∧ ∃ n, n ≤ left ∧ n ≤ buf.remaining ∧
      buf.readVarintLoop left offset result = some (none, buf.advance n)) := by
  induction left generalizing buf offset result with
  | zero => exact .inr ⟨rfl, 0, Nat.le_refl 0, Nat.zero_le _, rfl⟩
  | succ left ih =>
    rcases read_one h with ⟨hin, hread⟩ | ⟨b, rest, hin, hread⟩
    · refine .inr ⟨by rw [hin, Varint.read], 0, Nat.zero_le _, Nat.zero_le _, ?_⟩
      simp [readVarintLoop, hread]
    · have hpos : 1 ≤ buf.remaining := by rw [← length_input h, hin, List.length_cons]; omega
      have hbits : shiftLeft ((b &&& 0x7f).setWidth w) offset = some ((b &&& 0x7f).setWidth w <<< offset) := by
        rw [shiftLeft, if_pos (by omega)]
      have hdrop : buf.input.drop 1 = rest := by rw [hin, List.drop_succ_cons, List.drop_zero]
      by_cases hstop : b &&& 0x80 = 0
      · refine .inl ⟨result ||| (b &&& 0x7f).setWidth w <<< offset, rest, 1, by rw [hin, Varint.read, if_pos hstop], hdrop, by omega, hpos, ?_⟩
        simp only [readVarintLoop, hread, Option.bind_eq_bind, Option.bind_some, hbits, if_pos hstop, Option.pure_def]
      · have hnext : Varint.read (left + 1) offset result buf.input =
            Varint.read left (offset + 7) (result ||| (b &&& 0x7f).setWidth w <<< offset) (buf.advance 1).input := by
          rw [input_advance, hdrop, hin, Varint.read, if_neg hstop]
        have hloop : buf.readVarintLoop (left + 1) offset result =
            (buf.advance 1).readVarintLoop left (offset + 7) (result ||| (b &&& 0x7f).setWidth w <<< offset) := by
          simp only [readVarintLoop, hread, Option.bind_eq_bind, Option.bind_some, hbits, if_neg hstop]
        have hremaining : (buf.advance 1).remaining = buf.remaining - 1 := rfl
        have hshift' : offset + 7 + 7 * left < w + 7 := by omega
        rw [hnext, hloop]
        rcases ih (valid_advance h hpos) hshift' with ⟨value, rest', n, hvalue, hrest, hn, hn', hrun⟩ | ⟨hnone, n, hn, hn', hrun⟩
        · rw [input_advance, List.drop_drop] at hrest
          refine .inl ⟨value, rest', 1 + n, hvalue, hrest, by omega, by omega, ?_⟩
          rw [hrun, advance_advance]
        · refine .inr ⟨hnone, 1 + n, by omega, by omega, ?_⟩
          rw [hrun, advance_advance]

end InputBuf

/-- Only bytes that all continue are not read. -/
theorem read_eq_none_iff {w limit offset : Nat} {result : BitVec w} {input : List Varint.Byte} :
    Varint.read limit offset result input = none ↔ ∀ b ∈ input.take limit, b &&& 0x80 ≠ 0 := by
  induction limit generalizing offset result input with
  | zero => simp [Varint.read]
  | succ limit ih =>
    cases input with
    | nil => simp [Varint.read]
    | cons b rest =>
      rw [Varint.read, List.take_succ_cons, List.forall_mem_cons]
      by_cases hstop : b &&& 0x80 = 0
      · rw [if_pos hstop]
        exact ⟨fun h => absurd h (Option.some_ne_none _), fun h => absurd hstop h.1⟩
      · rw [if_neg hstop, ih]
        exact ⟨fun h => ⟨hstop, h⟩, fun h => h.2⟩

/-- A reader and a writer of `7 * limit` bits or more are a codec. -/
theorem codec_of_width {w limit : Nat} (hw : 8 ≤ w) (hlimit : 7 * limit < w + 7) (hbits : 2 ^ w ≤ 128 ^ limit) :
    Codec limit (zigzag (w := w)) unzigzag (fun v => Serial.writeVarint (zigzag v)) fun buf => buf.readVarintLoop limit 0 0 := by
  have hpos : limit ≠ 0 := by
    rintro rfl
    have := Nat.one_lt_two_pow (n := w) (by omega)
    omega
  obtain ⟨k, rfl⟩ := Nat.exists_eq_succ_of_ne_zero hpos
  have hlt : ∀ v : BitVec w, (zigzag v).toNat < 128 ^ (k + 1) := fun v => Nat.lt_of_lt_of_le (zigzag v).isLt hbits
  have hshift : 0 + 7 * (k + 1) < w + 7 := by rwa [Nat.zero_add]
  refine ⟨Varint.unzigzag_zigzag, ?_, ?_, ?_, ?_⟩
  · intro v
    rw [Serial.SerialAux.writeVarint_eq hw]
    exact Varint.encode_length (hlt v)
  · intro v rest buf hvalid hinput
    have hread := Varint.read_encode_zero (w := w) (hlt v) rest
    rw [BitVec.ofNat_toNat, BitVec.setWidth_eq, ← Serial.SerialAux.writeVarint_eq hw, ← hinput] at hread
    rcases InputBuf.readVarintLoop_eq hvalid hshift with
      ⟨value, rest', n, hvalue, hrest, hn, hn', hrun⟩ | ⟨hnone, -⟩
    · rw [hread] at hvalue
      cases hvalue
      have hlength : n = (Serial.writeVarint (zigzag v)).length := by
        have hdrop := congrArg List.length hrest
        have htotal := congrArg List.length hinput
        rw [List.length_drop] at hdrop
        rw [List.length_append] at htotal
        have := InputBuf.length_input hvalid
        omega
      rw [← hlength]
      exact hrun.trans (by rw [Varint.unzigzag_zigzag])
    · rw [hread] at hnone
      cases hnone
  · intro buf hvalid
    rcases InputBuf.readVarintLoop_eq hvalid hshift with ⟨value, -, n, -, -, hn, hn', hrun⟩ | ⟨-, n, hn, hn', hrun⟩
    · exact ⟨_, n, hrun, hn, hn'⟩
    · exact ⟨_, n, hrun, hn, hn'⟩
  · intro buf hvalid
    have hnone : Varint.read (k + 1) 0 (0#w) buf.input = none ↔ ∀ b ∈ buf.input.take (k + 1), b &&& 0x80 ≠ 0 := read_eq_none_iff
    rw [← hnone]
    rcases InputBuf.readVarintLoop_eq hvalid hshift with ⟨value, rest, n, hvalue, -, -, -, hrun⟩ | ⟨hnone, n, -, -, hrun⟩
    · constructor
      · rintro ⟨buf', hbuf'⟩
        cases hrun.symm.trans hbuf'
      · intro hnone
        cases hvalue.symm.trans hnone
    · exact ⟨fun _ => hnone, fun _ => ⟨_, hrun⟩⟩

/-- Both codecs are inverse, of at most five and ten bytes, and refuse only what never ends. -/
theorem varint_codecs :
    Codec 5 zigzagEncode32 zigzagDecode32 writeVarint32 readVarint32 ∧ Codec 10 zigzagEncode64 zigzagDecode64 writeVarint64 readVarint64 :=
  ⟨codec_of_width (by decide) (by decide) (by decide), codec_of_width (by decide) (by decide) (by decide)⟩

end CgSql.Input
