import Mathlib.Algebra.Order.Ring.Int
import Mathlib.Data.BitVec
import Mathlib.Data.Nat.Bitwise

/-!
# UTF-8

The bytes of a code point, and the code point that a text of bytes starts with: the shortest form, and no surrogates.
-/

namespace Utf8

variable {n : Nat}

/-- Numbers are taken modulo 256. -/
instance neZero256 : NeZero 256 := ⟨by decide⟩

/-- A Unicode scalar value: no surrogate. -/
def Scalar (cp : Nat) : Prop := cp < 0x110000 ∧ ¬(0xD800 ≤ cp ∧ cp ≤ 0xDFFF)

instance (cp : Nat) : Decidable (Scalar cp) := inferInstanceAs (Decidable (_ ∧ _))

/-- A byte that goes on with a sequence. -/
def isTail (b : Fin 256) : Bool := 0x80 ≤ b.val ∧ b.val < 0xC0

/-- A byte of a number. -/
abbrev byte (n : Nat) : Fin 256 := Fin.ofNat 256 n

/-- The bytes of a code point. -/
def encode (cp : Nat) : List (Fin 256) :=
  if cp < 0x80 then [byte cp]
  else if cp < 0x800 then [byte (0xC0 + cp / 64), byte (0x80 + cp % 64)]
  else if cp < 0x10000 then [byte (0xE0 + cp / 4096), byte (0x80 + cp / 64 % 64), byte (0x80 + cp % 64)]
  else [byte (0xF0 + cp / 262144), byte (0x80 + cp / 4096 % 64), byte (0x80 + cp / 64 % 64), byte (0x80 + cp % 64)]

/-- How many bytes follow a first byte. -/
def tails (lead : Fin 256) : Nat :=
  if lead.val < 0xC0 then 0 else if lead.val < 0xE0 then 1 else if lead.val < 0xF0 then 2 else 3

/-- The bits of a first byte. -/
def leadBits (lead : Fin 256) : Nat :=
  if lead.val < 0x80 then lead else if lead.val < 0xE0 then lead % 32 else if lead.val < 0xF0 then lead % 16 else lead % 8

/-- The number of a first byte and the bytes that follow it. -/
def number (lead : Fin 256) (more : List (Fin 256)) : Nat := more.foldl (fun cp b => cp * 64 + b.val % 64) (leadBits lead)

/-- The code point that a text starts with, and the rest of it. -/
def decodeOne : List (Fin 256) → Option (Nat × List (Fin 256))
  | [] => none
  | lead :: rest =>
    let cp := number lead (rest.take (tails lead))
    if Scalar cp ∧ encode cp = lead :: rest.take (tails lead) then some (cp, rest.drop (tails lead)) else none

/-- The text of code points. -/
def text (cps : List Nat) : List (Fin 256) := cps.flatMap encode

variable {cp : Nat} {bytes rest : List (Fin 256)}

theorem text_cons (cp : Nat) (cps : List Nat) : text (cp :: cps) = encode cp ++ text cps := List.flatMap_cons

theorem val_byte (h : n < 256) : (byte n).val = n := Nat.mod_eq_of_lt h

theorem encode_ascii (h : cp < 0x80) : encode cp = [byte cp] := if_pos h

theorem encode_ne_nil (cp : Nat) : encode cp ≠ [] := by
  unfold encode
  split_ifs <;> exact List.cons_ne_nil _ _

/-- What is decoded is what the text starts with. -/
theorem eq_of_decodeOne (h : decodeOne bytes = some (cp, rest)) : Scalar cp ∧ bytes = encode cp ++ rest := by
  cases bytes with
  | nil => cases h
  | cons lead more =>
    rw [decodeOne] at h
    split at h
    · next hif =>
      obtain ⟨rfl, rfl⟩ := Prod.mk.inj (Option.some.inj h)
      refine ⟨hif.1, ?_⟩
      rw [hif.2, List.cons_append, List.take_append_drop]
    · cases h

theorem decodeOne_length (h : decodeOne bytes = some (cp, rest)) : rest.length < bytes.length := by
  have hpos := List.length_pos_of_ne_nil (encode_ne_nil cp)
  rw [(eq_of_decodeOne h).2, List.length_append]
  omega

/-- The first byte tells how many follow, and the number is that of the bytes. -/
theorem encode_cons (h : cp < 0x110000) : ∃ lead more, encode cp = lead :: more ∧ more.length = tails lead ∧ number lead more = cp := by
  unfold encode
  split_ifs with h₁ h₂ h₃
  · refine ⟨_, _, rfl, ?_, ?_⟩
    · rw [tails, val_byte (by omega), if_pos (by omega)]
      rfl
    · simp only [number, leadBits, List.foldl_nil, val_byte (show cp < 256 by omega)]
      rw [if_pos h₁]
  · have hlead := val_byte (show 0xC0 + cp / 64 < 256 by omega)
    have hlast := val_byte (show 0x80 + cp % 64 < 256 by omega)
    refine ⟨_, _, rfl, ?_, ?_⟩
    · rw [tails, hlead, if_neg (by omega), if_pos (by omega)]
      rfl
    · simp only [number, leadBits, List.foldl_cons, List.foldl_nil, hlead, hlast]
      rw [if_neg (by omega), if_pos (by omega)]
      omega
  · have hlead := val_byte (show 0xE0 + cp / 4096 < 256 by omega)
    have hnext := val_byte (show 0x80 + cp / 64 % 64 < 256 by omega)
    have hlast := val_byte (show 0x80 + cp % 64 < 256 by omega)
    refine ⟨_, _, rfl, ?_, ?_⟩
    · rw [tails, hlead, if_neg (by omega), if_neg (by omega), if_pos (by omega)]
      rfl
    · simp only [number, leadBits, List.foldl_cons, List.foldl_nil, hlead, hnext, hlast]
      rw [if_neg (by omega), if_neg (by omega), if_pos (by omega)]
      omega
  · have hlead := val_byte (show 0xF0 + cp / 262144 < 256 by omega)
    have hsecond := val_byte (show 0x80 + cp / 4096 % 64 < 256 by omega)
    have hnext := val_byte (show 0x80 + cp / 64 % 64 < 256 by omega)
    have hlast := val_byte (show 0x80 + cp % 64 < 256 by omega)
    refine ⟨_, _, rfl, ?_, ?_⟩
    · rw [tails, hlead, if_neg (by omega), if_neg (by omega), if_neg (by omega)]
      rfl
    · simp only [number, leadBits, List.foldl_cons, List.foldl_nil, hlead, hsecond, hnext, hlast]
      rw [if_neg (by omega), if_neg (by omega), if_neg (by omega)]
      omega

/-- A code point is decoded, whatever follows it. -/
theorem decodeOne_encode (h : Scalar cp) (rest : List (Fin 256)) : decodeOne (encode cp ++ rest) = some (cp, rest) := by
  obtain ⟨lead, more, hencode, hlength, hnumber⟩ := encode_cons h.1
  rw [hencode, List.cons_append, decodeOne, ← hlength, List.take_left, List.drop_left]
  simp only [hnumber]
  rw [if_pos ⟨h, hencode⟩]

/-- The first code point of a text and what follows it. -/
theorem encode_append_inj {cp' : Nat} {rest' : List (Fin 256)} (h : Scalar cp) (h' : Scalar cp')
    (heq : encode cp ++ rest = encode cp' ++ rest') : cp = cp' ∧ rest = rest' := by
  have hone := decodeOne_encode h rest
  rw [heq, decodeOne_encode h'] at hone
  exact Prod.mk.inj (Option.some.inj hone.symm)

theorem isTail_byte (h : n < 64) : isTail (byte (0x80 + n)) = true := by
  rw [isTail, val_byte (by omega)]
  simp only [decide_eq_true_eq]
  omega

/-- The first byte starts a sequence, and the others go on with it. -/
theorem isTail_encode (h : cp < 0x110000) :
    ∃ lead more, encode cp = lead :: more ∧ isTail lead = false ∧ (∀ b ∈ more, isTail b = true) ∧
      (0x80 ≤ cp → 0xC0 ≤ lead.val ∧ lead.val < 0xF8) := by
  have hlead : ∀ n, 0xC0 ≤ n → n < 256 → isTail (byte n) = false := by
    intro n hn hlt
    rw [isTail, val_byte hlt]
    simp only [decide_eq_false_iff_not]
    omega
  unfold encode
  split_ifs with h₁ h₂ h₃
  · refine ⟨_, _, rfl, ?_, fun b hb => (nomatch hb), fun h => by omega⟩
    rw [isTail, val_byte (by omega)]
    simp only [decide_eq_false_iff_not]
    omega
  · refine ⟨_, _, rfl, hlead _ (by omega) (by omega), ?_, fun _ => ?_⟩
    · simp only [List.mem_cons, List.not_mem_nil, or_false]
      rintro b rfl
      exact isTail_byte (by omega)
    · rw [val_byte (by omega)]
      omega
  · refine ⟨_, _, rfl, hlead _ (by omega) (by omega), ?_, fun _ => ?_⟩
    · simp only [List.mem_cons, List.not_mem_nil, or_false]
      rintro b (rfl | rfl) <;> exact isTail_byte (by omega)
    · rw [val_byte (by omega)]
      omega
  · refine ⟨_, _, rfl, hlead _ (by omega) (by omega), ?_, fun _ => ?_⟩
    · simp only [List.mem_cons, List.not_mem_nil, or_false]
      rintro b (rfl | rfl | rfl) <;> exact isTail_byte (by omega)
    · rw [val_byte (by omega)]
      omega

theorem eq_byte {b : Fin 256} (h : b.val = n) : b = byte n := by
  rw [← h]
  exact (Fin.ofNat_val_eq_self b).symm

variable {a b c d : Fin 256}

theorem isTail_iff : isTail b = true ↔ 0x80 ≤ b.val ∧ b.val < 0xC0 := by
  rw [isTail, decide_eq_true_eq]

/-- Two bytes are a code point in the range of two bytes. -/
theorem encode_two (ha : 0xC0 ≤ a.val ∧ a.val < 0xE0) (hb : isTail b = true) :
    number a [b] < 0x800 ∧ (encode (number a [b]) = [a, b] ↔ 0x80 ≤ number a [b]) := by
  rw [isTail_iff] at hb
  have hnumber : number a [b] = a.val % 32 * 64 + b.val % 64 := by
    rw [number, leadBits, if_neg (by omega), if_pos (by omega)]
    rfl
  refine ⟨by omega, fun heq => ?_, fun hle => ?_⟩
  · by_contra hlt
    rw [encode_ascii (by omega)] at heq
    exact absurd (congrArg List.length heq) (by simp)
  · rw [encode, if_neg (by omega), if_pos (by omega), ← eq_byte (b := a) (by omega), ← eq_byte (b := b) (by omega)]

/-- Three bytes. -/
theorem encode_three (ha : 0xE0 ≤ a.val ∧ a.val < 0xF0) (hb : isTail b = true) (hc : isTail c = true) :
    number a [b, c] < 0x10000 ∧ (encode (number a [b, c]) = [a, b, c] ↔ 0x800 ≤ number a [b, c]) := by
  rw [isTail_iff] at hb hc
  have hnumber : number a [b, c] = (a.val % 16 * 64 + b.val % 64) * 64 + c.val % 64 := by
    rw [number, leadBits, if_neg (by omega), if_neg (by omega), if_pos (by omega)]
    rfl
  refine ⟨by omega, fun heq => ?_, fun hle => ?_⟩
  · by_contra hlt
    have hlength := congrArg List.length heq
    rw [encode] at hlength
    split_ifs at hlength
    · exact absurd hlength (by simp)
    · exact absurd hlength (by simp)
    · omega
    · exact absurd hlength (by simp)
  · rw [encode, if_neg (by omega), if_neg (by omega), if_pos (by omega), ← eq_byte (b := a) (by omega), ← eq_byte (b := b) (by omega),
      ← eq_byte (b := c) (by omega)]

/-- Four bytes. -/
theorem encode_four (ha : 0xF0 ≤ a.val ∧ a.val < 0xF8) (hb : isTail b = true) (hc : isTail c = true) (hd : isTail d = true) :
    encode (number a [b, c, d]) = [a, b, c, d] ↔ 0x10000 ≤ number a [b, c, d] := by
  rw [isTail_iff] at hb hc hd
  have hnumber : number a [b, c, d] = ((a.val % 8 * 64 + b.val % 64) * 64 + c.val % 64) * 64 + d.val % 64 := by
    rw [number, leadBits, if_neg (by omega), if_neg (by omega), if_neg (by omega)]
    rfl
  refine ⟨fun heq => ?_, fun hle => ?_⟩
  · by_contra hlt
    have hlength := congrArg List.length heq
    rw [encode] at hlength
    split_ifs at hlength
    · exact absurd hlength (by simp)
    · exact absurd hlength (by simp)
    · exact absurd hlength (by simp)
    · omega
  · rw [encode, if_neg (by omega), if_neg (by omega), if_neg (by omega), ← eq_byte (b := a) (by omega), ← eq_byte (b := b) (by omega),
      ← eq_byte (b := c) (by omega), ← eq_byte (b := d) (by omega)]

end Utf8
