import CgSql.Pieces
import Mathlib.Tactic.Ring
import Mathlib.Tactic.Linarith

/-!
# Literals and numbers

What is written as a C string literal is read back as it was: the escapes of characters, where no digit follows a hexadecimal one, and
the bytes of a number.
-/

namespace CgSql

open Byte InLiteral

variable {val : Nat} {rest : Bytes}

/-! ## Escapes -/

/-- What follows does not start with a hexadecimal digit. -/
def NoHexNext (rest : Bytes) : Prop := ∀ c ∈ rest.head?, hexValue c = none

theorem noHexNext_nil : NoHexNext [] := fun _ hc => by cases hc

theorem noHexNext_backslash (rest : Bytes) : NoHexNext (backslash :: rest) := fun _ hc => by
  obtain rfl := Option.some.inj hc
  rfl

/-- The character is written as a hexadecimal escape. -/
def isHexEscaped (c : Byte) : Bool := cgEncodeCharAsCStringLiteral c == hexEscape c

theorem hexValue_hexDigit : ∀ n < 16, hexValue (hexDigit n) = some n := by decide

/-- A hexadecimal escape ends where no digit follows. -/
theorem readAll_hex {digits : Nat} (hd : digits ≠ 0) (hv : val < 256) (hr : NoHexNext rest) :
    (hex digits val).readAll rest = (plain.readAll rest).map (⟨val, hv⟩ :: ·) := by
  have hchar : InLiteral.char digits val = some ⟨val, hv⟩ := dif_pos ⟨hd, hv⟩
  cases rest with
  | nil => simp [readAll, finish, hchar]
  | cons c cs =>
    have hc : hexValue c = none := hr c rfl
    simp only [readAll, InLiteral.read, hc, hchar]
    cases readPlain c with
    | none => rfl
    | some p => cases h : p.2.readAll cs <;> simp [h]

/-- One character is read, then the rest. -/
theorem readAll_cons {s s' : InLiteral} {c : Byte} {out : Bytes} (h : s.read c = some (out, s')) (cs : Bytes) :
    s.readAll (c :: cs) = (s'.readAll cs).map (out ++ ·) := by
  rw [readAll, h]
  cases h' : s'.readAll cs <;> simp [h']

theorem readAll_backslash (cs : Bytes) : plain.readAll (backslash :: cs) = escape.readAll cs := by
  have h : plain.read backslash = some ([], escape) := rfl
  rw [readAll_cons h]
  simp

theorem readAll_hexEscape {n : Nat} (hn : n < 256) (hr : NoHexNext rest) :
    plain.readAll (hexEscape n ++ rest) = (plain.readAll rest).map (⟨n, hn⟩ :: ·) := by
  have hdigit : ∀ {digits val d : Nat} (cs : Bytes), d < 16 →
      (hex digits val).readAll (hexDigit d :: cs) = (hex (digits + 1) (val * 16 + d)).readAll cs := by
    intro digits val d cs hd
    have h : (hex digits val).read (hexDigit d) = some ([], hex (digits + 1) (val * 16 + d)) := by
      simp [InLiteral.read, hexValue_hexDigit d hd]
    rw [readAll_cons h]
    simp
  have hx : escape.readAll (120 :: hexDigit (n / 16) :: hexDigit (n % 16) :: rest) =
      (hex 0 0).readAll (hexDigit (n / 16) :: hexDigit (n % 16) :: rest) := by
    have h : escape.read 120 = some ([], hex 0 0) := rfl
    rw [readAll_cons h]
    simp
  have hval : (0 * 16 + n / 16) * 16 + n % 16 = n := by omega
  change plain.readAll (backslash :: 120 :: hexDigit (n / 16) :: hexDigit (n % 16) :: rest) = _
  rw [readAll_backslash, hx, hdigit _ (by omega), hdigit _ (by omega), hval]
  exact readAll_hex (by decide) hn hr

/-- The letter of the escape sequence of a character, if it has a simple one. -/
def escapeLetter (c : Byte) : Byte := (cgEncodeCharAsCStringLiteral c).getD 1 0

/-- What is seen of the encoding of a character by trying all of them. -/
theorem encode_facts : ∀ c : Byte, (isHexEscaped c = true ∨ (cgEncodeCharAsCStringLiteral c = [backslash, escapeLetter c] ∧ escapeLetter c ≠ 120 ∧
        (octalValue (escapeLetter c)).isNone ∧ simpleEscape (escapeLetter c) = some c) ∨
      cgEncodeCharAsCStringLiteral c = [c] ∧ c ≠ backslash ∧ c ≠ quote ∧ c ≠ 10) ∧ cgEncodeCharAsCStringLiteral c ≠ [] ∧
    ((hexValue c).isNone → (cgEncodeCharAsCStringLiteral c).head?.all fun c => (hexValue c).isNone) ∧
    (c ≠ question → question ∉ cgEncodeCharAsCStringLiteral c) ∧
    (cgEncodeCharAsCStringLiteral c).head?.any (fun x => (trigraph x).isSome) = (trigraph c).isSome := by
  decide +kernel

/-- The escape sequence of a character, or the character. -/
theorem encode_cases (c : Byte) : isHexEscaped c = true ∨ (cgEncodeCharAsCStringLiteral c = [backslash, escapeLetter c] ∧ escapeLetter c ≠ 120 ∧
      (octalValue (escapeLetter c)).isNone ∧ simpleEscape (escapeLetter c) = some c) ∨
    cgEncodeCharAsCStringLiteral c = [c] ∧ c ≠ backslash ∧ c ≠ quote ∧ c ≠ 10 :=
  (encode_facts c).1

theorem encode_ne_nil (c : Byte) : cgEncodeCharAsCStringLiteral c ≠ [] := (encode_facts c).2.1

/-- A character is read back. -/
theorem readAll_encode {c : Byte} (hr : isHexEscaped c = true → NoHexNext rest) :
    plain.readAll (cgEncodeCharAsCStringLiteral c ++ rest) = (plain.readAll rest).map (c :: ·) := by
  rcases encode_cases c with hx | ⟨he, hx, ho, hs⟩ | ⟨hc, hb, hq, hn⟩
  · have henc : cgEncodeCharAsCStringLiteral c = hexEscape c := by simpa [isHexEscaped] using hx
    rw [henc]
    exact readAll_hexEscape c.isLt (hr hx)
  · have hread : escape.read (escapeLetter c) = some ([c], plain) := by
      simp [InLiteral.read, hx, Option.isNone_iff_eq_none.mp ho, hs]
    rw [he, List.cons_append, List.cons_append, List.nil_append, readAll_backslash, readAll_cons hread]
    rfl
  · have hread : plain.read c = some ([c], plain) := by simp [InLiteral.read, readPlain, hb, hq, hn]
    rw [hc]
    exact readAll_cons hread rest

/-- A character may follow another in a piece: no digit follows a hexadecimal escape. -/
def MayFollow (a b : Byte) : Prop := isHexEscaped a = true → hexValue b = none

theorem noHexNext_encode (b : Byte) : (hexValue b).isNone → (cgEncodeCharAsCStringLiteral b).head?.all fun c => (hexValue c).isNone :=
  (encode_facts b).2.2.1

/-- A piece is read back. -/
theorem readAll_piece {p : Bytes} (hp : p.IsChain MayFollow) (hr : NoHexNext rest) :
    plain.readAll (p.flatMap cgEncodeCharAsCStringLiteral ++ rest) = (plain.readAll rest).map (p ++ ·) := by
  induction p with
  | nil => simp
  | cons a p ih =>
    have hnext : isHexEscaped a = true → NoHexNext (p.flatMap cgEncodeCharAsCStringLiteral ++ rest) := by
      intro ha
      cases p with
      | nil => exact hr
      | cons b p =>
        have hb := noHexNext_encode b (Option.isNone_iff_eq_none.mpr ((List.isChain_cons_cons.mp hp).1 ha))
        obtain ⟨x, xs, hx⟩ := List.exists_cons_of_ne_nil (encode_ne_nil b)
        intro c hc
        obtain rfl : c = x := by simpa [hx, eq_comm] using hc
        simpa [hx] using hb
    rw [List.flatMap_cons, List.append_assoc, readAll_encode hnext, ih hp.of_cons]
    cases plain.readAll rest <;> rfl

/-! ## Trigraphs -/

/-- There is a trigraph in the text. -/
def hasTrigraph : Bytes → Bool
  | a :: b :: c :: cs => (a = question ∧ b = question ∧ (trigraph c).isSome) ∨ hasTrigraph (b :: c :: cs)
  | _ => false

theorem replaceTrigraphs_eq {src : Bytes} (h : hasTrigraph src = false) : replaceTrigraphs src = src := by
  induction src with
  | nil => rfl
  | cons a rest ih =>
    match rest with
    | [] | [_] => rfl
    | b :: c :: cs =>
      simp only [hasTrigraph, decide_eq_false_iff_not, not_or] at h
      unfold replaceTrigraphs
      have hno : (if a = question ∧ b = question then trigraph c else none) = none := by
        split
        · next hab => simpa [hab] using h.1
        · rfl
      rw [hno]
      exact congrArg (a :: ·) (ih (by simpa using h.2))

/-- A character other than a question mark is in no trigraph but as its end. -/
theorem hasTrigraph_cons {a : Byte} (ha : a ≠ question) (rest : Bytes) : hasTrigraph (a :: rest) = hasTrigraph rest := by
  match rest with
  | [] | [_] => rfl
  | b :: c :: cs => simp [hasTrigraph, ha]

theorem hasTrigraph_append {tok : Bytes} (ht : question ∉ tok) (rest : Bytes) : hasTrigraph (tok ++ rest) = hasTrigraph rest := by
  induction tok with
  | nil => rfl
  | cons a tok ih =>
    rw [List.mem_cons, not_or] at ht
    rw [List.cons_append, hasTrigraph_cons (Ne.symm ht.1), ih ht.2]

theorem question_notMem_encode (c : Byte) : c ≠ question → question ∉ cgEncodeCharAsCStringLiteral c := (encode_facts c).2.2.2.1

theorem trigraph_encode (c : Byte) : (cgEncodeCharAsCStringLiteral c).head?.any (fun x => (trigraph x).isSome) = (trigraph c).isSome :=
  (encode_facts c).2.2.2.2

/-- The escapes of a piece make no trigraph. -/
theorem hasTrigraph_encode {p : Bytes} (hr : question ∉ rest) (hr' : ∀ c ∈ rest.head?, (trigraph c).isSome = false) :
    hasTrigraph (p.flatMap cgEncodeCharAsCStringLiteral ++ rest) = hasTrigraph p := by
  have hrest : hasTrigraph rest = false := by
    have := hasTrigraph_append hr []
    rwa [List.append_nil] at this
  -- the characters that follow two question marks
  have hthird : ∀ p : Bytes, (p.flatMap cgEncodeCharAsCStringLiteral ++ rest).head?.any (fun x => (trigraph x).isSome) =
      p.head?.any fun x => (trigraph x).isSome := by
    intro p
    cases p with
    | nil =>
      cases h : rest.head? with
      | none => simp [h]
      | some c => simp [h, hr' c h]
    | cons c p =>
      have := trigraph_encode c
      obtain ⟨x, xs, hx⟩ := List.exists_cons_of_ne_nil (encode_ne_nil c)
      simpa [hx] using this
  have hq : cgEncodeCharAsCStringLiteral question = [question] := by decide
  have hcons : ∀ (a b : Byte) (cs : Bytes), hasTrigraph (a :: b :: cs) =
      (decide (a = question ∧ b = question) && cs.head?.any (fun x => (trigraph x).isSome) || hasTrigraph (b :: cs)) := by
    intro a b cs
    cases cs with
    | nil => simp [hasTrigraph]
    | cons c cs => simp [hasTrigraph, Bool.and_assoc]
  induction p with
  | nil => exact hrest
  | cons a p ih =>
    rw [List.flatMap_cons, List.append_assoc]
    by_cases ha : a = question
    · subst ha
      rw [hq]
      cases p with
      | nil =>
        cases rest with
        | nil => rfl
        | cons c rest =>
          have hc : c ≠ question := fun h => hr (by rw [h]; exact List.mem_cons_self)
          change hasTrigraph (question :: c :: rest) = false
          rw [hcons, hrest]
          simp [hc]
      | cons b p =>
        by_cases hb : b = question
        · subst hb
          rw [List.flatMap_cons, List.append_assoc, hq] at ih ⊢
          simp only [List.cons_append, List.nil_append] at ih ⊢
          rw [hcons, hcons, hthird, ih]
        · obtain ⟨x, xs, hx⟩ := List.exists_cons_of_ne_nil (encode_ne_nil b)
          have hxq : x ≠ question := fun h => question_notMem_encode b hb (by rw [hx, h]; exact List.mem_cons_self)
          rw [List.flatMap_cons, List.append_assoc, hx] at ih ⊢
          simp only [List.cons_append, List.nil_append] at ih ⊢
          rw [hcons, hcons, ih]
          simp [hxq, hb]
    · rw [hasTrigraph_append (question_notMem_encode a ha), hasTrigraph_cons ha, ih]

/-! ## Numbers -/

theorem lor_shiftLeft {a k : Nat} (h : a < 2 ^ k) (b : Nat) : a ||| (b <<< k) = a + b * 2 ^ k := by
  rw [Nat.or_comm, Nat.shiftLeft_eq, Nat.mul_comm, ← Nat.two_pow_add_eq_or_of_lt h, Nat.mul_comm, Nat.add_comm]

theorem varintegerBytes_lt {rounds b : Nat} (hb : b ∈ varintegerBytes rounds val) : b < 256 := by
  induction rounds generalizing val with
  | zero => cases hb
  | succ rounds ih =>
    rw [varintegerBytes, List.mem_cons] at hb
    rcases hb with rfl | hb
    · split <;> omega
    · split at hb
      · cases hb
      · exact ih hb

/-- The bytes as a C compiler reads them. -/
def varinteger (val : Nat) : Bytes := (varintegerBytes 5 val).map (Fin.ofNat 256)

/-- The bytes of a number are read back, and no digit follows them. -/
theorem readAll_hexEscapes {bs : List Nat} (hb : ∀ b ∈ bs, b < 256) (hr : NoHexNext rest) : NoHexNext (bs.flatMap hexEscape ++ rest) ∧
      plain.readAll (bs.flatMap hexEscape ++ rest) = (plain.readAll rest).map (bs.map (Fin.ofNat 256) ++ ·) := by
  induction bs with
  | nil => exact ⟨hr, by simp⟩
  | cons b bs ih =>
    obtain ⟨hnext, hread⟩ := ih fun b' hb' => hb b' (List.mem_cons_of_mem _ hb')
    have hlt := hb b List.mem_cons_self
    refine ⟨noHexNext_backslash _, ?_⟩
    have hbyte : (⟨b, hlt⟩ : Byte) = Fin.ofNat 256 b := Fin.ext (Nat.mod_eq_of_lt hlt).symm
    rw [List.flatMap_cons, List.append_assoc, readAll_hexEscape hlt hnext, hread, hbyte]
    cases plain.readAll rest <;> rfl

/-- A number is decoded as it was encoded, and what follows is left. -/
theorem decodeFrom_varintegerBytes {rounds out offset : Nat} (hr : val < 128 ^ rounds) (hv : val < 2 ^ 31) (h : 0 < rounds)
    (ho : out < 2 ^ offset) (rest : Bytes) :
    decodeFrom out offset ((varintegerBytes rounds val).map (Fin.ofNat 256) ++ rest) = some (int32 (out + val * 2 ^ offset), rest) := by
  induction rounds generalizing val out offset with
  | zero => cases h
  | succ rounds ih =>
    by_cases hbig : 0x7f < val
    · have hdiv : val / 128 ≠ 0 := by omega
      have hbyte : (Fin.ofNat 256 (val % 128 + 128) : Byte).val = val % 128 + 128 := Nat.mod_eq_of_lt (by omega)
      have hle : (128 : Byte) ≤ Fin.ofNat 256 (val % 128 + 128) := by
        rw [Fin.le_def, hbyte]
        exact Nat.le_add_left _ _
      have hlow : (val % 128 + 128) % 128 = val % 128 := by omega
      rw [varintegerBytes, if_pos ⟨hbig, hv⟩, if_neg hdiv, List.map_cons, List.cons_append]
      simp only [decodeFrom, if_pos hle, hbyte, hlow]
      have hrounds : 0 < rounds := by
        rcases Nat.eq_zero_or_pos rounds with rfl | hpos
        · omega
        · exact hpos
      have hpow : 2 ^ (offset + 7) = 2 ^ offset * 128 := by rw [Nat.pow_add]
      have hlt : val % 128 < 128 := Nat.mod_lt _ (by decide)
      rw [lor_shiftLeft ho, ih (by rw [Nat.pow_succ] at hr; omega) (by omega) hrounds]
      · have hsum : out + val % 128 * 2 ^ offset + val / 128 * 2 ^ (offset + 7) = out + val * 2 ^ offset := by
          conv_rhs => rw [← Nat.mod_add_div val 128]
          rw [hpow]
          ring
        rw [hsum]
      · rw [hpow]
        nlinarith [Nat.two_pow_pos offset]
    · have hdiv : val / 128 = 0 := by omega
      have hmod : val % 128 = val := Nat.mod_eq_of_lt (by omega)
      have hbyte : (Fin.ofNat 256 val : Byte).val = val := Nat.mod_eq_of_lt (by omega)
      have hle : ¬(128 : Byte) ≤ Fin.ofNat 256 val := by
        rw [Fin.le_def, hbyte]
        exact fun h => hbig (by omega)
      rw [varintegerBytes, if_neg fun h => hbig h.1, if_pos hdiv, hmod, Nat.add_zero]
      simp only [List.map_cons, List.map_nil, List.cons_append, List.nil_append, decodeFrom, if_neg hle, hbyte, hmod, lor_shiftLeft ho]

theorem cqlDecode_varinteger (hv : val < 2 ^ 31) (rest : Bytes) : cqlDecode (varinteger val ++ rest) = some (val, rest) := by
  rw [cqlDecode, varinteger, decodeFrom_varintegerBytes (by omega) hv (by decide) (by decide)]
  simp only [int32, Nat.zero_add, Nat.pow_zero, Nat.mul_one, Nat.mod_eq_of_lt (show val < 2 ^ 32 by omega)]

end CgSql
