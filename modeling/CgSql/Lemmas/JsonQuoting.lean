import CgSql.JsonQuoting
import CgSql.Theorems.Quoting

/-!
# Reading JSON strings

What is read of the strings that are written: each character of them, from UTF-8 or from an escape, and the text that
`cg_pretty_quote_plaintext` lays out.
-/

namespace CgSql

open Byte QuoteAux

namespace JsonAux

variable {bytes rest : Bytes} {cp : Nat}

/-! ## Characters -/

theorem decodeOne_ascii {c : Byte} (h : c.val < 128) (rest : Bytes) : Utf8.decodeOne (c :: rest) = some (c.val, rest) := by
  have hscalar : Utf8.Scalar c.val := ⟨by omega, by omega⟩
  have hencode : Utf8.encode c.val = [c] := by
    rw [Utf8.encode_ascii h]
    exact congrArg (List.cons · []) (Fin.ofNat_val_eq_self c)
  have := Utf8.decodeOne_encode hscalar rest
  rwa [hencode] at this

/-- The next character, and what is done with it. -/
theorem readJsonFrom_eq (hone : Utf8.decodeOne bytes = some (cp, rest)) : readJsonFrom bytes = if cp = 34 then some ([], rest)
    else if cp = 92 then (readJsonEscape rest).bind fun (cp, rest) => (readJsonFrom rest).map fun (cps, rest) => (cp :: cps, rest)
    else if cp < 32 then none else (readJsonFrom rest).map fun (cps, rest) => (cp :: cps, rest) := by
  rw [readJsonFrom.eq_def]
  split
  · next hnone => rw [hone] at hnone; cases hnone
  · next cp' rest' hsome =>
    rw [hone] at hsome
    obtain ⟨rfl, rfl⟩ := Prod.mk.inj (Option.some.inj hsome)
    congr 2
    split
    · next hescape => rw [hescape]; rfl
    · next hescape => rw [hescape]; rfl

theorem readJsonFrom_quote (rest : Bytes) : readJsonFrom (quote :: rest) = some ([], rest) := by
  have hone : Utf8.decodeOne (quote :: rest) = some (34, rest) := decodeOne_ascii (by decide) rest
  rw [readJsonFrom_eq hone, if_pos rfl]

/-- A character that stands for itself. -/
theorem readJsonFrom_plain (hone : Utf8.decodeOne bytes = some (cp, rest)) (hcp : 32 ≤ cp) (hquote : cp ≠ 34)
    (hslash : cp ≠ 92) : readJsonFrom bytes = (readJsonFrom rest).map fun (cps, rest) => (cp :: cps, rest) := by
  rw [readJsonFrom_eq hone, if_neg hquote, if_neg hslash, if_neg (by omega)]

theorem readJsonFrom_escape (hescape : readJsonEscape bytes = some (cp, rest)) :
    readJsonFrom (backslash :: bytes) = (readJsonFrom rest).map fun (cps, rest) => (cp :: cps, rest) := by
  have hone : Utf8.decodeOne (backslash :: bytes) = some (92, bytes) := decodeOne_ascii (by decide) bytes
  rw [readJsonFrom_eq hone, if_neg (by decide), if_pos rfl, hescape]
  rfl

/-- The number of an escape with four digits. -/
theorem readJsonEscape_hex (c : Byte) (rest : Bytes) :
    readJsonEscape (117 :: 48 :: 48 :: hexDigit (c / 16) :: hexDigit (c % 16) :: rest) = some (c.val, rest) := by
  have hhigh : hexValue (hexDigit (c / 16)) = some (c / 16 : Nat) := hexValue_hexDigit _ (by omega)
  have hlow : hexValue (hexDigit (c % 16)) = some (c % 16 : Nat) := hexValue_hexDigit _ (by omega)
  have hzero : hexValue 48 = some 0 := rfl
  have hsum : (c : Nat) / 16 * 16 + (c : Nat) % 16 = c := by omega
  simp [readJsonEscape, hhigh, hlow, hzero, hsum]

/-- An encoded character is read as its number, a byte from 128 on too. -/
theorem readJsonFrom_encode (c : Byte) (rest : Bytes) :
    readJsonFrom (cgEncodeCharAsJsonStringLiteral c ++ rest) = (readJsonFrom rest).map fun (cps, rest) => (c.val :: cps, rest) := by
  unfold cgEncodeCharAsJsonStringLiteral
  split_ifs with h₁ h₂ h₃ h₄ h₅ h₆ h₇ h₈
  · rw [h₁]; exact readJsonFrom_escape rfl
  · rw [h₂]; exact readJsonFrom_escape rfl
  · rw [h₃]; exact readJsonFrom_escape rfl
  · rw [h₄]; exact readJsonFrom_escape rfl
  · rw [h₅]; exact readJsonFrom_escape rfl
  · rw [h₆]; exact readJsonFrom_escape rfl
  · rw [h₇]; exact readJsonFrom_escape rfl
  · exact readJsonFrom_escape (readJsonEscape_hex c rest)
  · have hrange : ¬(c.val < 32 ∨ 128 ≤ c.val) := h₈
    have hquote : c.val ≠ 34 := fun h => h₁ (Fin.ext h)
    have hslash : c.val ≠ 92 := fun h => h₂ (Fin.ext h)
    exact readJsonFrom_plain (decodeOne_ascii (by omega) rest) (by omega) hquote hslash

/-! ## Parts -/

/-- What is read in a string, and in those behind it. -/
def insideParts (bytes : Bytes) : Option (List Nat) :=
  (readJsonFrom bytes).bind fun (cps, rest) => (readJsonParts rest).map (cps ++ ·)

theorem readJsonParts_quote (cs : Bytes) : readJsonParts (quote :: cs) = insideParts cs := by
  rw [readJsonParts.eq_def, insideParts]
  simp only [if_true]
  cases readJsonFrom cs <;> rfl

theorem readJsonParts_white {c : Byte} (hc : c = 32 ∨ c = 10) (cs : Bytes) : readJsonParts (c :: cs) = readJsonParts cs := by
  have hquote : c ≠ quote := by rcases hc with rfl | rfl <;> decide
  rw [readJsonParts.eq_def]
  simp only [if_neg hquote, if_pos hc]

theorem insideParts_quote (cs : Bytes) : insideParts (quote :: cs) = readJsonParts cs := by
  rw [insideParts, readJsonFrom_quote]
  cases h : readJsonParts cs <;> simp [h]

theorem insideParts_encode (c : Byte) (cs : Bytes) :
    insideParts (cgEncodeCharAsJsonStringLiteral c ++ cs) = (insideParts cs).map (c.val :: ·) := by
  rw [insideParts, insideParts, readJsonFrom_encode]
  cases readJsonFrom cs with
  | none => rfl
  | some r => cases h : readJsonParts r.2 <;> simp [h]

/-- White space between two strings. -/
theorem readJsonParts_between {ws : Bytes} (h : ∀ c ∈ ws, c = 32 ∨ c = 10) (rest : Bytes) :
    readJsonParts (ws ++ quote :: rest) = insideParts rest := by
  induction ws with
  | nil => exact readJsonParts_quote rest
  | cons c ws ih =>
    rw [List.cons_append, readJsonParts_white (h c List.mem_cons_self)]
    exact ih fun c hc => h c (List.mem_cons_of_mem _ hc)

/-! ## Pretty text -/

/-- Without `PRETTY_QUOTE_JSON` it is the C literal. -/
theorem cgPrettyQuoteIn_c (multiLine : Bool) (text : Bytes) : cgPrettyQuoteIn false multiLine text = cgPrettyQuotePlaintext multiLine text :=
  rfl

theorem encode_squote : cgEncodeCharAsJsonStringLiteral squote = [squote] := by decide

theorem encode_space : cgEncodeCharAsJsonStringLiteral 32 = [32] := by decide

theorem insideParts_squote (cs : Bytes) : insideParts (squote :: cs) = (insideParts cs).map ((squote : Byte).val :: ·) := by
  have := insideParts_encode squote cs
  rwa [encode_squote] at this

theorem insideParts_space (cs : Bytes) : insideParts (32 :: cs) = (insideParts cs).map (32 :: ·) := by
  have := insideParts_encode 32 cs
  rwa [encode_space] at this

/-- The white space between the parts. -/
theorem white_between (cs : Bytes) : ∀ x ∈ [10, 32, 32] ++ cs.takeWhile (· = 32), x = 32 ∨ x = (10 : Byte) := by
  intro x hx
  rcases List.mem_append.mp hx with hx | hx
  · simp only [List.mem_cons, List.not_mem_nil, or_false] at hx
    obtain rfl | rfl | rfl := hx
    · exact .inr rfl
    · exact .inl rfl
    · exact .inl rfl
  · exact .inl (eq_space_of_mem hx)

/-- A string in one part or in many is read as the text that is laid out, byte by byte. -/
theorem insideParts_pretty (multiLine atStart inQuote : Bool) (text : Bytes) :
    insideParts (prettyQuoteFrom cgEncodeCharAsJsonStringLiteral multiLine atStart inQuote text) =
      some ((laidOut atStart inQuote text).map Fin.val) := by
  fun_induction laidOut atStart inQuote text with
  | case1 => rw [prettyQuoteFrom, insideParts_quote, readJsonParts, List.map_nil]
  | case2 atStart inQuote c cs h ih => rw [prettyQuoteFrom_cons, if_pos h, ih]
  | case3 atStart inQuote c cs h h' ih =>
    rw [prettyQuoteFrom_cons, if_neg h, if_pos h', insideParts_squote, ih]
    rfl
  | case4 atStart inQuote c cs h h₁ h' ih =>
    rw [prettyQuoteFrom_cons, if_neg h, if_neg h₁, if_pos h', insideParts_squote, insideParts_squote, ih]
    rfl
  | case5 atStart inQuote c cs h h₁ h₂ h' ih =>
    rw [prettyQuoteFrom_cons, if_neg h, if_neg h₁, if_neg h₂, if_pos h', insideParts_squote, ih]
    rfl
  | case6 atStart inQuote c cs h h₁ h₂ h₃ h' ih =>
    rw [prettyQuoteFrom_cons, if_neg h, if_neg h₁, if_neg h₂, if_neg h₃, if_pos h']
    cases multiLine with
    | false =>
      rw [if_neg Bool.false_ne_true, insideParts_space, ih]
      rfl
    | true =>
      rw [if_pos rfl]
      show insideParts (32 :: quote :: (([10, 32, 32] ++ cs.takeWhile (· = 32)) ++
        quote :: prettyQuoteFrom cgEncodeCharAsJsonStringLiteral true false inQuote (cs.dropWhile (· = 32)))) = _
      rw [insideParts_space, insideParts_quote, readJsonParts_between (white_between cs), ih]
      rfl
  | case7 atStart inQuote c cs h h₁ h₂ h₃ h₄ ih =>
    rw [prettyQuoteFrom_cons, if_neg h, if_neg h₁, if_neg h₂, if_neg h₃, if_neg h₄, insideParts_encode, ih]
    rfl

theorem readJsonParts_pretty (multiLine : Bool) (text : Bytes) :
    readJsonParts (cgPrettyQuoteIn true multiLine text) = some ((laidOut true false text).map Fin.val) := by
  rw [cgPrettyQuoteIn, if_pos rfl, readJsonParts_quote, insideParts_pretty]

/-! ## High bytes -/

/-- How many bytes are no ASCII characters. -/
def high (text : Bytes) : Nat := text.countP fun c => decide (128 ≤ c)

theorem high_eq_zero {text : Bytes} : high text = 0 ↔ ∀ c ∈ text, c < 128 := by
  rw [high, List.countP_eq_zero]
  refine forall₂_congr fun c _ => ?_
  rw [decide_eq_true_eq]
  exact Fin.not_le

/-- A byte from 128 on is two bytes of UTF-8. -/
theorem solid_encode (c : Byte) : solid (Utf8.encode c.val) = solid [c] + if 128 ≤ c then 1 else 0 := by
  by_cases hc : c.val < 128
  · have hhigh : ¬(128 : Byte) ≤ c := fun h => absurd (show 128 ≤ c.val from h) (by omega)
    rw [Utf8.encode_ascii hc, if_neg hhigh]
    exact congrArg (fun b => solid [b]) (Fin.ofNat_val_eq_self c)
  · have hhigh : (128 : Byte) ≤ c := show 128 ≤ c.val by omega
    have hsolid : ∀ b : Byte, 128 ≤ b.val → solid [b] = 1 := by
      intro b hb
      have hwhite : isWhite b = false := by
        simp only [isWhite, Bool.or_eq_false_iff, decide_eq_false_iff_not]
        constructor <;> rintro rfl <;> exact absurd hb (by decide)
      rw [solid_cons, hwhite]
      rfl
    have hencode : Utf8.encode c.val = [Utf8.byte (0xC0 + c.val / 64)] ++ [Utf8.byte (0x80 + c.val % 64)] := by
      rw [Utf8.encode, if_neg hc, if_pos (by omega)]
      rfl
    rw [hencode, if_pos hhigh, solid, List.countP_append]
    have hlead := hsolid (Utf8.byte (0xC0 + c.val / 64)) (by rw [Utf8.val_byte (by omega)]; omega)
    have hlast := hsolid (Utf8.byte (0x80 + c.val % 64)) (by rw [Utf8.val_byte (by omega)]; omega)
    rw [hsolid c (by omega)]
    exact congrArg₂ (· + ·) hlead hlast

theorem solid_text (text : Bytes) : solid (Utf8.text (text.map Fin.val)) = solid text + high text := by
  induction text with
  | nil => rfl
  | cons c cs ih =>
    have happend : ∀ xs ys : Bytes, solid (xs ++ ys) = solid xs + solid ys := fun xs ys => List.countP_append
    have hsplit : solid (c :: cs) = solid [c] + solid cs := happend [c] cs
    have hhigh : high (c :: cs) = high cs + if 128 ≤ c then 1 else 0 := by
      rw [high, List.countP_cons]
      simp only [decide_eq_true_eq]
      rfl
    rw [List.map_cons, Utf8.text_cons, happend, ih, solid_encode, hsplit, hhigh]
    omega

/-- ASCII characters are themselves in UTF-8. -/
theorem text_ascii {text : Bytes} (h : ∀ c ∈ text, c < 128) : Utf8.text (text.map Fin.val) = text := by
  induction text with
  | nil => rfl
  | cons c cs ih =>
    have hc : c.val < 128 := h c List.mem_cons_self
    rw [List.map_cons, Utf8.text_cons, ih fun x hx => h x (List.mem_cons_of_mem _ hx), Utf8.encode_ascii hc]
    exact congrArg (· :: cs) (Fin.ofNat_val_eq_self c)

/-- The text that is laid out has the same high bytes. -/
theorem high_laidOut (atStart inQuote : Bool) (text : Bytes) : high (laidOut atStart inQuote text) = high text :=
  countP_laidOut (by decide) (by decide) atStart inQuote text

end JsonAux

end CgSql
