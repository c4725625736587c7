import CgSql.Lemmas.JsonEncode
import CgSql.Theorems.SqlTokens

/-!
# JSON strings carry their text

The strings of `cg_encode_json_string_literal` are JSON, and denote the text where it is UTF-8. Those of `cg_pretty_quote_plaintext` denote
it, up to the white space between tokens, where it is ASCII.
-/

namespace CgSql

open Byte QuoteAux

/-- `cg_encode_json_string_literal`, in the memory up to the null: its string is JSON; a text in UTF-8 is read of it; and sequences of
UTF-8 that no stray byte follows are written as they are, between what is written for the rest. -/
def JsonLiteral (text : Bytes) : Prop :=
  ∃ token, cgEncodeJsonStringLiteral (text ++ [0]) = some token ∧ (∃ cps, readJson token = some cps) ∧
    (∀ cps, (∀ cp ∈ cps, Utf8.Scalar cp) → text = Utf8.text cps → readJson token = some cps) ∧
    ∀ before cp after, Utf8.Scalar cp → 0x80 ≤ cp → text = before ++ (Utf8.encode cp ++ after) → (∀ c ∈ after.head?, Utf8.isTail c = false) →
      ∃ front back, cgEncodeJsonStringLiteral (before ++ [0]) = some (quote :: (front ++ [quote])) ∧
        cgEncodeJsonStringLiteral (after ++ [0]) = some (quote :: (back ++ [quote])) ∧
        token = quote :: (front ++ (Utf8.encode cp ++ back) ++ [quote])

/-- A text of UTF-8. -/
def ValidUtf8 (text : Bytes) : Prop := ∃ cps, (∀ cp ∈ cps, Utf8.Scalar cp) ∧ text = Utf8.text cps

/-- `cg_pretty_quote_plaintext` with `PRETTY_QUOTE_JSON`: what a JSON parser reads of its string has the tokens of the text. -/
def JsonPretty (words : WordCut) (multiLine : Bool) (text : Bytes) : Prop :=
  ∃ cps, readJson (cgPrettyQuoteIn true multiLine text) = some cps ∧ sqlTokens words (Utf8.text cps) = sqlTokens words text

namespace JsonAux

/-! ## One string -/

theorem readJson_quote (cs : Bytes) : readJson (quote :: (quote :: cs)) = if cs = [] then some [] else none := by
  rw [readJson, if_pos rfl, readJsonFrom_quote]
  cases cs <;> rfl

theorem readJson_encode (c : Byte) (cs : Bytes) :
    readJson (quote :: (cgEncodeCharAsJsonStringLiteral c ++ cs)) = (readJson (quote :: cs)).map (c.val :: ·) := by
  rw [readJson, if_pos rfl, readJson, if_pos rfl, readJsonFrom_encode]
  rcases readJsonFrom cs with _ | ⟨cps, _ | ⟨b, rest⟩⟩ <;> rfl

theorem readJson_squote (cs : Bytes) : readJson (quote :: (squote :: cs)) = (readJson (quote :: cs)).map ((squote : Byte).val :: ·) := by
  have := readJson_encode squote cs
  rwa [encode_squote] at this

theorem readJson_space (cs : Bytes) : readJson (quote :: (32 :: cs)) = (readJson (quote :: cs)).map (32 :: ·) := by
  have := readJson_encode 32 cs
  rwa [encode_space] at this

theorem noLayout_cons (inQuote : Bool) (c : Byte) (cs : Bytes) :
    NoLayout inQuote (c :: cs) ↔ (c = 10 → inQuote = true) ∧ NoLayout (if c = squote then !inQuote else inQuote) cs := Iff.rfl

theorem noLayout_squote (inQuote : Bool) (cs : Bytes) : NoLayout inQuote (squote :: cs) ↔ NoLayout (!inQuote) cs := by
  rw [noLayout_cons, if_pos rfl]
  exact ⟨fun h => h.2, fun h => ⟨fun h10 => absurd h10 (by decide), h⟩⟩

theorem noLayout_other {inQuote : Bool} {c : Byte} (hquote : c ≠ squote) (hnewline : ¬(¬inQuote = true ∧ c = 10)) (cs : Bytes) :
    NoLayout inQuote (c :: cs) ↔ NoLayout inQuote cs := by
  rw [noLayout_cons, if_neg hquote]
  exact ⟨fun h => h.2, fun h => ⟨fun h10 => not_not.mp fun hno => hnewline ⟨hno, h10⟩, h⟩⟩

/-- A character that is neither a quote nor a newline for layout. -/
theorem ne_squote_of {inQuote : Bool} {c : Byte} (hopen : ¬(¬inQuote = true ∧ c = squote)) (hclose : ¬(inQuote = true ∧ c = squote)) :
    c ≠ squote := by
  intro hc
  cases inQuote with
  | false => exact hopen ⟨Bool.false_ne_true, hc⟩
  | true => exact hclose ⟨rfl, hc⟩

/-- A character in front of the parts. -/
theorem map_parts {multiLine : Bool} {p q : Prop} [Decidable p] [Decidable q] (hiff : q ↔ p) (n : Nat) (ns : List Nat) :
    (if multiLine = true ∧ ¬p then none else some ns).map (n :: ·) = if multiLine = true ∧ ¬q then none else some (n :: ns) := by
  by_cases hparts : multiLine = true ∧ ¬p
  · rw [if_pos hparts, if_pos ⟨hparts.1, fun hq => hparts.2 (hiff.mp hq)⟩]
    rfl
  · rw [if_neg hparts, if_neg fun h => hparts ⟨h.1, fun hp => h.2 (hiff.mpr hp)⟩]
    rfl

/-- What is read where there is one part only: a second one is no JSON. -/
theorem readJson_prettyFrom (multiLine atStart inQuote : Bool) (text : Bytes) :
    readJson (quote :: prettyQuoteFrom cgEncodeCharAsJsonStringLiteral multiLine atStart inQuote text) =
      if multiLine = true ∧ ¬NoLayout inQuote text then none else some ((laidOut atStart inQuote text).map Fin.val) := by
  fun_induction laidOut atStart inQuote text with
  | case1 =>
    rw [prettyQuoteFrom, readJson_quote, if_pos rfl, if_neg fun h => h.2 trivial]
    rfl
  | case2 atStart inQuote c cs h ih =>
    obtain ⟨-, rfl, -⟩ := id h
    have hiff : NoLayout inQuote (32 :: cs) ↔ NoLayout inQuote cs := noLayout_other (by decide) (fun h => absurd h.2 (by decide)) cs
    rw [prettyQuoteFrom_cons, if_pos h, ih]
    exact if_congr (and_congr_right fun _ => not_congr hiff.symm) rfl rfl
  | case3 atStart inQuote c cs h h' ih =>
    obtain ⟨hquote, rfl⟩ := id h'
    obtain rfl : inQuote = false := Bool.not_eq_true _ ▸ hquote
    rw [prettyQuoteFrom_cons, if_neg h, if_pos h', readJson_squote, ih]
    exact map_parts (noLayout_squote false cs) _ _
  | case4 atStart inQuote c cs h h₁ h' ih =>
    obtain ⟨rfl, rfl, hcs⟩ := id h'
    obtain ⟨cs, rfl⟩ := List.head?_eq_some_iff.mp hcs
    rw [prettyQuoteFrom_cons, if_neg h, if_neg h₁, if_pos h', readJson_squote, readJson_squote, ih]
    have hiff : NoLayout true (squote :: squote :: cs) ↔ NoLayout true cs := (noLayout_squote _ _).trans (noLayout_squote _ _)
    rw [map_parts Iff.rfl]
    exact map_parts hiff _ _
  | case5 atStart inQuote c cs h h₁ h₂ h' ih =>
    obtain ⟨rfl, rfl⟩ := id h'
    rw [prettyQuoteFrom_cons, if_neg h, if_neg h₁, if_neg h₂, if_pos h', readJson_squote, ih]
    exact map_parts (noLayout_squote true cs) _ _
  | case6 atStart inQuote c cs h h₁ h₂ h₃ h' ih =>
    obtain ⟨hquote, rfl⟩ := id h'
    obtain rfl : inQuote = false := Bool.not_eq_true _ ▸ hquote
    rw [prettyQuoteFrom_cons, if_neg h, if_neg h₁, if_neg h₂, if_neg h₃, if_pos h']
    cases multiLine with
    | false =>
      rw [if_neg Bool.false_ne_true, readJson_space, ih, if_neg fun h => Bool.false_ne_true h.1, if_neg fun h => Bool.false_ne_true h.1]
      rfl
    | true =>
      rw [if_pos rfl, if_pos ⟨rfl, fun hno => Bool.false_ne_true (hno.1 rfl)⟩]
      show readJson (quote :: (32 :: (quote :: (10 :: _)))) = none
      rw [readJson_space, readJson_quote, if_neg (List.cons_ne_nil _ _)]
      rfl
  | case7 atStart inQuote c cs h h₁ h₂ h₃ h₄ ih =>
    rw [prettyQuoteFrom_cons, if_neg h, if_neg h₁, if_neg h₂, if_neg h₃, if_neg h₄, readJson_encode, ih]
    exact map_parts (noLayout_other (ne_squote_of h₁ h₃) h₄ cs) _ _

/-- The string of `cg_pretty_quote_plaintext`. -/
theorem jsonPretty_iff (words : WordCut) (multiLine : Bool) (text : Bytes) : JsonPretty words multiLine text ↔
    (∀ c ∈ text, c < 128) ∧ NewlinesBetween false .plain text ∧ (multiLine = true → NoLayout false text) := by
  rw [JsonPretty, cgPrettyQuoteIn, if_pos rfl, readJson_prettyFrom]
  by_cases hparts : multiLine = true ∧ ¬NoLayout false text
  · rw [if_pos hparts]
    refine iff_of_false ?_ fun h => hparts.2 (h.2.2 hparts.1)
    rintro ⟨cps, hnone, -⟩
    cases hnone
  · rw [if_neg hparts]
    have hlayout : multiLine = true → NoLayout false text := fun h => not_not.mp fun hno => hparts ⟨h, hno⟩
    constructor
    · rintro ⟨cps, hcps, htokens⟩
      rw [← Option.some.inj hcps, TokenAux.sqlTokens_json] at htokens
      exact ⟨htokens.2, htokens.1, hlayout⟩
    · rintro ⟨hascii, hbetween, -⟩
      exact ⟨_, rfl, (TokenAux.sqlTokens_json words text).mpr ⟨hbetween, hascii⟩⟩

/-- The string of `cg_encode_json_string_literal`. -/
theorem jsonLiteral_of_noNul {text : Bytes} (hnul : 0 ∉ text) : JsonLiteral text := by
  obtain ⟨written, cps, hencoded⟩ := exists_encoded hnul
  refine ⟨_, hencoded.literal, ⟨cps, hencoded.readJson⟩, fun cps' hscalar htext => ?_, fun before cp after hscalar hcp htext hafter => ?_⟩
  · rw [hencoded.readJson, hencoded.valid hscalar htext]
  · subst htext
    simp only [List.mem_append, not_or] at hnul
    obtain ⟨front, cpsFront, hfront⟩ := exists_encoded hnul.1
    obtain ⟨back, cpsBack, hback⟩ := exists_encoded hnul.2.2
    have hall := (encoded_between hscalar hcp hafter hfront hback).literal
    rw [hencoded.literal] at hall
    exact ⟨front, back, hfront.literal, hback.literal, Option.some.inj hall⟩

end JsonAux

open JsonAux

/-- The JSON strings of a text are true to it if and only if, where it is UTF-8, it is ASCII, and every newline behind an even number of
single quotes is between tokens (and, in the layout with one part a line, there is none). -/
theorem jsonStrings_iff (words : WordCut) (multiLine : Bool) {text : Bytes} (hnul : 0 ∉ text) :
    JsonLiteral text ∧ (ValidUtf8 text → JsonPretty words multiLine text) ↔ (ValidUtf8 text →
        (∀ c ∈ text, c < 128) ∧ NewlinesBetween false .plain text ∧ (multiLine = true → NoLayout false text)) := by
  rw [jsonPretty_iff]
  exact and_iff_right (jsonLiteral_of_noNul hnul)

/-- A string of SQL. -/
theorem jsonStrings_hi :
    JsonLiteral [39, 104, 105, 39] ∧ (ValidUtf8 [39, 104, 105, 39] → JsonPretty TokenAux.wholeWords false [39, 104, 105, 39]) := by
  have hascii : ∀ c ∈ ([39, 104, 105, 39] : Bytes), c < 128 := by
    simp only [List.forall_mem_cons, List.not_mem_nil, false_imp_iff, implies_true, and_true]
    decide
  exact (jsonStrings_iff _ _ (by decide)).mpr fun _ => ⟨hascii, by decide, fun h => absurd h Bool.false_ne_true⟩

/-- The string `'é'`. -/
theorem jsonStrings_false : ¬∀ (words : WordCut) (text : Bytes), 0 ∉ text →
    JsonLiteral text ∧ (ValidUtf8 text → JsonPretty words false text) := by
  intro h
  have hvalid : ValidUtf8 [39, 195, 169, 39] := ⟨[39, 233, 39], by simp +decide, by decide⟩
  have hpretty := (h TokenAux.wholeWords [39, 195, 169, 39] (by decide)).2 hvalid
  exact absurd (((jsonPretty_iff _ _ _).mp hpretty).1 195 (by simp)) (by decide)

end CgSql
