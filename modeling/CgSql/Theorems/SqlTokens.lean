import CgSql.Lemmas.SqlTokens
import CgSql.Lemmas.JsonQuoting

/-!
# Pretty text keeps its tokens

The content of the literals of `cg_pretty_quote_plaintext` has the tokens of the text, in C and in JSON, where no newline is taken for
layout in a token and the encoder of characters is true to them.
-/

namespace CgSql

open Byte QuoteAux TokenAux JsonAux

/-- The content of the literals has the tokens of the text. -/
def KeepsTokens (words : WordCut) (forJson multiLine : Bool) (text : Bytes) : Prop :=
  ∃ out, readContent forJson (cgPrettyQuoteIn forJson multiLine text) = some out ∧ sqlTokens words out = sqlTokens words text

namespace TokenAux

/-- The content of C literals. -/
theorem keepsTokens_c (words : WordCut) (multiLine : Bool) (text : Bytes) :
    KeepsTokens words false multiLine text ↔ NewlinesBetween false .plain text ∧ text.IsChain MayFollow := by
  have hcontent : readContent false (cgPrettyQuoteIn false multiLine text) =
      readSource false (cgEncodeCStringLiteral (laidOut true false text)) := by
    rw [cgPrettyQuoteIn_c, ← readSource_pretty multiLine]
    rfl
  rw [KeepsTokens, hcontent, readSource_encode]
  obtain ⟨hchain, hplain, -⟩ := read_encoded (laidOut true false text)
  constructor
  · rintro ⟨out, hread, htokens⟩
    have hsolid : solid out = solid (laidOut true false text) := by rw [solid_laidOut, solid_of_sqlTokens htokens]
    have hfits : (laidOut true false text).IsChain MayFollow := by
      by_contra hno
      have hless := (hplain out hread).2 hno
      omega
    obtain rfl := Option.some.inj ((hchain hfits).symm.trans hread)
    exact ⟨(sqlTokens_laidOut words text).mp htokens, (chain_laidOut true false text).mp hfits⟩
  · rintro ⟨hbetween, hfits⟩
    exact ⟨_, hchain ((chain_laidOut true false text).mpr hfits), (sqlTokens_laidOut words text).mpr hbetween⟩

/-- The tokens of a JSON string in UTF-8. -/
theorem sqlTokens_json (words : WordCut) (text : Bytes) :
    sqlTokens words (Utf8.text ((laidOut true false text).map Fin.val)) = sqlTokens words text ↔
      NewlinesBetween false .plain text ∧ ∀ c ∈ text, c < 128 := by
  have hhigh : high (laidOut true false text) = high text := high_laidOut true false text
  have hascii : (∀ c ∈ text, c < 128) → Utf8.text ((laidOut true false text).map Fin.val) = laidOut true false text := by
    intro h
    exact text_ascii (high_eq_zero.mp (hhigh.trans (high_eq_zero.mpr h)))
  constructor
  · intro htokens
    have hsolid := solid_of_sqlTokens htokens
    rw [solid_text, solid_laidOut] at hsolid
    have htext : ∀ c ∈ text, c < 128 := high_eq_zero.mp (hhigh ▸ (by omega))
    rw [hascii htext] at htokens
    exact ⟨(sqlTokens_laidOut words text).mp htokens, htext⟩
  · rintro ⟨hbetween, htext⟩
    rw [hascii htext]
    exact (sqlTokens_laidOut words text).mpr hbetween

/-- The content of JSON strings. -/
theorem keepsTokens_json (words : WordCut) (multiLine : Bool) (text : Bytes) :
    KeepsTokens words true multiLine text ↔ NewlinesBetween false .plain text ∧ ∀ c ∈ text, c < 128 := by
  have hcontent : readContent true (cgPrettyQuoteIn true multiLine text) = some (Utf8.text ((laidOut true false text).map Fin.val)) := by
    rw [readContent, if_pos rfl, readJsonParts_pretty]
    rfl
  rw [← sqlTokens_json words, KeepsTokens, hcontent]
  constructor
  · rintro ⟨out, hout, htokens⟩
    rwa [← Option.some.inj hout] at htokens
  · intro htokens
    exact ⟨_, rfl, htokens⟩

/-- Words that are not divided. -/
def wholeWords : WordCut := ⟨fun word => [word], fun _ => List.flatten_singleton⟩

end TokenAux

/-- `cg_pretty_quote_plaintext` keeps the tokens of a text if and only if every newline behind an even number of single quotes is between
tokens, and, in C, no hexadecimal digit follows a character with a hexadecimal escape; in JSON, every character is an ASCII one. -/
theorem keepsTokens_iff (words : WordCut) (forJson multiLine : Bool) (text : Bytes) : KeepsTokens words forJson multiLine text ↔
      NewlinesBetween false .plain text ∧ if forJson then ∀ c ∈ text, c < 128 else text.IsChain MayFollow := by
  cases forJson with
  | false => exact keepsTokens_c words multiLine text
  | true => exact keepsTokens_json words multiLine text

/-- `[it's] 'a`, a newline, and ` b'`: the apostrophe in the name makes the newline in the string a space. -/
theorem keepsTokens_false : ¬∀ (words : WordCut) (forJson multiLine : Bool) (text : Bytes), KeepsTokens words forJson multiLine text := by
  intro h
  have hbetween := ((keepsTokens_c wholeWords false _).mp (h wholeWords false false [91, 105, 116, 39, 115, 93, 32, 39, 97, 10, 32, 98, 39])).1
  exact absurd hbetween (by decide)

end CgSql
