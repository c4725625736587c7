import CgSql.Quoting
import CgSql.Lemmas.Literals

/-!
# Quoted literals denote their text

What a C compiler reads in the literals of `cg_encode_c_string_literal` and `cg_pretty_quote_plaintext`: the bytes that were quoted,
exactly when no byte written as a hexadecimal escape is followed by a hexadecimal digit.
-/

namespace CgSql

open Byte InLiteral

/-! ## Reading tokens -/

namespace QuoteAux

open InSource

variable {c : Byte} {s : InLiteral} {p : Byte → Bool} {st : SqlState}

/-- The next character, then the rest. -/
theorem readAll_eq (s : InSource) (c : Byte) (cs : Bytes) : s.readAll (c :: cs) = (s.read c).bind fun p => (p.2.readAll cs).map (p.1 ++ ·) := by
  rw [InSource.readAll]
  cases s.read c with
  | none => rfl
  | some p => cases h : p.2.readAll cs <;> simp [h]

/-- One character is read, then the rest. -/
theorem readAll_cons {s s' : InSource} {out : Bytes} (h : s.read c = some (out, s')) (cs : Bytes) :
    s.readAll (c :: cs) = (s'.readAll cs).map (out ++ ·) := by
  rw [readAll_eq, h]
  rfl

/-- A character that has nothing to say yet. -/
theorem readAll_silent {s s' : InSource} (h : s.read c = some ([], s')) (cs : Bytes) : s.readAll (c :: cs) = s'.readAll cs := by
  rw [readAll_cons h]
  simp

/-- A character in a literal that is no quote. -/
theorem read_inside (h : ¬(c = quote ∧ s ≠ escape)) : (inside s).read c = (s.read c).map fun (out, s') => (out, inside s') := if_neg h

/-- A quote starts a literal. -/
theorem readAll_open (rest : Bytes) : between.readAll (quote :: rest) = (inside plain).readAll rest := readAll_silent rfl rest

/-- A backslash starts an escape. -/
theorem readAll_backslash (rest : Bytes) : (inside plain).readAll (backslash :: rest) = (inside escape).readAll rest :=
  readAll_silent rfl rest

/-- An `x` behind it a hexadecimal one. -/
theorem readAll_x (rest : Bytes) : (inside escape).readAll (120 :: rest) = (inside (hex 0 0)).readAll rest :=
  readAll_silent rfl rest

/-- A quote ends a literal. -/
theorem readAll_quote (rest : Bytes) : (inside plain).readAll (quote :: rest) = between.readAll rest :=
  readAll_silent rfl rest

/-- A character without a hexadecimal escape is read back. -/
theorem readAll_encode_plain (h : isHexEscaped c = false) (rest : Bytes) :
    (inside plain).readAll (cgEncodeCharAsCStringLiteral c ++ rest) = ((inside plain).readAll rest).map (c :: ·) := by
  rcases encode_cases c with hx | ⟨he, hx, ho, hs⟩ | ⟨hc, hb, hq, hn⟩
  · rw [h] at hx
    nomatch hx
  · have hread : (inside escape).read (escapeLetter c) = some ([c], inside plain) := by
      rw [read_inside fun hq => hq.2 rfl]
      simp [InLiteral.read, hx, Option.isNone_iff_eq_none.mp ho, hs]
    rw [he, List.cons_append, List.cons_append, List.nil_append, readAll_backslash, readAll_cons hread]
    rfl
  · have hread : (inside plain).read c = some ([c], inside plain) := by
      rw [read_inside fun h => hq h.1]
      simp [InLiteral.read, readPlain, hb, hq, hn]
    rw [hc]
    exact readAll_cons hread rest

/-- A digit goes on with a hexadecimal escape. -/
theorem readAll_digit {d : Nat} (h : hexValue c = some d) (digits val : Nat) (rest : Bytes) :
    (inside (hex digits val)).readAll (c :: rest) = (inside (hex (digits + 1) (val * 16 + d))).readAll rest := by
  refine readAll_silent ?_ rest
  rw [read_inside]
  · simp [InLiteral.read, h]
  · rintro ⟨rfl, -⟩
    cases h

/-- Anything else ends it. -/
theorem readAll_noDigit (h : hexValue c = none) (digits val : Nat) (rest : Bytes) : (inside (hex digits val)).readAll (c :: rest) =
      (InLiteral.char digits val).bind fun b => ((inside plain).readAll (c :: rest)).map (b :: ·) := by
  by_cases hq : c = quote
  · subst hq
    have hread : (inside (hex digits val)).read quote = (InLiteral.char digits val).map fun b => ([b], between) := by
      have hfinish : InLiteral.finish (hex digits val) = (InLiteral.char digits val).map fun b => [b] := by
        show (do return [← InLiteral.char digits val]) = _
        cases InLiteral.char digits val <;> rfl
      show (InLiteral.finish (hex digits val)).map _ = _
      rw [hfinish, Option.map_map]
      rfl
    rw [readAll_quote, readAll_eq, hread]
    cases InLiteral.char digits val <;> rfl
  · have hread : (inside (hex digits val)).read c =
        (InLiteral.char digits val).bind fun b => (readPlain c).map fun (out, s) => (b :: out, inside s) := by
      rw [read_inside fun h => hq h.1]
      simp only [InLiteral.read, h]
      cases InLiteral.char digits val with
      | none => rfl
      | some b => cases readPlain c <;> rfl
    have hplain : (inside plain).read c = (readPlain c).map fun (out, s) => (out, inside s) := read_inside fun h => hq h.1
    rw [readAll_eq, readAll_eq, hread, hplain]
    cases InLiteral.char digits val with
    | none => rfl
    | some b =>
      cases readPlain c with
      | none => rfl
      | some p =>
        simp only [Option.bind_some, Option.map_some]
        cases (inside p.2).readAll rest <;> rfl

/-- The digits of a hexadecimal escape. -/
theorem readAll_encode_hex (h : isHexEscaped c = true) (rest : Bytes) :
    (inside plain).readAll (cgEncodeCharAsCStringLiteral c ++ rest) = (inside (hex 2 c)).readAll rest := by
  have henc : cgEncodeCharAsCStringLiteral c = hexEscape c := by simpa [isHexEscaped] using h
  have hval : (0 * 16 + (c : Nat) / 16) * 16 + (c : Nat) % 16 = c := by omega
  rw [henc]
  show (inside plain).readAll (backslash :: 120 :: hexDigit (c / 16) :: hexDigit (c % 16) :: rest) = _
  rw [readAll_backslash, readAll_x, readAll_digit (hexValue_hexDigit _ (by omega)), readAll_digit (hexValue_hexDigit _ (by omega)), hval]

/-! ## Reading what was encoded -/

instance : DecidableRel MayFollow := fun _ _ => inferInstanceAs (Decidable (_ → _))

/-- The characters that are not white space. -/
def solid (text : Bytes) : Nat := text.countP fun c => !isWhite c

/-- A text is as solid as its parts. -/
theorem solid_cons (c : Byte) (text : Bytes) : solid (c :: text) = solid text + if isWhite c then 0 else 1 := by
  unfold solid
  rw [List.countP_cons]
  cases isWhite c <;> rfl

/-- A character with a hexadecimal escape is solid. -/
theorem isWhite_of_isHexEscaped : ∀ c : Byte, isHexEscaped c = true → isWhite c = false := by
  decide +kernel

/-- A digit is a character of its own, and solid. -/
theorem encode_of_hexValue : ∀ c : Byte, (hexValue c).isSome = true →
    cgEncodeCharAsCStringLiteral c = [c] ∧ isHexEscaped c = false ∧ isWhite c = false := by
  decide +kernel

/-- No digit follows the hexadecimal escape of the first character, nor any other. -/
theorem chain_cons (c : Byte) (text : Bytes) : (c :: text).IsChain MayFollow ↔
    (isHexEscaped c = true → ∀ y ∈ text.head?, hexValue y = none) ∧ text.IsChain MayFollow := by
  cases text with
  | nil => simp
  | cons y ys =>
    rw [List.isChain_cons_cons]
    simp [MayFollow]

/-- A character without an escape may stand before any other. -/
theorem chain_cons_iff {text : Bytes} (h : isHexEscaped c = false) : (c :: text).IsChain MayFollow ↔ text.IsChain MayFollow := by
  rw [chain_cons, h]
  simp

/-- The first character of an encoded text is a digit only if the text starts with it. -/
theorem noHexNext_flatMap {text : Bytes} (h : ∀ y ∈ text.head?, hexValue y = none) :
    NoHexNext (text.flatMap cgEncodeCharAsCStringLiteral ++ [quote]) := by
  cases text with
  | nil =>
    intro c hc
    obtain rfl := Option.some.inj hc
    rfl
  | cons y ys =>
    have hy := noHexNext_encode y (Option.isNone_iff_eq_none.mpr (h y rfl))
    obtain ⟨x, xs, hx⟩ := List.exists_cons_of_ne_nil (encode_ne_nil y)
    intro c hc
    obtain rfl : c = x := by simpa [hx, eq_comm] using hc
    simpa [hx] using hy

/-- Behind a hexadecimal escape that is at its end. -/
theorem readAll_hex_end {rest : Bytes} (h : NoHexNext rest) (hne : rest ≠ []) (digits val : Nat) : (inside (hex digits val)).readAll rest =
      (InLiteral.char digits val).bind fun b => ((inside plain).readAll rest).map (b :: ·) := by
  cases rest with
  | nil => exact absurd rfl hne
  | cons c rest => exact readAll_noDigit (h c rfl) digits val rest

/-- What is read of an encoded text: the text, if no digit follows a hexadecimal escape, and else something less solid. Behind some
digits of an escape there is one character more. -/
theorem read_encoded (text : Bytes) :
    (text.IsChain MayFollow → (inside plain).readAll (text.flatMap cgEncodeCharAsCStringLiteral ++ [quote]) = some text) ∧
      (∀ out, (inside plain).readAll (text.flatMap cgEncodeCharAsCStringLiteral ++ [quote]) = some out →
        solid out ≤ solid text ∧ (¬text.IsChain MayFollow → solid out < solid text)) ∧ ∀ digits val out,
        (inside (hex digits val)).readAll (text.flatMap cgEncodeCharAsCStringLiteral ++ [quote]) = some out →
          ∃ b out', out = b :: out' ∧ solid out' ≤ solid text ∧
            ((¬text.IsChain MayFollow ∨ ∃ c ∈ text.head?, (hexValue c).isSome) → solid out' < solid text) := by
  induction text with
  | nil =>
    have hplain : (inside plain).readAll ([] ++ [quote]) = some [] := rfl
    refine ⟨fun _ => rfl, ?_, ?_⟩
    · intro out hout
      obtain rfl := Option.some.inj (hplain.symm.trans hout)
      exact ⟨Nat.le_refl _, fun h => absurd List.IsChain.nil h⟩
    · intro digits val out hout
      rw [List.flatMap_nil, List.nil_append, readAll_noDigit rfl] at hout
      obtain ⟨b, _, hb⟩ := Option.bind_eq_some_iff.mp hout
      obtain rfl := Option.some.inj hb
      refine ⟨b, [], rfl, Nat.le_refl _, ?_⟩
      rintro (h | ⟨c, hc, _⟩)
      · exact absurd List.IsChain.nil h
      · nomatch hc
  | cons c text ih =>
    obtain ⟨ihchain, ihplain, ihhex⟩ := ih
    rw [List.flatMap_cons, List.append_assoc]
    have hne : text.flatMap cgEncodeCharAsCStringLiteral ++ [quote] ≠ [] := by simp
    have hplain : ∀ out, (inside plain).readAll (cgEncodeCharAsCStringLiteral c ++
        (text.flatMap cgEncodeCharAsCStringLiteral ++ [quote])) = some out →
        solid out ≤ solid (c :: text) ∧ (¬(c :: text).IsChain MayFollow → solid out < solid (c :: text)) := by
      intro out hout
      cases hc : isHexEscaped c with
      | false =>
        rw [readAll_encode_plain hc] at hout
        obtain ⟨o, ho, rfl⟩ := Option.map_eq_some_iff.mp hout
        obtain ⟨hle, hlt⟩ := ihplain o ho
        rw [solid_cons, solid_cons, chain_cons_iff hc]
        exact ⟨by omega, fun h => by have := hlt h; omega⟩
      | true =>
        rw [readAll_encode_hex hc] at hout
        obtain ⟨b, o, rfl, hle, hlt⟩ := ihhex _ _ out hout
        rw [solid_cons, solid_cons, isWhite_of_isHexEscaped c hc]
        have hb : (if isWhite b then 0 else 1) ≤ 1 := by split <;> omega
        refine ⟨by simp only [Bool.false_eq_true, if_false]; omega, fun h => ?_⟩
        have hstrict : solid o < solid text := by
          refine hlt ?_
          rw [chain_cons] at h
          by_cases htext : text.IsChain MayFollow
          · refine Or.inr ?_
            by_contra hno
            refine h ⟨fun _ y hy => ?_, htext⟩
            by_contra hhex
            exact hno ⟨y, hy, Option.isSome_iff_ne_none.mpr hhex⟩
          · exact Or.inl htext
        simp only [Bool.false_eq_true, if_false]
        omega
    refine ⟨?_, hplain, ?_⟩
    · intro hchain
      obtain ⟨hnext, htail⟩ := (chain_cons c text).mp hchain
      cases hc : isHexEscaped c with
      | false =>
        rw [readAll_encode_plain hc, ihchain htail]
        rfl
      | true =>
        have hchar : InLiteral.char 2 c = some c := dif_pos ⟨by decide, c.isLt⟩
        rw [readAll_encode_hex hc, readAll_hex_end (noHexNext_flatMap (hnext hc)) hne, hchar, ihchain htail]
        rfl
    · intro digits val out hout
      cases hc : hexValue c with
      | some d =>
        obtain ⟨henc, _, hwhite⟩ := encode_of_hexValue c (by rw [hc]; rfl)
        rw [henc, List.cons_append, List.nil_append, readAll_digit hc] at hout
        obtain ⟨b, o, rfl, hle, _⟩ := ihhex _ _ out hout
        refine ⟨b, o, rfl, ?_, fun _ => ?_⟩
        · rw [solid_cons]
          omega
        · rw [solid_cons, hwhite]
          simp only [Bool.false_eq_true, if_false]
          omega
      | none =>
        have hnohex : NoHexNext (cgEncodeCharAsCStringLiteral c ++ (text.flatMap cgEncodeCharAsCStringLiteral ++ [quote])) := by
          have hhead : ∀ y ∈ (c :: text).head?, hexValue y = none := by
            intro y hy
            obtain rfl := Option.some.inj hy
            exact hc
          have h := noHexNext_flatMap hhead
          rwa [List.flatMap_cons, List.append_assoc] at h
        rw [readAll_hex_end hnohex (by simp)] at hout
        obtain ⟨b, _, hb⟩ := Option.bind_eq_some_iff.mp hout
        obtain ⟨o, ho, rfl⟩ := Option.map_eq_some_iff.mp hb
        obtain ⟨hle, hlt⟩ := hplain o ho
        refine ⟨b, o, rfl, hle, ?_⟩
        rintro (hchain | ⟨y, hy, hhex⟩)
        · exact hlt hchain
        · obtain rfl := Option.some.inj hy
          rw [hc] at hhex
          nomatch hhex

/-- The whole literal. -/
theorem readSource_encode (text : Bytes) : readSource false (cgEncodeCStringLiteral text) =
    (inside plain).readAll (text.flatMap cgEncodeCharAsCStringLiteral ++ [quote]) :=
  readAll_open _

/-! ## The parts of a literal -/

/-- One step of `cg_pretty_quote_plaintext`. -/
theorem prettyQuoteFrom_cons (encode : Byte → Bytes) (multiLine atStart inQuote : Bool) (c : Byte) (cs : Bytes) :
    prettyQuoteFrom encode multiLine atStart inQuote (c :: cs) =
      if atStart ∧ c = 32 ∧ cs.head? = some 32 then prettyQuoteFrom encode multiLine atStart inQuote cs
      else if ¬inQuote ∧ c = squote then squote :: prettyQuoteFrom encode multiLine false true cs
      else if inQuote ∧ c = squote ∧ cs.head? = some squote then
        squote :: squote :: prettyQuoteFrom encode multiLine false inQuote (cs.drop 1)
      else if inQuote ∧ c = squote then squote :: prettyQuoteFrom encode multiLine false false cs else if ¬inQuote ∧ c = 10 then
        if multiLine then [32, quote, 10, 32, 32] ++ cs.takeWhile (· = 32) ++
            quote :: prettyQuoteFrom encode multiLine false inQuote (cs.dropWhile (· = 32))
        else 32 :: prettyQuoteFrom encode multiLine false inQuote (cs.dropWhile (· = 32))
      else encode c ++ prettyQuoteFrom encode multiLine false inQuote cs := by
  rw [prettyQuoteFrom]

/-- Where a token may start: between characters, or in a hexadecimal escape. -/
def Open (s : InLiteral) : Prop := s = plain ∨ ∃ digits val, s = hex digits val

/-- Two sources that are read alike behind a token are read alike with it. -/
theorem readAll_token {xs ys : Bytes} (hplain : (inside plain).readAll xs = (inside plain).readAll ys)
    (hhex : (isHexEscaped c = true ∨ (hexValue c).isSome = true) →
      ∀ digits val, (inside (hex digits val)).readAll xs = (inside (hex digits val)).readAll ys) (hs : Open s) :
    (inside s).readAll (cgEncodeCharAsCStringLiteral c ++ xs) = (inside s).readAll (cgEncodeCharAsCStringLiteral c ++ ys) := by
  have hfirst : (inside plain).readAll (cgEncodeCharAsCStringLiteral c ++ xs) =
      (inside plain).readAll (cgEncodeCharAsCStringLiteral c ++ ys) := by
    cases hc : isHexEscaped c with
    | false => rw [readAll_encode_plain hc, readAll_encode_plain hc, hplain]
    | true => rw [readAll_encode_hex hc, readAll_encode_hex hc, hhex (Or.inl hc)]
  rcases hs with rfl | ⟨digits, val, rfl⟩
  · exact hfirst
  · cases hc : hexValue c with
    | some d =>
      obtain ⟨henc, _⟩ := encode_of_hexValue c (by rw [hc]; rfl)
      rw [henc, List.cons_append, List.cons_append, readAll_digit hc, readAll_digit hc]
      exact hhex (Or.inr (by rw [hc]; rfl)) _ _
    | none =>
      have hno := noHexNext_encode c (Option.isNone_iff_eq_none.mpr hc)
      obtain ⟨x, tok, hx⟩ := List.exists_cons_of_ne_nil (encode_ne_nil c)
      have hxno : hexValue x = none := by simpa [hx] using hno
      rw [hx, List.cons_append, List.cons_append] at hfirst ⊢
      rw [readAll_noDigit hxno, readAll_noDigit hxno, hfirst]

/-- The same where they are read alike from everywhere. -/
theorem readAll_same {xs ys : Bytes} (h : ∀ {s : InLiteral}, Open s → (inside s).readAll xs = (inside s).readAll ys) (hs : Open s) :
    (inside s).readAll (cgEncodeCharAsCStringLiteral c ++ xs) = (inside s).readAll (cgEncodeCharAsCStringLiteral c ++ ys) :=
  readAll_token (h (Or.inl rfl)) (fun _ digits val => h (Or.inr ⟨digits, val, rfl⟩)) hs

/-- White space between two literals. -/
theorem readAll_between {ws : Bytes} (h : ∀ c ∈ ws, c = 32 ∨ c = 10) (rest : Bytes) :
    between.readAll (ws ++ quote :: rest) = (inside plain).readAll rest := by
  induction ws with
  | nil => exact readAll_open rest
  | cons c ws ih =>
    have hread : between.read c = some ([], between) := by
      rcases h c List.mem_cons_self with rfl | rfl <;> rfl
    rw [List.cons_append, readAll_silent hread]
    exact ih fun c hc => h c (List.mem_cons_of_mem _ hc)

/-- A literal in one part or in many is read as that of the text that is laid out. -/
theorem readAll_pretty (multiLine atStart inQuote : Bool) (text : Bytes) (hs : Open s) :
    (inside s).readAll (prettyQuoteFrom cgEncodeCharAsCStringLiteral multiLine atStart inQuote text) =
      (inside s).readAll ((laidOut atStart inQuote text).flatMap cgEncodeCharAsCStringLiteral ++ [quote]) := by
  have hsquote : cgEncodeCharAsCStringLiteral squote = [squote] := by decide
  have hspace : cgEncodeCharAsCStringLiteral 32 = [32] := by decide
  fun_induction laidOut atStart inQuote text generalizing s with
  | case1 => rw [prettyQuoteFrom]; rfl
  | case2 atStart inQuote c cs h ih =>
    rw [prettyQuoteFrom_cons, if_pos h]
    exact ih hs
  | case3 atStart inQuote c cs h h' ih =>
    rw [prettyQuoteFrom_cons, if_neg h, if_pos h', List.flatMap_cons, List.append_assoc]
    have htoken := readAll_same (c := squote) ih hs
    rwa [hsquote] at htoken ⊢
  | case4 atStart inQuote c cs h h₁ h' ih =>
    rw [prettyQuoteFrom_cons, if_neg h, if_neg h₁, if_pos h', List.flatMap_cons, List.flatMap_cons, List.append_assoc, List.append_assoc]
    have htoken := readAll_same (c := squote) (readAll_same (c := squote) ih) hs
    rwa [hsquote] at htoken ⊢
  | case5 atStart inQuote c cs h h₁ h₂ h' ih =>
    rw [prettyQuoteFrom_cons, if_neg h, if_neg h₁, if_neg h₂, if_pos h', List.flatMap_cons, List.append_assoc]
    have htoken := readAll_same (c := squote) ih hs
    rwa [hsquote] at htoken ⊢
  | case6 atStart inQuote c cs h h₁ h₂ h₃ h' ih =>
    rw [prettyQuoteFrom_cons, if_neg h, if_neg h₁, if_neg h₂, if_neg h₃, if_pos h', List.flatMap_cons, List.append_assoc]
    cases multiLine with
    | false =>
      have htoken := readAll_same (c := 32) ih hs
      rwa [hspace] at htoken ⊢
    | true =>
      rw [if_pos rfl]
      have hparts : (inside plain).readAll (quote :: ([10, 32, 32] ++ cs.takeWhile (· = 32) ++
          quote :: prettyQuoteFrom cgEncodeCharAsCStringLiteral true false inQuote (cs.dropWhile (· = 32)))) =
          (inside plain).readAll ((laidOut false inQuote (cs.dropWhile (· = 32))).flatMap cgEncodeCharAsCStringLiteral ++ [quote]) := by
        rw [readAll_quote, readAll_between]
        · exact ih (Or.inl rfl)
        · intro x hx
          rcases List.mem_append.mp hx with hx | hx
          · simp only [List.mem_cons, List.not_mem_nil, or_false] at hx
            rcases hx with rfl | rfl | rfl
            · exact Or.inr rfl
            · exact Or.inl rfl
            · exact Or.inl rfl
          · exact Or.inl (of_decide_eq_true (List.all_eq_true.mp List.all_takeWhile x hx))
      have htoken := readAll_token (c := 32) hparts (fun h => absurd h (by decide)) hs
      rwa [hspace] at htoken ⊢
  | case7 atStart inQuote c cs h h₁ h₂ h₃ h₄ ih =>
    rw [prettyQuoteFrom_cons, if_neg h, if_neg h₁, if_neg h₂, if_neg h₃, if_neg h₄, List.flatMap_cons, List.append_assoc]
    exact readAll_same ih hs

/-! ## The text that is laid out -/

/-- What does not see a space in front does not see any number of them. -/
theorem apply_dropWhile {α : Sort*} (f : Bytes → α) (h : ∀ cs, f (32 :: cs) = f cs) (text : Bytes) : f (text.dropWhile (· = 32)) = f text := by
  induction text with
  | nil => rfl
  | cons c cs ih =>
    rw [List.dropWhile_cons]
    by_cases hc : c = 32
    · subst hc
      rw [if_pos (decide_eq_true rfl), ih, h]
    · rw [if_neg (by simpa using hc)]

/-- Spaces in front change nothing. -/
theorem chain_dropWhile (text : Bytes) : (text.dropWhile (· = 32)).IsChain MayFollow ↔ text.IsChain MayFollow :=
  iff_of_eq (apply_dropWhile (·.IsChain MayFollow) (fun _ => propext (chain_cons_iff (by decide))) text)

/-- Nor are they counted. -/
theorem countP_dropWhile (hspace : p 32 = false) (text : Bytes) : (text.dropWhile (· = 32)).countP p = text.countP p :=
  apply_dropWhile (·.countP p) (fun _ => List.countP_cons_of_neg (by simp [hspace])) text

/-- The text that is laid out starts with a digit where the text does. -/
theorem head_laidOut (atStart inQuote : Bool) (text : Bytes) :
    (∀ y ∈ (laidOut atStart inQuote text).head?, hexValue y = none) ↔ ∀ y ∈ text.head?, hexValue y = none := by
  fun_induction laidOut atStart inQuote text with
  | case1 => rfl
  | case2 atStart inQuote c cs h ih =>
    obtain ⟨_, rfl, hcs⟩ := h
    rw [ih, hcs]
    rfl
  | case3 atStart inQuote c cs h h' ih =>
    obtain ⟨_, rfl⟩ := h'
    rfl
  | case4 atStart inQuote c cs h h₁ h' ih =>
    obtain ⟨_, rfl, _⟩ := h'
    rfl
  | case5 atStart inQuote c cs h h₁ h₂ h' ih =>
    obtain ⟨_, rfl⟩ := h'
    rfl
  | case6 atStart inQuote c cs h h₁ h₂ h₃ h' ih =>
    obtain ⟨_, rfl⟩ := h'
    exact ⟨fun _ y hy => by obtain rfl := Option.some.inj hy; rfl, fun _ y hy => by obtain rfl := Option.some.inj hy; rfl⟩
  | case7 => rfl

/-- Digits follow hexadecimal escapes in the one where they do in the other. -/
theorem chain_laidOut (atStart inQuote : Bool) (text : Bytes) : (laidOut atStart inQuote text).IsChain MayFollow ↔ text.IsChain MayFollow := by
  have hsquote : isHexEscaped squote = false := by decide
  fun_induction laidOut atStart inQuote text with
  | case1 => rfl
  | case2 atStart inQuote c cs h ih =>
    obtain ⟨_, rfl, _⟩ := h
    exact ih.trans (chain_cons_iff (by decide)).symm
  | case3 atStart inQuote c cs h h' ih =>
    obtain ⟨_, rfl⟩ := h'
    rw [chain_cons_iff hsquote, chain_cons_iff hsquote]
    exact ih
  | case4 atStart inQuote c cs h h₁ h' ih =>
    obtain ⟨_, rfl, hcs⟩ := h'
    obtain ⟨cs, rfl⟩ := List.head?_eq_some_iff.mp hcs
    rw [chain_cons_iff hsquote, chain_cons_iff hsquote, chain_cons_iff hsquote, chain_cons_iff hsquote]
    exact ih
  | case5 atStart inQuote c cs h h₁ h₂ h' ih =>
    obtain ⟨_, rfl⟩ := h'
    rw [chain_cons_iff hsquote, chain_cons_iff hsquote]
    exact ih
  | case6 atStart inQuote c cs h h₁ h₂ h₃ h' ih =>
    obtain ⟨_, rfl⟩ := h'
    rw [chain_cons_iff (by decide), chain_cons_iff (by decide)]
    exact ih.trans (chain_dropWhile cs)
  | case7 atStart inQuote c cs h h₁ h₂ h₃ h₄ ih =>
    rw [chain_cons, chain_cons, head_laidOut]
    exact and_congr Iff.rfl ih

/-- The one has as many characters as the other, of a kind that white space is not of. -/
theorem countP_laidOut (hspace : p 32 = false) (hnewline : p 10 = false) (atStart inQuote : Bool) (text : Bytes) :
    (laidOut atStart inQuote text).countP p = text.countP p := by
  fun_induction laidOut atStart inQuote text with
  | case1 => rfl
  | case2 atStart inQuote c cs h ih =>
    obtain ⟨_, rfl, _⟩ := h
    rw [ih, List.countP_cons, hspace]
    rfl
  | case3 atStart inQuote c cs h h' ih =>
    obtain ⟨_, rfl⟩ := h'
    rw [List.countP_cons, List.countP_cons, ih]
  | case4 atStart inQuote c cs h h₁ h' ih =>
    obtain ⟨_, rfl, hcs⟩ := h'
    obtain ⟨cs, rfl⟩ := List.head?_eq_some_iff.mp hcs
    rw [List.countP_cons, List.countP_cons, List.countP_cons, List.countP_cons, ih]
    rfl
  | case5 atStart inQuote c cs h h₁ h₂ h' ih =>
    obtain ⟨_, rfl⟩ := h'
    rw [List.countP_cons, List.countP_cons, ih]
  | case6 atStart inQuote c cs h h₁ h₂ h₃ h' ih =>
    obtain ⟨_, rfl⟩ := h'
    rw [List.countP_cons, List.countP_cons, ih, countP_dropWhile hspace, hspace, hnewline]
  | case7 atStart inQuote c cs h h₁ h₂ h₃ h₄ ih => rw [List.countP_cons, List.countP_cons, ih]

/-- The one is as solid as the other. -/
theorem solid_laidOut (atStart inQuote : Bool) (text : Bytes) : solid (laidOut atStart inQuote text) = solid text :=
  countP_laidOut rfl rfl atStart inQuote text

/-! ## White space -/

/-- White space does not move the scanner. -/
theorem next_of_isWhite (h : isWhite c = true) (st : SqlState) : st.next c = st := by
  have hc : c = 32 ∨ c = 10 := by simpa [isWhite] using h
  rcases hc with rfl | rfl <;> cases st <;> rfl

/-- A character of the text. -/
theorem squeezeFrom_cons (st : SqlState) (white : Bool) (c : Byte) (cs : Bytes) : squeezeFrom st white (c :: cs) =
    if st ≠ .string ∧ isWhite c then (if white then [] else [32]) ++ squeezeFrom st true cs else c :: squeezeFrom (st.next c) false cs := rfl

/-- What is left is as solid as the text. -/
theorem solid_squeezeFrom (st : SqlState) (white : Bool) (text : Bytes) : solid (squeezeFrom st white text) = solid text := by
  induction text generalizing st white with
  | nil => rfl
  | cons c cs ih =>
    rw [squeezeFrom_cons, solid_cons]
    split
    · rename_i h
      rw [if_pos h.2]
      cases white with
      | true => exact ih st true
      | false =>
        show solid (32 :: squeezeFrom st true cs) = _
        rw [solid_cons, ih]
        rfl
    · rw [solid_cons, ih]

/-- In a run of white space more spaces change nothing. -/
theorem squeezeFrom_dropWhile (hst : st ≠ .string) (text : Bytes) : squeezeFrom st true (text.dropWhile (· = 32)) = squeezeFrom st true text :=
  apply_dropWhile (squeezeFrom st true) (fun cs => by rw [squeezeFrom_cons, if_pos ⟨hst, rfl⟩]; rfl) text

/-- A character that is not white space is kept. -/
theorem squeezeFrom_solid (h : isWhite c = false) (st : SqlState) (white : Bool) (cs : Bytes) :
    squeezeFrom st white (c :: cs) = c :: squeezeFrom (st.next c) false cs := by
  rw [squeezeFrom_cons, if_neg]
  rw [h]
  exact fun hwhite => Bool.false_ne_true hwhite.2

/-- White space outside of a string literal is squeezed. -/
theorem squeezeFrom_white (hst : st ≠ .string) (h : isWhite c = true) (white : Bool) (cs : Bytes) :
    squeezeFrom st white (c :: cs) = (if white then [] else [32]) ++ squeezeFrom st true cs := by
  rw [squeezeFrom_cons, if_pos ⟨hst, h⟩]

/-- A character, and those that follow. -/
theorem newlinesOutside_cons (inQuote : Bool) (st : SqlState) (c : Byte) (cs : Bytes) :
    NewlinesOutside inQuote st (c :: cs) ↔ (c = 10 → inQuote = false → st ≠ .string) ∧
      NewlinesOutside (if c = squote then !inQuote else inQuote) (st.next c) cs := Iff.rfl

/-- A space does not move the count of quotes. -/
theorem newlinesOutside_space (inQuote : Bool) (st : SqlState) (cs : Bytes) :
    NewlinesOutside inQuote st (32 :: cs) ↔ NewlinesOutside inQuote st cs := by
  have hnext : st.next 32 = st := next_of_isWhite rfl st
  rw [newlinesOutside_cons, if_neg (by decide), hnext]
  exact ⟨fun h => h.2, fun h => ⟨fun h10 => absurd h10 (by decide), h⟩⟩

/-- A quote does. -/
theorem newlinesOutside_squote (inQuote : Bool) (st : SqlState) (cs : Bytes) :
    NewlinesOutside inQuote st (squote :: cs) ↔ NewlinesOutside (!inQuote) (st.next squote) cs := by
  rw [newlinesOutside_cons, if_pos rfl]
  exact ⟨fun h => h.2, fun h => ⟨fun h10 => absurd h10 (by decide), h⟩⟩

/-- Nor do more of them. -/
theorem newlinesOutside_dropWhile (inQuote : Bool) (st : SqlState) (text : Bytes) :
    NewlinesOutside inQuote st (text.dropWhile (· = 32)) ↔ NewlinesOutside inQuote st text :=
  iff_of_eq (apply_dropWhile (NewlinesOutside inQuote st) (fun cs => propext (newlinesOutside_space inQuote st cs)) text)

/-- Laying a text out keeps it up to white space if and only if no newline that is laid out lies in a string literal. -/
theorem squeezeFrom_laidOut (atStart inQuote : Bool) (text : Bytes) (white : Bool) (hst : atStart = true → st ≠ .string) :
    squeezeFrom st white (laidOut atStart inQuote text) = squeezeFrom st white text ↔ NewlinesOutside inQuote st text := by
  fun_induction laidOut atStart inQuote text generalizing st white with
  | case1 => exact ⟨fun _ => trivial, fun _ => rfl⟩
  | case2 atStart inQuote c cs h ih =>
    obtain ⟨hstart, rfl, hcs⟩ := h
    obtain ⟨cs, rfl⟩ := List.head?_eq_some_iff.mp hcs
    have hspaces : squeezeFrom st white (32 :: 32 :: cs) = squeezeFrom st white (32 :: cs) := by
      rw [squeezeFrom_white (hst hstart) rfl, squeezeFrom_white (hst hstart) rfl, squeezeFrom_white (hst hstart) rfl]
      rfl
    rw [hspaces, newlinesOutside_space]
    exact ih white hst
  | case3 atStart inQuote c cs h h' ih =>
    obtain ⟨hquote, rfl⟩ := h'
    obtain rfl : inQuote = false := Bool.not_eq_true _ ▸ hquote
    rw [squeezeFrom_solid rfl, squeezeFrom_solid rfl, List.cons_inj_right, newlinesOutside_squote]
    exact ih false (fun h => nomatch h)
  | case4 atStart inQuote c cs h h₁ h' ih =>
    obtain ⟨rfl, rfl, hcs⟩ := h'
    obtain ⟨cs, rfl⟩ := List.head?_eq_some_iff.mp hcs
    rw [squeezeFrom_solid rfl, squeezeFrom_solid rfl, squeezeFrom_solid rfl, squeezeFrom_solid rfl, List.cons_inj_right,
      List.cons_inj_right, newlinesOutside_squote, newlinesOutside_squote]
    exact ih false (fun h => nomatch h)
  | case5 atStart inQuote c cs h h₁ h₂ h' ih =>
    obtain ⟨rfl, rfl⟩ := h'
    rw [squeezeFrom_solid rfl, squeezeFrom_solid rfl, List.cons_inj_right, newlinesOutside_squote]
    exact ih false (fun h => nomatch h)
  | case6 atStart inQuote c cs h h₁ h₂ h₃ h' ih =>
    obtain ⟨hquote, rfl⟩ := h'
    obtain rfl : inQuote = false := Bool.not_eq_true _ ▸ hquote
    have hnext : st.next 10 = st := next_of_isWhite rfl st
    by_cases hstring : st = .string
    · refine ⟨fun heq => ?_, fun hout => absurd hstring (hout.1 rfl rfl)⟩
      rw [squeezeFrom_cons, if_neg fun h => h.1 hstring, squeezeFrom_cons, if_neg fun h => h.1 hstring] at heq
      exact absurd (List.cons.inj heq).1 (by decide)
    · rw [squeezeFrom_white hstring rfl, squeezeFrom_white hstring rfl, List.append_right_inj, ← squeezeFrom_dropWhile hstring cs]
      refine (ih true fun h => nomatch h).trans ((newlinesOutside_dropWhile false st cs).trans ?_)
      rw [newlinesOutside_cons, if_neg (by decide), hnext]
      exact ⟨fun h => ⟨fun _ _ => hstring, h⟩, fun h => h.2⟩
  | case7 atStart inQuote c cs h h₁ h₂ h₃ h₄ ih =>
    have hc : c ≠ squote := by
      intro hc
      cases inQuote with
      | false => exact h₁ ⟨Bool.false_ne_true, hc⟩
      | true => exact h₃ ⟨rfl, hc⟩
    have hout : NewlinesOutside inQuote st (c :: cs) ↔ NewlinesOutside inQuote (st.next c) cs := by
      rw [newlinesOutside_cons, if_neg hc]
      refine ⟨fun h => h.2, fun h => ⟨fun h10 hquote => absurd ⟨?_, h10⟩ h₄, h⟩⟩
      rw [hquote]
      exact Bool.false_ne_true
    rw [hout, squeezeFrom_cons, squeezeFrom_cons]
    by_cases hwhite : st ≠ .string ∧ isWhite c = true
    · rw [if_pos hwhite, if_pos hwhite, List.append_right_inj, next_of_isWhite hwhite.2]
      exact ih true (fun h => nomatch h)
    · rw [if_neg hwhite, if_neg hwhite, List.cons_inj_right]
      exact ih false (fun h => nomatch h)

/-! ## Trigraphs -/

/-- The first character of a literal is that of the text, as far as it is neither white space nor a quote. -/
theorem head_pretty (hspace : p 32 = false) (hnewline : p 10 = false) (hquote : p quote = false)
    (hencode : ∀ c, (cgEncodeCharAsCStringLiteral c).head?.any p = p c) (multiLine atStart inQuote : Bool) (text : Bytes) :
    (prettyQuoteFrom cgEncodeCharAsCStringLiteral multiLine atStart inQuote text).head?.any p = text.head?.any p := by
  fun_induction laidOut atStart inQuote text with
  | case1 =>
    rw [prettyQuoteFrom]
    simp [hquote]
  | case2 atStart inQuote c cs h ih =>
    rw [prettyQuoteFrom_cons, if_pos h, ih, h.2.1, h.2.2]
    rfl
  | case3 atStart inQuote c cs h h' ih =>
    rw [prettyQuoteFrom_cons, if_neg h, if_pos h', h'.2]
    rfl
  | case4 atStart inQuote c cs h h₁ h' ih =>
    rw [prettyQuoteFrom_cons, if_neg h, if_neg h₁, if_pos h', h'.2.1]
    rfl
  | case5 atStart inQuote c cs h h₁ h₂ h' ih =>
    rw [prettyQuoteFrom_cons, if_neg h, if_neg h₁, if_neg h₂, if_pos h', h'.2]
    rfl
  | case6 atStart inQuote c cs h h₁ h₂ h₃ h' ih =>
    rw [prettyQuoteFrom_cons, if_neg h, if_neg h₁, if_neg h₂, if_neg h₃, if_pos h', h'.2]
    cases multiLine <;> simp [hspace, hnewline]
  | case7 atStart inQuote c cs h h₁ h₂ h₃ h₄ ih =>
    rw [prettyQuoteFrom_cons, if_neg h, if_neg h₁, if_neg h₂, if_neg h₃, if_neg h₄]
    have hc := hencode c
    obtain ⟨x, xs, hx⟩ := List.exists_cons_of_ne_nil (encode_ne_nil c)
    rw [hx] at hc ⊢
    exact hc

/-- Only a question mark is written with one. -/
theorem question_encode : ∀ c : Byte, (cgEncodeCharAsCStringLiteral c).head?.any (· = question) = decide (c = question) := by
  decide +kernel

/-- Question marks in front, and the character behind them. -/
theorem hasTrigraph_question (cs : Bytes) : hasTrigraph (question :: cs) =
    (cs.head?.any (· = question) && (cs.drop 1).head?.any (fun x => (trigraph x).isSome) || hasTrigraph cs) := by
  match cs with
  | [] => rfl
  | [b] => simp [hasTrigraph]
  | b :: c :: cs => simp [hasTrigraph]

/-- A question mark stands for itself. -/
theorem pretty_question (multiLine atStart inQuote : Bool) (cs : Bytes) :
    prettyQuoteFrom cgEncodeCharAsCStringLiteral multiLine atStart inQuote (question :: cs) =
      question :: prettyQuoteFrom cgEncodeCharAsCStringLiteral multiLine false inQuote cs := by
  rw [prettyQuoteFrom_cons, if_neg fun h => absurd h.2.1 (by decide), if_neg fun h => absurd h.2 (by decide),
    if_neg fun h => absurd h.2.1 (by decide), if_neg fun h => absurd h.2 (by decide), if_neg fun h => absurd h.2 (by decide)]
  rfl

/-- The characters that are skipped are spaces. -/
theorem eq_space_of_mem {cs : Bytes} {x : Byte} (h : x ∈ cs.takeWhile (· = 32)) : x = 32 :=
  of_decide_eq_true (List.all_eq_true.mp List.all_takeWhile x h)

/-- The literal has a trigraph where the text has one. -/
theorem hasTrigraph_pretty (multiLine atStart inQuote : Bool) (text : Bytes) :
    hasTrigraph (prettyQuoteFrom cgEncodeCharAsCStringLiteral multiLine atStart inQuote text) = hasTrigraph text := by
  have hsquote : squote ≠ question := by decide
  fun_induction laidOut atStart inQuote text with
  | case1 => rw [prettyQuoteFrom]; rfl
  | case2 atStart inQuote c cs h ih =>
    rw [prettyQuoteFrom_cons, if_pos h, ih, h.2.1, hasTrigraph_cons (by decide)]
  | case3 atStart inQuote c cs h h' ih =>
    rw [prettyQuoteFrom_cons, if_neg h, if_pos h', h'.2, hasTrigraph_cons hsquote, hasTrigraph_cons hsquote, ih]
  | case4 atStart inQuote c cs h h₁ h' ih =>
    obtain ⟨cs, rfl⟩ := List.head?_eq_some_iff.mp h'.2.2
    rw [prettyQuoteFrom_cons, if_neg h, if_neg h₁, if_pos h', h'.2.1, hasTrigraph_cons hsquote, hasTrigraph_cons hsquote,
      hasTrigraph_cons hsquote, hasTrigraph_cons hsquote, ih]
    rfl
  | case5 atStart inQuote c cs h h₁ h₂ h' ih =>
    rw [prettyQuoteFrom_cons, if_neg h, if_neg h₁, if_neg h₂, if_pos h', h'.2, hasTrigraph_cons hsquote, hasTrigraph_cons hsquote, ih]
  | case6 atStart inQuote c cs h h₁ h₂ h₃ h' ih =>
    rw [prettyQuoteFrom_cons, if_neg h, if_neg h₁, if_neg h₂, if_neg h₃, if_pos h', h'.2, hasTrigraph_cons (by decide)]
    have hdrop : hasTrigraph (cs.dropWhile (· = 32)) = hasTrigraph cs := by
      have hspaces : question ∉ cs.takeWhile (· = 32) := fun hmem => absurd (eq_space_of_mem hmem) (by decide)
      rw [← hasTrigraph_append hspaces, List.takeWhile_append_dropWhile]
    cases multiLine with
    | false => rw [if_neg Bool.false_ne_true, hasTrigraph_cons (by decide), ih, hdrop]
    | true =>
      have hbreak : question ∉ [32, quote, 10, 32, 32] ++ cs.takeWhile (· = 32) := by
        intro hmem
        rcases List.mem_append.mp hmem with hmem | hmem
        · exact absurd hmem (by decide)
        · exact absurd (eq_space_of_mem hmem) (by decide)
      rw [if_pos rfl, hasTrigraph_append hbreak, hasTrigraph_cons (by decide), ih, hdrop]
  | case7 atStart inQuote c cs h h₁ h₂ h₃ h₄ ih =>
    rw [prettyQuoteFrom_cons, if_neg h, if_neg h₁, if_neg h₂, if_neg h₃, if_neg h₄]
    by_cases hc : c = question
    · subst hc
      have henc : cgEncodeCharAsCStringLiteral question = [question] := by decide
      rw [henc, List.cons_append, List.nil_append, hasTrigraph_question, hasTrigraph_question, ih,
        head_pretty (by decide) (by decide) (by decide) question_encode]
      cases cs with
      | nil => rfl
      | cons b cs =>
        by_cases hb : b = question
        · subst hb
          have hthird := head_pretty (p := fun x => (trigraph x).isSome) (by decide) (by decide) (by decide) trigraph_encode
            multiLine false inQuote cs
          rw [pretty_question, List.drop_one, List.drop_one, List.tail_cons, List.tail_cons, hthird]
        · have hno : (b :: cs).head?.any (· = question) = false := by simpa using hb
          rw [hno, Bool.false_and, Bool.false_and]
    · rw [hasTrigraph_append (question_notMem_encode c hc), hasTrigraph_cons hc, ih]

/-- The same of the plain literal. -/
theorem hasTrigraph_literal (text : Bytes) : hasTrigraph (cgEncodeCStringLiteral text) = hasTrigraph text := by
  show hasTrigraph (quote :: (text.flatMap cgEncodeCharAsCStringLiteral ++ [quote])) = _
  rw [hasTrigraph_cons (by decide)]
  refine hasTrigraph_encode (by decide) fun c hc => ?_
  obtain rfl := Option.some.inj hc
  rfl

/-- Without trigraphs it makes no difference whether they are replaced. -/
theorem readSource_eq {trigraphs : Bool} {src : Bytes} (h : trigraphs = true → hasTrigraph src = false) :
    readSource trigraphs src = readSource false src := by
  cases trigraphs with
  | false => rfl
  | true =>
    unfold readSource
    rw [if_pos rfl, replaceTrigraphs_eq (h rfl)]
    rfl

/-- What a literal in one part or in many denotes. -/
theorem readSource_pretty (multiLine : Bool) (text : Bytes) :
    readSource false (cgPrettyQuotePlaintext multiLine text) = readSource false (cgEncodeCStringLiteral (laidOut true false text)) := by
  rw [readSource_encode, ← readAll_pretty multiLine true false text (Or.inl rfl)]
  exact readAll_open _

end QuoteAux

open QuoteAux

/-! ## Literals carry their text -/

/-- The literal of a text denotes it if and only if no hexadecimal digit follows a character with a hexadecimal escape. So does the
literal of SQL up to white space, if moreover no newline is in a string literal behind an even number of quotes. Trigraphs are either not
replaced, or not there. -/
theorem literals_iff {trigraphs : Bool} {text : Bytes} (h : trigraphs = true → hasTrigraph text = false) :
    (readSource trigraphs (cgEncodeCStringLiteral text) = some text ↔ text.IsChain MayFollow) ∧
      ∀ multiLine, (∃ out, readSource trigraphs (cgPrettyQuotePlaintext multiLine text) = some out ∧ squeeze out = squeeze text) ↔
        text.IsChain MayFollow ∧ NewlinesOutside false .plain text := by
  constructor
  · rw [readSource_eq fun ht => (hasTrigraph_literal text).trans (h ht), readSource_encode]
    obtain ⟨hchain, hplain, _⟩ := read_encoded text
    refine ⟨fun hread => ?_, hchain⟩
    by_contra hno
    exact absurd ((hplain text hread).2 hno) (Nat.lt_irrefl _)
  · intro multiLine
    have htrigraph : hasTrigraph (cgPrettyQuotePlaintext multiLine text) = hasTrigraph text := by
      unfold cgPrettyQuotePlaintext
      rw [hasTrigraph_cons (by decide), hasTrigraph_pretty]
    rw [readSource_eq fun ht => htrigraph.trans (h ht), readSource_pretty, readSource_encode]
    obtain ⟨hchain, hplain, _⟩ := read_encoded (laidOut true false text)
    have hlaid : squeeze (laidOut true false text) = squeeze text ↔ NewlinesOutside false .plain text :=
      squeezeFrom_laidOut true false text false fun _ => nofun
    constructor
    · rintro ⟨out, hread, hsqueeze⟩
      have hsolid : solid out = solid (laidOut true false text) := by
        rw [solid_laidOut, ← solid_squeezeFrom .plain false out, ← solid_squeezeFrom .plain false text]
        exact congrArg solid hsqueeze
      have hfits : (laidOut true false text).IsChain MayFollow := by
        by_contra hno
        have hless := (hplain out hread).2 hno
        omega
      obtain rfl := Option.some.inj ((hchain hfits).symm.trans hread)
      exact ⟨(chain_laidOut true false text).mp hfits, hlaid.mp hsqueeze⟩
    · rintro ⟨hfits, hout⟩
      exact ⟨_, hchain ((chain_laidOut true false text).mpr hfits), hlaid.mpr hout⟩

/-- `a`, a newline, two spaces and `b`: a literal of two parts, with the newline and the spaces as one space. -/
theorem literals_newline : ∃ out, readSource true (cgPrettyQuotePlaintext true [97, 10, 32, 32, 98]) = some out ∧
    squeeze out = squeeze [97, 10, 32, 32, 98] := by
  have htrigraph : true = true → hasTrigraph [97, 10, 32, 32, 98] = false := fun _ => by decide
  refine ((literals_iff htrigraph).2 true).mpr ⟨?_, ?_⟩
  · decide
  · exact ⟨by decide, by decide, by decide, by decide, by decide, trivial⟩

/-- The bytes 128 and `1`, whose literal has an escape of three digits. -/
theorem literals_false : ¬∀ text : Bytes, readSource false (cgEncodeCStringLiteral text) = some text := by
  intro h
  exact absurd (h [128, 49]) (by decide)

end CgSql
