import CgSql.Lemmas.JsonQuoting

/-!
# Writing JSON strings

`valid_utf8_sequence` finds the sequences of UTF-8 that no stray continuation byte follows; `cg_encode_json_string_literal` writes these as
they are, and the other bytes one by one.
-/

namespace CgSql

open Byte

namespace JsonAux

variable {a b c lead : Byte} {rest more text written : Bytes} {cp : Nat} {cps : List Nat}

/-! ## Sequences -/

theorem utf8SequenceLength_eq : ∀ b : Byte, utf8SequenceLength b =
    if b.val < 0x80 then 1 else if b.val < 0xC0 then 0 else if b.val < 0xE0 then 2 else if b.val < 0xF0 then 3
    else if b.val < 0xF8 then 4 else 0 := by decide +kernel

theorem isUtf8Continuation_eq : ∀ b : Byte, isUtf8Continuation b = Utf8.isTail b := by decide +kernel

theorem continuationBits_eq (b : Byte) : continuationBits b = b.val % 64 := Nat.and_two_pow_sub_one_eq_mod b.val 6

/-- A sequence starts a text, and no stray byte follows it. -/
def Starts (text : Bytes) (cp : Nat) (rest : Bytes) : Prop :=
  Utf8.Scalar cp ∧ 0x80 ≤ cp ∧ text = Utf8.encode cp ++ rest ∧ ∀ c ∈ rest.head?, Utf8.isTail c = false

/-- The loop over the continuation bytes stops at the null at the latest. -/
theorem continuationsFrom_spec (front rest : Bytes) (count : Nat) : continuationsFrom (front ++ (rest ++ [0])) front.length count =
    some (decide (count ≤ rest.length) && (rest.take count).all Utf8.isTail) := by
  induction count generalizing front rest with
  | zero => simp [continuationsFrom]
  | succ count ih =>
    have hget : (front ++ (rest ++ [0]))[front.length]? = (rest ++ [0]).head? := by
      rw [List.getElem?_append_right (Nat.le_refl _), Nat.sub_self, List.head?_eq_getElem?]
    rw [continuationsFrom, hget]
    cases rest with
    | nil => rfl
    | cons b rest =>
      have hfront := ih (front ++ [b]) rest
      rw [List.append_assoc, List.length_append, List.length_singleton] at hfront
      simp only [List.cons_append, List.head?_cons, Option.bind_eq_bind, Option.bind_some, isUtf8Continuation_eq, List.take_succ_cons,
        List.all_cons, List.length_cons, Nat.add_le_add_iff_right]
      cases htail : Utf8.isTail b with
      | false => simp
      | true =>
        have hb : b ≠ 0 := by
          rintro rfl
          exact absurd htail (by decide)
        simp only [hb, not_true_eq_false, or_self, if_false, Bool.true_and]
        exact hfront

/-- The bits of two bytes make up the number. -/
theorem codepoint_two (ha : 0xC0 ≤ a.val ∧ a.val < 0xE0) : ((a.val &&& 0x1F) <<< 6) ||| continuationBits b = Utf8.number a [b] := by
  have hlead : a.val &&& 0x1F = a.val % 32 := Nat.and_two_pow_sub_one_eq_mod a.val 5
  have hor := Nat.two_pow_add_eq_or_of_lt (i := 6) (Nat.mod_lt b.val (by decide : 0 < 64)) (a.val % 32)
  rw [hlead, continuationBits_eq, Nat.shiftLeft_eq, Nat.mul_comm, ← hor, Utf8.number, Utf8.leadBits, if_neg (by omega), if_pos (by omega)]
  show _ = a.val % 32 * 64 + b.val % 64
  omega

theorem codepoint_three (ha : 0xE0 ≤ a.val ∧ a.val < 0xF0) :
    ((a.val &&& 0x0F) <<< 12) ||| (continuationBits b <<< 6) ||| continuationBits c = Utf8.number a [b, c] := by
  have hlead : a.val &&& 0x0F = a.val % 16 := Nat.and_two_pow_sub_one_eq_mod a.val 4
  have hb : b.val % 64 * 2 ^ 6 < 2 ^ 12 := by omega
  have hor := Nat.two_pow_add_eq_or_of_lt hb (a.val % 16)
  have hor' := Nat.two_pow_add_eq_or_of_lt (i := 6) (Nat.mod_lt c.val (by decide : 0 < 64)) (a.val % 16 * 64 + b.val % 64)
  have hshift : 2 ^ 12 * (a.val % 16) + b.val % 64 * 2 ^ 6 = 2 ^ 6 * (a.val % 16 * 64 + b.val % 64) := by omega
  rw [hlead, continuationBits_eq, continuationBits_eq, Nat.shiftLeft_eq, Nat.shiftLeft_eq, Nat.mul_comm (a.val % 16), ← hor, hshift, ← hor',
    Utf8.number, Utf8.leadBits, if_neg (by omega), if_neg (by omega), if_pos (by omega)]
  show _ = (a.val % 16 * 64 + b.val % 64) * 64 + c.val % 64
  omega

theorem codepoint_four {d : Byte} (ha : 0xF0 ≤ a.val ∧ a.val < 0xF8) :
    ((a.val &&& 0x07) <<< 18) ||| (continuationBits b <<< 12) ||| (continuationBits c <<< 6) ||| continuationBits d =
      Utf8.number a [b, c, d] := by
  have hlead : a.val &&& 0x07 = a.val % 8 := Nat.and_two_pow_sub_one_eq_mod a.val 3
  have hb : b.val % 64 * 2 ^ 12 < 2 ^ 18 := by omega
  have hc : c.val % 64 * 2 ^ 6 < 2 ^ 12 := by omega
  have hor := Nat.two_pow_add_eq_or_of_lt hb (a.val % 8)
  have hor' := Nat.two_pow_add_eq_or_of_lt hc (a.val % 8 * 64 + b.val % 64)
  have hor'' := Nat.two_pow_add_eq_or_of_lt (i := 6) (Nat.mod_lt d.val (by decide : 0 < 64)) ((a.val % 8 * 64 + b.val % 64) * 64 + c.val % 64)
  have hshift : 2 ^ 18 * (a.val % 8) + b.val % 64 * 2 ^ 12 = 2 ^ 12 * (a.val % 8 * 64 + b.val % 64) := by omega
  have hshift' : 2 ^ 12 * (a.val % 8 * 64 + b.val % 64) + c.val % 64 * 2 ^ 6 =
      2 ^ 6 * ((a.val % 8 * 64 + b.val % 64) * 64 + c.val % 64) := by omega
  rw [hlead, continuationBits_eq, continuationBits_eq, continuationBits_eq, Nat.shiftLeft_eq, Nat.shiftLeft_eq, Nat.shiftLeft_eq,
    Nat.mul_comm (a.val % 8), ← hor, hshift, ← hor', hshift', ← hor'', Utf8.number, Utf8.leadBits, if_neg (by omega), if_neg (by omega),
    if_neg (by omega)]
  show _ = ((a.val % 8 * 64 + b.val % 64) * 64 + c.val % 64) * 64 + d.val % 64
  omega

/-- A sequence at the start has the bytes that its first byte tells. -/
theorem Starts.bytes {rest' : Bytes} (h : Starts (lead :: rest) cp rest') :
    ∃ more, rest = more ++ rest' ∧ Utf8.encode cp = lead :: more ∧ more.length = Utf8.tails lead ∧ Utf8.number lead more = cp ∧
      (∀ b ∈ more, Utf8.isTail b = true) ∧ 0xC0 ≤ lead.val ∧ lead.val < 0xF8 := by
  obtain ⟨hscalar, hcp, htext, -⟩ := h
  obtain ⟨lead', more, hencode, hlength, hnumber⟩ := Utf8.encode_cons hscalar.1
  obtain ⟨lead'', more', hencode', -, htails, hrange⟩ := Utf8.isTail_encode hscalar.1
  obtain ⟨rfl, rfl⟩ := List.cons.inj (hencode.symm.trans hencode')
  rw [hencode, List.cons_append] at htext
  obtain ⟨rfl, rfl⟩ := List.cons.inj htext
  exact ⟨more, rfl, hencode, hlength, hnumber, htails, hrange hcp⟩

/-- The ranges of the code points are those of the shortest form, without the surrogates. -/
theorem validCodepoint_spec (hlead : 0xC0 ≤ lead.val ∧ lead.val < 0xF8) (hlength : more.length = Utf8.tails lead)
    (htails : ∀ b ∈ more, Utf8.isTail b = true) (behind : Bytes) : validCodepoint (lead :: (more ++ behind)) (more.length + 1) =
      some (decide (Utf8.Scalar (Utf8.number lead more) ∧ Utf8.encode (Utf8.number lead more) = lead :: more)) := by
  rw [Utf8.tails, if_neg (by omega)] at hlength
  by_cases htwo : lead.val < 0xE0
  · rw [if_pos htwo] at hlength
    obtain ⟨b, rfl⟩ := List.length_eq_one_iff.mp hlength
    have hb := htails b List.mem_cons_self
    obtain ⟨hlt, hiff⟩ := Utf8.encode_two ⟨hlead.1, htwo⟩ hb
    have hcode : validCodepoint (lead :: ([b] ++ behind)) 2 = some (decide ¬Utf8.number lead [b] < 0x80) := by
      rw [← codepoint_two ⟨hlead.1, htwo⟩]
      rfl
    rw [List.length_singleton, hcode]
    simp only [Utf8.Scalar, Option.some.injEq, decide_eq_decide, hiff]
    omega
  · rw [if_neg htwo] at hlength
    by_cases hthree : lead.val < 0xF0
    · rw [if_pos hthree] at hlength
      obtain ⟨b, c, rfl⟩ := List.length_eq_two.mp hlength
      have hb := htails b List.mem_cons_self
      have hc := htails c (List.mem_cons_of_mem _ List.mem_cons_self)
      have hrange : 0xE0 ≤ lead.val ∧ lead.val < 0xF0 := ⟨by omega, hthree⟩
      obtain ⟨hlt, hiff⟩ := Utf8.encode_three hrange hb hc
      have hcode : validCodepoint (lead :: ([b, c] ++ behind)) 3 =
          some (decide (¬Utf8.number lead [b, c] < 0x800 ∧ ¬(Utf8.number lead [b, c] ≥ 0xD800 ∧ Utf8.number lead [b, c] ≤ 0xDFFF))) := by
        rw [← codepoint_three hrange]
        rfl
      rw [List.length_cons, List.length_singleton, hcode]
      simp only [Utf8.Scalar, Option.some.injEq, decide_eq_decide, hiff]
      omega
    · rw [if_neg hthree] at hlength
      obtain ⟨b, c, d, rfl⟩ := List.length_eq_three.mp hlength
      have hb := htails b List.mem_cons_self
      have hc := htails c (List.mem_cons_of_mem _ List.mem_cons_self)
      have hd := htails d (List.mem_cons_of_mem _ (List.mem_cons_of_mem _ List.mem_cons_self))
      have hrange : 0xF0 ≤ lead.val ∧ lead.val < 0xF8 := ⟨by omega, hlead.2⟩
      have hiff := Utf8.encode_four hrange hb hc hd
      have hcode : validCodepoint (lead :: ([b, c, d] ++ behind)) 4 =
          some (decide (¬Utf8.number lead [b, c, d] < 0x10000 ∧ ¬Utf8.number lead [b, c, d] > 0x10FFFF)) := by
        rw [← codepoint_four hrange]
        rfl
      rw [List.length_cons, List.length_cons, List.length_singleton, hcode]
      simp only [Utf8.Scalar, Option.some.injEq, decide_eq_decide, hiff]
      omega

/-- `valid_utf8_sequence`, for the first byte of a sequence. -/
theorem validUtf8Sequence_eq (hlead : 0xC0 ≤ lead.val ∧ lead.val < 0xF8) (rest : Bytes) : validUtf8Sequence (lead :: (rest ++ [0])) =
      if ¬(decide (Utf8.tails lead ≤ rest.length) && (rest.take (Utf8.tails lead)).all Utf8.isTail) = true then some 0
      else ((rest ++ [0])[Utf8.tails lead]?).bind fun next =>
        if Utf8.isTail next = true then some 0 else (validCodepoint (lead :: (rest ++ [0])) (Utf8.tails lead + 1)).bind fun valid =>
          if valid = true then some (Utf8.tails lead + 1) else some 0 := by
  have hlen : utf8SequenceLength lead = Utf8.tails lead + 1 := by
    rw [utf8SequenceLength_eq, Utf8.tails]
    split_ifs <;> omega
  have hone : Utf8.tails lead + 1 ≠ 1 := by
    rw [Utf8.tails, if_neg (by omega)]
    split_ifs <;> decide
  have hcontinuations : continuationsFrom (lead :: (rest ++ [0])) 1 (Utf8.tails lead) = _ := continuationsFrom_spec [lead] rest _
  simp only [validUtf8Sequence, List.getElem?_cons_zero, Option.bind_eq_bind, Option.bind_some, hlen, hone, Nat.add_one_ne_zero, if_false,
    Nat.add_sub_cancel, hcontinuations, List.getElem?_cons_succ, Option.pure_def, isUtf8Continuation_eq]

/-- The length of a sequence at the start, and else zero. -/
theorem validUtf8Sequence_spec (h : 0x80 ≤ lead.val) (rest : Bytes) :
    (∃ cp rest', Starts (lead :: rest) cp rest' ∧ validUtf8Sequence (lead :: (rest ++ [0])) = some (Utf8.encode cp).length) ∨
      (¬∃ cp rest', Starts (lead :: rest) cp rest') ∧ validUtf8Sequence (lead :: (rest ++ [0])) = some 0 := by
  by_cases hlead : 0xC0 ≤ lead.val ∧ lead.val < 0xF8
  · rw [validUtf8Sequence_eq hlead]
    by_cases htails : (decide (Utf8.tails lead ≤ rest.length) && (rest.take (Utf8.tails lead)).all Utf8.isTail) = true
    · rw [if_neg (not_not.mpr htails)]
      rw [Bool.and_eq_true, decide_eq_true_eq, List.all_eq_true] at htails
      obtain ⟨hlength, hall⟩ := htails
      obtain ⟨more, behind, rfl, hmore⟩ : ∃ more behind, rest = more ++ behind ∧ more.length = Utf8.tails lead :=
        ⟨_, _, (List.take_append_drop _ rest).symm, List.length_take_of_le hlength⟩
      rw [← hmore, List.take_left] at hall
      have hnext : (more ++ behind ++ [0])[Utf8.tails lead]? = some ((behind ++ [0]).headD 0) := by
        rw [← hmore, List.append_assoc, List.getElem?_append_right (Nat.le_refl _), Nat.sub_self]
        cases behind <;> rfl
      have hunique : ∀ {cp rest'}, Starts (lead :: (more ++ behind)) cp rest' → rest' = behind ∧ cp = Utf8.number lead more := by
        intro cp rest' hstarts
        obtain ⟨more', heq, -, hlength', hnumber, -⟩ := hstarts.bytes
        obtain ⟨rfl, rfl⟩ := List.append_inj heq (hmore.trans hlength'.symm)
        exact ⟨rfl, hnumber.symm⟩
      rw [hnext, Option.bind_some, ← hmore, List.append_assoc, validCodepoint_spec hlead hmore hall, Option.bind_some]
      split
      · next htail =>
        refine .inr ⟨fun ⟨cp, rest', hstarts⟩ => ?_, rfl⟩
        obtain ⟨rfl, -⟩ := hunique hstarts
        cases rest' with
        | nil => exact absurd htail (by decide)
        | cons b rest' =>
          have hno := hstarts.2.2.2 b rfl
          exact Bool.false_ne_true (hno.symm.trans htail)
      · next htail =>
        by_cases hscalar : Utf8.Scalar (Utf8.number lead more) ∧ Utf8.encode (Utf8.number lead more) = lead :: more
        · refine .inl ⟨Utf8.number lead more, behind, ⟨hscalar.1, ?_, ?_, ?_⟩, ?_⟩
          · by_contra hascii
            have hencode := Utf8.encode_ascii (Nat.lt_of_not_le hascii)
            have hval := congrArg List.head? (hencode.symm.trans hscalar.2)
            rw [List.head?_cons, List.head?_cons, Option.some.injEq] at hval
            have := congrArg Fin.val hval
            rw [Utf8.val_byte (by omega)] at this
            omega
          · rw [hscalar.2]
            rfl
          · intro b hb
            cases behind with
            | nil => cases hb
            | cons d behind =>
              obtain rfl := Option.some.inj hb
              exact Bool.not_eq_true _ ▸ htail
          · rw [if_pos (decide_eq_true hscalar), hscalar.2]
            rfl
        · refine .inr ⟨fun ⟨cp, rest', hstarts⟩ => hscalar ?_, if_neg (by rwa [decide_eq_true_eq])⟩
          obtain ⟨rfl, rfl⟩ := hunique hstarts
          exact ⟨hstarts.1, List.append_cancel_right (hstarts.2.2.1.symm.trans rfl)⟩
    · rw [if_pos htails]
      refine .inr ⟨fun ⟨cp, rest', hstarts⟩ => htails ?_, rfl⟩
      obtain ⟨more, rfl, -, hlength, -, hall, -⟩ := hstarts.bytes
      rw [← hlength, List.take_left, Bool.and_eq_true, decide_eq_true_eq, List.all_eq_true]
      exact ⟨by rw [List.length_append]; omega, hall⟩
  · have hlen : utf8SequenceLength lead = 0 := by
      rw [utf8SequenceLength_eq, if_neg (by omega)]
      split_ifs <;> omega
    refine .inr ⟨fun ⟨cp, rest', hstarts⟩ => hlead ?_, ?_⟩
    · obtain ⟨-, -, -, -, -, -, hrange⟩ := hstarts.bytes
      exact hrange
    · simp [validUtf8Sequence, hlen]

/-! ## The encoder -/

/-- What is written for a text without nulls, and the numbers that are read of it. -/
inductive Encoded : (text written : Bytes) → (cps : List Nat) → Prop
  | nil : Encoded [] [] []
  | sequence {text rest written : Bytes} {cp : Nat} {cps : List Nat} (hstarts : Starts text cp rest) (h : Encoded rest written cps) :
      Encoded text (Utf8.encode cp ++ written) (cp :: cps)
  | single {c : Byte} {rest written : Bytes} {cps : List Nat} (hc : c ≠ 0) (hnot : ¬∃ cp rest', Starts (c :: rest) cp rest')
      (h : Encoded rest written cps) : Encoded (c :: rest) (cgEncodeCharAsJsonStringLiteral c ++ written) (c.val :: cps)

theorem encodeJsonFrom_nul : encodeJsonFrom [0] = some [quote] := by
  rw [encodeJsonFrom]
  rfl

theorem encodeJsonFrom_single (hc : c ≠ 0) (hnot : ¬∃ cp rest', Starts (c :: rest) cp rest') :
    encodeJsonFrom (c :: (rest ++ [0])) = (encodeJsonFrom (rest ++ [0])).map (cgEncodeCharAsJsonStringLiteral c ++ ·) := by
  rw [encodeJsonFrom]
  by_cases hhigh : 0x80 ≤ c
  · rcases validUtf8Sequence_spec (show 0x80 ≤ c.val from hhigh) rest with ⟨cp, rest', hstarts, -⟩ | ⟨-, hvalid⟩
    · exact absurd ⟨cp, rest', hstarts⟩ hnot
    · simp only [hc, if_false, hhigh, if_true, hvalid, Option.bind_eq_bind, Option.bind_some, Nat.not_lt_zero, Option.pure_def]
      cases encodeJsonFrom (rest ++ [0]) <;> rfl
  · simp only [hc, if_false, hhigh, Option.bind_eq_bind, Option.bind_some, Nat.not_lt_zero, Option.pure_def]
    cases encodeJsonFrom (rest ++ [0]) <;> rfl

theorem encodeJsonFrom_sequence (hstarts : Starts text cp rest) :
    encodeJsonFrom (text ++ [0]) = (encodeJsonFrom (rest ++ [0])).map (Utf8.encode cp ++ ·) := by
  cases text with
  | nil =>
    have hnil := List.append_eq_nil_iff.mp hstarts.2.2.1.symm
    exact absurd hnil.1 (Utf8.encode_ne_nil cp)
  | cons lead tail =>
    obtain ⟨more, rfl, hencode, hlength, -, -, hrange⟩ := hstarts.bytes
    have hhigh : (0x80 : Byte) ≤ lead := show 0x80 ≤ lead.val by omega
    have hlead : lead ≠ 0 := by
      rintro rfl
      exact absurd hhigh (by decide)
    have hmore : 1 < more.length + 1 := by
      rw [hlength, Utf8.tails, if_neg (by omega)]
      split_ifs <;> decide
    rcases validUtf8Sequence_spec (show 0x80 ≤ lead.val from hhigh) (more ++ rest) with ⟨cp', rest', hstarts', hvalid⟩ | ⟨hnot, -⟩
    · obtain ⟨rfl, rfl⟩ := Utf8.encode_append_inj hstarts.1 hstarts'.1 (hstarts.2.2.1.symm.trans hstarts'.2.2.1)
      rw [hencode, List.length_cons, List.append_assoc] at hvalid
      rw [List.cons_append, encodeJsonFrom]
      simp only [hlead, if_false, hhigh, if_true, hvalid, Option.bind_eq_bind, Option.bind_some, hmore, Option.pure_def, Nat.add_sub_cancel,
        List.append_assoc, List.take_left, List.drop_left, hencode]
      cases encodeJsonFrom (rest ++ [0]) <;> rfl
    · exact absurd ⟨cp, rest, hstarts⟩ hnot

/-- The encoder stops at the null. -/
theorem Encoded.run (h : Encoded text written cps) : encodeJsonFrom (text ++ [0]) = some (written ++ [quote]) := by
  induction h with
  | nil => exact encodeJsonFrom_nul
  | sequence hstarts _ ih =>
    rw [encodeJsonFrom_sequence hstarts, ih, Option.map_some, List.append_assoc]
  | single hc hnot _ ih =>
    rw [List.cons_append, encodeJsonFrom_single hc hnot, ih, Option.map_some, List.append_assoc]

theorem Encoded.literal (h : Encoded text written cps) : cgEncodeJsonStringLiteral (text ++ [0]) = some (quote :: (written ++ [quote])) := by
  rw [cgEncodeJsonStringLiteral, h.run]
  rfl

/-- Every text is encoded. -/
theorem exists_encoded (hnul : 0 ∉ text) : ∃ written cps, Encoded text written cps := by
  induction hn : text.length using Nat.strongRecOn generalizing text with
  | ind n ih =>
    subst hn
    by_cases hstarts : ∃ cp rest, Starts text cp rest
    · obtain ⟨cp, rest, hstarts⟩ := hstarts
      have htext := hstarts.2.2.1
      have hlength : rest.length < text.length := by
        have hpos := List.length_pos_of_ne_nil (Utf8.encode_ne_nil cp)
        rw [htext, List.length_append]
        omega
      obtain ⟨written, cps, hrest⟩ := ih _ hlength (fun hin => hnul (htext ▸ List.mem_append_right _ hin)) rfl
      exact ⟨_, _, .sequence hstarts hrest⟩
    · cases text with
      | nil => exact ⟨_, _, .nil⟩
      | cons c rest =>
        obtain ⟨written, cps, hrest⟩ := ih rest.length (Nat.lt_succ_self _) (fun hin => hnul (List.mem_cons_of_mem _ hin)) rfl
        exact ⟨_, _, .single (fun heq => hnul (heq ▸ List.mem_cons_self)) hstarts hrest⟩

/-- What is written is read as the numbers. -/
theorem Encoded.read (h : Encoded text written cps) (behind : Bytes) :
    readJsonFrom (written ++ behind) = (readJsonFrom behind).map fun (more, rest) => (cps ++ more, rest) := by
  induction h with
  | nil => cases h : readJsonFrom behind <;> simp [h]
  | sequence hstarts _ ih =>
    obtain ⟨hscalar, hcp, -, -⟩ := hstarts
    rw [List.append_assoc, readJsonFrom_plain (Utf8.decodeOne_encode hscalar _) (by omega) (by omega) (by omega), ih]
    cases readJsonFrom behind <;> rfl
  | single _ _ _ ih =>
    rw [List.append_assoc, readJsonFrom_encode, ih]
    cases readJsonFrom behind <;> rfl

theorem Encoded.readJson (h : Encoded text written cps) : readJson (quote :: (written ++ [quote])) = some cps := by
  simp [CgSql.readJson, h.read, readJsonFrom_quote]

/-- No text of code points goes on with a sequence. -/
theorem head_text (hscalar : ∀ cp ∈ cps, Utf8.Scalar cp) : ∀ c ∈ (Utf8.text cps).head?, Utf8.isTail c = false := by
  cases cps with
  | nil => exact fun c hc => nomatch hc
  | cons cp cps =>
    obtain ⟨lead, more, hencode, hlead, -⟩ := Utf8.isTail_encode (hscalar cp List.mem_cons_self).1
    rw [Utf8.text_cons, hencode]
    intro c hc
    obtain rfl := Option.some.inj hc
    exact hlead

/-- A valid text is read as its code points. -/
theorem Encoded.valid {cps' : List Nat} (h : Encoded text written cps) (hscalar : ∀ cp ∈ cps', Utf8.Scalar cp)
    (htext : text = Utf8.text cps') : cps = cps' := by
  induction h generalizing cps' with
  | nil =>
    cases cps' with
    | nil => rfl
    | cons cp cps' =>
      exact absurd (List.append_eq_nil_iff.mp htext.symm).1 (Utf8.encode_ne_nil cp)
  | sequence hstarts _ ih =>
    cases cps' with
    | nil =>
      rw [hstarts.2.2.1] at htext
      exact absurd (List.append_eq_nil_iff.mp htext).1 (Utf8.encode_ne_nil _)
    | cons cp cps' =>
      rw [hstarts.2.2.1, Utf8.text_cons] at htext
      obtain ⟨rfl, hrest⟩ := Utf8.encode_append_inj hstarts.1 (hscalar cp List.mem_cons_self) htext
      rw [ih (fun cp h => hscalar cp (List.mem_cons_of_mem _ h)) hrest]
  | single hc hnot _ ih =>
    cases cps' with
    | nil => cases htext
    | cons cp cps' =>
      have hcps : ∀ cp ∈ cps', Utf8.Scalar cp := fun cp h => hscalar cp (List.mem_cons_of_mem _ h)
      rw [Utf8.text_cons] at htext
      have hascii : cp < 0x80 := by
        by_contra hcp
        exact hnot ⟨cp, _, hscalar cp List.mem_cons_self, by omega, htext, head_text hcps⟩
      rw [Utf8.encode_ascii hascii] at htext
      obtain ⟨rfl, rfl⟩ := List.cons.inj htext
      rw [ih hcps rfl, Utf8.val_byte (by omega)]

/-- A sequence at the start is one behind more of the text, if that does not go on with it. -/
theorem Starts.append (h : Starts text cp rest) (hmore : ∀ c ∈ more.head?, Utf8.isTail c = false) : Starts (text ++ more) cp (rest ++ more) := by
  refine ⟨h.1, h.2.1, ?_, fun c hc => ?_⟩
  · rw [h.2.2.1, List.append_assoc]
  · cases rest with
    | nil => exact hmore c hc
    | cons b rest => exact h.2.2.2 c hc

/-- And one in front of it. -/
theorem starts_of_append {behind : Bytes} (hmore : ∀ c ∈ more.head?, Utf8.isTail c = false)
    (h : Starts (c :: rest ++ more) cp behind) : ∃ rest', Starts (c :: rest) cp rest' := by
  obtain ⟨tails, heq, hencode, -, -, htails, -⟩ := h.bytes
  rcases List.append_eq_append_iff.mp heq with ⟨front, rfl, hfront⟩ | ⟨rest', rfl, rfl⟩
  · -- the sequence reaches what follows: only if it ends there
    cases front with
    | nil =>
      refine ⟨[], h.1, h.2.1, ?_, fun b hb => nomatch hb⟩
      rw [hencode, List.append_nil, List.append_nil]
    | cons b front =>
      have hb := htails b (List.mem_append_right _ List.mem_cons_self)
      have hno := hmore b (by rw [hfront]; rfl)
      exact absurd (hno.symm.trans hb) Bool.false_ne_true
  · refine ⟨rest', h.1, h.2.1, ?_, fun b hb => ?_⟩
    · rw [hencode]
      rfl
    · cases rest' with
      | nil => cases hb
      | cons d rest' =>
        obtain rfl := Option.some.inj hb
        exact h.2.2.2 d rfl

/-- Texts are encoded part by part, where the second does not go on with a sequence. -/
theorem Encoded.append {writtenMore : Bytes} {cpsMore : List Nat} (h : Encoded text written cps)
    (hhead : ∀ c ∈ more.head?, Utf8.isTail c = false) (hmore : Encoded more writtenMore cpsMore) :
    Encoded (text ++ more) (written ++ writtenMore) (cps ++ cpsMore) := by
  induction h with
  | nil => exact hmore
  | sequence hstarts _ ih =>
    rw [List.append_assoc]
    exact .sequence (hstarts.append hhead) ih
  | single hc hnot _ ih =>
    rw [List.append_assoc]
    refine .single hc (fun ⟨cp, behind, hstarts⟩ => hnot ?_) ih
    obtain ⟨rest', hstarts'⟩ := starts_of_append hhead hstarts
    exact ⟨cp, rest', hstarts'⟩

/-- A sequence that no stray byte follows is written as it is, between what is written for the text in front of it and behind it. -/
theorem encoded_between {before after front back : Bytes} {cps' : List Nat} (hscalar : Utf8.Scalar cp) (hcp : 0x80 ≤ cp)
    (hafter : ∀ c ∈ after.head?, Utf8.isTail c = false) (hfront : Encoded before front cps) (hback : Encoded after back cps') :
    Encoded (before ++ (Utf8.encode cp ++ after)) (front ++ (Utf8.encode cp ++ back)) (cps ++ cp :: cps') := by
  refine hfront.append ?_ (.sequence ⟨hscalar, hcp, rfl, hafter⟩ hback)
  obtain ⟨lead, more, hencode, hlead, -⟩ := Utf8.isTail_encode hscalar.1
  rw [hencode]
  intro c hc
  obtain rfl := Option.some.inj hc
  exact hlead

end JsonAux

end CgSql
