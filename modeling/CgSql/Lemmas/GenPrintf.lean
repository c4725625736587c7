import CgSql.GenPrintf
import CgSql.Lemmas.SqlTokens

/-!
# Tokens of indented text

`gen_printf` adds spaces at the starts of lines. Between tokens they do not matter; in a literal they are counted by the characters of its
token. Two counts on the tokens tell texts apart: of the characters that are not white, and of those in quoted tokens.
-/

namespace CgSql

namespace GenPrintf

open Byte QuoteAux TokenAux

namespace ScanAux

open Mode

variable {text : Bytes} {c : Byte} {st : SqlState}

/-! ## The scanner -/

theorem scan_append (m : Mode) (a b : Bytes) : m.scan (a ++ b) = ((m.scan a).1 ++ ((m.scan a).2.scan b).1, ((m.scan a).2.scan b).2) := by
  induction a generalizing m with
  | nil => simp [scan]
  | cons c a ih => simp [scan, ih]

theorem state_stepPlain (c : Byte) : (stepPlain c).2.state = SqlState.plain.next c := by
  unfold stepPlain
  split
  · next hwhite => exact (next_of_isWhite hwhite .plain).symm
  · rw [next_plain]
    cases Quoted.opened c <;> rfl

theorem state_step (m : Mode) (c : Byte) : (m.step c).2.state = m.state.next c := by
  cases m with
  | plain => exact state_stepPlain c
  | quoted kind text =>
    show _ = kind.state.next c
    rw [next_quoted, step]
    split_ifs <;> rfl
  | closing text =>
    rw [step]
    split
    · next hquote => rw [hquote]; rfl
    · exact state_stepPlain c

theorem state_scan (m : Mode) (text : Bytes) : (m.scan text).2.state = text.foldl (fun st c => st.next c) m.state := by
  induction text generalizing m with
  | nil => rfl
  | cons c text ih =>
    show ((m.step c).2.scan text).2.state = _
    rw [ih, state_step]
    rfl

/-- A literal that is not ended by a quote is ended by any other character. -/
theorem scan_closing (h : c ≠ squote) (cs : Bytes) :
    (closing text).scan (c :: cs) = (⟨some .string, text⟩ :: (plain.scan (c :: cs)).1, (plain.scan (c :: cs)).2) := by
  simp [scan, step, h]

/-- The reader is between tokens, or behind the end of a literal. -/
def Resting (m : Mode) : Prop := m.state = .plain

theorem resting_iff {m : Mode} : Resting m ↔ m = plain ∨ ∃ text, m = closing text := by
  unfold Resting
  cases m with
  | plain => simp [state]
  | quoted kind text => simpa [state] using state_ne_plain kind
  | closing text => simp [state]

/-- The tokens of two texts in a row, where the second starts with no quote. -/
theorem tokensOf_append {a : Bytes} (ha : Resting (plain.scan a).2) (h : c ≠ squote) (cs : Bytes) :
    tokensOf (a ++ c :: cs) = tokensOf a ++ tokensOf (c :: cs) ∧ (plain.scan (a ++ c :: cs)).2 = (plain.scan (c :: cs)).2 := by
  unfold tokensOf tokens
  rw [scan_append]
  rcases resting_iff.mp ha with hm | ⟨text, hm⟩
  · rw [hm]
    exact ⟨by simp [finish], rfl⟩
  · rw [hm, scan_closing h]
    exact ⟨by simp [finish], rfl⟩

/-- The tokens of two texts in a row, where the first ends between tokens. -/
theorem tokensOf_append_plain {a : Bytes} (ha : (plain.scan a).2 = plain) (b : Bytes) :
    tokensOf (a ++ b) = tokensOf a ++ tokensOf b ∧ (plain.scan (a ++ b)).2 = (plain.scan b).2 := by
  unfold tokensOf tokens
  rw [scan_append, ha]
  exact ⟨by simp [finish], rfl⟩

theorem scan_spaces (n : Nat) (cs : Bytes) : plain.scan (List.replicate n 32 ++ cs) = plain.scan cs := by
  induction n with
  | zero => rfl
  | succ n ih =>
    rw [← ih]
    rfl

/-! ## Indentation -/

theorem indented_newline (indent pending : Nat) (cs : Bytes) : (indented indent pending (10 :: cs)).1 = 10 :: (indented indent indent cs).1 := rfl

theorem indented_other (h : c ≠ 10) (indent pending : Nat) (cs : Bytes) :
    (indented indent pending (c :: cs)).1 = List.replicate pending 32 ++ c :: (indented indent 0 cs).1 := by
  simp [indented, h]

/-- An indented text starts with its first character, or with a space. -/
theorem head_indented (h : c ≠ squote) (indent pending : Nat) (cs : Bytes) :
    ∃ c' cs', (indented indent pending (c :: cs)).1 = c' :: cs' ∧ c' ≠ squote := by
  by_cases hc : c = 10
  · subst hc
    exact ⟨_, _, indented_newline .., h⟩
  · rw [indented_other hc]
    cases pending with
    | zero => exact ⟨_, _, rfl, h⟩
    | succ n => exact ⟨_, _, rfl, (by decide : (32 : Byte) ≠ squote)⟩

theorem indented_zero (text : Bytes) : (indented 0 0 text).1 = text := by
  induction text with
  | nil => rfl
  | cons c text ih =>
    by_cases hc : c = 10
    · rw [hc, indented_newline, ih]
    · rw [indented_other hc, ih]
      rfl

/-- Where no newline is quoted, indentation does not change what is read. -/
theorem scan_indented (indent : Nat) {m : Mode} {pending : Nat} (hpending : 0 < pending → m = plain)
    (h : NoQuotedNewline m.state text = true) : m.scan (indented indent pending text).1 = m.scan text := by
  induction text generalizing m pending with
  | nil => rfl
  | cons c text ih =>
    rw [NoQuotedNewline, Bool.and_eq_true, ← state_step] at h
    by_cases hc : c = 10
    · subst hc
      have hplain : (m.step 10).2 = plain := by
        have hrest : Resting m := by simpa [Resting] using h.1
        rcases resting_iff.mp hrest with rfl | ⟨t, rfl⟩ <;> rfl
      rw [indented_newline, scan, scan, ih (fun _ => hplain) h.2]
    · rw [indented_other hc]
      have hrest : m.scan (c :: (indented indent 0 text).1) = m.scan (c :: text) := by
        rw [scan, scan, ih (fun h => absurd h (Nat.lt_irrefl 0)) h.2]
      rcases Nat.eq_zero_or_pos pending with rfl | hpos
      · exact hrest
      · rw [hpending hpos] at hrest ⊢
        rw [scan_spaces, hrest]

/-! ## Counts -/

/-- A count of tokens. -/
def total (μ : SqlToken → Nat) (ts : List SqlToken) : Nat := (ts.map μ).sum

theorem total_append (μ : SqlToken → Nat) (xs ys : List SqlToken) : total μ (xs ++ ys) = total μ xs + total μ ys := by
  rw [total, List.map_append, List.sum_append]
  rfl

/-- A count of the characters of a text, by where they are. -/
def along (ν : SqlState → Byte → Nat) (st : SqlState) : Bytes → Nat
  | [] => 0
  | c :: cs => ν st c + along ν (st.next c) cs

/-- Where every character counts in the tokens that are read up to it, the tokens of a text count as its characters. -/
theorem total_tokens (μ : SqlToken → Nat) (ν : SqlState → Byte → Nat)
    (hstep : ∀ (m : Mode) c, total μ (m.step c).1 + total μ (m.step c).2.finish = total μ m.finish + ν m.state c) (m : Mode)
    (text : Bytes) : total μ (m.tokens text) = total μ m.finish + along ν m.state text := by
  induction text generalizing m with
  | nil => simp [tokens, scan, along]
  | cons c text ih =>
    have hc := hstep m c
    have hrest := ih (m.step c).2
    rw [state_step] at hrest
    simp only [tokens, scan, total_append, List.append_assoc, along] at hrest ⊢
    omega

/-! ## Characters that are not white -/

theorem along_solid (st : SqlState) (text : Bytes) : along (fun _ c => solid [c]) st text = solid text := by
  induction text generalizing st with
  | nil => rfl
  | cons c text ih =>
    rw [along, ih]
    exact (solid_append [c] text).symm

theorem solid_replicate (n : Nat) : solid (List.replicate n 32) = 0 := by
  induction n with
  | zero => rfl
  | succ n ih => rw [List.replicate_succ, solid_cons, ih]; rfl

theorem solid_indented (indent pending : Nat) (text : Bytes) : solid (indented indent pending text).1 = solid text := by
  induction text generalizing pending with
  | nil => rfl
  | cons c text ih =>
    by_cases hc : c = 10
    · rw [hc, indented_newline, solid_cons, solid_cons, ih]
    · rw [indented_other hc, solid_append, solid_replicate, solid_cons, solid_cons, ih, Nat.zero_add]

theorem solidAll_cons (t : SqlToken) (ts : List SqlToken) : solidAll (t :: ts) = solid t.text + solidAll ts := rfl

theorem solidAll_stepPlain (c : Byte) : solidAll (stepPlain c).1 + solidAll (stepPlain c).2.finish = solid [c] := by
  unfold stepPlain
  split
  · next hwhite =>
    rw [solid_cons, if_pos hwhite]
    rfl
  · cases Quoted.opened c <;> simp [solidAll, finish]

theorem solidAll_step (m : Mode) (c : Byte) : solidAll (m.step c).1 + solidAll (m.step c).2.finish = solidAll m.finish + solid [c] := by
  have happ (text : Bytes) : solidAll [⟨none, text ++ [c]⟩] = solidAll [⟨none, text⟩] + solid [c] := by
    simp [solidAll, solid_append]
  cases m with
  | plain => rw [step, solidAll_stepPlain]; exact (Nat.zero_add _).symm
  | quoted kind text =>
    rw [step]
    split_ifs <;> simp [solidAll, finish, solid_append]
  | closing text =>
    rw [step]
    split
    · simp [solidAll, finish, solid_append]
    · have := solidAll_stepPlain c
      rw [solidAll_cons]
      simp only [finish, solidAll_cons] at this ⊢
      have hnil : solidAll [] = 0 := rfl
      omega

/-- The tokens of a text have its characters. -/
theorem solidAll_tokensOf (text : Bytes) : solidAll (tokensOf text) = solid text := by
  have h := total_tokens (fun t => solid t.text) (fun _ c => solid [c]) solidAll_step plain text
  rw [along_solid] at h
  exact h.trans (Nat.zero_add _)

/-! ## Characters in quoted tokens -/

/-- The characters of a quoted token. -/
def quotedLength (t : SqlToken) : Nat := if t.kind = none then 0 else t.text.length

/-- A character that is quoted, or a quote. -/
def isQuoted (st : SqlState) (c : Byte) : Nat := if st = .plain ∧ st.next c = .plain then 0 else 1

theorem isQuoted_of_ne (h : st ≠ .plain) (c : Byte) : isQuoted st c = 1 := if_neg fun h' => h h'.1

theorem quoted_stepPlain (c : Byte) : total quotedLength (stepPlain c).1 + total quotedLength (stepPlain c).2.finish = isQuoted .plain c := by
  unfold stepPlain isQuoted
  split
  · next hwhite =>
    rw [next_of_isWhite hwhite]
    rfl
  · rw [next_plain]
    cases h : Quoted.opened c with
    | none => simp [total, quotedLength, finish]
    | some kind => simp [total, quotedLength, finish, state_ne_plain kind]

theorem quoted_step (m : Mode) (c : Byte) :
    total quotedLength (m.step c).1 + total quotedLength (m.step c).2.finish = total quotedLength m.finish + isQuoted m.state c := by
  cases m with
  | plain => rw [step, quoted_stepPlain]; exact (Nat.zero_add _).symm
  | quoted kind text =>
    rw [show (quoted kind text).state = kind.state from rfl, isQuoted_of_ne (state_ne_plain kind), step]
    split_ifs <;> simp [total, quotedLength, finish]
  | closing text =>
    rw [step]
    split
    · next hquote =>
      subst hquote
      simp [total, quotedLength, finish, state]
      rfl
    · have := quoted_stepPlain c
      simp only [total, List.map_cons, List.sum_cons, finish, state, List.map_nil, List.sum_nil] at this ⊢
      omega

/-- The quoted characters of a text. -/
def countQuoted (text : Bytes) : Nat := along isQuoted .plain text

/-- The quoted tokens of a text have its quoted characters. -/
theorem quoted_tokensOf (text : Bytes) : total quotedLength (tokensOf text) = countQuoted text :=
  (total_tokens quotedLength isQuoted quoted_step plain text).trans (Nat.zero_add _)

/-- The state behind a text. -/
def stateAfter (st : SqlState) (text : Bytes) : SqlState := text.foldl (fun st c => st.next c) st

theorem along_append (ν : SqlState → Byte → Nat) (st : SqlState) (a b : Bytes) :
    along ν st (a ++ b) = along ν st a + along ν (stateAfter st a) b := by
  induction a generalizing st with
  | nil => simp [along, stateAfter]
  | cons c a ih => simp [along, stateAfter, ih, Nat.add_assoc]

theorem stateAfter_append (st : SqlState) (a b : Bytes) : stateAfter st (a ++ b) = stateAfter (stateAfter st a) b := by
  simp [stateAfter]

theorem stateAfter_spaces (st : SqlState) (n : Nat) : stateAfter st (List.replicate n 32) = st := by
  induction n with
  | zero => rfl
  | succ n ih =>
    rw [List.replicate_succ, stateAfter, List.foldl_cons, next_of_isWhite rfl]
    exact ih

/-- Spaces count where they are quoted. -/
theorem along_spaces (st : SqlState) (n : Nat) : along isQuoted st (List.replicate n 32) = if st = .plain then 0 else n := by
  induction n with
  | zero => simp [along]
  | succ n ih =>
    rw [List.replicate_succ, along, next_of_isWhite rfl, ih, isQuoted, next_of_isWhite rfl]
    split <;> simp_all [Nat.add_comm]

theorem stateAfter_indented (indent pending : Nat) (st : SqlState) (text : Bytes) :
    stateAfter st (indented indent pending text).1 = stateAfter st text := by
  induction text generalizing st pending with
  | nil => rfl
  | cons c text ih =>
    by_cases hc : c = 10
    · subst hc
      exact ih indent (st.next 10)
    · rw [indented_other hc, stateAfter_append, stateAfter_spaces]
      exact ih 0 (st.next c)

/-- Indentation adds quoted characters, or none. -/
theorem along_indented_le (indent pending : Nat) (st : SqlState) (text : Bytes) :
    along isQuoted st text ≤ along isQuoted st (indented indent pending text).1 := by
  induction text generalizing st pending with
  | nil => exact Nat.le_refl _
  | cons c text ih =>
    by_cases hc : c = 10
    · subst hc
      exact Nat.add_le_add_left (ih indent _) _
    · rw [indented_other hc, along_append, stateAfter_spaces]
      exact (Nat.add_le_add_left (ih 0 _) _).trans (Nat.le_add_left _ _)

/-- In a token, the spaces before the next character count. -/
theorem along_indented_lt_of_pending {indent pending : Nat} (hindent : 0 < indent) (hpending : 0 < pending)
    (hst : st ≠ .plain) (hend : stateAfter st text = .plain) : along isQuoted st text < along isQuoted st (indented indent pending text).1 := by
  induction text generalizing pending with
  | nil => exact absurd hend hst
  | cons c text ih =>
    by_cases hc : c = 10
    · subst hc
      have hnext : st.next 10 = st := next_of_isWhite rfl st
      have hend : stateAfter st text = .plain := by
        rw [← hnext]
        exact hend
      rw [indented_newline, along, along, hnext]
      exact Nat.add_lt_add_left (ih hindent hend) _
    · rw [indented_other hc, along_append, stateAfter_spaces, along_spaces, if_neg hst]
      have := along_indented_le indent 0 (st.next c) text
      simp only [along]
      omega

/-- A newline in a token is followed by spaces that are in the token. -/
theorem along_indented_lt {indent : Nat} (hindent : 0 < indent) (pending : Nat)
    (hend : stateAfter st text = .plain) (h : NoQuotedNewline st text = false) :
    along isQuoted st text < along isQuoted st (indented indent pending text).1 := by
  induction text generalizing st pending with
  | nil => simp [NoQuotedNewline] at h
  | cons c text ih =>
    by_cases hc : c = 10
    · subst hc
      have hnext : st.next 10 = st := next_of_isWhite rfl st
      have hend : stateAfter st text = .plain := by
        rw [← hnext]
        exact hend
      rw [indented_newline, along, along, hnext]
      refine Nat.add_lt_add_left ?_ _
      by_cases hst : st = .plain
      · have h : NoQuotedNewline st text = false := by
          rw [hst] at hnext h ⊢
          simpa [NoQuotedNewline, hnext] using h
        exact ih indent hend h
      · exact along_indented_lt_of_pending hindent hindent hst hend
    · have h : NoQuotedNewline (st.next c) text = false := by simpa [NoQuotedNewline, hc] using h
      rw [indented_other hc, along_append, stateAfter_spaces]
      have htail := ih 0 hend h
      beta_reduce at htail
      simp only [along]
      omega

/-! ## Newlines in quoted tokens -/

theorem innerNewlines_eq_zero (st : SqlState) (text : Bytes) : innerNewlines st text = 0 ↔ NoQuotedNewline st text = true := by
  induction text generalizing st with
  | nil => simp [innerNewlines, NoQuotedNewline]
  | cons c text ih =>
    rw [innerNewlines, NoQuotedNewline, Nat.add_eq_zero_iff, ih, Bool.and_eq_true]
    refine and_congr ?_ Iff.rfl
    unfold innerNewline
    split
    · simp_all
    · simp_all
      tauto

theorem inner_stepPlain (c : Byte) : total TokenAux.inner (stepPlain c).1 + total TokenAux.inner (stepPlain c).2.finish = 0 := by
  unfold stepPlain
  split
  · rfl
  · cases h : Quoted.opened c with
    | none => simp [total, TokenAux.inner, finish]
    | some kind => simp [total, TokenAux.inner, finish, opened_ne_newline h]

theorem total_inner_step (m : Mode) (c : Byte) :
    total TokenAux.inner (m.step c).1 + total TokenAux.inner (m.step c).2.finish = total TokenAux.inner m.finish + innerNewline m.state c := by
  cases m with
  | plain => rw [step, inner_stepPlain]; exact (congrArg (0 + ·) (innerNewline_plain c)).symm
  | quoted kind text =>
    have := count_newline text kind c
    rw [step]
    split_ifs <;> simpa [total, TokenAux.inner, finish, state] using this
  | closing text =>
    rw [step, show (closing text).state = .plain from rfl, innerNewline_plain]
    split
    · next hquote =>
      subst hquote
      simp [total, TokenAux.inner, finish]
      decide
    · have := inner_stepPlain c
      simp only [total, List.map_cons, List.sum_cons, finish, List.map_nil, List.sum_nil] at this ⊢
      omega

/-- The quoted tokens of a text have no newline exactly when none is quoted in it. -/
theorem inner_tokensOf (text : Bytes) : total TokenAux.inner (tokensOf text) = 0 ↔ NoQuotedNewline .plain text = true := by
  have halong : ∀ st, along innerNewline st text = innerNewlines st text := by
    induction text with
    | nil => exact fun _ => rfl
    | cons c text ih => exact fun st => congrArg (innerNewline st c + ·) (ih _)
  have h := total_tokens TokenAux.inner innerNewline total_inner_step plain text
  rw [tokensOf, h, halong, ← innerNewlines_eq_zero]
  exact (Nat.zero_add _).congr_left

end ScanAux

end GenPrintf

end CgSql
