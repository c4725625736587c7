import CgSql.SqlTokens
import CgSql.Theorems.Quoting

/-!
# Tokens and white space

A text that is laid out has the tokens of the text if and only if no newline that is laid out is in a token. Two counts on the tokens
tell texts apart: of the newlines in quoted tokens, and of the characters that are not white space.
-/

namespace CgSql

open Byte QuoteAux

namespace TokenAux

open LexState

/-! ## Counts -/

/-- The newlines in a quoted token. -/
def inner (t : SqlToken) : Nat := if t.kind = none then 0 else t.text.count 10

def innerAll (ts : List SqlToken) : Nat := (ts.map inner).sum

/-- The characters of tokens that are not white space. -/
def solidAll (ts : List SqlToken) : Nat := (ts.map fun t => solid t.text).sum

theorem innerAll_append (xs ys : List SqlToken) : innerAll (xs ++ ys) = innerAll xs + innerAll ys := by
  rw [innerAll, List.map_append, List.sum_append]
  rfl

theorem solidAll_append (xs ys : List SqlToken) : solidAll (xs ++ ys) = solidAll xs + solidAll ys := by
  rw [solidAll, List.map_append, List.sum_append]
  rfl

theorem solid_append (xs ys : Bytes) : solid (xs ++ ys) = solid xs + solid ys := List.countP_append

/-- Words do not count, however they are divided. -/
theorem innerAll_sqlTokens (words : WordCut) (text : Bytes) : innerAll (sqlTokens words text) = innerAll ((word []).lexFrom text) := by
  rw [sqlTokens]
  induction (word []).lexFrom text with
  | nil => rfl
  | cons t ts ih =>
    rw [List.flatMap_cons, innerAll_append, ih]
    show _ = inner t + innerAll ts
    congr 1
    split
    · next hkind =>
      rw [inner, if_pos hkind, innerAll, List.map_map]
      induction words.cut t.text with
      | nil => rfl
      | cons w ws ih =>
        rw [List.map_cons, List.sum_cons, ih]
        rfl
    · rw [innerAll, List.map_singleton, List.sum_singleton]

/-- Divided words have the characters of the words. -/
theorem solidAll_sqlTokens (words : WordCut) (text : Bytes) : solidAll (sqlTokens words text) = solidAll ((word []).lexFrom text) := by
  have hwords : ∀ ws : List Bytes, solidAll (ws.map (⟨none, ·⟩)) = solid ws.flatten := by
    intro ws
    induction ws with
    | nil => rfl
    | cons w ws ih =>
      rw [List.flatten_cons, solid_append, ← ih]
      rfl
  rw [sqlTokens]
  induction (word []).lexFrom text with
  | nil => rfl
  | cons t ts ih =>
    rw [List.flatMap_cons, solidAll_append, ih]
    show _ = solid t.text + solidAll ts
    congr 1
    split
    · rw [hwords, words.flatten_cut]
    · rw [solidAll, List.map_singleton, List.sum_singleton]

/-! ## The scanner -/

/-- The state without the text. -/
def stateOf : LexState → SqlState
  | word _ => .plain
  | quoted kind _ => kind.state
  | closing _ => .plain

/-- The text of the token that the scanner is in. -/
def held : LexState → Bytes
  | word text => text
  | quoted _ text => text
  | closing text => text

/-- The newlines of the quoted token that the scanner is in. -/
def heldInner : LexState → Nat
  | word _ => 0
  | quoted _ text => text.count 10
  | closing text => text.count 10

theorem next_plain (c : Byte) : SqlState.plain.next c = ((Quoted.opened c).map Quoted.state).getD .plain := by
  unfold SqlState.next Quoted.opened
  split_ifs <;> rfl

theorem next_quoted (kind : Quoted) (c : Byte) : kind.state.next c = if c = kind.close then .plain else kind.state := by
  cases kind <;> rfl

theorem stateOf_stepWord (text : Bytes) (c : Byte) : stateOf (stepWord text c).2 = SqlState.plain.next c := by
  unfold stepWord
  split
  · next hwhite => exact (next_of_isWhite hwhite .plain).symm
  · rw [next_plain]
    cases Quoted.opened c <;> rfl

theorem stateOf_step (s : LexState) (c : Byte) : stateOf (s.step c).2 = (stateOf s).next c := by
  cases s with
  | word text => exact stateOf_stepWord text c
  | quoted kind text =>
    show _ = kind.state.next c
    rw [next_quoted, step]
    split_ifs <;> rfl
  | closing text =>
    rw [step]
    split
    · next hquote => rw [hquote]; rfl
    · exact stateOf_stepWord [] c

theorem opened_ne_newline {c : Byte} {kind : Quoted} (h : Quoted.opened c = some kind) : c ≠ 10 := by
  rintro rfl
  cases h

theorem innerAll_wordToken (text : Bytes) : innerAll (wordToken text) = 0 := by
  unfold wordToken
  split_ifs <;> rfl

theorem inner_stepWord (text : Bytes) (c : Byte) : innerAll (stepWord text c).1 = 0 ∧ heldInner (stepWord text c).2 = 0 := by
  unfold stepWord
  split
  · exact ⟨innerAll_wordToken text, rfl⟩
  · split
    · next hopened => exact ⟨innerAll_wordToken text, List.count_eq_zero.mpr fun hin =>
        opened_ne_newline hopened (List.mem_singleton.mp hin).symm⟩
    · exact ⟨rfl, rfl⟩

/-- A character is a newline in a quoted token. -/
def innerNewline (st : SqlState) (c : Byte) : Nat := if c = 10 ∧ st ≠ .plain then 1 else 0

/-- The newlines that a scanner finds in quoted tokens. -/
def innerNewlines (st : SqlState) : Bytes → Nat
  | [] => 0
  | c :: cs => innerNewline st c + innerNewlines (st.next c) cs

theorem state_ne_plain (kind : Quoted) : kind.state ≠ .plain := by cases kind <;> decide

theorem count_newline (text : Bytes) (kind : Quoted) (c : Byte) : (text ++ [c]).count 10 = text.count 10 + innerNewline kind.state c := by
  rw [List.count_append, innerNewline]
  by_cases hc : c = 10
  · rw [hc, if_pos ⟨rfl, state_ne_plain kind⟩]
    rfl
  · rw [if_neg fun h => hc h.1, List.count_eq_zero.mpr fun hin => hc (List.mem_singleton.mp hin).symm]

theorem innerNewline_plain (c : Byte) : innerNewline .plain c = 0 := if_neg fun h => h.2 rfl

theorem inner_step (s : LexState) (c : Byte) : innerAll (s.step c).1 + heldInner (s.step c).2 = heldInner s + innerNewline (stateOf s) c := by
  cases s with
  | word text =>
    obtain ⟨hemit, hheld⟩ := inner_stepWord text c
    rw [step, hemit, hheld]
    exact congrArg (0 + ·) (innerNewline_plain c).symm
  | quoted kind text =>
    show _ = text.count 10 + innerNewline kind.state c
    rw [← count_newline, step]
    split_ifs
    · exact Nat.zero_add _
    · exact List.sum_singleton
    · exact Nat.zero_add _
  | closing text =>
    obtain ⟨hemit, hheld⟩ := inner_stepWord [] c
    rw [step]
    split
    · next hquote =>
      show 0 + (text ++ [c]).count 10 = text.count 10 + innerNewline .plain c
      rw [count_newline text .string, innerNewline_plain, hquote]
      exact Nat.zero_add _
    · show innerAll ([⟨some .string, text⟩] ++ (stepWord [] c).1) + _ = text.count 10 + innerNewline .plain c
      rw [innerAll_append, hemit, hheld, innerNewline_plain]
      exact List.sum_singleton

theorem innerAll_lexFrom (s : LexState) (text : Bytes) : innerAll (s.lexFrom text) = heldInner s + innerNewlines (stateOf s) text := by
  induction text generalizing s with
  | nil =>
    cases s with
    | word text => exact innerAll_wordToken text
    | quoted kind text => exact List.sum_singleton
    | closing text => exact List.sum_singleton
  | cons c cs ih =>
    rw [lexFrom, innerAll_append, ih, stateOf_step, ← Nat.add_assoc, inner_step, Nat.add_assoc]
    rfl

theorem solidAll_wordToken (text : Bytes) : solidAll (wordToken text) = solid text := by
  unfold wordToken
  split
  · next hnil => rw [hnil]; rfl
  · exact List.sum_singleton

theorem solid_stepWord (text : Bytes) (c : Byte) : solidAll (stepWord text c).1 + solid (held (stepWord text c).2) = solid (text ++ [c]) := by
  rw [solid_append]
  unfold stepWord
  split
  · next hwhite =>
    rw [solidAll_wordToken, solid_cons, if_pos hwhite]
    rfl
  · split
    · rw [solidAll_wordToken]
      rfl
    · exact (Nat.zero_add _).trans (solid_append _ _)

theorem solid_step (s : LexState) (c : Byte) : solidAll (s.step c).1 + solid (held (s.step c).2) = solid (held s ++ [c]) := by
  cases s with
  | word text => exact solid_stepWord text c
  | quoted kind text =>
    rw [step]
    split_ifs
    · exact Nat.zero_add _
    · exact List.sum_singleton
    · exact Nat.zero_add _
  | closing text =>
    rw [step]
    split
    · exact Nat.zero_add _
    · show solidAll ([⟨some .string, text⟩] ++ (stepWord [] c).1) + _ = solid (text ++ [c])
      have htoken : solidAll [⟨some .string, text⟩] = solid text := List.sum_singleton
      rw [solidAll_append, Nat.add_assoc, solid_stepWord, htoken]
      exact (solid_append text [c]).symm

theorem solidAll_lexFrom (s : LexState) (text : Bytes) : solidAll (s.lexFrom text) = solid (held s) + solid text := by
  induction text generalizing s with
  | nil =>
    cases s with
    | word text => exact solidAll_wordToken text
    | quoted kind text => exact List.sum_singleton
    | closing text => exact List.sum_singleton
  | cons c cs ih =>
    have hsplit : solid (c :: cs) = solid [c] + solid cs := solid_append [c] cs
    rw [lexFrom, solidAll_append, ih, ← Nat.add_assoc, solid_step, solid_append, hsplit, Nat.add_assoc]

/-- Texts with the same tokens have as many characters that are not white space. -/
theorem solid_of_sqlTokens {words : WordCut} {text out : Bytes} (h : sqlTokens words out = sqlTokens words text) : solid out = solid text := by
  have hsolid := congrArg solidAll h
  rw [solidAll_sqlTokens, solidAll_sqlTokens, solidAll_lexFrom, solidAll_lexFrom] at hsolid
  exact Nat.add_left_cancel hsolid

/-- And as many newlines in quoted tokens. -/
theorem innerNewlines_of_sqlTokens {words : WordCut} {text out : Bytes} (h : sqlTokens words out = sqlTokens words text) :
    innerNewlines .plain out = innerNewlines .plain text := by
  have hinner := congrArg innerAll h
  rw [innerAll_sqlTokens, innerAll_sqlTokens, innerAll_lexFrom, innerAll_lexFrom] at hinner
  exact Nat.add_left_cancel hinner

/-! ## The text that is laid out -/

/-- Spaces between tokens are none. -/
theorem lexFrom_dropWhile (text : Bytes) : (word []).lexFrom (text.dropWhile (· = 32)) = (word []).lexFrom text :=
  apply_dropWhile (word []).lexFrom (fun _ => rfl) text

/-- A space between tokens does what a newline does. -/
theorem step_newline {s : LexState} (h : stateOf s = .plain) : s.step 32 = s.step 10 ∧ (s.step 10).2 = word [] := by
  cases s with
  | word text => exact ⟨rfl, rfl⟩
  | quoted kind text => exact absurd h (state_ne_plain kind)
  | closing text => exact ⟨rfl, rfl⟩

/-- A character, and those that follow. -/
theorem newlinesBetween_cons (inQuote : Bool) (st : SqlState) (c : Byte) (cs : Bytes) :
    NewlinesBetween inQuote st (c :: cs) ↔ (c = 10 → inQuote = false → st = .plain) ∧
      NewlinesBetween (if c = squote then !inQuote else inQuote) (st.next c) cs := Iff.rfl

/-- A quote moves the count. -/
theorem newlinesBetween_squote (inQuote : Bool) (st : SqlState) (cs : Bytes) :
    NewlinesBetween inQuote st (squote :: cs) ↔ NewlinesBetween (!inQuote) (st.next squote) cs := by
  rw [newlinesBetween_cons, if_pos rfl]
  exact ⟨fun h => h.2, fun h => ⟨fun h10 => absurd h10 (by decide), h⟩⟩

/-- A space does not. -/
theorem newlinesBetween_space (inQuote : Bool) (st : SqlState) (cs : Bytes) :
    NewlinesBetween inQuote st (32 :: cs) ↔ NewlinesBetween inQuote st cs := by
  have hnext : st.next 32 = st := next_of_isWhite rfl st
  rw [newlinesBetween_cons, if_neg (by decide), hnext]
  exact ⟨fun h => h.2, fun h => ⟨fun h10 => absurd h10 (by decide), h⟩⟩

theorem newlinesBetween_dropWhile (inQuote : Bool) (st : SqlState) (text : Bytes) :
    NewlinesBetween inQuote st (text.dropWhile (· = 32)) ↔ NewlinesBetween inQuote st text :=
  iff_of_eq (apply_dropWhile (NewlinesBetween inQuote st) (fun cs => propext (newlinesBetween_space inQuote st cs)) text)

/-- Another character that is no quote. -/
theorem newlinesBetween_other {inQuote : Bool} {c : Byte} (hquote : c ≠ squote) (hlayout : ¬(¬inQuote = true ∧ c = 10)) (st : SqlState)
    (cs : Bytes) : NewlinesBetween inQuote st (c :: cs) ↔ NewlinesBetween inQuote (st.next c) cs := by
  rw [newlinesBetween_cons, if_neg hquote]
  refine ⟨fun h => h.2, fun h => ⟨fun h10 hfalse => absurd ⟨?_, h10⟩ hlayout, h⟩⟩
  rw [hfalse]
  exact Bool.false_ne_true

/-- Laying a text out keeps the tokens if no newline that is laid out lies in a token. -/
theorem lexFrom_laidOut (atStart inQuote : Bool) (text : Bytes) {s : LexState} (hs : atStart = true → s = word [])
    (h : NewlinesBetween inQuote (stateOf s) text) : s.lexFrom (laidOut atStart inQuote text) = s.lexFrom text := by
  fun_induction laidOut atStart inQuote text generalizing s with
  | case1 => rfl
  | case2 atStart inQuote c cs hskip ih =>
    obtain ⟨hstart, rfl, -⟩ := hskip
    obtain rfl := hs hstart
    exact ih hs ((newlinesBetween_space _ _ _).mp h)
  | case3 atStart inQuote c cs _ hopen ih =>
    obtain ⟨hquote, rfl⟩ := hopen
    obtain rfl : inQuote = false := Bool.not_eq_true _ ▸ hquote
    rw [newlinesBetween_squote, ← stateOf_step] at h
    rw [lexFrom, lexFrom, ih (fun h => absurd h Bool.false_ne_true) h]
  | case4 atStart inQuote c cs _ _ hdouble ih =>
    obtain ⟨rfl, rfl, hcs⟩ := hdouble
    obtain ⟨cs, rfl⟩ := List.head?_eq_some_iff.mp hcs
    rw [newlinesBetween_squote, newlinesBetween_squote, ← stateOf_step, ← stateOf_step] at h
    rw [lexFrom, lexFrom, lexFrom, lexFrom]
    exact congrArg (_ ++ ·) (congrArg (_ ++ ·) (ih (fun h => absurd h Bool.false_ne_true) h))
  | case5 atStart inQuote c cs _ _ _ hclose ih =>
    obtain ⟨rfl, rfl⟩ := hclose
    rw [newlinesBetween_squote, ← stateOf_step] at h
    rw [lexFrom, lexFrom, ih (fun h => absurd h Bool.false_ne_true) h]
  | case6 atStart inQuote c cs _ _ _ _ hlayout ih =>
    obtain ⟨hquote, rfl⟩ := hlayout
    obtain rfl : inQuote = false := Bool.not_eq_true _ ▸ hquote
    obtain ⟨hplain, hrest⟩ := h
    obtain ⟨hstep, hword⟩ := step_newline (hplain rfl rfl)
    rw [if_neg (by decide), ← stateOf_step, hword] at hrest
    rw [lexFrom, lexFrom, hstep, hword, ih (fun h => absurd h Bool.false_ne_true) ((newlinesBetween_dropWhile _ _ _).mpr hrest), lexFrom_dropWhile]
  | case7 atStart inQuote c cs _ hopen _ hclose hlayout ih =>
    have hc : c ≠ squote := by
      intro hc
      cases inQuote with
      | false => exact hopen ⟨Bool.false_ne_true, hc⟩
      | true => exact hclose ⟨rfl, hc⟩
    rw [newlinesBetween_other hc hlayout, ← stateOf_step] at h
    rw [lexFrom, lexFrom, ih (fun h => absurd h Bool.false_ne_true) h]

theorem innerNewlines_cons (st : SqlState) (c : Byte) (cs : Bytes) :
    innerNewlines st (c :: cs) = innerNewline st c + innerNewlines (st.next c) cs := rfl

theorem innerNewlines_space (st : SqlState) (cs : Bytes) : innerNewlines st (32 :: cs) = innerNewlines st cs := by
  rw [innerNewlines_cons, next_of_isWhite rfl, innerNewline, if_neg fun h => absurd h.1 (by decide), Nat.zero_add]

theorem innerNewlines_dropWhile (st : SqlState) (text : Bytes) : innerNewlines st (text.dropWhile (· = 32)) = innerNewlines st text :=
  apply_dropWhile (innerNewlines st) (innerNewlines_space st) text

/-- A newline that is laid out in a token is lost to it. -/
theorem innerNewlines_laidOut (atStart inQuote : Bool) (text : Bytes) (st : SqlState) :
    innerNewlines st (laidOut atStart inQuote text) ≤ innerNewlines st text ∧
      (innerNewlines st (laidOut atStart inQuote text) = innerNewlines st text → NewlinesBetween inQuote st text) := by
  fun_induction laidOut atStart inQuote text generalizing st with
  | case1 => exact ⟨Nat.le_refl _, fun _ => trivial⟩
  | case2 atStart inQuote c cs hskip ih =>
    obtain ⟨-, rfl, -⟩ := hskip
    rw [innerNewlines_space, newlinesBetween_space]
    exact ih st
  | case3 atStart inQuote c cs _ hopen ih =>
    obtain ⟨hquote, rfl⟩ := hopen
    obtain rfl : inQuote = false := Bool.not_eq_true _ ▸ hquote
    rw [innerNewlines_cons, innerNewlines_cons, newlinesBetween_squote, Nat.add_le_add_iff_left, Nat.add_left_cancel_iff]
    exact ih _
  | case4 atStart inQuote c cs _ _ hdouble ih =>
    obtain ⟨rfl, rfl, hcs⟩ := hdouble
    obtain ⟨cs, rfl⟩ := List.head?_eq_some_iff.mp hcs
    rw [innerNewlines_cons, innerNewlines_cons, innerNewlines_cons, innerNewlines_cons, newlinesBetween_squote, newlinesBetween_squote,
      Nat.add_le_add_iff_left, Nat.add_left_cancel_iff, Nat.add_le_add_iff_left, Nat.add_left_cancel_iff]
    exact ih _
  | case5 atStart inQuote c cs _ _ _ hclose ih =>
    obtain ⟨rfl, rfl⟩ := hclose
    rw [innerNewlines_cons, innerNewlines_cons, newlinesBetween_squote, Nat.add_le_add_iff_left, Nat.add_left_cancel_iff]
    exact ih _
  | case6 atStart inQuote c cs _ _ _ _ hlayout ih =>
    obtain ⟨hquote, rfl⟩ := hlayout
    obtain rfl : inQuote = false := Bool.not_eq_true _ ▸ hquote
    have hnext : st.next 10 = st := next_of_isWhite rfl st
    obtain ⟨hle, heq⟩ := ih st
    rw [innerNewlines_dropWhile] at hle heq
    rw [newlinesBetween_dropWhile] at heq
    rw [innerNewlines_space, innerNewlines_cons, newlinesBetween_cons, if_neg (by decide), hnext]
    refine ⟨by omega, fun hsame => ⟨fun _ _ => ?_, heq (by omega)⟩⟩
    by_contra hinner
    rw [innerNewline, if_pos ⟨rfl, hinner⟩] at hsame
    omega
  | case7 atStart inQuote c cs _ hopen _ hclose hlayout ih =>
    have hc : c ≠ squote := by
      intro hc
      cases inQuote with
      | false => exact hopen ⟨Bool.false_ne_true, hc⟩
      | true => exact hclose ⟨rfl, hc⟩
    rw [innerNewlines_cons, innerNewlines_cons, newlinesBetween_other hc hlayout, Nat.add_le_add_iff_left, Nat.add_left_cancel_iff]
    exact ih _

/-- Laying a text out keeps the tokens if and only if no newline that is laid out lies in a token. -/
theorem sqlTokens_laidOut (words : WordCut) (text : Bytes) :
    sqlTokens words (laidOut true false text) = sqlTokens words text ↔ NewlinesBetween false .plain text := by
  constructor
  · intro h
    exact (innerNewlines_laidOut true false text .plain).2 (innerNewlines_of_sqlTokens h)
  · intro h
    have hlex := lexFrom_laidOut true false text (fun _ => rfl) h
    rw [sqlTokens, hlex]
    rfl

end TokenAux

end CgSql
