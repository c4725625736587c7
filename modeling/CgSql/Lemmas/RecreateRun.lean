import CgSql.RecreateRun
import Mathlib.Data.List.TakeWhile
import Mathlib.Data.Option.Basic

/-!
# Splitting and reading names back

What the splitting makes of a text that was put together from statements, and what the two readers make of the statements that
`gen_sql.c` writes.
-/

namespace CgSql.Rebuild

/-! ## Splitting -/

/-- Whether the word stands in a text outside of its string literals (`none`), and else whether the text ends inside a literal. -/
def scan (w : Text) (inQuote : Bool) : Text → Option Bool
  | [] => some inQuote
  | c :: p =>
    match inQuote with
    | true =>
      if c = quote then
        match p with
        | [] => some false
        | d :: p' => if d = quote then scan w true p' else scan w false (d :: p')
      else scan w true p
    | false => if c = quote then scan w true p else if w <+: c :: p then none else scan w false p

/-- Statements that the splitting leaves as they are: none has the word behind its first character outside of a string literal, and
none but the last leaves a literal open. -/
def Whole (w : Text) (l : List Text) : Prop :=
  (∀ s ∈ l, (scan w false s.tail).isSome) ∧ ∀ s ∈ l.dropLast, scan w false s.tail = some false

namespace SplitAux

variable {a : Char} {w p w' s : Text} {l : List Text}

theorem statements_quoted (w line p : Text) (hc : c ≠ quote) : statements w true line (c :: p) = statements w true (line ++ [c]) p := by
  rw [statements.eq_def]
  simp only [if_neg hc]

theorem statements_escape (w line p : Text) : statements w true line (quote :: quote :: p) = statements w true (line ++ [quote, quote]) p :=
  (if_pos rfl).trans (if_pos rfl)

theorem statements_close (w line p : Text) {d : Char} (hd : d ≠ quote) :
    statements w true line (quote :: d :: p) = statements w false (line ++ [quote]) (d :: p) :=
  (if_pos rfl).trans (if_neg hd)

theorem statements_open (w line p : Text) : statements w false line (quote :: p) = statements w true (line ++ [quote]) p :=
  if_pos rfl

theorem statements_cut {line : Text} (hc : c ≠ quote) (h : w <+: c :: p ∧ line ≠ []) :
    statements w false line (c :: p) = line :: statements w false [c] p :=
  (if_neg hc).trans (if_pos h)

theorem statements_keep {line : Text} (hc : c ≠ quote) (h : ¬ (w <+: c :: p ∧ line ≠ [])) :
    statements w false line (c :: p) = statements w false (line ++ [c]) p :=
  (if_neg hc).trans (if_neg h)

theorem scan_quoted (w p : Text) (hc : c ≠ quote) : scan w true (c :: p) = scan w true p := by
  rw [scan.eq_def]
  simp only [if_neg hc]

theorem scan_escape (w p : Text) : scan w true (quote :: quote :: p) = scan w true p :=
  (if_pos rfl).trans (if_pos rfl)

/-- A quote inside a literal closes it where no second quote follows. -/
theorem scan_close (w : Text) (hp : p.head? ≠ some quote) : scan w true (quote :: p) = scan w false p := by
  cases p with
  | nil => exact if_pos rfl
  | cons d p =>
    have hd : d ≠ quote := by simpa using hp
    exact (if_pos rfl).trans (if_neg hd)

theorem scan_open (w p : Text) : scan w false (quote :: p) = scan w true p :=
  if_pos rfl

theorem scan_keep (hc : c ≠ quote) (h : ¬ w <+: c :: p) : scan w false (c :: p) = scan w false p :=
  (if_neg hc).trans (if_neg h)

/-- No part of the word both starts and ends it, except the whole. -/
def Borderless (w : Text) : Prop := ∀ v, v ≠ [] → v <+: w → v <:+ w → v = w

/-- The words do not overlap with themselves. -/
theorem create_borderless : Borderless "CREATE ".toList := by
  have hall : ∀ v ∈ "CREATE ".toList.inits, v ≠ [] → v <:+ "CREATE ".toList → v = "CREATE ".toList := by decide
  intro v hne hpre hsuf
  exact hall v ((List.mem_inits ..).mpr hpre) hne hsuf

theorem drop_borderless : Borderless "DROP ".toList := by
  have hall : ∀ v ∈ "DROP ".toList.inits, v ≠ [] → v <:+ "DROP ".toList → v = "DROP ".toList := by decide
  intro v hne hpre hsuf
  exact hall v ((List.mem_inits ..).mpr hpre) hne hsuf

/-- What follows a text: nothing, or a text that starts with the word. -/
def Follows (w rest : Text) : Prop := rest = [] ∨ w <+: rest

/-- A word that does not overlap with itself is not cut by the border to a text that starts with it. -/
theorem prefix_append_iff (hw : Borderless w) {rest : Text} (hs : s ≠ []) (hrest : Follows w rest) : w <+: s ++ rest ↔ w <+: s := by
  constructor
  · intro h
    rcases List.prefix_or_prefix_of_prefix h (List.prefix_append s rest) with hws | ⟨u, rfl⟩
    · exact hws
    · have hu : u <+: rest := (List.prefix_append_right_inj s).mp h
      rcases hrest with rfl | hrest
      · rw [List.prefix_nil.mp hu, List.append_nil]
      · by_cases hnil : u = []
        · rw [hnil, List.append_nil]
        · have hsu : u <+: s ++ u :=
            List.prefix_of_prefix_length_le hu hrest (by simp)
          have heq := congrArg List.length (hw u hnil hsu (List.suffix_append s u))
          exact absurd (List.length_eq_zero_iff.mp (by simpa using heq)) hs
  · intro h
    exact h.trans (List.prefix_append s rest)

/-- A text in which the word does not stand is read to its end. -/
theorem statements_append (hw : Borderless w) (hquote : w.head? ≠ some quote) (hne : w ≠ []) (inQuote : Bool)
    (s : Text) : ∀ (line rest : Text) (q : Bool), line ≠ [] → Follows w rest → scan w inQuote s = some q →
      statements w inQuote line (s ++ rest) = statements w q (line ++ s) rest := by
  fun_induction scan w inQuote s with
  | case1 inQuote =>
    intro line rest q _ _ h
    simp only [Option.some.injEq] at h
    subst h
    simp
  | case2 =>
    intro line rest q _ hrest h
    simp only [Option.some.injEq] at h
    subst h
    cases rest with
    | nil => simp [statements]
    | cons d rest =>
      have hd : d ≠ quote := by
        obtain ⟨a, w', rfl⟩ := List.exists_cons_of_ne_nil hne
        have hpre := hrest.resolve_left (by simp)
        rw [List.cons_prefix_cons] at hpre
        simpa [hpre.1] using hquote
      exact statements_close w line rest hd
  | case3 p' ih =>
    intro line rest q _ hrest h
    rw [List.cons_append, List.cons_append, statements_escape, ih (line ++ [quote, quote]) rest q (by simp) hrest h]
    simp
  | case4 d p' hd ih =>
    intro line rest q _ hrest h
    rw [List.cons_append, List.cons_append, statements_close _ _ _ hd, ← List.cons_append, ih (line ++ [quote]) rest q (by simp) hrest h]
    simp
  | case5 c p hc ih =>
    intro line rest q _ hrest h
    rw [List.cons_append, statements_quoted _ _ _ hc, ih (line ++ [c]) rest q (by simp) hrest h]
    simp
  | case6 p ih =>
    intro line rest q _ hrest h
    rw [List.cons_append, statements_open, ih (line ++ [quote]) rest q (by simp) hrest h]
    simp
  | case7 c p hc hw =>
    intro line rest q _ hrest h
    simp at h
  | case8 c p hc hnone ih =>
    intro line rest q _ hrest h
    have hnot : ¬ (w <+: c :: (p ++ rest) ∧ line ≠ []) := by
      rintro ⟨hpre, -⟩
      exact hnone ((prefix_append_iff hw (by simp) hrest).mp (by simpa using hpre))
    rw [List.cons_append, statements_keep hc hnot, ih (line ++ [c]) rest q (by simp) hrest h]
    simp

/-- The pieces behind the first one: each is scanned without a find, and all but the last with its literals closed. -/
def Pieces (w : Text) (l : List Text) : Prop :=
  ∀ l₁ p l₂, l = l₁ ++ p :: l₂ → ∃ q, scan w false p.tail = some q ∧ (l₂ ≠ [] → q = false)

theorem Pieces.cons {q : Bool} (hp : scan w false p.tail = some q) (hq : l ≠ [] → q = false) (hl : Pieces w l) : Pieces w (p :: l) := by
  intro l₁ p' l₂ h
  cases l₁ with
  | nil =>
    simp only [List.nil_append, List.cons.injEq] at h
    obtain ⟨rfl, rfl⟩ := h
    exact ⟨q, hp, hq⟩
  | cons a l₁ =>
    simp only [List.cons_append, List.cons.injEq] at h
    exact hl l₁ p' l₂ h.2

/-- What the splitting gives: the current line goes on by a part of the text that is scanned without a find. -/
theorem statements_pieces (w : Text) (inQuote : Bool) (line s : Text) :
    line ≠ [] → ∃ u l q, statements w inQuote line s = (line ++ u) :: l ∧ u <+: s ∧ scan w inQuote u = some q ∧
      (l ≠ [] → q = false) ∧ Pieces w l := by
  fun_induction statements w inQuote line s with
  | case1 inQuote line =>
    intro _
    exact ⟨[], [], inQuote, by simp, by simp, by simp [scan], by simp, by simp [Pieces]⟩
  | case2 line =>
    intro _
    refine ⟨[quote], [], false, by simp, by simp, ?_, by simp, by simp [Pieces]⟩
    rw [scan_close w (by simp), scan]
  | case3 line p' ih =>
    intro _
    obtain ⟨u, l, q, hs, hu, hscan, hq, hl⟩ := ih (by simp)
    exact ⟨quote :: quote :: u, l, q, by simpa using hs, by simpa using hu, by rw [scan_escape, hscan], hq, hl⟩
  | case4 line d p' hd ih =>
    intro _
    obtain ⟨u, l, q, hs, hu, hscan, hq, hl⟩ := ih (by simp)
    have hhead : u.head? ≠ some quote := by
      cases u with
      | nil => simp
      | cons c u =>
        rw [List.cons_prefix_cons] at hu
        simpa [hu.1] using hd
    exact ⟨quote :: u, l, q, by simpa using hs, by simpa using hu, by rw [scan_close w hhead, hscan], hq, hl⟩
  | case5 line c p hc ih =>
    intro _
    obtain ⟨u, l, q, hs, hu, hscan, hq, hl⟩ := ih (by simp)
    exact ⟨c :: u, l, q, by simpa using hs, by simpa using hu, by rw [scan_quoted w u hc, hscan], hq, hl⟩
  | case6 line p ih =>
    intro _
    obtain ⟨u, l, q, hs, hu, hscan, hq, hl⟩ := ih (by simp)
    exact ⟨quote :: u, l, q, by simpa using hs, by simpa using hu, by rw [scan_open, hscan], hq, hl⟩
  | case7 line c p hc hw ih =>
    intro _
    obtain ⟨u, l, q, hs, -, hscan, hq, hl⟩ := ih (by simp)
    refine ⟨[], ([c] ++ u) :: l, false, by simp [hs], by simp, by simp [scan], by simp, ?_⟩
    exact Pieces.cons (by simpa using hscan) hq hl
  | case8 line c p hc hw ih =>
    intro hline
    obtain ⟨u, l, q, hs, hu, hscan, hq, hl⟩ := ih (by simp)
    have hnot : ¬ w <+: c :: u := by
      intro h
      exact hw ⟨h.trans (by simpa using hu), hline⟩
    exact ⟨c :: u, l, q, by simpa using hs, by simpa using hu, by rw [scan_keep hc hnot, hscan], hq, hl⟩

theorem statements_flatten (w : Text) (inQuote : Bool) (line s : Text) : (statements w inQuote line s).flatten = line ++ s := by
  fun_induction statements w inQuote line s <;> simp_all

/-- The splitting gives back statements that are whole. -/
theorem statements_of_whole (hw : Borderless w) (hquote : w.head? ≠ some quote) (hne : w ≠ []) (l : List Text)
    (c : Char) (m : Text) : (∀ s ∈ l, w <+: s) → Whole w ((c :: m) :: l) → statements w false [c] (m ++ l.flatten) = (c :: m) :: l := by
  induction l generalizing c m with
  | nil =>
    intro _ hwhole
    obtain ⟨q, hscan⟩ := Option.isSome_iff_exists.mp (hwhole.1 (c :: m) (by simp))
    rw [List.flatten_nil, statements_append hw hquote hne false m [c] [] q (by simp) (Or.inl rfl) hscan]
    simp [statements]
  | cons s l ih =>
    intro hput hwhole
    have hscan : scan w false m = some false := by simpa using hwhole.2 (c :: m) (by simp)
    have hstart := hput s (by simp)
    obtain ⟨d, n, rfl⟩ : ∃ d n, s = d :: n := by
      cases s with
      | nil => exact absurd (List.prefix_nil.mp hstart) hne
      | cons d n => exact ⟨d, n, rfl⟩
    have hd : d ≠ quote := by
      obtain ⟨a, w', rfl⟩ := List.exists_cons_of_ne_nil hne
      rw [List.cons_prefix_cons] at hstart
      simpa [hstart.1] using hquote
    have hflat : ((d :: n) :: l).flatten = d :: (n ++ l.flatten) := rfl
    have hpre : w <+: d :: (n ++ l.flatten) := hstart.trans (by simp)
    rw [hflat, statements_append hw hquote hne false m [c] _ false (by simp) (Or.inr hpre) hscan, statements_cut hd ⟨hpre, by simp⟩, ih d n]
    · simp
    · exact fun s hs => hput s (by simp [hs])
    · exact ⟨fun s hs => hwhole.1 s (by simp [hs]), fun s hs => hwhole.2 s (by simp [hs])⟩

/-- The pieces of a text: all of them are scanned without a find, and all but the last with their literals closed. -/
theorem pieces_of_statements (w : Text) (c : Char) (s : Text) : Pieces w (statements w false [c] s) := by
  obtain ⟨u, l, q, hs, -, hscan, hq, hl⟩ := statements_pieces w false [c] s (by simp)
  rw [hs]
  exact Pieces.cons (by simpa using hscan) hq hl

/-- The list of the statements is the run of the loop from the first character on. -/
theorem statementList_cons {m : Text} (_ : w = a :: w') (hspace : a ≠ ' ') (hquote : a ≠ quote) :
    statementList w (a :: m) = statements w false [a] m := by
  have hkeep : ¬ (w <+: a :: m ∧ ([] : Text) ≠ []) := by simp
  rw [statementList, if_neg (by simp), List.dropWhile_cons, if_neg (by simpa using hspace), statements_keep hquote hkeep]
  rfl

/-- A statement starts with the first character of the word. -/
theorem exists_cons_of_starts (hw : w = a :: w') (h : w <+: s) : ∃ m, s = a :: m := by
  obtain ⟨r, hr⟩ := h
  exact ⟨w' ++ r, by rw [← hr, hw]; rfl⟩

theorem pieces_statementList (hw : w = a :: w') (hspace : a ≠ ' ')
    (hquote : a ≠ quote) (h : ∀ s ∈ l, w <+: s) : Pieces w (statementList w l.flatten) := by
  cases l with
  | nil => simp [statementList, Pieces]
  | cons s l =>
    obtain ⟨m, rfl⟩ := exists_cons_of_starts hw (h s (by simp))
    rw [List.flatten_cons, List.cons_append, statementList_cons hw hspace hquote]
    exact pieces_of_statements w a _

theorem statementList_flatten (hw : w = a :: w') (hspace : a ≠ ' ')
    (hquote : a ≠ quote) (h : ∀ s ∈ l, w <+: s) : (statementList w l.flatten).flatten = l.flatten := by
  cases l with
  | nil => simp [statementList]
  | cons s l =>
    obtain ⟨m, rfl⟩ := exists_cons_of_starts hw (h s (by simp))
    rw [List.flatten_cons, List.cons_append, statementList_cons hw hspace hquote, statements_flatten]
    rfl

/-- Pieces that are scanned without a find are whole. -/
theorem Pieces.whole (h : Pieces w l) : Whole w l := by
  constructor
  · intro s hs
    obtain ⟨l₁, l₂, rfl⟩ := List.append_of_mem hs
    obtain ⟨q, hscan, -⟩ := h l₁ s l₂ rfl
    simp [hscan]
  · intro s hs
    obtain ⟨l₁, l₂, hl⟩ := List.append_of_mem hs
    have hne : l ≠ [] := by
      rintro rfl
      simp at hs
    have hsplit : l = l₁ ++ s :: (l₂ ++ [l.getLast hne]) := by
      conv_lhs => rw [← List.dropLast_append_getLast hne, hl]
      simp
    obtain ⟨q, hscan, hq⟩ := h l₁ s (l₂ ++ [l.getLast hne]) hsplit
    rw [hscan, hq (by simp)]

/-- The splitting gives the statements back exactly when they are whole. -/
theorem statementList_eq_iff (hw : w = a :: w') (hspace : a ≠ ' ') (hquote : a ≠ quote) (hborder : Borderless w) (h : ∀ s ∈ l, w <+: s) :
    statementList w l.flatten = l ↔ Whole w l := by
  constructor
  · intro heq
    have hpieces := pieces_statementList hw hspace hquote h
    rw [heq] at hpieces
    exact hpieces.whole
  · intro hwhole
    cases l with
    | nil => simp [statementList]
    | cons s l =>
      obtain ⟨m, rfl⟩ := exists_cons_of_starts hw (h s (by simp))
      rw [List.flatten_cons, List.cons_append, statementList_cons hw hspace hquote]
      exact statements_of_whole hborder (by simpa [hw] using hquote) (by simp [hw]) l a m (fun s hs => h s (by simp [hs])) hwhole

/-- Statements that all are among the pieces are whole, where only the last of them ends as the text ends. -/
theorem whole_of_mem (hw : w = a :: w') (hspace : a ≠ ' ') (hquote : a ≠ quote) (h : ∀ s ∈ l, w <+: s)
    (hlast : ∀ s ∈ l.dropLast, s.getLast? ≠ l.flatten.getLast?) (hmem : ∀ s ∈ l, s ∈ statementList w l.flatten) : Whole w l := by
  have hpieces := pieces_statementList hw hspace hquote h
  have hflatten := statementList_flatten hw hspace hquote h
  refine ⟨fun s hs => hpieces.whole.1 s (hmem s hs), ?_⟩
  intro s hs
  obtain ⟨l₁, l₂, hl⟩ := List.append_of_mem (hmem s (List.dropLast_subset l hs))
  obtain ⟨q, hscan, hq⟩ := hpieces l₁ s l₂ hl
  have hne : l₂ ≠ [] := by
    rintro rfl
    apply hlast s hs
    rw [← hflatten, hl, List.flatten_append, List.flatten_cons, List.flatten_nil, List.append_nil, List.getLast?_append_of_ne_nil]
    rintro rfl
    have hpre := h [] (List.dropLast_subset l hs)
    rw [hw] at hpre
    simp at hpre
  rw [hscan, hq hne]

end SplitAux

open SplitAux

/-! ## Names -/

/-- The part of a name in front of a parenthesis, without the spaces there. -/
def stem (n : Text) : Text := backSpaces (n.takeWhile (· ≠ '('))

/-- The name of a table as it is read back from its create: from the last bracket on, or the last word. -/
def readBack (n : Text) : Text :=
  let p := stem n
  if p.getLast? = some ']' then '[' :: afterLast '[' p else afterLast ' ' p

/-- The name of the table as it is read from the create of the index `x` on the table `t`: behind the first `ON `. -/
def readOn (x t : Text) : Option Text := do
  let n ← afterWord "ON ".toList (x ++ " ON ".toList ++ t)
  guard (stem n ≠ [])
  return stem n

namespace NameAux

theorem backSpaces_append {a b : Text} (h : backSpaces b ≠ []) : backSpaces (a ++ b) = a ++ backSpaces b := by
  have hne : (b.reverse.dropWhile (· = ' ')).isEmpty = false := by simpa [backSpaces] using h
  simp only [backSpaces, List.reverse_append, List.dropWhile_append, hne]
  simp

variable {c : Char}

theorem backSpaces_ne_nil (hc : c ∈ s) (hspace : c ≠ ' ') : backSpaces s ≠ [] := by
  intro h
  simp only [backSpaces, List.reverse_eq_nil_iff, List.dropWhile_eq_nil_iff, List.mem_reverse] at h
  exact hspace (by simpa using h c hc)

theorem backSpaces_space (s : Text) : backSpaces (s ++ [' ']) = backSpaces s := by
  simp [backSpaces]

theorem afterLast_append {a b : Text} (h : c ∈ b) : afterLast c (a ++ b) = afterLast c b := by
  have hlen : (b.reverse.takeWhile (· ≠ c)).length ≠ b.reverse.length := by
    intro heq
    have hall := (List.takeWhile_prefix (· ≠ c) (l := b.reverse)).eq_of_length heq
    have := List.mem_takeWhile_imp (p := (· ≠ c)) (l := b.reverse) (x := c) (by rw [hall]; simpa using h)
    simp at this
  simp only [afterLast, List.reverse_append, List.takeWhile_append, if_neg hlen]

theorem afterLast_sep (c : Char) (a b : Text) : afterLast c (a ++ c :: b) = afterLast c b := by
  by_cases h : c ∈ b
  · rw [afterLast_append (by simp [h]), ← List.singleton_append, afterLast_append h]
  · have hall : ∀ d ∈ b.reverse, (decide (d ≠ c)) = true := by
      intro d hd
      have : d ≠ c := fun heq => h (by simpa [heq] using hd)
      simpa using this
    simp only [afterLast, List.reverse_append, List.reverse_cons, List.append_assoc]
    rw [List.takeWhile_append_of_pos hall, List.takeWhile_eq_self_iff.mpr hall]
    simp

/-- What stands in front of the first parenthesis, behind a text without one. -/
theorem takeWhile_head {a b : Text} (h : '(' ∉ a) : (a ++ b).takeWhile (· ≠ '(') = a ++ b.takeWhile (· ≠ '(') := by
  refine List.takeWhile_append_of_pos ?_
  intro c hc
  have : c ≠ '(' := fun heq => h (heq ▸ hc)
  simpa using this

theorem takeWhile_paren (a b : Text) : (a ++ '(' :: b).takeWhile (· ≠ '(') = a.takeWhile (· ≠ '(') := by
  induction a with
  | nil => simp
  | cons c a ih =>
    by_cases hc : c = '('
    · simp [hc]
    · simp only [List.cons_append, List.takeWhile_cons, ne_eq, hc, not_false_eq_true, decide_true, if_true]
      rw [ih]

/-- A word that occurs is found at the same place when the text goes on. -/
theorem afterWord_append {w r : Text} (b : Text) (hw : w ≠ []) : ∀ {a : Text}, afterWord w a = some r →
    afterWord w (a ++ b) = some (r ++ b) ∧ w.length ≤ a.length
  | [] => by
    intro h
    simp [afterWord, hw] at h
  | c :: a => by
    intro h
    rw [afterWord] at h
    by_cases hpre : w <+: c :: a
    · rw [if_pos hpre] at h
      simp only [Option.some.injEq] at h
      refine ⟨?_, hpre.length_le⟩
      rw [List.cons_append, afterWord, if_pos (hpre.trans (by simp)), ← List.cons_append, List.drop_append_of_le_length hpre.length_le, h]
    · rw [if_neg hpre] at h
      obtain ⟨hrec, hlen⟩ := afterWord_append b hw h
      have hnot : ¬ w <+: c :: (a ++ b) := by
        intro h
        exact hpre (List.prefix_of_prefix_length_le h (by simp) (by simpa using Nat.le_succ_of_le hlen))
      rw [List.cons_append, afterWord, if_neg hnot]
      exact ⟨hrec, by simpa using Nat.le_succ_of_le hlen⟩

/-- A word that stands in a text is found. -/
theorem afterWord_exists (w b : Text) (hw : w ≠ []) : ∀ a : Text, ∃ r, afterWord w (a ++ w ++ b) = some r
  | [] => by
    obtain ⟨c, w', rfl⟩ := List.exists_cons_of_ne_nil hw
    refine ⟨b, ?_⟩
    rw [List.nil_append, List.cons_append, afterWord, if_pos (by simp)]
    simp
  | c :: a => by
    rw [List.cons_append, List.cons_append, afterWord]
    by_cases hpre : w <+: c :: (a ++ w ++ b)
    · exact ⟨_, if_pos hpre⟩
    · obtain ⟨r, hr⟩ := afterWord_exists w b hw a
      exact ⟨r, by rw [if_neg hpre, hr]⟩

theorem plain_char (h : s ≠ [] ∧ s.all (fun c => c.isAlphanum || c = '_') = true) (hc : c ∈ s) : (c.isAlphanum || c = '_') = true :=
  List.all_eq_true.mp h.2 c hc

/-- A name does not start with a space or a parenthesis. -/
theorem text_cons (n : Name) : ∃ c s, n.text = c :: s ∧ c ≠ ' ' ∧ c ≠ '(' := by
  cases n with
  | plain s h =>
    obtain ⟨c, s, rfl⟩ := List.exists_cons_of_ne_nil h.1
    have hc := plain_char h (show c ∈ c :: s by simp)
    refine ⟨c, s, rfl, ?_, ?_⟩ <;> rintro rfl <;> revert hc <;> decide
  | bracketed s h => exact ⟨'[', s ++ [']'], rfl, by decide, by decide⟩

theorem stem_ne_nil (n : Name) : stem n.text ≠ [] := by
  obtain ⟨c, s, htext, hspace, hparen⟩ := text_cons n
  refine backSpaces_ne_nil (c := c) ?_ hspace
  rw [htext, List.takeWhile_cons]
  simp [hparen]

theorem stem_le (n : Text) : stem n <+: n := by
  have hback : backSpaces (n.takeWhile (· ≠ '(')) <+: n.takeWhile (· ≠ '(') := by
    rw [backSpaces, ← List.reverse_suffix, List.reverse_reverse]
    exact List.dropWhile_suffix _
  exact hback.trans (List.takeWhile_prefix _)

/-- A name that ends in a bracket starts with one. -/
theorem bracket_mem_stem (n : Name) (h : (stem n.text).getLast? = some ']') : '[' ∈ stem n.text := by
  have hmem : ']' ∈ stem n.text := List.mem_of_getLast? h
  cases n with
  | plain s hs =>
    have hc := plain_char hs ((stem_le s).subset hmem)
    exact absurd hc (by decide)
  | bracketed s hs =>
    obtain ⟨c, p, hp⟩ := List.exists_cons_of_ne_nil (List.ne_nil_of_mem hmem)
    have hpre := stem_le (Name.bracketed s hs).text
    rw [hp, Name.text, List.cons_append, List.cons_prefix_cons] at hpre
    rw [hp, hpre.1]
    simp

/-- The heads of the creates of tables have no parenthesis, end in a space, and are not those of virtual tables. -/
theorem table_head (isTemp ifNotExists : Bool) :
    '(' ∉ tableHead isTemp ifNotExists ∧ tableHead isTemp ifNotExists = (tableHead isTemp ifNotExists).dropLast ++ [' '] ∧
      ¬ "CREATE VIRTUAL TABLE ".toList <+: tableHead isTemp ifNotExists ∧
      ¬ tableHead isTemp ifNotExists <+: "CREATE VIRTUAL TABLE ".toList := by
  revert isTemp ifNotExists
  decide

/-- No part of the head of an index's create is, or starts, an `ON `. -/
theorem index_head (isUnique ifNotExists : Bool) :
    ∀ v ∈ (indexHead isUnique ifNotExists).tails, v ≠ [] → ¬ "ON ".toList <+: v ∧ ¬ v <+: "ON ".toList := by
  revert isUnique ifNotExists
  decide

/-- A word is not found in a text of which no part is, or starts, the word. -/
theorem afterWord_skip (w s : Text) : ∀ h : Text, (∀ v ∈ h.tails, v ≠ [] → ¬ w <+: v ∧ ¬ v <+: w) → afterWord w (h ++ s) = afterWord w s
  | [] => fun _ => rfl
  | c :: h => by
    intro hskip
    have hnot : ¬ w <+: c :: (h ++ s) := by
      intro hpre
      have hc := hskip (c :: h) (by simp) (by simp)
      rcases List.prefix_or_prefix_of_prefix hpre (List.prefix_append (c :: h) s) with hw | hw
      · exact hc.1 hw
      · exact hc.2 hw
    rw [List.cons_append, afterWord, if_neg hnot]
    exact afterWord_skip w s h fun v hv => hskip v (by simp at hv ⊢; exact Or.inr hv)

/-- The text that the reader of an index's create copies, when a space and a parenthesis follow. -/
theorem backSpaces_beforeParen (n rest : Text) : backSpaces ((n ++ ' ' :: '(' :: rest).takeWhile (· ≠ '(')) = stem n := by
  have hsplit : n ++ ' ' :: '(' :: rest = (n ++ [' ']) ++ '(' :: rest := by simp
  rw [hsplit, takeWhile_paren]
  by_cases hmem : '(' ∈ n
  · have hlen : (n.takeWhile (· ≠ '(')).length ≠ n.length := by
      intro heq
      have hall := (List.takeWhile_prefix (· ≠ '(') (l := n)).eq_of_length heq
      have := List.mem_takeWhile_imp (p := (· ≠ '(')) (l := n) (x := '(') (by rw [hall]; exact hmem)
      simp at this
    rw [List.takeWhile_append, if_neg hlen, stem]
  · have hall : n.takeWhile (· ≠ '(') = n := by
      rw [List.takeWhile_eq_self_iff]
      intro c hc
      have : c ≠ '(' := fun heq => hmem (heq ▸ hc)
      simpa using this
    rw [takeWhile_head hmem, stem, hall]
    exact backSpaces_space n

end NameAux

open NameAux

/-- The reader of the create of a table, on the statement as it is executed. -/
theorem tableNameOfCreate_eq (t : Table) (sep : Text) : tableNameOfCreate (t.create ++ sep) = some (readBack t.name.text) := by
  obtain ⟨hparen, ha, hvirtual⟩ := table_head t.isTemp t.ifNotExists
  obtain ⟨rest, hrest⟩ : ∃ rest, t.create ++ sep = tableHead t.isTemp t.ifNotExists ++ (t.name.text ++ '(' :: rest) :=
    ⟨_, by simp only [Table.create, List.append_assoc]; rfl⟩
  have hbefore : beforeParen (t.create ++ sep) = some (tableHead t.isTemp t.ifNotExists ++ t.name.text.takeWhile (· ≠ '(')) := by
    rw [beforeParen, hrest, if_pos (by simp), takeWhile_head hparen, takeWhile_paren]
  have hback : backSpaces (tableHead t.isTemp t.ifNotExists ++ t.name.text.takeWhile (· ≠ '(')) =
      tableHead t.isTemp t.ifNotExists ++ stem t.name.text :=
    backSpaces_append (stem_ne_nil t.name)
  have hhead : tableHead t.isTemp t.ifNotExists ++ t.name.text.takeWhile (· ≠ '(') ≠ [] := by
    rw [ha]
    simp
  have hlast : (tableHead t.isTemp t.ifNotExists ++ stem t.name.text).getLast? = (stem t.name.text).getLast? := by
    rw [List.getLast?_append_of_ne_nil _ (stem_ne_nil t.name)]
  have hnot : ¬ "CREATE VIRTUAL TABLE ".toList <+: t.create ++ sep := by
    rw [hrest]
    intro hpre
    rcases List.prefix_or_prefix_of_prefix hpre (List.prefix_append _ _) with h | h
    · exact hvirtual.1 h
    · exact hvirtual.2 h
  unfold tableNameOfCreate
  simp only [hnot, hbefore, hback, hlast, hhead, not_false_eq_true, guard_true, ne_eq, Option.pure_def, Option.bind_eq_bind, Option.bind_some]
  unfold readBack
  by_cases hb : (stem t.name.text).getLast? = some ']'
  · have hmem := bracket_mem_stem t.name hb
    simp only [hb, if_true, List.mem_append, hmem, or_true, guard_true, Option.pure_def, Option.bind_some, afterLast_append hmem]
  · have hmem : ' ' ∈ tableHead t.isTemp t.ifNotExists ++ stem t.name.text := by
      rw [ha]
      simp
    have hafter : afterLast ' ' (tableHead t.isTemp t.ifNotExists ++ stem t.name.text) = afterLast ' ' (stem t.name.text) := by
      rw [ha, List.append_assoc]
      exact afterLast_sep ' ' _ (stem t.name.text)
    simp only [hb, if_false, hmem, guard_true, Option.pure_def, Option.bind_some, hafter]

/-- The reader of the create of an index, on the statement with what follows it. -/
theorem tableNameOfIndex_eq (x : Index) (sep : Text) : tableNameOfIndex (x.create ++ sep) = readOn x.name.text x.table.text := by
  obtain ⟨rest, hrest⟩ : ∃ rest, x.create ++ sep =
      indexHead x.isUnique x.ifNotExists ++ (x.name.text ++ " ON ".toList ++ x.table.text ++ ' ' :: '(' :: rest) :=
    ⟨_, by simp only [Index.create, List.append_assoc]; rfl⟩
  have hon : x.name.text ++ " ON ".toList ++ x.table.text = (x.name.text ++ [' ']) ++ "ON ".toList ++ x.table.text := by simp
  obtain ⟨n, hn⟩ := afterWord_exists "ON ".toList x.table.text (by decide) (x.name.text ++ [' '])
  rw [← hon] at hn
  have hline : afterWord "ON ".toList (x.create ++ sep) = some (n ++ ' ' :: '(' :: rest) := by
    rw [hrest, afterWord_skip _ _ _ (index_head _ _)]
    exact (afterWord_append _ (by decide) hn).1
  have hbefore : ∃ q, beforeParen (n ++ ' ' :: '(' :: rest) = some q ∧ backSpaces q = stem n := by
    exact ⟨_, if_pos (by simp), backSpaces_beforeParen n rest⟩
  obtain ⟨q, hq, hback⟩ := hbefore
  unfold tableNameOfIndex readOn
  simp only [hline, hn, hq, hback, Option.bind_eq_bind, Option.bind_some]

/-! ## Words -/

namespace NameAux

/-- What is found behind a word. -/
theorem afterWord_split {w : Text} : ∀ {s r : Text}, afterWord w s = some r → ∃ p, s = p ++ w ++ r
  | [], r => by
    intro h
    rw [afterWord] at h
    split at h
    · next hw => exact ⟨[], by simpa [hw, eq_comm] using h⟩
    · simp at h
  | c :: s, r => by
    intro h
    rw [afterWord] at h
    split at h
    · next hpre =>
      obtain ⟨q, hq⟩ := hpre
      simp only [Option.some.injEq, ← hq, List.drop_left] at h
      exact ⟨[], by rw [← hq, h]; rfl⟩
    · obtain ⟨p, hp⟩ := afterWord_split h
      exact ⟨c :: p, by rw [hp]; rfl⟩

end NameAux

end CgSql.Rebuild
