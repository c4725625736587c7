import CgSql.Lemmas.RecreateRun

/-!
# Splitting statements

`_cql_create_upgrader_input_statement_list` looks for the word outside of string literals, and what stands there need not be the start
of a statement: an identifier that ends as the word does, and a quote in the brackets of a name, are read as well.
-/

namespace CgSql.Rebuild

/-- Whether a text ends inside a string literal: the quotes in it do not pair up. A doubled quote in a literal counts twice. -/
def literalOpen (p : Text) : Bool := p.count quote % 2 = 1

/-- Behind its first character a statement has the word inside its string literals only. -/
def Uncut (w s : Text) : Prop := ∀ before after, s = before ++ w ++ after → before ≠ [] → literalOpen before = true

namespace SplitAux

variable {c : Char} {w : Text}

theorem literalOpen_quote (p : Text) : literalOpen (quote :: p) = !literalOpen p := by
  rw [literalOpen, literalOpen, List.count_cons_self, ← decide_not, decide_eq_decide]
  omega

theorem literalOpen_cons (hc : c ≠ quote) (p : Text) : literalOpen (c :: p) = literalOpen p := by
  rw [literalOpen, literalOpen, List.count_cons_of_ne hc]

/-- Where the word stands behind a first character that does not start it, it stands in the rest. -/
theorem occurs_cons {p before after : Text} (h : c :: p = before ++ w ++ after) (hc : ¬ w <+: c :: p) :
    ∃ b, before = c :: b ∧ p = b ++ w ++ after := by
  cases before with
  | nil => exact absurd ⟨after, by simpa using h.symm⟩ hc
  | cons d b =>
    simp only [List.cons_append, List.cons.injEq] at h
    exact ⟨b, by rw [h.1], by simpa using h.2⟩

/-- A word that does not start with a quote does not stand where a quote is. -/
theorem not_starts_quote (hne : w ≠ []) (hw : w.head? ≠ some quote) (p : Text) : ¬ w <+: quote :: p := by
  obtain ⟨a, w', rfl⟩ := List.exists_cons_of_ne_nil hne
  intro h
  rw [List.cons_prefix_cons] at h
  exact hw (by simp [h.1])

/-- What the scan gives where it does not find the word: the word stands inside literals only, and the quotes tell how the text ends. -/
theorem of_scan_eq_some (hne : w ≠ []) (hw : w.head? ≠ some quote) (inQuote : Bool) (s : Text) :
    ∀ q, scan w inQuote s = some q → q = (inQuote ^^ literalOpen s) ∧
      ∀ before after, s = before ++ w ++ after → (inQuote ^^ literalOpen before) = true := by
  fun_induction scan w inQuote s with
  | case1 inQuote =>
    intro q h
    have hq : inQuote = q := by simpa using h
    refine ⟨by simp [← hq, literalOpen], ?_⟩
    intro before after hs
    exact absurd (by simpa using hs.symm : before = [] ∧ w = [] ∧ after = []).2.1 hne
  | case2 =>
    intro q h
    have hq : false = q := by simpa using h
    refine ⟨by simp [← hq, literalOpen], ?_⟩
    intro before after hs
    obtain ⟨b, -, hb⟩ := occurs_cons hs (not_starts_quote hne hw _)
    exact absurd (by simpa using hb.symm : b = [] ∧ w = [] ∧ after = []).2.1 hne
  | case3 p ih =>
    intro q h
    obtain ⟨hq, hocc⟩ := ih q h
    refine ⟨by rw [hq, literalOpen_quote, literalOpen_quote, Bool.not_not], ?_⟩
    intro before after hs
    obtain ⟨b, rfl, hb⟩ := occurs_cons hs (not_starts_quote hne hw _)
    obtain ⟨b', rfl, hb'⟩ := occurs_cons hb (not_starts_quote hne hw _)
    rw [literalOpen_quote, literalOpen_quote, Bool.not_not]
    exact hocc b' after hb'
  | case4 d p hd ih =>
    intro q h
    obtain ⟨hq, hocc⟩ := ih q h
    refine ⟨by rw [hq, literalOpen_quote]; simp, ?_⟩
    intro before after hs
    obtain ⟨b, rfl, hb⟩ := occurs_cons hs (not_starts_quote hne hw _)
    rw [literalOpen_quote]
    simpa using hocc b after hb
  | case5 c p hc ih =>
    intro q h
    obtain ⟨hq, hocc⟩ := ih q h
    refine ⟨by rw [hq, literalOpen_cons hc], ?_⟩
    intro before after hs
    cases before with
    | nil => simp [literalOpen]
    | cons d b =>
      simp only [List.cons_append, List.cons.injEq] at hs
      rw [← hs.1, literalOpen_cons hc]
      exact hocc b after (by simpa using hs.2)
  | case6 p ih =>
    intro q h
    obtain ⟨hq, hocc⟩ := ih q h
    refine ⟨by rw [hq, literalOpen_quote]; simp, ?_⟩
    intro before after hs
    obtain ⟨b, rfl, hb⟩ := occurs_cons hs (not_starts_quote hne hw _)
    rw [literalOpen_quote]
    simpa using hocc b after hb
  | case7 c p hc hpre =>
    intro q h
    simp at h
  | case8 c p hc hpre ih =>
    intro q h
    obtain ⟨hq, hocc⟩ := ih q h
    refine ⟨by rw [hq, literalOpen_cons hc], ?_⟩
    intro before after hs
    obtain ⟨b, rfl, hb⟩ := occurs_cons hs hpre
    rw [literalOpen_cons hc]
    exact hocc b after hb

/-- Where the scan finds the word, it stands outside of the literals. -/
theorem of_scan_eq_none (inQuote : Bool) (s : Text) :
    scan w inQuote s = none → ∃ before after, s = before ++ w ++ after ∧ (inQuote ^^ literalOpen before) = false := by
  fun_induction scan w inQuote s with
  | case1 inQuote =>
    intro h
    simp at h
  | case2 =>
    intro h
    simp at h
  | case3 p ih =>
    intro h
    obtain ⟨b, a, rfl, hb⟩ := ih h
    exact ⟨quote :: quote :: b, a, rfl, by rw [literalOpen_quote, literalOpen_quote, Bool.not_not, hb]⟩
  | case4 d p hd ih =>
    intro h
    obtain ⟨b, a, hs, hb⟩ := ih h
    exact ⟨quote :: b, a, by rw [hs]; rfl, by rw [literalOpen_quote]; simpa using hb⟩
  | case5 c p hc ih =>
    intro h
    obtain ⟨b, a, rfl, hb⟩ := ih h
    exact ⟨c :: b, a, rfl, by rw [literalOpen_cons hc, hb]⟩
  | case6 p ih =>
    intro h
    obtain ⟨b, a, rfl, hb⟩ := ih h
    exact ⟨quote :: b, a, rfl, by rw [literalOpen_quote]; simpa using hb⟩
  | case7 c p hc hpre =>
    intro _
    obtain ⟨a, ha⟩ := hpre
    exact ⟨[], a, ha.symm, by simp [literalOpen]⟩
  | case8 c p hc hpre ih =>
    intro h
    obtain ⟨b, a, rfl, hb⟩ := ih h
    exact ⟨c :: b, a, rfl, by rw [literalOpen_cons hc, hb]⟩

/-- The scan behind the first character of a statement does not find the word exactly when the statement is not cut. -/
theorem scan_tail_isSome_iff {m : Text} (hne : w ≠ []) (hw : w.head? ≠ some quote) (hc : c ≠ quote) :
    (scan w false m).isSome ↔ Uncut w (c :: m) := by
  constructor
  · intro hsome before after hs hbefore
    obtain ⟨q, hq⟩ := Option.isSome_iff_exists.mp hsome
    obtain ⟨d, b, rfl⟩ := List.exists_cons_of_ne_nil hbefore
    simp only [List.cons_append, List.cons.injEq] at hs
    rw [← hs.1, literalOpen_cons hc]
    simpa using (of_scan_eq_some hne hw false m q hq).2 b after (by simpa using hs.2)
  · intro huncut
    by_contra hnone
    obtain ⟨b, a, rfl, hb⟩ := of_scan_eq_none false m (by simpa using hnone)
    have hopen := huncut (c :: b) a rfl (by simp)
    rw [literalOpen_cons hc] at hopen
    simp [hopen] at hb

/-- Statements are whole exactly when none is cut and none but the last ends inside a literal. -/
theorem whole_iff {a : Char} {w' : Text} (hw : w = a :: w') (hquote : a ≠ quote) {l : List Text}
    (h : ∀ s ∈ l, w <+: s) : Whole w l ↔ (∀ s ∈ l, Uncut w s) ∧ ∀ s ∈ l.dropLast, literalOpen s = false := by
  have hne : w ≠ [] := by simp [hw]
  have hhead : w.head? ≠ some quote := by simpa [hw] using hquote
  have hscan : ∀ s ∈ l, (scan w false s.tail).isSome ↔ Uncut w s := by
    intro s hs
    obtain ⟨m, rfl⟩ := exists_cons_of_starts hw (h s hs)
    exact scan_tail_isSome_iff hne hhead hquote
  have hend : ∀ s ∈ l, ∀ q, scan w false s.tail = some q → q = literalOpen s := by
    intro s hs q hq
    obtain ⟨m, rfl⟩ := exists_cons_of_starts hw (h s hs)
    rw [literalOpen_cons hquote]
    simpa using (of_scan_eq_some hne hhead false m q hq).1
  constructor
  · intro hwhole
    refine ⟨fun s hs => (hscan s hs).mp (hwhole.1 s hs), fun s hs => ?_⟩
    exact (hend s (List.dropLast_subset l hs) false (hwhole.2 s hs)).symm
  · rintro ⟨huncut, hclosed⟩
    refine ⟨fun s hs => (hscan s hs).mpr (huncut s hs), fun s hs => ?_⟩
    have hmem := List.dropLast_subset l hs
    obtain ⟨q, hq⟩ := Option.isSome_iff_exists.mp ((hscan s hmem).mpr (huncut s hmem))
    rw [hq, hend s hmem q hq, hclosed s hs]

end SplitAux

open SplitAux in
/-- The splitting gives statements back exactly when none of them has the word behind its first character outside of its string
literals, and none but the last leaves a literal open. -/
theorem statementList_flatten_iff (w : Text) (hw : w = "CREATE ".toList ∨ w = "DROP ".toList) (l : List Text) (h : ∀ s ∈ l, w <+: s) :
    statementList w l.flatten = l ↔ (∀ s ∈ l, Uncut w s) ∧ ∀ s ∈ l.dropLast, literalOpen s = false := by
  rcases hw with hw | hw
  · have hword : w = 'C' :: "REATE ".toList := hw.trans (by decide)
    rw [← whole_iff hword (by decide) h]
    exact statementList_eq_iff hword (by decide) (by decide) (hw ▸ create_borderless) h
  · have hword : w = 'D' :: "ROP ".toList := hw.trans (by decide)
    rw [← whole_iff hword (by decide) h]
    exact statementList_eq_iff hword (by decide) (by decide) (hw ▸ drop_borderless) h

open SplitAux in
/-- The splitting goes through for the drops of two tables. -/
theorem statementList_flatten_drops :
    statementList "DROP ".toList ["DROP TABLE IF EXISTS a;".toList, "DROP TABLE IF EXISTS b;".toList].flatten =
      ["DROP TABLE IF EXISTS a;".toList, "DROP TABLE IF EXISTS b;".toList] := by
  refine (statementList_flatten_iff "DROP ".toList (Or.inr rfl) _ (by decide)).mpr ⟨fun s hs => ?_, by decide⟩
  rcases List.mem_cons.mp hs with rfl | hs
  · exact (scan_tail_isSome_iff (c := 'D') (m := "ROP TABLE IF EXISTS a;".toList) (by decide) (by decide) (by decide)).mp (by decide)
  · obtain rfl := List.mem_singleton.mp hs
    exact (scan_tail_isSome_iff (c := 'D') (m := "ROP TABLE IF EXISTS b;".toList) (by decide) (by decide) (by decide)).mp (by decide)

/-- A table with a column `xCREATE` is split inside of the name of the column. -/
theorem statementList_flatten_false : statementList "CREATE ".toList ["CREATE TABLE t( xCREATE TEXT ); ".toList].flatten =
      ["CREATE TABLE t( x".toList, "CREATE TEXT ); ".toList] ∧
    ¬ statementList "CREATE ".toList ["CREATE TABLE t( xCREATE TEXT ); ".toList].flatten = ["CREATE TABLE t( xCREATE TEXT ); ".toList] := by
  decide

end CgSql.Rebuild
