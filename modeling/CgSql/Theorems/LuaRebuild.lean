import CgSql.LuaRebuild
import CgSql.Theorems.RecreateRun
import CgSql.Theorems.Splitting
import Mathlib.Algebra.Order.BigOperators.Group.List
import Mathlib.Algebra.Order.Ring.Nat

/-!
# Rebuilding a recreate group, in C and in Lua

In Lua the splitting never leaves a string literal, so that nothing behind the first quote of a text is split; and the name of the table is
read from the statement of an index up to the first parenthesis of the whole statement.
-/

namespace CgSql.Rebuild

namespace LuaAux

open SplitAux NameAux

variable {w create : Text}

/-! ### Splitting -/

/-- In Lua nothing behind a quote is split. -/
theorem lua_quoted (w p : Text) : ∀ line : Text, Lua.statements w true line p = [line ++ p] := by
  induction p with
  | nil =>
    intro line
    simp [Lua.statements]
  | cons c p ih =>
    intro line
    rw [Lua.statements]
    by_cases hc : c = quote
    · simp [hc, ih]
    · simp [hc, ih]

/-- In C a text stays whole where the word stands in its literals only. -/
theorem statements_single_iff (hw : Borderless w) (hquote : w.head? ≠ some quote) (hne : w ≠ []) (inQuote : Bool)
    {line : Text} (hline : line ≠ []) (p : Text) : statements w inQuote line p = [line ++ p] ↔ (scan w inQuote p).isSome := by
  constructor
  · intro h
    obtain ⟨u, l, q, hs, -, hscan, -, -⟩ := statements_pieces w inQuote line p hline
    rw [hs] at h
    simp only [List.cons.injEq, List.append_cancel_left_eq] at h
    rw [← h.1, hscan]
    rfl
  · intro h
    obtain ⟨q, hq⟩ := Option.isSome_iff_exists.mp h
    have happend := statements_append hw hquote hne inQuote p line [] q hline (Or.inl rfl) hq
    rw [List.append_nil] at happend
    rw [happend, statements]

/-- The word stands in literals only, behind a quote. -/
def InLiterals (w after : Text) : Prop := ∀ p r, after = p ++ w ++ r → (quote :: p).count quote % 2 = 1

theorem scan_isSome_iff (hquote : w.head? ≠ some quote) (hne : w ≠ []) (after : Text) : (scan w true after).isSome ↔ InLiterals w after := by
  constructor
  · intro h p r hafter
    obtain ⟨q, hq⟩ := Option.isSome_iff_exists.mp h
    have hopen := (of_scan_eq_some hne hquote true after q hq).2 p r hafter
    simp only [literalOpen, Bool.true_xor, Bool.not_eq_true', decide_eq_false_iff_not] at hopen
    rw [List.count_cons_self]
    omega
  · intro h
    by_contra hnone
    obtain ⟨p, r, hafter, hclosed⟩ := of_scan_eq_none true after (by simpa using hnone)
    have hodd := h p r hafter
    simp only [literalOpen, Bool.true_xor, Bool.not_eq_false', decide_eq_true_eq] at hclosed
    rw [List.count_cons_self] at hodd
    omega

/-- A property of what stands behind the first quote of a text. -/
def BehindQuote (P : Text → Prop) (s : Text) : Prop := ∀ before after, s = before ++ quote :: after → quote ∉ before → P after

theorem behindQuote_nil (P : Text → Prop) : BehindQuote P [] := by
  intro before after h
  simp at h

theorem behindQuote_quote (P : Text → Prop) (s : Text) : BehindQuote P (quote :: s) ↔ P s := by
  constructor
  · intro h
    exact h [] s rfl (by simp)
  · intro hs before after h hfree
    cases before with
    | nil =>
      simp only [List.nil_append, List.cons.injEq, true_and] at h
      exact h ▸ hs
    | cons d before =>
      simp only [List.cons_append, List.cons.injEq] at h
      exact absurd (by simp [h.1]) hfree

theorem behindQuote_cons (P : Text → Prop) {c : Char} (hc : c ≠ quote) (s : Text) : BehindQuote P (c :: s) ↔ BehindQuote P s := by
  constructor
  · intro h before after hs hfree
    exact h (c :: before) after (by rw [hs]; rfl) (by simpa using ⟨hc.symm, hfree⟩)
  · intro h before after hs hfree
    cases before with
    | nil =>
      simp only [List.nil_append, List.cons.injEq] at hs
      exact absurd hs.1 hc
    | cons d before =>
      simp only [List.cons_append, List.cons.injEq] at hs
      exact h before after hs.2 (fun hmem => hfree (by simp [hmem]))

theorem behindQuote_dropSpaces (P : Text → Prop) (s : Text) : BehindQuote P (s.dropWhile (· = ' ')) ↔ BehindQuote P s := by
  induction s with
  | nil => simp
  | cons c s ih =>
    by_cases hc : c = ' '
    · rw [List.dropWhile_cons_of_pos (by simpa using hc), ih, behindQuote_cons P (by rw [hc]; decide)]
    · rw [List.dropWhile_cons_of_neg (by simpa using hc)]

/-- The two loops agree up to the first quote, and behind it where the word stands in literals only. -/
theorem statements_eq_iff (hw : Borderless w) (hquote : w.head? ≠ some quote) (hne : w ≠ []) (s : Text) :
    ∀ line : Text, Lua.statements w false line s = statements w false line s ↔ BehindQuote (InLiterals w) s := by
  induction s with
  | nil =>
    intro line
    simp [Lua.statements, statements, behindQuote_nil]
  | cons c s ih =>
    intro line
    by_cases hc : c = quote
    · subst hc
      have hlua : Lua.statements w false line (quote :: s) = [line ++ [quote] ++ s] := by
        rw [Lua.statements]
        simp only [Bool.false_eq_true, if_false, if_true]
        exact lua_quoted w s (line ++ [quote])
      rw [hlua, statements_open, behindQuote_quote, ← scan_isSome_iff hquote hne, eq_comm]
      exact statements_single_iff hw hquote hne true (by simp) s
    · rw [behindQuote_cons _ hc]
      by_cases hcut : w <+: c :: s ∧ line ≠ []
      · have hlua : Lua.statements w false line (c :: s) = line :: Lua.statements w false [c] s := by
          rw [Lua.statements]
          simp only [Bool.false_eq_true, if_false, if_neg hc, if_pos hcut]
        rw [hlua, statements_cut hc hcut, List.cons.injEq, ← ih [c]]
        simp
      · have hlua : Lua.statements w false line (c :: s) = Lua.statements w false (line ++ [c]) s := by
          rw [Lua.statements]
          simp only [Bool.false_eq_true, if_false, if_neg hc, if_neg hcut]
        rw [hlua, statements_keep hc hcut, ih]

theorem sameStatements_iff (hw : Borderless w) (hquote : w.head? ≠ some quote) (hne : w ≠ []) (str : Text) :
    SameStatements w str ↔ QuotedLast w str := by
  have hbehind : QuotedLast w str ↔ BehindQuote (InLiterals w) str := Iff.rfl
  rw [SameStatements, hbehind, Lua.statementList, statementList]
  by_cases hstr : str = []
  · simp [hstr, behindQuote_nil]
  · rw [if_neg hstr, if_neg hstr, statements_eq_iff hw hquote hne, behindQuote_dropSpaces]

/-- No statement starts with a space. -/
theorem head_statements (hspace : w.head? ≠ some ' ') (hne : w ≠ []) (inQuote : Bool) (line s : Text) :
    (line ++ s).head? ≠ some ' ' → ∀ piece ∈ statements w inQuote line s, piece.head? ≠ some ' ' := by
  fun_induction statements w inQuote line s with
  | case7 line c p hc hcut ih =>
    intro h piece hpiece
    rcases List.mem_cons.mp hpiece with rfl | hpiece
    · rwa [List.head?_append_of_ne_nil _ hcut.2] at h
    · apply ih _ piece hpiece
      obtain ⟨a, w', rfl⟩ := List.exists_cons_of_ne_nil hne
      have hstart := hcut.1
      rw [List.cons_prefix_cons] at hstart
      simpa [hstart.1] using hspace
  | _ => simp_all

theorem head_statementList (hspace : w.head? ≠ some ' ') (hne : w ≠ []) (str : Text) : ∀ piece ∈ statementList w str, piece.head? ≠ some ' ' := by
  intro piece hpiece
  rw [statementList] at hpiece
  split at hpiece
  · simp at hpiece
  · refine head_statements hspace hne false [] _ ?_ piece hpiece
    intro hhead
    have := List.head?_dropWhile_not (fun c : Char => decide (c = ' ')) str
    rw [List.nil_append] at hhead
    rw [hhead] at this
    simp at this

/-! ### Names -/

theorem lua_tableNameOfCreate (h : create.head? ≠ some ' ') : Lua.tableNameOfCreate create = tableNameOfCreate create := by
  have hdrop : create.dropWhile (· = ' ') = create := by
    cases create with
    | nil => rfl
    | cons c create => rw [List.dropWhile_cons_of_neg (by simpa using h)]
  rw [Lua.tableNameOfCreate, tableNameOfCreate, hdrop]
  generalize "CREATE VIRTUAL TABLE ".toList = virtual
  cases hparen : beforeParen create with
  | none => rfl
  | some p =>
    by_cases hvirtual : virtual <+: create
    · simp [guard, hvirtual]
    · by_cases hp : p = []
      · simp only [guard, hvirtual, hp, backSpaces]
        rfl
      · simp [guard, hvirtual, hp]

/-- What is read between two places of a text. -/
theorem backSpaces_drop {a b : Text} (h : backSpaces b ≠ []) : (backSpaces (a ++ b)).drop a.length = backSpaces b := by
  rw [backSpaces_append h, List.drop_left]

theorem length_backSpaces_le (s : Text) : (backSpaces s).length ≤ s.length := by
  calc (backSpaces s).length = (s.reverse.dropWhile _).length := by rw [backSpaces, List.length_reverse]
    _ ≤ s.reverse.length := (List.dropWhile_suffix _).length_le
    _ = s.length := List.length_reverse

/-- The name that Lua reads from an index: that of C, or nothing where a parenthesis stands in front. -/
theorem lua_tableNameOfIndex {indexCreate name : Text} (h : tableNameOfIndex indexCreate = some name) :
    (PlainOn indexCreate → Lua.tableNameOfIndex indexCreate = some name) ∧
      (¬ PlainOn indexCreate → Lua.tableNameOfIndex indexCreate = some []) ∧ name ≠ [] := by
  rw [tableNameOfIndex] at h
  obtain ⟨lineStart, hstart, h⟩ := Option.bind_eq_some_iff.mp h
  obtain ⟨q, hq, h⟩ := Option.bind_eq_some_iff.mp h
  obtain ⟨hne, rfl⟩ : backSpaces q ≠ [] ∧ backSpaces q = name := by
    by_cases hnil : backSpaces q = []
    · simp [guard, hnil] at h
    · exact ⟨hnil, by simpa [guard, hnil] using h⟩
  obtain ⟨hparen, rfl⟩ : '(' ∈ lineStart ∧ lineStart.takeWhile (· ≠ '(') = q := by
    rw [beforeParen] at hq
    split at hq
    · next hmem => exact ⟨hmem, Option.some.inj hq⟩
    · simp at hq
  obtain ⟨before, rfl⟩ := afterWord_split hstart
  have hlua : Lua.tableNameOfIndex (before ++ "ON ".toList ++ lineStart) =
      some ((backSpaces ((before ++ "ON ".toList ++ lineStart).takeWhile (· ≠ '('))).drop (before ++ "ON ".toList).length) := by
    have hmem : '(' ∈ before ++ "ON ".toList ++ lineStart := List.mem_append_right _ hparen
    have hlen : (before ++ "ON ".toList ++ lineStart).length - lineStart.length = (before ++ "ON ".toList).length := by
      rw [List.length_append, Nat.add_sub_cancel]
    rw [Lua.tableNameOfIndex, hstart, beforeParen, if_pos hmem, ← hlen]
    rfl
  refine ⟨?_, ?_, hne⟩
  · intro hplain
    have hfree : '(' ∉ before ++ "ON ".toList := by
      have := hplain before lineStart rfl hstart
      simp [this]
    rw [hlua, takeWhile_head hfree, backSpaces_drop hne]
  · intro hnot
    have hmem : '(' ∈ before := by
      by_contra hfree
      apply hnot
      intro before' after hsplit hafter
      obtain rfl : lineStart = after := Option.some.inj (hstart.symm.trans hafter)
      rw [List.append_cancel_right_eq, List.append_cancel_right_eq] at hsplit
      exact hsplit ▸ hfree
    obtain ⟨b, c, hbefore⟩ := List.append_of_mem hmem
    have htake : (before ++ "ON ".toList ++ lineStart).takeWhile (· ≠ '(') = b.takeWhile (· ≠ '(') := by
      rw [hbefore, List.append_assoc, List.append_assoc, List.cons_append, takeWhile_paren]
    have hshort : (backSpaces (b.takeWhile (· ≠ '('))).length ≤ (before ++ "ON ".toList).length := by
      have htake := (List.takeWhile_prefix (fun c : Char => decide (c ≠ '(')) (l := b)).length_le
      have hback := length_backSpaces_le (b.takeWhile (· ≠ '('))
      rw [hbefore]
      simp only [List.length_append, List.length_cons]
      omega
    rw [hlua, htake, List.drop_eq_nil_of_le hshort]

/-! ### The run -/

/-- A run in which every execution succeeds makes the calls of its actions, and ends where all of them are calls. -/
theorem perform_ok {db : Db} (hdb : ∀ before sql, db before sql = 0) {actions : List Action} {log : List Call} :
    perform db actions [] = .finished log ↔ actions = log.map .call := by
  obtain rfl : db = RunAux.takesAll := funext fun before => funext fun sql => hdb before sql
  constructor
  · intro h
    rcases RunAux.perform_cases RunAux.takesAll actions [] with ⟨rc, l, hfail⟩ | ⟨calls, hcalls, hend⟩ | ⟨-, l, hbroken⟩
    · rw [hfail] at h
      nomatch h
    · rw [hend] at h
      injection h with h
      rw [hcalls, ← h, List.nil_append]
    · rw [hbroken] at h
      nomatch h
  · rintro rfl
    rcases RunAux.perform_cases RunAux.takesAll (log.map .call) [] with ⟨rc, l, hfail⟩ | ⟨calls, hcalls, hend⟩ | ⟨hmem, -⟩
    · exact absurd hfail (RunAux.perform_takesAll _ _ _ _)
    · have hinj : Function.Injective Action.call := fun a b h => Action.call.inj h
      rw [hend, List.nil_append, List.map_injective_iff.mpr hinj hcalls]
    · simp at hmem

variable {tableList indexList deleteList : List Text}

/-- The actions of C are calls where all names can be read. -/
theorem readable_of_calls {log : List Call}
    (h : deleteActions deleteList ++ dropActions tableList ++ createActions tableList indexList = log.map .call) :
    Readable tableList indexList := by
  have hmem : Action.broken ∉ deleteActions deleteList ++ dropActions tableList ++ createActions tableList indexList := by
    rw [h]
    simp
  simp only [List.mem_append, not_or] at hmem
  obtain ⟨⟨-, -⟩, hcreate⟩ := hmem
  have hname : ∀ create ∈ tableList, tableNameOfCreate create ≠ none := by
    intro create hc hnone
    apply hcreate
    rw [createActions, List.mem_flatMap]
    exact ⟨create, hc, by simp [hnone]⟩
  refine ⟨hname, ?_⟩
  intro hne indexCreate hi hnone
  obtain ⟨create, hc⟩ := List.exists_mem_of_ne_nil tableList hne
  obtain ⟨name, hn⟩ := Option.ne_none_iff_exists'.mp (hname create hc)
  apply hcreate
  rw [createActions, List.mem_flatMap]
  refine ⟨create, hc, ?_⟩
  simp only [hn, indexActions, List.mem_cons, List.mem_flatMap]
  exact Or.inr ⟨indexCreate, hi, by simp [hnone]⟩

theorem calls_of_readable (deleteList : List Text) (h : Readable tableList indexList) :
    ∃ log : List Call, deleteActions deleteList ++ dropActions tableList ++ createActions tableList indexList = log.map .call := by
  rcases RunAux.perform_cases RunAux.takesAll (deleteActions deleteList ++ dropActions tableList ++ createActions tableList indexList) []
    with ⟨rc, l, hfail⟩ | ⟨calls, hcalls, -⟩ | ⟨hmem, -⟩
  · exact absurd hfail (RunAux.perform_takesAll _ _ _ _)
  · exact ⟨calls, hcalls⟩
  · exfalso
    simp only [List.mem_append] at hmem
    rcases hmem with (hmem | hmem) | hmem
    · simp [deleteActions] at hmem
    · simp only [dropActions, List.mem_map, List.mem_reverse] at hmem
      obtain ⟨create, hc, hbroken⟩ := hmem
      obtain ⟨name, hname⟩ := Option.ne_none_iff_exists'.mp (h.1 create hc)
      simp [hname] at hbroken
    · simp only [createActions, List.mem_flatMap, List.mem_cons] at hmem
      obtain ⟨create, hc, hbroken⟩ := hmem
      obtain ⟨name, hname⟩ := Option.ne_none_iff_exists'.mp (h.1 create hc)
      simp only [hname, indexActions, List.mem_flatMap, reduceCtorEq, false_or] at hbroken
      obtain ⟨indexCreate, hi, hbroken⟩ := hbroken
      obtain ⟨n, hn⟩ := Option.ne_none_iff_exists'.mp (h.2 (List.ne_nil_of_mem hc) indexCreate hi)
      simp only [hn] at hbroken
      split at hbroken <;> simp at hbroken

theorem lua_dropActions (h : ∀ create ∈ tableList, create.head? ≠ some ' ') : Lua.dropActions tableList = dropActions tableList := by
  rw [Lua.dropActions, dropActions]
  refine List.map_congr_left ?_
  intro create hc
  have hread := lua_tableNameOfCreate (h create (List.mem_reverse.mp hc))
  cases hname : tableNameOfCreate create <;> simp only [hread, hname]

/-- What the inner loop does with one index, where `read` gives its table. -/
def indexAction (read : Text → Option Text) (tableName indexCreate : Text) : List Action :=
  match read indexCreate with
  | none => [.broken]
  | some indexTableName => if tableName = indexTableName then [.call (.createIndex indexCreate)] else []

/-- Lua leaves an index out where its name does not stand in the plain, and only there. -/
theorem lua_indexAction {tableName indexCreate n : Text} (hname : tableName ≠ []) (hn : tableNameOfIndex indexCreate = some n) :
    ((tableName = n → PlainOn indexCreate) →
      indexAction Lua.tableNameOfIndex tableName indexCreate = indexAction tableNameOfIndex tableName indexCreate) ∧
      (tableName = n → ¬ PlainOn indexCreate →
        (indexAction Lua.tableNameOfIndex tableName indexCreate).length < (indexAction tableNameOfIndex tableName indexCreate).length) ∧
      (indexAction Lua.tableNameOfIndex tableName indexCreate).length ≤ (indexAction tableNameOfIndex tableName indexCreate).length := by
  obtain ⟨hplain, hnot, -⟩ := lua_tableNameOfIndex hn
  by_cases hp : PlainOn indexCreate
  · have heq : indexAction Lua.tableNameOfIndex tableName indexCreate = indexAction tableNameOfIndex tableName indexCreate := by
      rw [indexAction, indexAction, hplain hp, hn]
    exact ⟨fun _ => heq, fun _ h => absurd hp h, by rw [heq]⟩
  · have hlua : indexAction Lua.tableNameOfIndex tableName indexCreate = [] := by
      simp only [indexAction, hnot hp, if_neg hname]
    refine ⟨?_, ?_, by simp [hlua]⟩
    · intro h
      have hne : tableName ≠ n := fun heq => hp (h heq)
      rw [hlua]
      simp only [indexAction, hn, if_neg hne]
    · intro heq _
      rw [hlua]
      simp only [indexAction, hn, if_pos heq, List.length_nil, List.length_singleton, Nat.zero_lt_one]

/-- The name of a table is not empty. -/
theorem tableNameOfCreate_ne_nil : tableNameOfCreate create ≠ some [] := by
  intro h
  rw [tableNameOfCreate] at h
  obtain ⟨-, -, h⟩ := Option.bind_eq_some_iff.mp h
  obtain ⟨p, -, h⟩ := Option.bind_eq_some_iff.mp h
  obtain ⟨-, -, h⟩ := Option.bind_eq_some_iff.mp h
  dsimp only at h
  split at h
  · obtain ⟨-, -, h⟩ := Option.bind_eq_some_iff.mp h
    simp at h
  · obtain ⟨_, hguard, h⟩ := Option.bind_eq_some_iff.mp h
    have hmem : ' ' ∈ backSpaces p := by
      by_contra hnot
      simp [guard, hnot] at hguard
    simp only [Option.pure_def, Option.some.injEq, afterLast, List.reverse_eq_nil_iff, backSpaces, List.reverse_reverse] at h
    have hhead := List.head?_dropWhile_not (fun c : Char => decide (c = ' ')) p.reverse
    rw [backSpaces, List.mem_reverse] at hmem
    cases hrest : p.reverse.dropWhile (fun c : Char => decide (c = ' ')) with
    | nil =>
      rw [hrest] at hmem
      simp at hmem
    | cons c rest =>
      rw [hrest] at h hhead
      simp only [List.head?_cons, decide_eq_false_iff_not] at hhead
      rw [List.takeWhile_cons_of_pos (by simpa using hhead)] at h
      simp at h

/-- The actions of the second loop, one table at a time. -/
def tableActions (readIndex : Text → Option Text) (indexList : List Text) (create : Text) : List Action :=
  .call (.createTable create) :: match tableNameOfCreate create with
    | none => [.broken]
    | some tableName => indexList.flatMap (indexAction readIndex tableName)

theorem lua_createActions (h : ∀ create ∈ tableList, create.head? ≠ some ' ') (indexList : List Text) :
    Lua.createActions tableList indexList = tableList.flatMap (tableActions Lua.tableNameOfIndex indexList) := by
  rw [Lua.createActions]
  refine List.flatMap_congr ?_
  intro create hc
  rw [lua_tableNameOfCreate (h create hc)]
  rfl

theorem createActions_eq (tableList indexList : List Text) :
    createActions tableList indexList = tableList.flatMap (tableActions tableNameOfIndex indexList) := rfl

/-- The names stand in the plain exactly when Lua creates as many indices, and then it does what C does. -/
theorem tableActions_spec (hread : Readable tableList indexList) (hc : create ∈ tableList) :
    ((∀ indexCreate ∈ indexList, tableNameOfCreate create = tableNameOfIndex indexCreate → PlainOn indexCreate) →
      tableActions Lua.tableNameOfIndex indexList create = tableActions tableNameOfIndex indexList create) ∧
      ((∃ indexCreate ∈ indexList, tableNameOfCreate create = tableNameOfIndex indexCreate ∧ ¬ PlainOn indexCreate) →
        (tableActions Lua.tableNameOfIndex indexList create).length < (tableActions tableNameOfIndex indexList create).length) ∧
      (tableActions Lua.tableNameOfIndex indexList create).length ≤ (tableActions tableNameOfIndex indexList create).length := by
  obtain ⟨name, hname⟩ := Option.ne_none_iff_exists'.mp (hread.1 create hc)
  have hne : name ≠ [] := fun hnil => tableNameOfCreate_ne_nil (hnil ▸ hname)
  have hindex : ∀ indexCreate ∈ indexList, ∃ n, tableNameOfIndex indexCreate = some n :=
    fun indexCreate hi => Option.ne_none_iff_exists'.mp (hread.2 (List.ne_nil_of_mem hc) indexCreate hi)
  have hle : ∀ indexCreate ∈ indexList, (indexAction Lua.tableNameOfIndex name indexCreate).length ≤
      (indexAction tableNameOfIndex name indexCreate).length := by
    intro indexCreate hi
    obtain ⟨n, hn⟩ := hindex indexCreate hi
    exact (lua_indexAction hne hn).2.2
  simp only [tableActions, hname, List.length_cons, List.length_flatMap, List.cons.injEq, true_and, Nat.add_lt_add_iff_right,
    Nat.add_le_add_iff_right]
  refine ⟨?_, ?_, List.sum_le_sum hle⟩
  · intro hplain
    refine List.flatMap_congr ?_
    intro indexCreate hi
    obtain ⟨n, hn⟩ := hindex indexCreate hi
    refine (lua_indexAction hne hn).1 fun heq => hplain indexCreate hi ?_
    rw [hn, heq]
  · rintro ⟨indexCreate, hi, heq, hnot⟩
    obtain ⟨n, hn⟩ := hindex indexCreate hi
    refine List.sum_lt_sum _ _ hle ⟨indexCreate, hi, (lua_indexAction hne hn).2.1 ?_ hnot⟩
    exact Option.some.inj (heq.trans hn)

/-- Lua creates all indices that C creates exactly when the names stand in the plain, and then it does what C does. -/
theorem createActions_spec (hread : Readable tableList indexList) (h : ∀ create ∈ tableList, create.head? ≠ some ' ') :
    (IndexNamesPlain tableList indexList → Lua.createActions tableList indexList = createActions tableList indexList) ∧
      ((Lua.createActions tableList indexList).length = (createActions tableList indexList).length → IndexNamesPlain tableList indexList) := by
  rw [lua_createActions h, createActions_eq]
  constructor
  · intro hplain
    exact List.flatMap_congr fun create hc => (tableActions_spec hread hc).1 (hplain create hc)
  · intro hlen create hc indexCreate hi heq
    by_contra hnot
    have hlt := List.sum_lt_sum _ _ (fun create hc => (tableActions_spec hread hc).2.2)
      ⟨create, hc, (tableActions_spec hread hc).2.1 ⟨indexCreate, hi, heq, hnot⟩⟩
    rw [List.length_flatMap, List.length_flatMap] at hlen
    omega

end LuaAux

open SplitAux LuaAux in
/-- The function of Lua does what that of C does exactly when, behind the first quote of each text, the word stands in string literals only, and
no statement of an index on one of the tables has a parenthesis in front of its first `ON `. -/
theorem sameRun_iff (tables indices deletes : Text) : SameRun tables indices deletes ↔
      QuotedLast "CREATE ".toList tables ∧ QuotedLast "CREATE ".toList indices ∧ QuotedLast "DROP ".toList deletes ∧
        (Readable (statementList "CREATE ".toList tables) (statementList "CREATE ".toList indices) →
          IndexNamesPlain (statementList "CREATE ".toList tables) (statementList "CREATE ".toList indices)) := by
  have hcreate : ∀ str, SameStatements "CREATE ".toList str ↔ QuotedLast "CREATE ".toList str :=
    sameStatements_iff create_borderless (by decide) (by decide)
  have hdrop : ∀ str, SameStatements "DROP ".toList str ↔ QuotedLast "DROP ".toList str :=
    sameStatements_iff drop_borderless (by decide) (by decide)
  have hhead : ∀ create ∈ statementList "CREATE ".toList tables, create.head? ≠ some ' ' :=
    head_statementList (by decide) (by decide) tables
  rw [SameRun, ← hcreate, ← hcreate, ← hdrop]
  refine and_congr_right fun htables => and_congr_right fun hindices => and_congr_right fun hdeletes => ?_
  rw [SameStatements] at htables hindices hdeletes
  simp only [rebuildRecreateGroup, Lua.rebuildRecreateGroup, htables, hindices, hdeletes, lua_dropActions hhead]
  generalize statementList "CREATE ".toList tables = tableList at *
  generalize statementList "CREATE ".toList indices = indexList at *
  generalize statementList "DROP ".toList deletes = deleteList at *
  constructor
  · intro hrun hread
    obtain ⟨log, hlog⟩ := calls_of_readable deleteList hread
    obtain ⟨log', hlog', hsql⟩ := hrun (fun _ _ => 0) log (fun _ _ => rfl) ((perform_ok fun _ _ => rfl).mpr hlog)
    have hacts := (perform_ok fun _ _ => rfl).mp hlog'
    have hlength := congrArg List.length hsql
    have hc := congrArg List.length hlog
    have hlua := congrArg List.length hacts
    simp only [List.length_map, List.length_append] at hlength hc hlua
    exact (createActions_spec hread hhead).2 (by omega)
  · intro hplain db log hdb hend
    have hread := readable_of_calls ((perform_ok hdb).mp hend)
    refine ⟨log, ?_, rfl⟩
    rw [(createActions_spec hread hhead).1 (hplain hread)]
    exact hend

open SplitAux LuaAux in
/-- A default in the first table: Lua takes both creates for one statement, and never creates the second table by itself. -/
theorem sameRun_false : ¬ SameRun "CREATE TABLE t1(\n  a TEXT DEFAULT 'x'\n); CREATE TABLE t2(\n  b INTEGER\n); ".toList [] [] := by
  rintro ⟨htables, -⟩
  have hlast := (sameStatements_iff create_borderless (by decide) (by decide) _).mp htables
  have hodd := hlast "CREATE TABLE t1(\n  a TEXT DEFAULT ".toList "x'\n); CREATE TABLE t2(\n  b INTEGER\n); ".toList rfl (by decide)
    "x'\n); ".toList "TABLE t2(\n  b INTEGER\n); ".toList rfl
  revert hodd
  decide

end CgSql.Rebuild
