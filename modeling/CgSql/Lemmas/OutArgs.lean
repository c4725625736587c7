import CgSql.OutArgs
import CgSql.Theorems.SymbolTable
import Mathlib.Data.Prod.Lex

/-!
# The loops over the arguments

What it is for arguments not to alias, and what each loop over the arguments does: the sort and its neighbours, the first loop of DECLARE OUT CALL,
its final walk, and the declarations.
-/

namespace CgSql.OutArgs

open SymbolTable (Name Case strCmp SymtabAux.strCmp_eq_zero)

/-- The first is passed for OUT or INOUT, and the second is a bare name of the same variable. -/
def Clash (a b : Arg × Mode) : Prop := a.2.isOut = true ∧ ∃ x y, a.1.denotes = some x ∧ b.1.bare = some y ∧ fold x = fold y

/-- No variable that is passed for OUT or INOUT is also passed as a bare name for another parameter. -/
def Unaliased (args : List Arg) (modes : List Mode) : Prop := (args.zip modes).Pairwise fun a b => ¬Clash a b ∧ ¬Clash b a

/-- The first is passed for OUT or INOUT, and both are bare names, spelled alike. -/
def SameName (a b : Arg × Mode) : Prop := a.2.isOut = true ∧ ∃ x, a.1.bare = some x ∧ b.1.bare = some x

/-- No bare name that is passed for OUT or INOUT is there again, spelled alike. -/
def NamesDiffer (args : List Arg) (modes : List Mode) : Prop := (args.zip modes).Pairwise fun a b => ¬SameName a b ∧ ¬SameName b a

/-- The arguments of an accepted call do not alias, and the check lets through what does not alias. -/
def CallRight (q : QSort) (scope : Scope) (others : Arg → Mode → Bool) (state : LoopState) (procAsFunc : Bool) (args : List Arg)
    (modes : List Mode) : Prop :=
  (validateArgsVsFormals q scope others state procAsFunc args modes = none → Unaliased args modes) ∧
    (Unaliased args modes → validateOutArgsAreUnique q (resolved state args modes) modes = none)

/-- The bare names that are passed for OUT parameters, with the flags of the arguments. -/
def outNames : List Mode → List (Written × Bool) → List (Name × Bool)
  | mode :: modes, (arg, flag) :: args =>
    if mode.isIn then outNames modes args
    else
      match arg with
      | .arg (.id name ..) => (name, flag) :: outNames modes args
      | _ => outNames modes args
  | _, _ => []

/-- A variable that a DECLARE OUT CALL declares. -/
def Missing (modes : List Mode) (args : List Written) (scope : Scope) (x : List UInt8) : Prop :=
  scope x = none ∧ ∃ p ∈ outNames modes (args.map fun arg => (arg, false)), fold p.1 = x

/-- A variable that only the second analysis in a loop declares: the first found a global, and passed it for OUT when a FROM was expanded. -/
def MissingAgain (declares : List UInt8 → Bool) (modes : List Mode) (args : List Written) (scope : Scope) (x : List UInt8) : Prop :=
  (scope x = none ∧ ¬Missing modes args scope x ∧ declares x = false) ∧
    ∃ p ∈ outNames modes ((expand args).map fun arg => (.arg arg, false)), fold p.1 = x

/-- A variable that a DECLARE OUT CALL declares in one of its analyses. -/
def Place.Missing (place : Place) (modes : List Mode) (args : List Written) (scope : Scope) (x : List UInt8) : Prop :=
  OutArgs.Missing modes args scope x ∨ ∃ declares, place = .loop declares ∧ MissingAgain declares modes args scope x

/-- No Contract and no Invariant fails, and each variable that is declared implicitly is declared once. -/
def DeclareRight (q : QSort) (others : LoopState → Arg → Mode → Bool) (place : Place) (globals : Scope) (modes : List Mode)
    (args : List Written) (scope : Scope) : Prop :=
  analyze q others place globals modes args scope ≠ .error .aborted ∧
    ∀ after marks, analyze q others place globals modes args scope = .ok (after, marks) →
      ∀ x, place.Missing modes args scope x → ((declarations marks).map fold).count x = 1

/-- The variables of the table that have the flag when the call is analysed. -/
def Flagged (modes : List Mode) (args : List Written) (scope : Scope) (x : List UInt8) : Prop := scope x = some true ∨ Missing modes args scope x

/-- The variables that are found with the flag: these, or globals that an error left with it. -/
def FoundFlagged (globals : Scope) (modes : List Mode) (args : List Written) (scope : Scope) (x : List UInt8) : Prop :=
  find globals scope x = some true ∨ Missing modes args scope x

/-- A variable with the flag is one of the table, and passed at most once, as a bare name that is no improved one. -/
def PassedOnce (state : LoopState) (globals : Scope) (modes : List Mode) (args : List Written) (scope : Scope) : Prop :=
  (∀ arg ∈ resolved state (expand args) modes, ∀ x, arg.denotes = some x → FoundFlagged globals modes args scope (fold x) →
      arg.bare = some x ∧ Flagged modes args scope (fold x)) ∧
    (resolved state (expand args) modes).Pairwise fun a b => ∀ x y, a.denotes = some x → b.denotes = some y →
      FoundFlagged globals modes args scope (fold x) → fold x ≠ fold y

/-- The first loop and the call let the arguments through. -/
def CallAccepted (q : QSort) (others : Arg → Mode → Bool) (state : LoopState) (globals : Scope) (modes : List Mode) (args : List Written)
    (scope : Scope) : Prop :=
  ∃ after outArgs, declareArgs false modes (args.map fun arg => (arg, false)) scope 0 = .ok (after, outArgs) ∧ outArgs ≠ 0 ∧
    validateArgsVsFormals q (find globals after) others state false (expand args) modes = none

/-- A variable that only the second analysis declares is passed once, as a bare name that is no improved one. -/
def PassedOnceAgain (declares : List UInt8 → Bool) (modes : List Mode) (args : List Written) (scope : Scope) : Prop :=
  (∀ arg ∈ resolved .reanalyze (expand args) modes, ∀ x, arg.denotes = some x → MissingAgain declares modes args scope (fold x) →
      arg.bare = some x) ∧
    (resolved .reanalyze (expand args) modes).Pairwise fun a b => ∀ x y, a.denotes = some x → b.denotes = some y →
      MissingAgain declares modes args scope (fold x) → fold x ≠ fold y

/-- When the arguments are analysed again as they were rewritten, nothing is reported of them. -/
def AcceptedAgain (others : Arg → Mode → Bool) (modes : List Mode) (args : List Written) : Prop :=
  ∀ p ∈ (expand args).zip modes, others p.1 p.2 = true ∧ (p.2.isIn = false → ∃ x, p.1.bare = some x)

/-- As they were rewritten, the arguments still pass each missing variable for an OUT parameter. -/
def StillOut (modes : List Mode) (args : List Written) (scope : Scope) : Prop :=
  ∀ x, Missing modes args scope x → ∃ p ∈ outNames modes ((expand args).map fun arg => (.arg arg, false)), fold p.1 = x

namespace Aux

variable {arg : Arg} {args : List Arg} {modes : List Mode} {scope after : Scope} {others : Arg → Mode → Bool} {name : Name} {x : List UInt8}
  {names : List (Name × Bool)} {reanalyze : Bool} {outArgs n : ℕ} {marks : List (Arg × Bool)}

/-! ### The order -/

theorem strCmp_neg {a b : List UInt8} : strCmp a b < 0 ↔ a.map UInt8.toNat < b.map UInt8.toNat := by
  induction a generalizing b with
  | nil => cases b <;> simp [strCmp]
  | cons c s ih =>
    cases b with
    | nil => simp [strCmp]
    | cons d t =>
      rw [strCmp, List.map_cons, List.map_cons, List.cons_lt_cons_iff, ← UInt8.lt_iff_toNat_lt, UInt8.toNat_inj, ← ih]
      by_cases hlt : c < d
      · simp [hlt]
      · by_cases hgt : d < c
        · have hne : c ≠ d := by
            rintro rfl
            exact hlt hgt
          simp [hlt, hgt, hne]
        · have heq : c = d := UInt8.le_antisymm (UInt8.not_lt.mp hgt) (UInt8.not_lt.mp hlt)
          simp [heq]

/-- What the comparator orders by. -/
def key (id : TaggedId) : List ℕ ×ₗ ℕ := toLex (id.name.1.map UInt8.toNat, id.line)

theorem comparator_nonpos {a b : TaggedId} : outTaggedIdComparator a b ≤ 0 ↔ key a ≤ key b := by
  have hinj : a.name.1.map UInt8.toNat = b.name.1.map UInt8.toNat ↔ a.name.1 = b.name.1 :=
    (List.map_injective_iff.mpr fun _ _ => UInt8.toNat_inj.mp).eq_iff
  rw [key, key, Prod.Lex.toLex_le_toLex, hinj, ← strCmp_neg, ← SymtabAux.strCmp_eq_zero, outTaggedIdComparator]
  split_ifs with heq hgt hlt
  · simp [heq, hgt]
  · simp [heq, hlt.le]
  · simp [heq, Nat.le_of_not_lt hgt]
  · simp [heq, lt_iff_le_and_ne]

/-- `qsort` as a stable sort. -/
def mergeSort : QSort where
  sort ids := ids.mergeSort fun a b => outTaggedIdComparator a b ≤ 0
  perm ids := List.mergeSort_perm ids _
  sorted ids := by
    have htrans : ∀ a b c : TaggedId, decide (outTaggedIdComparator a b ≤ 0) → decide (outTaggedIdComparator b c ≤ 0) →
        decide (outTaggedIdComparator a c ≤ 0) := by
      intro a b c hab hbc
      simp only [decide_eq_true_eq, comparator_nonpos] at hab hbc ⊢
      exact hab.trans hbc
    have htotal : ∀ a b : TaggedId, (decide (outTaggedIdComparator a b ≤ 0) || decide (outTaggedIdComparator b a ≤ 0)) := by
      intro a b
      simp only [Bool.or_eq_true, decide_eq_true_eq, comparator_nonpos]
      exact le_total _ _
    exact (List.pairwise_mergeSort htrans htotal ids).imp fun h => by simpa using h

/-- Between two names that are spelled alike, the order has only such names. -/
theorem name_eq_of_between {a b c : TaggedId} (hab : outTaggedIdComparator a b ≤ 0) (hbc : outTaggedIdComparator b c ≤ 0)
    (hac : a.name = c.name) : b.name = a.name := by
  rw [comparator_nonpos, key, key, Prod.Lex.toLex_le_toLex] at hab hbc
  have hle : a.name.1.map UInt8.toNat ≤ b.name.1.map UInt8.toNat := hab.elim le_of_lt fun h => h.1.le
  have hge : b.name.1.map UInt8.toNat ≤ a.name.1.map UInt8.toNat := by
    rw [hac]
    exact hbc.elim le_of_lt fun h => h.1.le
  exact Subtype.ext (List.map_injective_iff.mpr (fun _ _ => UInt8.toNat_inj.mp) (le_antisymm hge hle))

/-! ### The check -/

/-- Two names of which one is passed for OUT or INOUT are spelled differently. -/
def Differ (a b : TaggedId) : Prop := (a.out || b.out) = true → a.name ≠ b.name

theorem findUsedAgain_eq_none {ids : List TaggedId} (h : ids.Pairwise fun a b => outTaggedIdComparator a b ≤ 0) :
    findUsedAgain ids = none ↔ ids.Pairwise Differ := by
  induction ids with
  | nil => simp [findUsedAgain]
  | cons previous ids ih =>
    cases ids with
    | nil => simp [findUsedAgain]
    | cons id ids =>
      obtain ⟨hprevious, hrest⟩ := List.pairwise_cons.mp h
      have hhead : ((previous.out || id.out) && strCmp previous.name.1 id.name.1 = 0) = true ↔ ¬Differ previous id := by
        rw [Bool.and_eq_true, decide_eq_true_eq, SymtabAux.strCmp_eq_zero, Differ, Classical.not_imp, not_not, Subtype.ext_iff]
      rw [findUsedAgain, List.pairwise_cons]
      split_ifs with hdup
      · simp only [false_iff, not_and]
        intro hall
        exact absurd (hall id (by simp)) (hhead.mp hdup)
      · rw [ih hrest]
        refine ⟨fun hids => ⟨?_, hids⟩, fun hids => hids.2⟩
        intro z hz hout heq
        have hdiffer : Differ previous id := not_not.mp fun hn => hdup (hhead.mpr hn)
        rcases List.mem_cons.mp hz with rfl | hz
        · exact hdiffer hout heq
        · -- What lies between is spelled alike too, and clashes with one of the two.
          have hid : id.name = previous.name :=
            name_eq_of_between (hprevious id (by simp)) ((List.pairwise_cons.mp hrest).1 z hz) heq
          rcases Bool.or_eq_true_iff.mp hout with hp | hz'
          · exact hdiffer (by simp [hp]) hid.symm
          · exact (List.pairwise_cons.mp hids).1 z hz (by simp [hz']) (hid.trans heq)

/-- The name that an argument is, tagged. -/
def tag : Arg × Mode → Option TaggedId
  | (.id name line _, mode) => some ⟨name, line, mode.isOut⟩
  | _ => none

theorem taggedIds_eq (args : List Arg) (modes : List Mode) : taggedIds args modes = (args.zip modes).filterMap tag := by
  induction args generalizing modes with
  | nil => simp [taggedIds]
  | cons arg args ih =>
    cases modes with
    | nil => simp [taggedIds]
    | cons mode modes => cases arg <;> simp [taggedIds, tag, ih, List.filterMap_cons]

theorem tag_eq_some {p : Arg × Mode} {id : TaggedId} :
    tag p = some id ↔ (∃ improved, p.1 = .id id.name id.line improved) ∧ p.2.isOut = id.out := by
  obtain ⟨arg, mode⟩ := p
  obtain ⟨name, line, out⟩ := id
  cases arg <;> simp [tag, and_assoc]

theorem bare_eq_some {x : Name} : arg.bare = some x ↔ ∃ line improved, arg = .id x line improved := by
  cases arg <;> simp [Arg.bare]

theorem denotes_of_bare {x : Name} (h : arg.bare = some x) : arg.denotes = some x := by
  obtain ⟨line, improved, rfl⟩ := bare_eq_some.mp h
  rfl

theorem pairwise_differ (args : List Arg) (modes : List Mode) : (taggedIds args modes).Pairwise Differ ↔ NamesDiffer args modes := by
  rw [taggedIds_eq, List.pairwise_filterMap, NamesDiffer]
  refine List.Pairwise.iff fun a b => ⟨fun h => ?_, fun h => ?_⟩
  · have hab : ∀ x, a.1.bare = some x → b.1.bare = some x → a.2.isOut = false ∧ b.2.isOut = false := by
      intro x ha hb
      obtain ⟨line, ha⟩ := bare_eq_some.mp ha
      obtain ⟨line', hb⟩ := bare_eq_some.mp hb
      have hdiffer := h ⟨x, line, a.2.isOut⟩ (tag_eq_some.mpr ⟨ha, rfl⟩) ⟨x, line', b.2.isOut⟩ (tag_eq_some.mpr ⟨hb, rfl⟩)
      simpa [Differ] using hdiffer
    constructor
    · rintro ⟨hout, x, ha, hb⟩
      simp [hab x ha hb] at hout
    · rintro ⟨hout, x, hb, ha⟩
      simp [hab x ha hb] at hout
  · intro i hi j hj hout heq
    obtain ⟨⟨_, ha⟩, hao⟩ := tag_eq_some.mp hi
    obtain ⟨⟨_, hb⟩, hbo⟩ := tag_eq_some.mp hj
    have hai : a.1.bare = some i.name := by rw [ha, Arg.bare]
    have hbi : b.1.bare = some i.name := by rw [hb, Arg.bare, heq]
    rcases Bool.or_eq_true_iff.mp hout with ho | ho
    · exact h.1 ⟨hao.trans ho, i.name, hai, hbi⟩
    · exact h.2 ⟨hbo.trans ho, i.name, hbi, hai⟩

/-- The check is exact for names that are spelled alike. -/
theorem validateOutArgsAreUnique_eq_none (q : QSort) (args : List Arg) (modes : List Mode) :
    validateOutArgsAreUnique q args modes = none ↔ NamesDiffer args modes := by
  rw [← pairwise_differ, validateOutArgsAreUnique]
  have hsymm : ∀ a b : TaggedId, Differ a b → Differ b a := fun a b h hout heq => h (by rwa [Bool.or_comm]) heq.symm
  split_ifs with hfew
  · simp only [true_iff]
    rcases Bool.or_eq_true_iff.mp hfew with hnone | hfew
    · refine List.pairwise_of_forall_mem_list fun a ha b hb hout => ?_
      simp only [Bool.not_eq_true', List.any_eq_false] at hnone
      simp [hnone a ha, hnone b hb] at hout
    · rcases hids : taggedIds args modes with _ | ⟨a, _ | ⟨b, ids⟩⟩
      · exact List.Pairwise.nil
      · exact List.pairwise_singleton _ _
      · simp only [hids, List.length_cons, decide_eq_true_eq] at hfew
        omega
  · rw [findUsedAgain_eq_none (q.sorted _)]
    exact (q.perm _).pairwise_iff (hsymm _ _)

theorem namesDiffer_of_unaliased (h : Unaliased args modes) : NamesDiffer args modes := by
  refine List.Pairwise.imp ?_ h
  have hclash : ∀ a b : Arg × Mode, SameName a b → Clash a b := by
    rintro a b ⟨hout, x, ha, hb⟩
    exact ⟨hout, x, x, denotes_of_bare ha, hb, rfl⟩
  intro a b hab
  exact ⟨fun hn => hab.1 (hclash a b hn), fun hn => hab.2 (hclash b a hn)⟩

/-! ### The arguments as they are left -/

variable {state : LoopState} {mode : Mode}

theorem denotes_resolved : (arg.resolved state mode).denotes = arg.denotes := by
  unfold Arg.resolved
  split
  · split <;> rfl
  · rfl

theorem bare_of_resolved {x : Name} (h : (arg.resolved state mode).bare = some x) : arg.bare = some x := by
  unfold Arg.resolved at h
  split at h
  · split at h
    · exact h
    · cases h
  · exact h

theorem resolved_of_out (h : mode.isOut = true) : arg.resolved state mode = arg := by
  unfold Arg.resolved
  split
  · rw [if_pos (Or.inr h)]
  · rfl

theorem arg_resolved_analyze : arg.resolved .analyze mode = arg := by
  unfold Arg.resolved
  split <;> simp

theorem resolved_analyze (args : List Arg) (modes : List Mode) : resolved .analyze args modes = args := by
  induction args generalizing modes with
  | nil => cases modes <;> rfl
  | cons arg args ih =>
    cases modes with
    | nil => rfl
    | cons mode modes => rw [resolved, ih, arg_resolved_analyze]

theorem zip_resolved (args : List Arg) (modes : List Mode) :
    (resolved state args modes).zip modes = (args.zip modes).map fun p => (p.1.resolved state p.2, p.2) := by
  induction args generalizing modes with
  | nil => cases modes <;> rfl
  | cons arg args ih =>
    cases modes with
    | nil => simp
    | cons mode modes => simp [resolved, ih]

theorem resolved_eq_map (h : args.length = modes.length) :
    resolved state args modes = (args.zip modes).map fun p => p.1.resolved state p.2 := by
  induction args generalizing modes with
  | nil => cases modes <;> simp_all [resolved]
  | cons arg args ih =>
    cases modes with
    | nil => simp at h
    | cons mode modes => simp [resolved, ih (Nat.succ.inj h)]

theorem length_resolved (args : List Arg) (modes : List Mode) : (resolved state args modes).length = args.length := by
  induction args generalizing modes with
  | nil => cases modes <;> rfl
  | cons arg args ih => cases modes <;> simp [resolved, ih]

/-- An argument is left with the variable that it has. -/
theorem exists_resolved (harg : arg ∈ args) (modes : List Mode) : ∃ left ∈ resolved state args modes, left.denotes = arg.denotes := by
  induction args generalizing modes with
  | nil => cases harg
  | cons first args ih =>
    cases modes with
    | nil => exact ⟨arg, harg, rfl⟩
    | cons mode modes =>
      rcases List.mem_cons.mp harg with rfl | harg
      · exact ⟨_, List.mem_cons_self, denotes_resolved⟩
      · obtain ⟨left, hleft, heq⟩ := ih harg modes
        exact ⟨left, List.mem_cons_of_mem _ hleft, heq⟩

theorem namesDiffer_resolved (h : NamesDiffer args modes) : NamesDiffer (resolved state args modes) modes := by
  rw [NamesDiffer, zip_resolved, List.pairwise_map]
  refine List.Pairwise.imp (fun {a b} hab => ?_) h
  have hname : ∀ a b : Arg × Mode, SameName (a.1.resolved state a.2, a.2) (b.1.resolved state b.2, b.2) → SameName a b := by
    rintro a b ⟨hout, x, ha, hb⟩
    exact ⟨hout, x, bare_of_resolved ha, bare_of_resolved hb⟩
  exact ⟨fun hn => hab.1 (hname a b hn), fun hn => hab.2 (hname b a hn)⟩

/-! ### The call -/

theorem validateArgs_eq_nil {iarg : ℕ} : validateArgs scope others false args modes iarg = .ok ([], []) ↔
      args.length = modes.length ∧ ∀ p ∈ args.zip modes, validateArgVsFormal scope others p.1 p.2 = true := by
  induction args generalizing modes iarg with
  | nil => cases modes <;> simp [validateArgs]
  | cons arg args ih =>
    cases modes with
    | nil => simp [validateArgs]
    | cons mode modes => by_cases harg : validateArgVsFormal scope others arg mode = true <;> simp [validateArgs, harg, ih]

theorem validateArgsVsFormals_eq_none {q : QSort} : validateArgsVsFormals q scope others state false args modes = none ↔
      validateArgs scope others false args modes 1 = .ok ([], []) ∧ NamesDiffer (resolved state args modes) modes := by
  rw [← validateOutArgsAreUnique_eq_none q, validateArgsVsFormals]
  rcases validateArgs scope others false args modes 1 with e | ⟨_ | ⟨arg, restArgs⟩, _ | ⟨mode, restModes⟩⟩ <;> simp

/-- What is passed to a function is passed for IN. -/
theorem validateArgs_function {restArgs : List Arg} {restModes : List Mode} {iarg : ℕ}
    (h : validateArgs scope others true args modes iarg = .ok (restArgs, restModes)) (hne : restModes ≠ []) :
    ∀ p ∈ args.zip modes, p.2.isOut = false := by
  induction args generalizing modes iarg with
  | nil => simp
  | cons arg args ih =>
    cases modes with
    | nil => simp
    | cons mode modes =>
      rw [validateArgs] at h
      split_ifs at h with harg hin htrailing
      have hmode : mode.isOut = false := by
        by_contra hout
        rw [Bool.not_eq_false] at hout
        have hlast : modes = [] := by simpa [hout] using htrailing
        subst hlast
        cases args <;> simp_all [validateArgs]
      intro p hp
      rcases List.mem_cons.mp hp with rfl | hp
      · exact hmode
      · exact ih h p hp

theorem unaliased_of_function {q : QSort} (h : validateArgsVsFormals q scope others state true args modes = none) : Unaliased args modes := by
  unfold validateArgsVsFormals at h
  split at h
  · simp at h
  next restArgs restModes hargs =>
    have hne : restModes ≠ [] := by
      rintro rfl
      simp at h
    have hin := validateArgs_function hargs hne
    refine List.pairwise_of_forall_mem_list fun a ha b hb => ⟨fun hab => ?_, fun hba => ?_⟩
    · exact Bool.false_ne_true ((hin a ha).symm.trans hab.1)
    · exact Bool.false_ne_true ((hin b hb).symm.trans hba.1)

theorem callRight_iff (q : QSort) (scope : Scope) (others : Arg → Mode → Bool) (state : LoopState) (procAsFunc : Bool) (args : List Arg)
    (modes : List Mode) : CallRight q scope others state procAsFunc args modes ↔
      (procAsFunc = false → validateArgs scope others false args modes 1 = .ok ([], []) →
        ¬Unaliased args modes → ¬NamesDiffer (resolved state args modes) modes) := by
  have hlets : Unaliased args modes → validateOutArgsAreUnique q (resolved state args modes) modes = none :=
    fun h => (validateOutArgsAreUnique_eq_none q _ modes).mpr (namesDiffer_resolved (namesDiffer_of_unaliased h))
  rw [CallRight, and_iff_left hlets]
  cases procAsFunc with
  | true => simpa using unaliased_of_function
  | false =>
    rw [validateArgsVsFormals_eq_none]
    tauto

/-! ### The first loop -/

@[simp] theorem set_self (scope : Scope) (name : Name) (flag : Bool) : scope.set name flag (fold name) = some flag := by simp [Scope.set]

theorem set_ne (scope : Scope) (flag : Bool) (h : fold name ≠ x) : scope.set name flag x = scope x := by
  simp [Scope.set, Function.update_of_ne h.symm]

/-- A variable is added, or its flag is set again. -/
def Added (names : List (Name × Bool)) (scope : Scope) (x : List UInt8) : Prop := ∃ p ∈ names, fold p.1 = x ∧ (p.2 = true ∨ scope x = none)

theorem added_cons {flag : Bool} :
    Added ((name, flag) :: names) scope x ↔ (fold name = x ∧ (flag = true ∨ scope x = none)) ∨ Added names scope x := by
  simp [Added]

theorem added_set (h : fold name ≠ x) : Added names (scope.set name true) x ↔ Added names scope x := by
  simp [Added, set_ne scope true h]

/-- One name of an OUT parameter, of which the flag is set. -/
theorem added_step (flag : Bool) (hname : flag = true ∨ scope (fold name) = none)
    (ih : (Added names (scope.set name true) x → after x = some true) ∧
      (¬Added names (scope.set name true) x → after x = scope.set name true x)) :
    (Added ((name, flag) :: names) scope x → after x = some true) ∧ (¬Added ((name, flag) :: names) scope x → after x = scope x) := by
  by_cases hx : fold name = x
  · subst hx
    rw [set_self] at ih
    refine ⟨fun _ => ?_, fun hn => absurd (added_cons.mpr (Or.inl ⟨rfl, hname⟩)) hn⟩
    by_cases hadded : Added names (scope.set name true) (fold name)
    · exact ih.1 hadded
    · exact ih.2 hadded
  · rw [added_set hx, set_ne scope true hx] at ih
    simpa [added_cons, hx] using ih

theorem outNames_nil {args : List (Written × Bool)}
    (hnil : ∀ mode modes' arg flag args', modes = mode :: modes' → args = (arg, flag) :: args' → False) : outNames modes args = [] := by
  cases modes with
  | nil => rfl
  | cons mode modes =>
    cases args with
    | nil => rfl
    | cons arg args => exact absurd rfl (hnil mode modes arg.1 arg.2 args rfl)

/-- The variables after the first loop. -/
theorem declareArgs_scope {args : List (Written × Bool)} (h : declareArgs reanalyze modes args scope outArgs = .ok (after, n)) (x : List UInt8) :
    (Added (outNames modes args) scope x → after x = some true) ∧ (¬Added (outNames modes args) scope x → after x = scope x) := by
  fun_induction declareArgs reanalyze modes args scope outArgs with
  | case1 mode modes arg flag args scope outArgs hin ih => simpa [outNames, hin] using ih h
  | case2 mode modes args scope outArgs hin name line improved hset ih =>
    simpa [outNames, hin] using added_step true (Or.inl rfl) (ih h)
  | case3 => simp at h
  | case4 mode modes flag args scope outArgs hin name line improved hflag hnone ih =>
    simpa [outNames, hin] using added_step flag (Or.inr hnone) (ih h)
  | case5 mode modes flag args scope outArgs hin name line improved hflag hsome ih =>
    have hhead : ¬(fold name = x ∧ (flag = true ∨ scope x = none)) := by
      rintro ⟨rfl, h | h⟩
      · exact hflag h
      · exact hsome h
    simpa [outNames, hin, added_cons, hhead] using ih h
  | case6 => simp at h
  | case7 modes args scope outArgs hnil =>
    simp only [Except.ok.injEq, Prod.mk.injEq] at h
    simp [outNames_nil hnil, Added, h.1]

/-- What is counted are bare names. -/
theorem declareArgs_count {args : List (Written × Bool)}
    (h : declareArgs reanalyze modes args scope outArgs = .ok (after, n)) : n = outArgs + (outNames modes args).length := by
  fun_induction declareArgs reanalyze modes args scope outArgs with
  | case1 mode modes arg flag args scope outArgs hin ih => simpa [outNames, hin] using ih h
  | case2 mode modes args scope outArgs hin name line improved hset ih =>
    rw [ih h, outNames, if_neg hin, List.length_cons]
    omega
  | case3 => simp at h
  | case4 mode modes flag args scope outArgs hin name line improved hflag hnone ih =>
    rw [ih h, outNames, if_neg hin, List.length_cons]
    omega
  | case5 mode modes flag args scope outArgs hin name line improved hflag hsome ih =>
    rw [ih h, outNames, if_neg hin, List.length_cons]
    omega
  | case6 => simp at h
  | case7 modes args scope outArgs hnil =>
    simp only [Except.ok.injEq, Prod.mk.injEq] at h
    simp [outNames_nil hnil, h.2]

/-- What is passed for OUT are bare names. -/
theorem declareArgs_bare {args : List (Written × Bool)} (h : declareArgs reanalyze modes args scope outArgs = .ok (after, n)) :
    ∀ p ∈ args.zip modes, p.2.isIn = false → ∃ x line improved, p.1.1 = .arg (.id x line improved) := by
  fun_induction declareArgs reanalyze modes args scope outArgs with
  | case1 mode modes arg flag args scope outArgs hin ih =>
    rw [List.zip_cons_cons, List.forall_mem_cons]
    exact ⟨fun h => absurd hin (by simp [h]), ih h⟩
  | case2 mode modes args scope outArgs hin name line improved hset ih =>
    rw [List.zip_cons_cons, List.forall_mem_cons]
    exact ⟨fun _ => ⟨name, line, improved, rfl⟩, ih h⟩
  | case3 => simp at h
  | case4 mode modes flag args scope outArgs hin name line improved hflag hnone ih =>
    rw [List.zip_cons_cons, List.forall_mem_cons]
    exact ⟨fun _ => ⟨name, line, improved, rfl⟩, ih h⟩
  | case5 mode modes flag args scope outArgs hin name line improved hflag hsome ih =>
    rw [List.zip_cons_cons, List.forall_mem_cons]
    exact ⟨fun _ => ⟨name, line, improved, rfl⟩, ih h⟩
  | case6 => simp at h
  | case7 modes args scope outArgs hnil =>
    cases args with
    | nil => simp
    | cons arg args =>
      cases modes with
      | nil => simp
      | cons mode modes => exact absurd rfl (hnil mode modes arg.1 arg.2 args rfl)

/-- Where the names with a flag are those of variables without it, each once, the first loop goes through bare names. -/
theorem declareArgs_ends {args : List (Written × Bool)}
    (hvars : ∀ p ∈ outNames modes args, p.2 = true → reanalyze = true ∧ scope (fold p.1) = some false)
    (honce : (outNames modes args).Pairwise fun p r => r.2 = true → fold p.1 ≠ fold r.1) :
    declareArgs reanalyze modes args scope outArgs ≠ .error .aborted ∧
      ((∀ p ∈ args.zip modes, p.2.isIn = false → ∃ x line improved, p.1.1 = .arg (.id x line improved)) →
        ∃ after n, declareArgs reanalyze modes args scope outArgs = .ok (after, n)) := by
  have hkeeps : ∀ {names : List (Name × Bool)} {scope : Scope} {name : Name}, (∀ p ∈ names, p.2 = true → fold name ≠ fold p.1) →
      (∀ p ∈ names, p.2 = true → reanalyze = true ∧ scope (fold p.1) = some false) →
      ∀ p ∈ names, p.2 = true → reanalyze = true ∧ scope.set name true (fold p.1) = some false := by
    intro names scope name hne hvars p hp hflag
    rw [set_ne scope true (hne p hp hflag)]
    exact hvars p hp hflag
  fun_induction declareArgs reanalyze modes args scope outArgs with
  | case1 mode modes arg flag args scope outArgs hin ih =>
    have hnames : outNames (mode :: modes) ((arg, flag) :: args) = outNames modes args := by simp [outNames, hin]
    rw [hnames] at hvars honce
    rw [List.zip_cons_cons, List.forall_mem_cons]
    exact ⟨(ih hvars honce).1, fun h => (ih hvars honce).2 h.2⟩
  | case2 mode modes args scope outArgs hin name line improved hset ih =>
    rw [outNames, if_neg hin] at hvars honce
    rw [List.forall_mem_cons] at hvars
    obtain ⟨hne, honce⟩ := List.pairwise_cons.mp honce
    rw [List.zip_cons_cons, List.forall_mem_cons]
    have hrest := ih (hkeeps hne hvars.2) honce
    exact ⟨hrest.1, fun h => hrest.2 h.2⟩
  | case3 mode modes args scope outArgs hin name line improved hset =>
    rw [outNames, if_neg hin] at hvars
    exact absurd (hvars (name, true) (by simp) rfl) (by simpa using hset)
  | case4 mode modes flag args scope outArgs hin name line improved hflag hnone ih =>
    rw [outNames, if_neg hin] at hvars honce
    rw [List.forall_mem_cons] at hvars
    obtain ⟨hne, honce⟩ := List.pairwise_cons.mp honce
    rw [List.zip_cons_cons, List.forall_mem_cons]
    have hrest := ih (hkeeps hne hvars.2) honce
    exact ⟨hrest.1, fun h => hrest.2 h.2⟩
  | case5 mode modes flag args scope outArgs hin name line improved hflag hsome ih =>
    rw [outNames, if_neg hin] at hvars honce
    rw [List.forall_mem_cons] at hvars
    rw [List.zip_cons_cons, List.forall_mem_cons]
    have hrest := ih hvars.2 (List.pairwise_cons.mp honce).2
    exact ⟨hrest.1, fun h => hrest.2 h.2⟩
  | case6 mode modes arg flag args scope outArgs hin hbare =>
    refine ⟨by simp, fun h => ?_⟩
    obtain ⟨x, line, improved, hx⟩ := h ((arg, flag), mode) (by simp) (by simpa using hin)
    exact absurd hx (hbare x line improved)
  | case7 modes args scope outArgs hnil => exact ⟨by simp, fun _ => ⟨scope, outArgs, rfl⟩⟩

/-! ### The final walk -/

/-- The flags are on bare names of variables that have them. -/
def OnNames (marks : List (Arg × Bool)) (scope : Scope) : Prop :=
  ∀ p ∈ marks, p.2 = true → ∃ x, p.1.bare = some x ∧ scope (fold x) = some true

/-- No two flags are on the same variable. -/
def OnDifferent (marks : List (Arg × Bool)) : Prop :=
  marks.Pairwise fun p r => p.2 = true → r.2 = true → ∀ x y, p.1.bare = some x → r.1.bare = some y → fold x ≠ fold y

/-- The final walk ends exactly if the flags are on bare names of different variables. -/
theorem undecorate_isSome : (undecorate marks scope).isSome ↔ OnNames marks scope ∧ OnDifferent marks := by
  fun_induction undecorate marks scope with
  | case1 => simp [OnNames, OnDifferent]
  | case2 args scope name line improved hset ih =>
    rw [ih, OnNames, OnNames, OnDifferent, OnDifferent, List.forall_mem_cons, List.pairwise_cons]
    constructor
    · rintro ⟨hnames, honce⟩
      have hne : ∀ p ∈ args, p.2 = true → ∀ y, p.1.bare = some y → fold name ≠ fold y := by
        intro p hp hflag y hy heq
        obtain ⟨x, hx, hset'⟩ := hnames p hp hflag
        obtain rfl : x = y := Option.some.inj (hx.symm.trans hy)
        rw [← heq, set_self] at hset'
        exact absurd hset' (by simp)
      refine ⟨⟨fun _ => ⟨name, rfl, hset⟩, fun p hp hflag => ?_⟩, fun p hp _ hflag x y hx hy => ?_, honce⟩
      · obtain ⟨x, hx, hset'⟩ := hnames p hp hflag
        rw [set_ne scope false (hne p hp hflag x hx)] at hset'
        exact ⟨x, hx, hset'⟩
      · obtain rfl : name = x := Option.some.inj hx
        exact hne p hp hflag y hy
    · rintro ⟨⟨-, hnames⟩, hne, honce⟩
      refine ⟨fun p hp hflag => ?_, honce⟩
      obtain ⟨x, hx, hset'⟩ := hnames p hp hflag
      rw [← set_ne scope false (hne p hp rfl hflag name x rfl hx)] at hset'
      exact ⟨x, hx, hset'⟩
  | case3 args scope name line improved hset =>
    simp only [Option.isSome_none, Bool.false_eq_true, false_iff, not_and]
    intro hnames
    obtain ⟨x, hx, hset'⟩ := hnames (.id name line improved, true) (by simp) rfl
    obtain rfl : name = x := Option.some.inj hx
    exact absurd hset' hset
  | case4 arg args scope hbare =>
    simp only [Option.isSome_none, Bool.false_eq_true, false_iff, not_and]
    intro hnames
    obtain ⟨x, hx, -⟩ := hnames (arg, true) (by simp) rfl
    obtain ⟨line, improved, rfl⟩ := bare_eq_some.mp hx
    exact absurd rfl (hbare x line improved)
  | case5 arg flag args scope hflag ih =>
    rw [ih, OnNames, OnNames, OnDifferent, OnDifferent, List.forall_mem_cons, List.pairwise_cons]
    simp [hflag]

/-- A flag is on a bare name of a variable. -/
def OnFlag (marks : List (Arg × Bool)) (x : List UInt8) : Prop := ∃ p ∈ marks, p.2 = true ∧ ∃ y, p.1.bare = some y ∧ fold y = x

theorem onFlag_cons {p : Arg × Bool} : OnFlag (p :: marks) x ↔ (p.2 = true ∧ ∃ y, p.1.bare = some y ∧ fold y = x) ∨ OnFlag marks x := by
  simp only [OnFlag, List.exists_mem_cons_iff]

/-- The variables after the final walk. -/
theorem undecorate_scope (h : undecorate marks scope = some after) (x : List UInt8) :
    (OnFlag marks x → after x = some false) ∧ (¬OnFlag marks x → after x = scope x) := by
  fun_induction undecorate marks scope with
  | case1 scope =>
    obtain rfl : scope = after := Option.some.inj h
    exact ⟨fun hx => absurd hx (by simp [OnFlag]), fun _ => rfl⟩
  | case2 args scope name line improved hset ih =>
    have ih := ih h
    by_cases hx : fold name = x
    · subst hx
      rw [set_self] at ih
      refine ⟨fun _ => (em _).elim ih.1 ih.2, fun hn => absurd (onFlag_cons.mpr (Or.inl ⟨rfl, name, rfl, rfl⟩)) hn⟩
    · rw [set_ne scope false hx] at ih
      have hhead : ¬∃ y, (Arg.id name line improved).bare = some y ∧ fold y = x := by
        rintro ⟨y, hy, rfl⟩
        exact hx (congrArg fold (Option.some.inj hy))
      simpa only [onFlag_cons, hhead, and_false, false_or] using ih
  | case3 => simp at h
  | case4 => simp at h
  | case5 arg flag args scope hflag ih => simpa only [onFlag_cons, hflag, Bool.false_eq_true, false_and, false_or] using ih h

/-- The declarations are the names with a flag. -/
theorem declarations_eq (marks : List (Arg × Bool)) : declarations marks = (marks.filter Prod.snd).filterMap fun p => p.1.bare := by
  fun_induction declarations marks with
  | case1 => rfl
  | case2 name line improved args ih => simp [Arg.bare, ih]
  | case3 p args hne ih =>
    obtain ⟨arg, flag⟩ := p
    cases flag with
    | false => simp [ih]
    | true => cases arg <;> simp_all [Arg.bare]

/-- A flag on a bare name declares its variable, once. -/
theorem count_declarations (h : OnDifferent marks) (x : List UInt8) : ((declarations marks).map fold).count x = 1 ↔ OnFlag marks x := by
  have hmem : x ∈ (declarations marks).map fold ↔ OnFlag marks x := by
    simp only [declarations_eq, List.mem_map, List.mem_filterMap, List.mem_filter, OnFlag]
    constructor
    · rintro ⟨y, ⟨p, ⟨hp, hflag⟩, hy⟩, heq⟩
      exact ⟨p, hp, hflag, y, hy, heq⟩
    · rintro ⟨p, hp, hflag, y, hy, heq⟩
      exact ⟨y, ⟨p, ⟨hp, hflag⟩, hy⟩, heq⟩
  have hnodup : ((declarations marks).map fold).Nodup := by
    rw [declarations_eq, List.Nodup, List.pairwise_map, List.pairwise_filterMap, List.pairwise_filter]
    exact List.Pairwise.imp (fun hpr hp hr y hy z hz => hpr hp hr y z hy hz) h
  rw [← hmem]
  exact ⟨fun h => List.count_pos_iff.mp (h ▸ Nat.one_pos), List.count_eq_one_of_mem hnodup⟩

/-! ### The flags of the arguments -/

theorem implicit_eq_true : arg.implicit scope = true ↔ ∃ x, arg.denotes = some x ∧ scope (fold x) = some true := by
  unfold Arg.implicit
  cases harg : arg.denotes <;> simp

variable {found : Scope}

theorem onFlag_marked : OnFlag (marked found args) x ↔ found x = some true ∧ ∃ arg ∈ args, ∃ y, arg.bare = some y ∧ fold y = x := by
  simp only [OnFlag, marked, List.mem_map, exists_exists_and_eq_and, implicit_eq_true]
  constructor
  · rintro ⟨arg, harg, ⟨y, hy, hset⟩, z, hz, rfl⟩
    obtain rfl : y = z := Option.some.inj (hy.symm.trans (denotes_of_bare hz))
    exact ⟨hset, arg, harg, y, hz, rfl⟩
  · rintro ⟨hset, arg, harg, y, hy, rfl⟩
    exact ⟨arg, harg, ⟨y, denotes_of_bare hy, hset⟩, y, hy, rfl⟩

theorem onNames_marked : OnNames (marked found args) scope ↔ ∀ arg ∈ args, ∀ x, arg.denotes = some x → found (fold x) = some true →
      arg.bare = some x ∧ scope (fold x) = some true := by
  simp only [OnNames, marked, List.forall_mem_map, implicit_eq_true]
  constructor
  · intro h arg harg x hx hset
    obtain ⟨y, hy, hown⟩ := h arg harg ⟨x, hx, hset⟩
    obtain rfl := Option.some.inj ((denotes_of_bare hy).symm.trans hx)
    exact ⟨hy, hown⟩
  · rintro h arg harg ⟨x, hx, hset⟩
    exact ⟨x, h arg harg x hx hset⟩

theorem onDifferent_marked (h : OnNames (marked found args) scope) : OnDifferent (marked found args) ↔
      args.Pairwise fun a b => ∀ x y, a.denotes = some x → b.denotes = some y → found (fold x) = some true → fold x ≠ fold y := by
  rw [onNames_marked] at h
  rw [OnDifferent, marked, List.pairwise_map]
  refine List.Pairwise.iff_of_mem fun {a b} ha hb => ⟨fun hab x y hx hy hset heq => ?_, fun hab hfa hfb x y hx hy => ?_⟩
  · have hset' : found (fold y) = some true := heq ▸ hset
    exact hab (implicit_eq_true.mpr ⟨x, hx, hset⟩) (implicit_eq_true.mpr ⟨y, hy, hset'⟩) x y (h a ha x hx hset).1 (h b hb y hy hset').1 heq
  · obtain ⟨z, hz, hset⟩ := implicit_eq_true.mp hfa
    obtain rfl : z = x := Option.some.inj (hz.symm.trans (denotes_of_bare hx))
    exact hab z y hz (denotes_of_bare hy) hset

end Aux

end CgSql.OutArgs
