import CgSql.Lemmas.SemTracks

/-!
# The assertions of flow analysis

When semantic analysis can fail an assertion of `flow.c`, on any program: procedures and statements at top level, nests of statements
and expressions, with errors in them or without.
-/

namespace CgSql

open Flow

/-- The analysis of a program fails no assertion of `flow.c`. -/
def FailsNoAssertion (Γ : Env) (program : List TopStmt) : Prop := ∀ a, (semProgram Γ program Sem.initial).1 ≠ .error (.assertion a)

/-- What has to hold where a branch group is popped: it keeps the flags of its entry, and its jumping branches were entered with no
more than the others establish. -/
def Flow.Safe (s : Flow) : Prop := s.OwnUnsets ∧ s.MergeBound

/-- Every branch group popped in the analysis of a program is safe. -/
def SafeGroups (Γ : Env) (program : List TopStmt) : Prop := ∀ s ∈ (semProgram Γ program Sem.initial).2.groups, s.Safe

namespace AssertionsAux

/-- Rules by which only branch groups in safe states are popped are sound. -/
theorem sound_of_safe (Γ : Env) {s : Sem} (h : ∀ f ∈ s.groups, f.Safe) : (s.rules Γ).Sound where
  ownUnsets f hf := (h f hf).1
  mergeBound f hf := (h f hf).2
  typed _ _ hk hk' := hk.1.unique hk'.1

/-- Nothing is set and nothing recorded at the start. -/
theorem ready_initial (R : Rules) : Ready R Sem.initial.flow where
  contexts := List.cons_ne_nil _ _
  valid := ⟨trivial, rfl, trivial⟩
  group c ps hs n covers hc hk := by
    obtain ⟨rfl, -⟩ := List.cons.inj hc
    cases hk
  typed := by
    refine ⟨fun k hk => (by cases hk), fun c hc => ?_⟩
    obtain rfl := List.mem_singleton.mp hc
    exact ⟨by simp, fun hs n covers hk => (by cases hk)⟩

end AssertionsAux

open AssertionsAux

namespace Flow

instance (s : Flow) : Decidable s.OwnUnsets :=
  match h : s.contexts with
  | [] => .isTrue fun _ _ hc => by simp [h] at hc
  | c :: _ => decidable_of_iff (∀ d ∈ c.history, d.up = false → c.entry d.key = false)
      ⟨fun hd _ _ hc => by obtain ⟨rfl, -⟩ := List.cons.inj (h.symm.trans hc); exact hd, fun hd => hd c _ h⟩

/-- A property of the histories, the count and the coverage of the branch group that is the current context. -/
theorem group_iff {s : Flow} {c : FlowContext} {ps : List FlowContext} {hs : History} {n : Nat} {covers : Bool}
    (hc : s.contexts = c :: ps) (hk : c.kind = .branchGroup hs n covers) {P : FlowContext → History → Nat → Bool → Prop} :
    P c hs n covers ↔ ∀ c ps hs n covers, s.contexts = c :: ps → c.kind = .branchGroup hs n covers → P c hs n covers := by
  refine ⟨fun h c' ps' hs' n' covers' hc' hk' => ?_, fun h => h c ps hs n covers hc hk⟩
  obtain ⟨rfl, -⟩ := List.cons.inj (hc'.symm.trans hc)
  obtain ⟨rfl, rfl, rfl⟩ : hs' = hs ∧ n' = n ∧ covers' = covers := by simpa [hk] using hk'.symm
  exact h

instance (s : Flow) : Decidable s.MergeBound :=
  match h : s.contexts with
  | [] => .isTrue fun _ _ _ _ _ hc => by simp [h] at hc
  | c :: _ =>
    match hk : c.kind with
    | .branchGroup hs n _ =>
      decidable_of_iff ((∀ d ∈ hs, c.entry d.key = false → jumped c d.key ≤ missed c d.key) ∧ (n = 0 → hs = []))
        (group_iff h hk (P := fun c hs n _ =>
          (∀ d ∈ hs, c.entry d.key = false → jumped c d.key ≤ missed c d.key) ∧ (n = 0 → hs = [])))
    | .normal | .branch _ | .jump _ => .isTrue fun c' _ _ _ _ hc hk' => by
        obtain ⟨rfl, -⟩ := List.cons.inj (h.symm.trans hc)
        simp [hk] at hk'

instance (s : Flow) : Decidable s.Safe := inferInstanceAs (Decidable (s.OwnUnsets ∧ s.MergeBound))

end Flow

namespace AssertionsAux

/-- Declarations for examples: variables and fields of cursors, all of them nullable. The variables from 8 on are global, and so is
cursor 8. -/
def decls : Env where
  addr
    | .var v => 3 * v
    | .cursor c => 3 * c + 1
    | .field c i => 3 * (8 * c + i) + 2
  word p := if p % 3 = 1 then .cursor else .data false false
  globalWord p := p % 3 = 2 ∧ 64 ≤ p / 3 ∨ p % 3 ≠ 2 ∧ 8 ≤ p / 3
  fieldCount _ := 2
  resultNotNull _ := true
  checked _ := true
  strictAndOr := false
  strictCursorHasRow := true

/-- Why an analysis ended. -/
def failure {α : Type} : Except Stop α → Option Stop
  | .ok _ => none
  | .error e => some e

/-- A use of a variable. -/
def use (v : Nat) : Expr := .name (.var v) .unanalyzed

/-- A list of statements. -/
def block : List Stmt → Stmts
  | [] => .nil
  | t :: ts => .cons t (block ts)

/-- A procedure of `IF x IS NULL THEN RETURN; ELSE IF 1 THEN RETURN; END IF` -/
def bothReturn : List TopStmt := [.createProc (block
  [.ifStmt (.isOp false (use 0) .null) (block [.control .return]) (.elseIf (.num 1) (block [.control .return]) .done)])]

/-- A procedure of `IF x IS NULL THEN RETURN; END IF; SET y := x`, behind `SET g := 1` at top level -/
def guarded : List TopStmt := [.stmt (.write (.set 8 (.num 1))), .createProc (block
  [.ifStmt (.isOp false (use 0) .null) (block [.control .return]) .done, .write (.set 1 (use 0))])]

end AssertionsAux

end CgSql
