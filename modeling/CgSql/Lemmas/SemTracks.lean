import CgSql.Lemmas.SemRun

/-!
# Every analysis is a run

`Tracks` for each function of semantic analysis, by induction on the tree it analyses.
-/

namespace CgSql

open Flow M

namespace Tracks

variable {Γ : Env} {lvl : Level}

/-! ## Improvements -/

theorem typed_rowKey {c : Nat} (hc : Γ.isCursor c = true) (s : Sem) : (s.rules Γ).typed (Γ.rowKey c) :=
  ⟨by simpa [Env.Typed, Env.rowKey, Env.isCursor] using hc, fun h => by cases h⟩

theorem typed_initKey {l : Loc} (hl : Γ.requiresInit l = true) (s : Sem) : (s.rules Γ).typed (Γ.initKey l) :=
  ⟨by simpa [Env.Typed, Env.initKey, Env.requiresInit] using hl, fun h => by cases h⟩

/-- A name that resolves and is not declared NOT NULL can be improved. -/
theorem typed_notnullKey {l : Loc} (pass : LoopState) (hl : Γ.resolves l = true) (hn : Γ.notNull pass l = false) : Γ.Typed (Γ.notnullKey l) := by
  have hd : Γ.word (Γ.addr l) ≠ .cursor := by
    cases l <;> simp_all [Env.resolves]
  refine ⟨hd, fun r hr => ?_⟩
  unfold Env.notNull at hn
  simp only [Env.notnullKey] at hr
  rw [hr] at hn
  cases hn

/-- The state after the improvement of a global was listed. -/
def listed (Γ : Env) (l : Loc) (s : Sem) : Sem :=
  { s with globals := if Γ.isGlobal l then Γ.addr l :: s.globals else s.globals }

theorem grows_listed (l : Loc) (s : Sem) : s.Grows (listed Γ l s) := by
  refine ⟨List.suffix_refl _, ?_, rfl⟩
  unfold listed
  dsimp only
  split
  · exact List.suffix_cons _ _
  · exact List.suffix_refl _

theorem semSetNotnullImproved_eq (l : Loc) (s : Sem) : CgSql.semSetNotnullImproved Γ l s = if Γ.resolves l = false then (.error .invariant, s)
    else if Γ.notNull s.loop l || s.flow.flags (Γ.notnullKey l) then (.ok (), s)
    else flow (setFlag (Γ.notnullKey l)) (listed Γ l s) := by
  change (if !Γ.resolves l then _ else if _ then _ else _ : M Unit) s = _
  cases hr : Γ.resolves l with
  | false => rfl
  | true =>
    simp only [Bool.not_true, Bool.false_eq_true, if_false, reduceCtorEq]
    split
    · rfl
    · unfold listed
      cases hg : Γ.isGlobal l <;> rfl

/-- An improvement is a step that is allowed. -/
theorem semSetNotnullImproved (l : Loc) : Tracks Γ lvl (CgSql.semSetNotnullImproved Γ l) := by
  have htyped : ∀ {s : Sem} {t : Flow}, Γ.resolves l ≠ false → ¬(Γ.notNull s.loop l || s.flow.flags (Γ.notnullKey l)) = true →
      (Sem.rules Γ { listed Γ l s with flow := t }).typed (Γ.notnullKey l) := fun {s t} hr hn => by
    refine ⟨typed_notnullKey s.loop (by simpa using hr) (by simp_all), fun _ hg => ?_⟩
    have hg' : Γ.isGlobal l = true := hg
    simp [listed, hg', Env.notnullKey]
  refine ⟨fun {s s' r} h => ?_, fun {s s' r} h hr => ?_, fun {s s' a} h => ?_⟩ <;> rw [semSetNotnullImproved_eq] at h <;> split at h
  · cases h
    exact .refl _
  · split at h
    · cases h
      exact .refl _
    · have hg := grows_listed (Γ := Γ) l s
      rcases flow_eq h with ⟨t, -, -, rfl⟩ | ⟨a, -, -, rfl⟩
      · exact hg.trans ⟨List.suffix_refl _, List.suffix_refl _, rfl⟩
      · exact hg
  · cases h
    cases hr
  · split at h
    · cases h
      exact Calm.steps .refl
    · next hres hn =>
      rcases flow_eq h with ⟨t, ht, -, rfl⟩ | ⟨a, -, rfl, -⟩
      · exact Calm.steps (.set .refl (htyped hres hn) ht)
      · cases hr
  · cases h
  · split at h
    · cases h
    · next hres hn =>
      rcases flow_eq h with ⟨t, -, hr, -⟩ | ⟨a, ha, hr, rfl⟩
      · cases hr
      · cases hr
        exact .inr (.set .refl (htyped (t := s.flow) hres hn) (by simp_all) ha)

/-- So is the row of a cursor. -/
theorem semSetHasRowImproved {c : Nat} (hc : Γ.isCursor c = true) : Tracks Γ lvl (CgSql.semSetHasRowImproved Γ c) :=
  raise (typed_rowKey hc)

/-- So is an initialization. -/
theorem semSetInitializationImproved (l : Loc) : Tracks Γ lvl (CgSql.semSetInitializationImproved Γ l) := by
  unfold CgSql.semSetInitializationImproved
  split
  · next h => exact raise (typed_initKey h)
  · exact .pure ()

/-- So are the un-sets of globals. -/
theorem semUnsetGlobalNotnullImprovements : Tracks Γ lvl CgSql.semUnsetGlobalNotnullImprovements :=
  get.bind fun _ => lowerAll _

/-- After a call. -/
theorem semAfterCall (checked : Bool) : Tracks Γ lvl (CgSql.semAfterCall checked) := by
  unfold CgSql.semAfterCall
  split
  · exact semUnsetGlobalNotnullImprovements
  · exact .pure ()

/-- Where a condition is true. -/
theorem semSetImprovementsForTrueCondition (e : Expr) : Tracks Γ lvl (CgSql.semSetImprovementsForTrueCondition Γ e) := by
  fun_induction CgSql.semSetImprovementsForTrueCondition Γ e with
  | case1 l r ihl ihr => exact ihl.bind fun _ => ihr
  | case2 c hc => exact semSetHasRowImproved hc
  | case3 c hc => exact .pure ()
  | case4 l ty => exact semSetNotnullImproved l
  | case5 => exact .pure ()

/-- Where it is false. -/
theorem semSetImprovementsForFalseCondition (e : Expr) : Tracks Γ lvl (CgSql.semSetImprovementsForFalseCondition Γ e) := by
  fun_induction CgSql.semSetImprovementsForFalseCondition Γ e with
  | case1 l r ihl ihr => exact ihl.bind fun _ => ihr
  | case2 c hc => exact semSetHasRowImproved hc
  | case3 c hc => exact .pure ()
  | case4 l ty => exact semSetNotnullImproved l
  | case5 => exact .pure ()

/-! ## Expressions -/

/-- A name. -/
theorem semResolveIdExpr (l : Loc) (ty : UseType) : Tracks Γ lvl (CgSql.semResolveIdExpr Γ l ty) := by
  refine get.bind fun s => (require _).bind fun _ => (require _).bind fun _ => ?_
  split
  · split
    · exact .pure _
    · exact .stop (by simp)
  · split
    · exact .pure _
    · split <;> exact .pure _

/-- AND and OR, from their operands. -/
theorem semBinaryLogical {l r : M Expr} {improve : Option Expr → M Unit} (hl : Tracks Γ .calm l)
    (hi : ∀ e, Tracks Γ .calm (improve e)) (hr : Tracks Γ .calm r) : Tracks Γ lvl (CgSql.semBinaryLogical Γ l improve r) := by
  unfold CgSql.semBinaryLogical
  split
  · exact inBranchGroup (inBranch (hl.free.bothWith fun _ => (hi _).free.bind fun _ => hr.free))
  · exact hl.free.both hr.free

theorem improveLeft (op : LogicOp) (e : Expr) : Tracks Γ lvl (CgSql.improveLeft Γ op e) := by
  cases op with
  | and => exact semSetImprovementsForTrueCondition e
  | or => exact semSetImprovementsForFalseCondition e

theorem improveThen (matching : Bool) (w : Expr) : Tracks Γ lvl (CgSql.improveThen Γ matching w) := by
  unfold CgSql.improveThen
  split
  · exact .pure ()
  · exact semSetImprovementsForTrueCondition w

variable {again : Option (Expr → M Expr)}

mutual

/-- Every expression, by induction. -/
theorem semExprWith (ha : ∀ f, again = some f → ∀ e, Tracks Γ .calm (f e)) : ∀ e : Expr, Tracks Γ .calm (CgSql.semExprWith Γ again e)
  | .null => by unfold CgSql.semExprWith; exact .pure _
  | .num n => by unfold CgSql.semExprWith; exact .pure _
  | .name l ty => by unfold CgSql.semExprWith; exact (semResolveIdExpr l ty).bind fun _ => .pure _
  | .cursor c => by unfold CgSql.semExprWith; exact (require _).bind fun _ => .pure _
  | .not e => by unfold CgSql.semExprWith; exact (semExprWith ha e).bind fun _ => .pure _
  | .binary op l r => by
    unfold CgSql.semExprWith
    exact ((semExprWith ha l).both (semExprWith ha r)).bind fun _ => (require _).bind fun _ => .pure _
  | .logical op l r => by
    unfold CgSql.semExprWith
    exact (semBinaryLogical (semExprWith ha l) (fun _ => improveLeft op _) (semExprWith ha r)).bind fun _ => .pure _
  | .isOp negated l r => by
    unfold CgSql.semExprWith
    exact ((semExprWith ha l).both (semExprWith ha r)).bind fun _ => (require _).bind fun _ => .pure _
  | .call p args => by
    unfold CgSql.semExprWith
    exact (finally' (semExprList ha args) (semAfterCall true)).bind fun _ => .pure _
  | .caseWhen list => by
    unfold CgSql.semExprWith
    exact (inBranchGroup (semCaseList ha false true list)).bind fun _ => .pure _
  | .caseMatch e list => by
    unfold CgSql.semExprWith
    exact (semExprWith ha e).bind fun _ => (inBranchGroup (semCaseList ha true true list)).bind fun _ => .pure _
  | .between negated rewritten e lo hi => by
    have he := semExprWith ha e
    have hlo := semExprWith ha lo
    have hhi := semExprWith ha hi
    unfold CgSql.semExprWith
    split
    · next f =>
      refine (he.both (hlo.both hhi)).bind fun p => ?_
      exact (semBinaryLogical (ha f rfl _) (fun _ => .pure ()) (ha f rfl _)).bind fun _ => .pure _
    · exact .pure _

/-- Lists of expressions. -/
theorem semExprList (ha : ∀ f, again = some f → ∀ e, Tracks Γ .calm (f e)) : ∀ es : ExprList, Tracks Γ .calm (CgSql.semExprList Γ again es)
  | .nil => by unfold CgSql.semExprList; exact .pure _
  | .cons e rest => by
    unfold CgSql.semExprList
    exact (semExprWith ha e).bind fun _ => (semExprList ha rest).bind fun _ => .pure _

theorem semElse (ha : ∀ f, again = some f → ∀ e, Tracks Γ .calm (f e)) :
    ∀ list : CaseList, Tracks Γ .group (CgSql.semElse Γ again list)
  | .done => by unfold CgSql.semElse; exact .pure _
  | .orElse e => by
    unfold CgSql.semElse
    exact (setCoversAllCases true).bind fun _ => (inBranch (free (semExprWith ha e))).bind fun _ => .pure _
  | .when w t rest => by unfold CgSql.semElse; exact (semElse ha rest).bind fun _ => .pure _

/-- The WHENs of a CASE. -/
theorem semCaseList (ha : ∀ f, again = some f → ∀ e, Tracks Γ .calm (f e)) (matching first : Bool) :
    ∀ list : CaseList, Tracks Γ .group (CgSql.semCaseList Γ again matching first list)
  | .done => by unfold CgSql.semCaseList; exact .pure _
  | .orElse e => by
    unfold CgSql.semCaseList
    exact (setCoversAllCases true).bind fun _ => (inBranch (free (semExprWith ha e))).bind fun _ => .pure _
  | .when w t rest => by
    unfold CgSql.semCaseList
    refine (free (semExprWith ha w)).bind fun w => ?_
    split
    · exact (require _).bind fun _ => (semElse ha rest).bind fun _ => .pure _
    · refine (inBranch ((improveThen matching w).bind fun _ => free (semExprWith ha t))).bind fun t' => ?_
      exact (semSetImprovementsForFalseCondition w).bind fun _ => (semCaseList ha matching false rest).bind fun _ => .pure _

end

/-- A second visit is calm. -/
theorem semExprAgain (e : Expr) : Tracks Γ .calm (CgSql.semExprWith Γ none e) := semExprWith (fun _ h => by cases h) e

theorem semExpr (e : Expr) : Tracks Γ .calm (CgSql.semExpr Γ e) :=
  semExprWith (fun f h e => by cases h; exact semExprAgain e) e

/-! ## Statements that write -/

/-- Arguments. -/
theorem semArgs (args : Args) : Tracks Γ lvl (CgSql.semArgs Γ args) := by
  induction args with
  | nil => unfold CgSql.semArgs; exact .pure _
  | input e rest ih =>
    unfold CgSql.semArgs
    exact (free (semExpr e)).bind fun _ => ih.bind fun _ => .pure _
  | output l inout rest ih =>
    unfold CgSql.semArgs
    refine (require _).bind fun _ => get.bind fun _ => (require _).bind fun _ => (lower _).bind fun _ => ?_
    exact (semSetInitializationImproved l).bind fun _ => ih.bind fun _ => .pure _

/-- Calls. -/
theorem semCallStmt (p : Nat) (args : Args) : Tracks Γ lvl (CgSql.semCallStmt Γ p args) :=
  finally' ((semArgs args).bind fun _ => (require _).bind fun _ => .pure _) (semAfterCall _)

/-- The variables of a FETCH. -/
theorem semFetchInto (c : Nat) (vs : List Nat) (icol : Nat) : Tracks Γ lvl (CgSql.semFetchInto Γ c icol vs) := by
  induction vs generalizing icol with
  | nil => unfold CgSql.semFetchInto; exact .pure _
  | cons v vs ih =>
    unfold CgSql.semFetchInto
    refine get.bind fun _ => get.bind fun _ => (require _).bind fun _ => (lower _).bind fun _ => ?_
    exact (semSetInitializationImproved _).bind fun _ => ih _

/-- A step after which a condition is known to hold. -/
theorem require_bind {b : Bool} {f : Unit → M α} (hf : b = true → Tracks Γ lvl (f ())) : Tracks Γ lvl (M.require b >>= f) := by
  cases b with
  | true => exact (require true).bind fun _ => hf rfl
  | false =>
    have heq : ∀ s, (M.require false >>= f) s = (.error .error, s) := fun _ => rfl
    refine ⟨fun {s s' r} h => ?_, fun {s s' r} h _ => ?_, fun {s s' a} h => ?_⟩ <;> rw [heq] at h <;> cases h
    · exact .refl _
    · exact Calm.steps .refl

/-- An assigned variable. -/
theorem semAssigned (v : Nat) (notNull : Bool) : Tracks Γ lvl (CgSql.semAssigned Γ v notNull) := by
  refine bind ?_ fun _ => semSetInitializationImproved _
  split
  · exact semSetNotnullImproved _
  · exact lower _

/-- What a guard that leaves improves. -/
theorem semGuard (c : Expr) (body : Stmts) (alt : IfAlt) : Tracks Γ lvl (CgSql.semGuard Γ c body alt) := by
  unfold CgSql.semGuard
  split
  · exact semSetImprovementsForFalseCondition c
  · exact .pure ()

/-- Every write. -/
theorem semWrite (w : Write) : Tracks Γ lvl (CgSql.semWrite Γ w) := by
  cases w with
  | set v e =>
    refine (require _).bind fun _ => (free (semExpr e)).bind fun e => get.bind fun _ => ?_
    exact (both (require _) (semAssigned _ _)).bind fun _ => .pure _
  | letVar v e => exact (free (semExpr e)).bind fun _ => get.bind fun _ => (require _).bind fun _ => .pure _
  | fetch c => exact (require _).bind fun _ => (lowerAll _).bind fun _ => (lower _).bind fun _ => .pure _
  | fetchInto c vs =>
    refine (require _).bind fun _ => (semFetchInto c vs 0).bind fun _ => ?_
    exact (require _).bind fun _ => .pure _
  | fetchCall c p args =>
    exact (semCallStmt p args).bind fun _ => (require _).bind fun _ => (lower _).bind fun _ => .pure _
  | fetchValues c es =>
    refine require_bind fun hc => (free (semExprList (fun f h e => by cases h; exact semExprAgain e) es)).bind fun _ => ?_
    refine get.bind fun _ => (require _).bind fun _ => (lowerAll _).bind fun _ => ?_
    exact (semSetHasRowImproved hc).bind fun _ => .pure _
  | updateCursor c fields es =>
    refine (free (semExprList (fun f h e => by cases h; exact semExprAgain e) es)).bind fun _ => ?_
    exact get.bind fun _ => (require _).bind fun _ => .pure _
  | close c => exact .pure _
  | call p args => exact (semCallStmt p args).bind fun _ => .pure _
  | cursorFromBlob c blob =>
    refine require_bind fun hc => (finally' (free (semExpr blob)) (semAfterCall true)).bind fun _ => ?_
    exact (semSetHasRowImproved hc).bind fun _ => .pure _

/-! ## Statements -/

/-- One pass over a loop. -/
theorem semLoopPass {improve : M Unit} {body : M Stmts} (hi : Tracks Γ .list improve) (hb : Tracks Γ .list body) :
    Tracks Γ lvl (CgSql.semLoopPass improve body) :=
  inJump (hi.bind fun _ => hb)

/-- Both passes. -/
theorem semBodyOfLoop {improve : M Unit} {body : M Stmts} {again : Stmts → M Stmts} (isNil : Bool)
    (hi : Tracks Γ .list improve) (hb : Tracks Γ .list body) (ha : ∀ b, Tracks Γ .list (again b)) :
    Tracks Γ lvl (CgSql.semBodyOfLoop isNil improve body again) := by
  unfold CgSql.semBodyOfLoop
  split
  · exact .pure _
  · refine deeper (get.bind fun _ => ?_)
    split
    · exact (withLoop _ (semLoopPass hi hb)).bind fun _ => withLoop _ (semLoopPass hi (ha _))
    · exact semLoopPass hi hb

/-- Control statements. -/
theorem semControl (k : Control) (isLast : Bool) : Tracks Γ lvl (CgSql.semControl k isLast) := by
  refine get.bind fun _ => ?_
  cases k with
  | leave => exact (require _).bind fun _ => require _
  | «continue» => exact (require _).bind fun _ => require _
  | «return» => exact require _
  | throw => exact require _

theorem semSwitchCoverage (allValues : Option (List Int)) (cases : SwitchCase) : Tracks Γ .group (CgSql.semSwitchCoverage allValues cases) := by
  refine (require _).bind fun _ => ?_
  split
  · exact (require _).bind fun _ => setCoversAllCases true
  · exact setCoversAllCases _

variable {again : Stmts → M Stmts}

/-- What is allowed of a statement is of a list. -/
theorem inStmts {t : Stmt} {m : M α} (h : Tracks Γ (if t.isControl then .list else .calm) m) : Tracks Γ .list m :=
  h.inList (by split <;> simp)

mutual

/-- Every statement, by induction. -/
theorem semOneStmtWith (ha : ∀ b, Tracks Γ .list (again b)) (isLast : Bool) :
    ∀ t : Stmt, Tracks Γ (if t.isControl then .list else .calm) (CgSql.semOneStmtWith Γ again isLast t)
  | .expr e => by unfold CgSql.semOneStmtWith; exact (free (semExpr e)).bind fun _ => .pure _
  | .write w => by unfold CgSql.semOneStmtWith; exact (semWrite w).bind fun _ => .pure _
  | .ifStmt c body alt => by
    unfold CgSql.semOneStmtWith
    refine (inBranchGroup ?_).bind fun p => ?_
    · refine (free (semExpr c)).bind fun c => (semBranchWith ha (semSetImprovementsForTrueCondition c) body).bind fun _ => ?_
      exact (semSetImprovementsForFalseCondition c).bind fun _ => (semIfAltWith ha alt).bind fun _ => .pure _
    · exact (semGuard _ _ _).bind fun _ => .pure _
  | .switchStmt allValues e cases => by
    unfold CgSql.semOneStmtWith
    refine withinSwitch ((free (semExpr e)).bind fun _ => (require _).bind fun _ => (inBranchGroup ?_).bind fun _ => .pure _)
    exact (semSwitchCasesWith ha allValues.isSome cases).bind fun _ => (semSwitchCoverage _ _).bind fun _ => .pure _
  | .whileStmt c body => by
    unfold CgSql.semOneStmtWith
    refine (free (semExpr c)).bind fun _ => ?_
    exact (semBodyOfLoop _ (semSetImprovementsForTrueCondition _) (semStmtListWith ha body) ha).bind fun _ => .pure _
  | .forStmt c update body => by
    unfold CgSql.semOneStmtWith
    refine (free (semExpr c)).bind fun _ => ?_
    refine (semBodyOfLoop _ (semSetImprovementsForTrueCondition _) (semStmtListWith ha body) ha).bind fun _ => ?_
    exact (inNormal (semStmtListWith ha update)).bind fun _ => .pure _
  | .loopStmt c into body => by
    unfold CgSql.semOneStmtWith
    refine (semWrite _).bind fun _ => (semBodyOfLoop _ ?_ (semStmtListWith ha body) ha).bind fun _ => .pure _
    split
    · exact semSetImprovementsForTrueCondition _
    · exact .pure _
  | .tryCatch body handler => by
    unfold CgSql.semOneStmtWith
    refine (inJump (semStmtListWith ha body)).bind fun _ => ?_
    change Tracks Γ .calm _
    split
    · exact .pure _
    · exact (inNormal (semStmtListWith ha handler)).bind fun _ => .pure _
  | .control k => by
    unfold CgSql.semOneStmtWith
    exact ((semControl k isLast).both (setAlwaysJumps true)).bind fun _ => .pure _

/-- Lists of statements. -/
theorem semStmtListWith (ha : ∀ b, Tracks Γ .list (again b)) : ∀ b : Stmts, Tracks Γ .list (CgSql.semStmtListWith Γ again b)
  | .nil => by unfold CgSql.semStmtListWith; exact .pure _
  | .cons t rest => by
    unfold CgSql.semStmtListWith
    exact ((semOneStmtWith ha _ t).inStmts.both (semStmtListWith ha rest)).bind fun _ => .pure _

/-- A branch. -/
theorem semBranchWith (ha : ∀ b, Tracks Γ .list (again b)) {improve : M Unit} (hi : Tracks Γ .list improve) :
    ∀ b : Stmts, Tracks Γ .group (CgSql.semBranchWith Γ again improve b)
  | .nil => by unfold CgSql.semBranchWith; exact addEmptyBranch.bind fun _ => .pure _
  | .cons t rest => by
    unfold CgSql.semBranchWith
    refine inBranch (hi.bind fun _ => ?_)
    exact ((semOneStmtWith ha _ t).inStmts.both (semStmtListWith ha rest)).bind fun _ => .pure _

/-- The rest of an IF. -/
theorem semIfAltWith (ha : ∀ b, Tracks Γ .list (again b)) : ∀ alt : IfAlt, Tracks Γ .group (CgSql.semIfAltWith Γ again alt)
  | .done => by unfold CgSql.semIfAltWith; exact .pure _
  | .orElse body => by
    unfold CgSql.semIfAltWith
    exact (setCoversAllCases true).bind fun _ => (semBranchWith ha (.pure ()) body).bind fun _ => .pure _
  | .elseIf c body rest => by
    unfold CgSql.semIfAltWith
    refine (free (semExpr c)).bind fun c => (semBranchWith ha (semSetImprovementsForTrueCondition c) body).bind fun _ => ?_
    exact (semSetImprovementsForFalseCondition c).bind fun _ => (semIfAltWith ha rest).bind fun _ => .pure _

/-- The cases of a SWITCH. -/
theorem semSwitchCasesWith (ha : ∀ b, Tracks Γ .list (again b)) (allValues : Bool) :
    ∀ cases : SwitchCase, Tracks Γ .group (CgSql.semSwitchCasesWith Γ again allValues cases)
  | .done => by unfold CgSql.semSwitchCasesWith; exact .pure _
  | .orElse body => by
    unfold CgSql.semSwitchCasesWith
    exact (inBranch ((require _).bind fun _ => semStmtListWith ha body)).bind fun _ => .pure _
  | .when values body rest => by
    unfold CgSql.semSwitchCasesWith
    refine (inBranch (semStmtListWith ha body)).bind fun _ => ?_
    exact (semSwitchCasesWith ha allValues rest).bind fun _ => .pure _

end

/-- Every analysis of a statement list is a run. -/
theorem semStmtList (b : Stmts) : Tracks Γ .list (CgSql.semStmtList Γ b) :=
  semStmtListWith (semStmtListWith fun _ => .pure _) b

theorem semTopStmt (isLast : Bool) : ∀ t : TopStmt, Tracks Γ .list (CgSql.semTopStmt Γ isLast t)
  | .createProc body => (inNormal (semStmtList body)).bind fun _ => .pure _
  | .stmt t => (semOneStmtWith (semStmtListWith fun _ => .pure _) isLast t).inStmts.bind fun _ => .pure _

/-- Every program. -/
theorem semTopStmts : ∀ program : List TopStmt, Tracks Γ .list (CgSql.semTopStmts Γ program)
  | [] => .pure _
  | t :: rest => ((semTopStmt _ t).both (semTopStmts rest)).bind fun _ => .pure _

end Tracks

end CgSql
