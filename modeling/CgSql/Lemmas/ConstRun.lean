import CgSql.ConstRun
import CgSql.Lemmas.EvalDefined

/-!
# Evaluation and run time

Operator by operator, exact evaluation goes the way of the run time where the operands have the types that `sem.c` gives them.
-/

namespace CgSql.Eval

variable {R : Type} (D : Doubles R)

/-! ## Types of values -/

/-- A value of type `t`, or none. -/
def Typed (v : Value R) (t : CoreType) : Prop := v.isError ∨ v.isNull ∨ v.coreType = some t

namespace RunAux

open DefinedAux

variable {v left right : Value R} {t tl tr : CoreType} {e : Expr R} {s : SemType}

/-- A number has its type. -/
theorem coreType_of_typed (h : Typed v t) (herror : v.isError = false) (hnull : v.isNull = false) : v.coreType = some t := by
  rcases h with h | h | h
  · rw [herror] at h
    nomatch h
  · rw [hnull] at h
    nomatch h
  · exact h

/-- A truth value is typed. -/
theorem typed_bool (b : Bool) : Typed (.bool b : Value R) .bool := Or.inr (Or.inr rfl)

/-- So is null. -/
theorem typed_null (t : CoreType) : Typed (.null : Value R) t := Or.inr (Or.inl rfl)

/-- And an error. -/
theorem typed_error (t : CoreType) : Typed (.error : Value R) t := Or.inl rfl

/-- A conversion to the type of the value changes nothing. -/
theorem exactCast_self (h : v.coreType = some t) : exactCast D v t = v := by
  cases v with
  | error => nomatch h
  | _ =>
    obtain rfl := Option.some.inj h
    rfl

/-- Nor does the promotion of a value of that type. -/
theorem promote_of_typed (h : Typed v t) : promote D v t = v := by
  unfold promote
  split
  · rfl
  · rename_i hnumber
    simp only [Bool.or_eq_true, not_or, Bool.not_eq_true] at hnumber
    exact exactCast_self D (coreType_of_typed h hnumber.1 hnumber.2)

/-- The core type of an accepted expression. -/
theorem coreOf_eq (h : semType e = some s) : coreOf e = s.core := by
  unfold coreOf
  rw [h]
  rfl

/-! ## Operators -/

/-- The type of arithmetic on numbers that are not both truth values. -/
theorem core_of_math {op : MathOp} {l r : SemType} (h : semBinaryMath op l r = some s) (hl : l.core ≠ .null)
    (hr : r.core ≠ .null) (hbool : ¬(l.core = .bool ∧ r.core = .bool)) : s.core = combineCores l.core r.core ∧ s.core ≠ .bool := by
  obtain ⟨lc, ln⟩ := l
  obtain ⟨rc, rn⟩ := r
  unfold semBinaryMath at h
  dsimp only at h
  have hcombine : (semCombineTypes ⟨lc, ln⟩ ⟨rc, rn⟩).core = combineCores lc rc := rfl
  have hne : combineCores lc rc ≠ .bool := by
    cases lc <;> cases rc <;> first | decide | exact absurd rfl hl | exact absurd rfl hr | exact absurd ⟨rfl, rfl⟩ hbool
  simp only [hcombine, if_neg hne] at h
  split at h
  · nomatch h
  · obtain rfl := Option.some.inj h
    exact ⟨hcombine, hne⟩

/-- The operator on numbers. -/
theorem number_agrees (op : MathOp) (hl : left.coreType = some tl)
    (hr : right.coreType = some tr) (hln : left.isNull = false) (hrn : right.isNull = false) (hbool : combineCores tl tr ≠ .bool) :
    exactNumber D op left right = runNumber D op (combineCores tl tr) left right ∧
      (exactNumber D op left right).coreType = some (combineCores tl tr) := by
  cases left with
  | error => nomatch hl
  | null => nomatch hln
  | _ =>
    obtain rfl := Option.some.inj hl
    cases right with
    | error => nomatch hr
    | null => nomatch hrn
    | _ =>
      obtain rfl := Option.some.inj hr
      first | exact ⟨rfl, rfl⟩ | exact absurd rfl hbool

/-- A number is not of type null. -/
theorem ne_null_of_coreType (h : v.coreType = some t) (hnull : v.isNull = false) : t ≠ .null := by
  rintro rfl
  cases v with
  | null => nomatch hnull
  | _ => nomatch h

/-- Arithmetic that is not on two truth values. -/
theorem math_agrees {op : MathOp} {l r : SemType} (hl : Typed left l.core) (hr : Typed right r.core)
    (h : semBinaryMath op l r = some s) (hbool : left.isNull ∨ right.isNull ∨ ¬(l.core = .bool ∧ r.core = .bool)) :
    exactMath D op left right = runMath D op s.core left right ∧ Typed (exactMath D op left right) s.core := by
  unfold exactMath runMath
  by_cases herror : (left.isError || right.isError) = true
  · rw [if_pos herror, if_pos herror]
    exact ⟨rfl, typed_error _⟩
  · rw [if_neg herror, if_neg herror]
    by_cases hnull : (left.isNull || right.isNull) = true
    · rw [if_pos hnull, if_pos hnull]
      exact ⟨rfl, typed_null _⟩
    · rw [if_neg hnull, if_neg hnull]
      by_cases hzero : (op.isDivision && right.isZero D) = true
      · rw [if_pos hzero, if_pos hzero]
        exact ⟨rfl, typed_error _⟩
      · rw [if_neg hzero, if_neg hzero]
        simp only [Bool.or_eq_true, not_or, Bool.not_eq_true] at herror hnull
        have htl := coreType_of_typed hl herror.1 hnull.1
        have htr := coreType_of_typed hr herror.2 hnull.2
        obtain ⟨hcore, hne⟩ := core_of_math h (ne_null_of_coreType htl hnull.1) (ne_null_of_coreType htr hnull.2)
          (by simpa [hnull.1, hnull.2] using hbool)
        rw [hcore] at hne ⊢
        obtain ⟨heq, htype⟩ := number_agrees D op htl htr hnull.1 hnull.2 hne
        exact ⟨heq, Or.inr (Or.inr htype)⟩

/-- The comparison of numbers. -/
theorem rel_agrees (op : CompareOp) (hl : Typed left tl) (hr : Typed right tr)
    (hle : left.isError = false) (hre : right.isError = false) (hln : left.isNull = false) (hrn : right.isNull = false) :
    exactRel D op left right = runRel D op (combineCores tl tr) left right := by
  have htl := coreType_of_typed hl hle hln
  have htr := coreType_of_typed hr hre hrn
  cases left with
  | error => nomatch hle
  | null => nomatch hln
  | _ =>
    obtain rfl := Option.some.inj htl
    cases right with
    | error => nomatch hre
    | null => nomatch hrn
    | _ =>
      obtain rfl := Option.some.inj htr
      rfl

/-- Comparisons. -/
theorem compare_agrees (op : CompareOp) (hl : Typed left tl) (hr : Typed right tr) :
    exactCompare D op left right = runCompare D op (combineCores tl tr) left right := by
  unfold exactCompare runCompare
  split
  · rfl
  · split
    · rfl
    · rename_i herror hnull
      simp only [Bool.or_eq_true, not_or, Bool.not_eq_true] at herror hnull
      rw [rel_agrees D op hl hr herror.1 herror.2 hnull.1 hnull.2]

/-- `IS`. -/
theorem is_agrees (hl : Typed left tl) (hr : Typed right tr) : exactIs D left right = runIs D (combineCores tl tr) left right := by
  unfold exactIs runIs
  split
  · rfl
  · split
    · rfl
    · rename_i herror hnull
      simp only [Bool.or_eq_true, not_or, Bool.not_eq_true] at herror hnull
      rw [rel_agrees D .eq hl hr herror.1 herror.2 hnull.1 hnull.2]

/-- The equality of a `CASE`, where there is no error. -/
theorem equal_agrees (hl : Typed left tl) (hr : Typed right tr) (hle : left.isError = false) (hre : right.isError = false) :
    exactEqual D left right = runEqual D (combineCores tl tr) left right := by
  unfold exactEqual runEqual
  cases hrn : right.isNull with
  | true => rfl
  | false =>
    cases hln : left.isNull with
    | true => rfl
    | false => rw [rel_agrees D .eq hl hr hle hre hln hrn]

/-- A value is null, or it is zero or true. -/
theorem truth_eq (herror : v.isError = false) : v.truth D = if v.isNull then none else some (!v.isZero D) := by
  unfold Value.truth Value.isZero
  cases hnull : v.isNull with
  | true => rfl
  | false => simp [herror]

/-- A null is not true. -/
theorem isTrue_of_isNull (h : v.isNull = true) : v.isTrue D = false := by
  cases v with
  | null => rfl
  | _ => nomatch h

/-- `AND` follows its table. -/
theorem and_agrees (left right : Value R) : exactAnd D left right = runAnd D left right := by
  unfold exactAnd runAnd
  split
  · rfl
  · rename_i hle
    rw [Bool.not_eq_true] at hle
    split
    · rfl
    · rename_i hlz
      rw [Bool.not_eq_true] at hlz
      split
      · rfl
      · rename_i hre
        rw [Bool.not_eq_true] at hre
        rw [truth_eq D hle, truth_eq D hre, hlz]
        cases hrz : right.isZero D with
        | true =>
          have hrn : right.isNull = false := by
            cases right with
            | null => nomatch hrz
            | _ => rfl
          rw [hrn]
          cases left.isNull <;> rfl
        | false => cases right.isNull <;> cases left.isNull <;> rfl

/-- `OR` follows its table. -/
theorem or_agrees (left right : Value R) : exactOr D left right = runOr D left right := by
  unfold exactOr runOr Value.truth
  split
  · rfl
  · split
    · rfl
    · rename_i hlt
      rw [Bool.not_eq_true] at hlt
      split
      · rfl
      · rw [hlt]
        cases hrt : right.isTrue D with
        | true =>
          have hrn : right.isNull = false := by
            cases right with
            | null => nomatch hrt
            | _ => rfl
          rw [hrn]
          cases left.isNull <;> rfl
        | false => cases right.isNull <;> cases left.isNull <;> rfl

/-- Where the left operand decides, the right one does not matter. -/
theorem and_of_isZero (h : left.isZero D = true) (right right' : Value R) : exactAnd D left right = exactAnd D left right' := by
  unfold exactAnd
  rw [if_pos h, if_pos h]

/-- The same of `OR`. -/
theorem or_of_isTrue (h : left.isTrue D = true) (right right' : Value R) : exactOr D left right = exactOr D left right' := by
  unfold exactOr
  rw [if_pos h, if_pos h]

/-- The truth value is true. -/
theorem decide_truth_true (v : Value R) : decide (v.truth D = some true) = v.isTrue D := by
  unfold Value.truth
  cases hnull : v.isNull with
  | true => rw [isTrue_of_isNull D hnull]; rfl
  | false => simp

/-- The truth value is false. -/
theorem decide_truth_false (h : v.isError = false) : decide (v.truth D = some false) = v.isZero D := by
  rw [truth_eq D h]
  cases hnull : v.isNull with
  | true => simp [Value.isZero, hnull]
  | false => simp

/-- The tests for truth values. -/
theorem test_agrees {op : UnaryOp} {t : SemType} (hop : op ≠ .not ∧ op ≠ .tilde ∧ op ≠ .uminus)
    (h : semUnary op t = some s) : exactUnary D op v = runUnary D op s.core v ∧ Typed (exactUnary D op v) s.core := by
  unfold exactUnary runUnary
  by_cases herror : v.isError = true
  · rw [if_pos herror, if_pos herror]
    cases v with
    | error => exact ⟨rfl, typed_error _⟩
    | _ => nomatch herror
  · rw [if_neg herror, if_neg herror]
    rw [Bool.not_eq_true] at herror
    cases op with
    | not => exact absurd rfl hop.1
    | tilde => exact absurd rfl hop.2.1
    | uminus => exact absurd rfl hop.2.2
    | isTrue =>
      obtain rfl := Option.some.inj h
      exact ⟨congrArg Value.bool (decide_truth_true D v).symm, typed_bool _⟩
    | isFalse =>
      obtain rfl := Option.some.inj h
      exact ⟨congrArg Value.bool (decide_truth_false D herror).symm, typed_bool _⟩
    | isNotTrue =>
      obtain rfl := Option.some.inj h
      have hnot : (!v.isTrue D) = decide (v.truth D ≠ some true) := by rw [← decide_truth_true D v, decide_not]
      exact ⟨congrArg Value.bool hnot, typed_bool _⟩
    | isNotFalse =>
      obtain rfl := Option.some.inj h
      have hnot : (!v.isZero D) = decide (v.truth D ≠ some false) := by rw [← decide_truth_false D herror, decide_not]
      exact ⟨congrArg Value.bool hnot, typed_bool _⟩

/-- The unary operators. -/
theorem unary_agrees {op : UnaryOp} {t : SemType} (hv : Typed v t.core) (h : semUnary op t = some s) :
    exactUnary D op v = runUnary D op s.core v ∧ Typed (exactUnary D op v) s.core := by
  cases op with
  | not =>
    obtain rfl := Option.some.inj h
    cases v with
    | error => exact ⟨rfl, typed_error _⟩
    | null => exact ⟨rfl, typed_null _⟩
    | _ => exact ⟨rfl, typed_bool _⟩
  | tilde =>
    obtain ⟨tc, tn⟩ := t
    cases v with
    | error => exact ⟨rfl, typed_error _⟩
    | null => exact ⟨rfl, typed_null _⟩
    | real r =>
      obtain rfl := Option.some.inj (coreType_of_typed hv rfl rfl)
      nomatch h
    | _ =>
      obtain rfl := Option.some.inj (coreType_of_typed hv rfl rfl)
      obtain rfl := Option.some.inj h
      exact ⟨rfl, Or.inr (Or.inr rfl)⟩
  | uminus =>
    obtain ⟨tc, tn⟩ := t
    obtain rfl := Option.some.inj h
    cases v with
    | error => exact ⟨rfl, typed_error _⟩
    | null => exact ⟨rfl, typed_null _⟩
    | _ =>
      obtain rfl := Option.some.inj (coreType_of_typed hv rfl rfl)
      exact ⟨rfl, Or.inr (Or.inr rfl)⟩
  | _ => exact test_agrees D (by decide) h

/-- A truth value as a value is typed. -/
theorem typed_ofTruth (b : Option Bool) : Typed (ofTruth b : Value R) .bool := by
  cases b with
  | none => exact typed_null _
  | some b => exact typed_bool b

/-- The result of `AND` is a truth value. -/
theorem typed_runAnd (left right : Value R) : Typed (runAnd D left right) .bool := by
  unfold runAnd
  repeat' split
  · exact typed_error _
  · exact typed_bool _
  · exact typed_error _
  · exact typed_ofTruth _

/-- The same of `OR`. -/
theorem typed_runOr (left right : Value R) : Typed (runOr D left right) .bool := by
  unfold runOr
  repeat' split
  · exact typed_error _
  · exact typed_bool _
  · exact typed_error _
  · exact typed_ofTruth _

/-- The same of a comparison. -/
theorem typed_runCompare (op : CompareOp) (t : CoreType) (left right : Value R) : Typed (runCompare D op t left right) .bool := by
  unfold runCompare
  repeat' split
  · exact typed_error _
  · exact typed_null _
  · exact typed_bool _

/-- The same of `IS`. -/
theorem typed_runIs (t : CoreType) (left right : Value R) : Typed (runIs D t left right) .bool := by
  unfold runIs
  repeat' split
  · exact typed_error _
  · exact typed_bool _
  · exact typed_bool _

/-- The same of `IS NOT`. -/
theorem typed_runIsNot (t : CoreType) (left right : Value R) : Typed (runIsNot D t left right) .bool := by
  have h := typed_runIs D t left right
  unfold runIsNot
  cases hv : runIs D t left right with
  | bool b => exact typed_bool _
  | _ => rw [hv] at h; exact h

/-- A conversion has the type that it converts to. -/
theorem typed_promote (v : Value R) (ht : t ≠ .null) : Typed (promote D v t) t := by
  unfold promote
  split
  · rename_i h
    rcases Bool.or_eq_true_iff.mp h with h | h
    · exact Or.inl h
    · exact Or.inr (Or.inl h)
  · cases t with
    | null => exact absurd rfl ht
    | _ => cases v <;> exact Or.inr (Or.inr rfl)

/-! ## Expressions -/

/-- The parts of an accepted list of branches. -/
theorem semCaseList_when {pending : Option SemType} {w : Expr R} {rest : CaseList R} (h : semCaseList pending (.when w e rest) = some s) :
    (∃ tw, semType w = some tw) ∧ (∃ te, semType e = some te) ∧ ∃ pending', semCaseList pending' rest = some s := by
  obtain ⟨tw, hw, h⟩ := Option.bind_eq_some_iff.mp (show (semType w).bind _ = some s from h)
  obtain ⟨te, he, h⟩ := Option.bind_eq_some_iff.mp (show (semType e).bind _ = some s from h)
  by_cases hnull : tw.core = .null
  · rw [if_pos hnull] at h
    nomatch h
  · rw [if_neg hnull] at h
    exact ⟨⟨tw, hw⟩, ⟨te, he⟩, _, h⟩

/-- The `ELSE` of an accepted list. -/
theorem semCaseList_otherwise {pending : Option SemType} (h : semCaseList pending (.otherwise e) = some s) : ∃ te, semType e = some te := by
  obtain ⟨te, he, _⟩ := Option.bind_eq_some_iff.mp (show (semType e).bind _ = some s from h)
  exact ⟨te, he⟩

/-- A branch that needs no conversion has the type of the `CASE`. -/
theorem typed_branch {t : SemType} {type : CoreType} (he : semType e = some t) (hfits : BranchFits D type e)
    (h : Typed (run D e) t.core) : Typed (run D e) type := by
  rcases hfits with hnull | hcore
  · exact Or.inr (Or.inl hnull)
  · rw [← hcore, coreOf_eq he]
    exact h

theorem core_of_checked {p : Prop} [Decidable p] {notnull : Bool} (h : (if p then none else some ⟨.bool, notnull⟩) = some s) : s.core = .bool := by
  split at h
  · nomatch h
  · rw [← Option.some.inj h]

theorem operands_of_semType {left right : Expr R} {k : SemType → SemType → Option SemType}
    (h : ((semType left).bind fun l => (semType right).bind (k l)) = some s) :
    ∃ l r, semType left = some l ∧ semType right = some r ∧ k l r = some s := by
  obtain ⟨l, hl, h⟩ := Option.bind_eq_some_iff.mp h
  obtain ⟨r, hr, h⟩ := Option.bind_eq_some_iff.mp h
  exact ⟨l, r, hl, hr, h⟩

mutual

/-- On a regular expression exact evaluation has the value of the run time, in the type that `sem.c` gives it. -/
theorem exact_agrees : ∀ (e : Expr R) {s : SemType}, semType e = some s → Regular D e → exact D e = run D e ∧ Typed (run D e) s.core
  | .null, _, h, _ => ⟨rfl, typed_null _⟩
  | .boolNum _, _, h, _ => by
    obtain rfl := Option.some.inj h
    exact ⟨rfl, typed_bool _⟩
  | .intNum _, _, h, _ => by
    obtain rfl := Option.some.inj h
    exact ⟨rfl, Or.inr (Or.inr rfl)⟩
  | .longNum _, _, h, _ => by
    obtain rfl := Option.some.inj h
    exact ⟨rfl, Or.inr (Or.inr rfl)⟩
  | .minLong, _, h, _ => by
    obtain rfl := Option.some.inj h
    exact ⟨rfl, Or.inr (Or.inr rfl)⟩
  | .realNum _, _, h, _ => by
    obtain rfl := Option.some.inj h
    exact ⟨rfl, Or.inr (Or.inr rfl)⟩
  | .math op left right, s, h, hreg => by
    obtain ⟨l, r, hl, hr, hmath⟩ := operands_of_semType h
    obtain ⟨hel, htl⟩ := exact_agrees left hl hreg.1
    obtain ⟨her, htr⟩ := exact_agrees right hr hreg.2.1
    have hbool := hreg.2.2
    rw [coreOf_eq hl, coreOf_eq hr] at hbool
    obtain ⟨heq, htype⟩ := math_agrees D htl htr hmath hbool
    have hrun : run D (.math op left right) = runMath D op s.core (run D left) (run D right) := by
      rw [← coreOf_eq h]
      rfl
    rw [hrun, ← heq]
    refine ⟨?_, htype⟩
    rw [← hel, ← her]
    rfl
  | .compare op left right, s, h, hreg => by
    obtain ⟨l, r, hl, hr, hs⟩ := operands_of_semType h
    obtain ⟨hel, htl⟩ := exact_agrees left hl hreg.1
    obtain ⟨her, htr⟩ := exact_agrees right hr hreg.2
    rw [core_of_checked hs]
    refine ⟨?_, typed_runCompare D op _ _ _⟩
    show exactCompare D op (exact D left) (exact D right) = runCompare D op _ _ _
    rw [hel, her, coreOf_eq hl, coreOf_eq hr]
    exact compare_agrees D op htl htr
  | .is left right, s, h, hreg => by
    obtain ⟨l, r, hl, hr, hs⟩ := operands_of_semType h
    obtain ⟨hel, htl⟩ := exact_agrees left hl hreg.1
    obtain ⟨her, htr⟩ := exact_agrees right hr hreg.2
    rw [core_of_checked hs]
    refine ⟨?_, typed_runIs D _ _ _⟩
    show exactIs D (exact D left) (exact D right) = runIs D _ _ _
    rw [hel, her, coreOf_eq hl, coreOf_eq hr]
    exact is_agrees D htl htr
  | .isNot left right, s, h, hreg => by
    obtain ⟨l, r, hl, hr, hs⟩ := operands_of_semType h
    obtain ⟨hel, htl⟩ := exact_agrees left hl hreg.1
    obtain ⟨her, htr⟩ := exact_agrees right hr hreg.2
    rw [core_of_checked hs]
    refine ⟨?_, typed_runIsNot D _ _ _⟩
    show exactIsNot D (exact D left) (exact D right) = runIsNot D _ _ _
    unfold exactIsNot runIsNot
    rw [hel, her, coreOf_eq hl, coreOf_eq hr, is_agrees D htl htr]
  | .and left right, s, h, hreg => by
    obtain ⟨l, r, hl, hr, hs⟩ := operands_of_semType h
    obtain ⟨hel, _⟩ := exact_agrees left hl hreg.1
    rw [← Option.some.inj hs]
    refine ⟨?_, typed_runAnd D _ _⟩
    show exactAnd D (exact D left) (exact D right) = runAnd D (run D left) (run D right)
    rw [hel]
    rcases hreg.2 with hzero | hregr
    · rw [and_of_isZero D hzero _ (run D right)]
      exact and_agrees D _ _
    · rw [(exact_agrees right hr hregr).1]
      exact and_agrees D _ _
  | .or left right, s, h, hreg => by
    obtain ⟨l, r, hl, hr, hs⟩ := operands_of_semType h
    obtain ⟨hel, _⟩ := exact_agrees left hl hreg.1
    rw [← Option.some.inj hs]
    refine ⟨?_, typed_runOr D _ _⟩
    show exactOr D (exact D left) (exact D right) = runOr D (run D left) (run D right)
    rw [hel]
    rcases hreg.2 with htrue | hregr
    · rw [or_of_isTrue D htrue _ (run D right)]
      exact or_agrees D _ _
    · rw [(exact_agrees right hr hregr).1]
      exact or_agrees D _ _
  | .unary op operand, s, h, hreg => by
    obtain ⟨t, ht, hs⟩ := Option.bind_eq_some_iff.mp (show (semType operand).bind _ = some s from h)
    obtain ⟨heq, htype⟩ := exact_agrees operand ht hreg
    obtain ⟨hunary, htyped⟩ := unary_agrees D htype hs
    have hrun : run D (.unary op operand) =
        if op = .uminus ∧ operand.isMinLong then .long (-2 ^ 63) else runUnary D op s.core (run D operand) := by
      rw [← coreOf_eq h]
      rfl
    rw [hrun, exact_unary, heq]
    by_cases hmin : op = .uminus ∧ operand.isMinLong
    · rw [if_pos hmin, if_pos hmin]
      refine ⟨rfl, ?_⟩
      obtain ⟨rfl, hmin⟩ := hmin
      cases operand with
      | minLong =>
        obtain rfl := Option.some.inj ht
        obtain rfl := Option.some.inj hs
        exact Or.inr (Or.inr rfl)
      | _ => nomatch hmin
    · rw [if_neg hmin, if_neg hmin, ← hunary]
      exact ⟨rfl, htyped⟩
  | .cast operand t, s, h, hreg => by
    obtain ⟨s', hs', hbind⟩ := Option.bind_eq_some_iff.mp (show (semType operand).bind _ = some s from h)
    obtain ⟨heq, _⟩ := exact_agrees operand hs' hreg
    by_cases ht : t = .null
    · rw [if_pos ht] at hbind
      nomatch hbind
    · rw [if_neg ht] at hbind
      rw [← Option.some.inj hbind]
      refine ⟨?_, typed_promote D _ ht⟩
      show promote D (exact D operand) t = promote D (run D operand) t
      rw [heq]
  | .caseOf test list, s, h, hreg => by
    obtain ⟨tt, ht, hlist⟩ := Option.bind_eq_some_iff.mp (show (semType test).bind _ = some s from h)
    obtain ⟨het, htt⟩ := exact_agrees test ht hreg.1
    have hrun : run D (.caseOf test list) =
        if (run D test).isError then .error else promote D (runCaseOf D tt.core (run D test) list) s.core := by
      rw [← coreOf_eq h, ← coreOf_eq ht]
      rfl
    rw [hrun, exact_caseOf, het]
    by_cases herror : (run D test).isError = true
    · rw [if_pos herror, if_pos herror]
      exact ⟨rfl, typed_error _⟩
    · rw [if_neg herror, if_neg herror]
      have hreglist := hreg.2
      rw [coreOf_eq h, coreOf_eq ht] at hreglist
      obtain ⟨heq, htype⟩ := caseOf_agrees s.core htt (Bool.not_eq_true _ ▸ herror) list hlist hreglist
      rw [promote_of_typed D htype]
      exact ⟨heq, htype⟩
  | .caseWhen list, s, h, hreg => by
    have hlist := caseWhen_agrees (coreOf (.caseWhen list)) list h hreg
    have hrun : run D (.caseWhen list) = promote D (runCaseWhen D list) (coreOf (.caseWhen list)) := rfl
    rw [hrun, promote_of_typed D hlist.2]
    exact ⟨hlist.1, coreOf_eq h ▸ hlist.2⟩
  | .other _, _, _, _ => ⟨rfl, typed_error _⟩

/-- So do the branches of a `CASE` with a test expression. -/
theorem caseOf_agrees (type : CoreType) {t : CoreType} {test : Value R} (htest : Typed test t) (herror : test.isError = false) :
    ∀ (list : CaseList R) {pending : Option SemType} {s : SemType}, semCaseList pending list = some s → RegularCaseOf D type t test list →
      exactCaseOf D test list = runCaseOf D t test list ∧ Typed (runCaseOf D t test list) type
  | .when w e rest, _, s, h, hreg => by
    obtain ⟨⟨tw, hw⟩, ⟨te, he⟩, pending', hrest⟩ := semCaseList_when h
    obtain ⟨hew, htw⟩ := exact_agrees w hw hreg.1
    have htaken := hreg.2
    unfold exactCaseOf runCaseOf
    rw [hew]
    by_cases herrorw : (run D w).isError = true
    · rw [if_pos herrorw, if_pos herrorw]
      exact ⟨rfl, typed_error _⟩
    · rw [if_neg herrorw, if_neg herrorw]
      rw [coreOf_eq hw] at htaken ⊢
      rw [equal_agrees D htest htw herror (Bool.not_eq_true _ ▸ herrorw)]
      by_cases hequal : runEqual D (combineCores t tw.core) test (run D w) = true
      · rw [if_pos hequal] at htaken
        rw [if_pos hequal, if_pos hequal]
        obtain ⟨heq, htype⟩ := exact_agrees e he htaken.1
        exact ⟨heq, typed_branch D he htaken.2 htype⟩
      · rw [if_neg hequal] at htaken
        rw [if_neg hequal, if_neg hequal]
        exact caseOf_agrees type htest herror rest hrest htaken
  | .otherwise e, _, _, h, hreg => by
    obtain ⟨te, he⟩ := semCaseList_otherwise h
    obtain ⟨heq, htype⟩ := exact_agrees e he hreg.1
    exact ⟨heq, typed_branch D he hreg.2 htype⟩
  | .done, _, _, _, _ => ⟨rfl, typed_null _⟩

/-- And those of a `CASE` without one. -/
theorem caseWhen_agrees (type : CoreType) : ∀ (list : CaseList R) {pending : Option SemType} {s : SemType}, semCaseList pending list = some s →
      RegularCaseWhen D type list →
      exactCaseWhen D list = runCaseWhen D list ∧ Typed (runCaseWhen D list) type
  | .when w e rest, _, s, h, hreg => by
    obtain ⟨⟨tw, hw⟩, ⟨te, he⟩, pending', hrest⟩ := semCaseList_when h
    obtain ⟨hew, _⟩ := exact_agrees w hw hreg.1
    have htaken := hreg.2
    unfold exactCaseWhen runCaseWhen
    rw [hew]
    by_cases herror : (run D w).isError = true
    · rw [if_pos herror, if_pos herror]
      exact ⟨rfl, typed_error _⟩
    · rw [if_neg herror, if_neg herror]
      by_cases htrue : (run D w).isTrue D = true
      · rw [if_pos htrue] at htaken
        rw [if_pos htrue, if_pos htrue]
        obtain ⟨heq, htype⟩ := exact_agrees e he htaken.1
        exact ⟨heq, typed_branch D he htaken.2 htype⟩
      · rw [if_neg htrue] at htaken
        rw [if_neg htrue, if_neg htrue]
        exact caseWhen_agrees type rest hrest htaken
  | .otherwise e, _, _, h, hreg => by
    obtain ⟨te, he⟩ := semCaseList_otherwise h
    obtain ⟨heq, htype⟩ := exact_agrees e he hreg.1
    exact ⟨heq, typed_branch D he hreg.2 htype⟩
  | .done, _, _, _, _ => ⟨rfl, typed_null _⟩

end

end RunAux

end CgSql.Eval
