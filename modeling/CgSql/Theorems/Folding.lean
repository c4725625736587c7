import CgSql.Lemmas.ConstRun
import CgSql.Theorems.EvalDefined

/-!
# Constant folding

The literal that replaces a constant expression is what the expression is at run time, where nothing computed in it is arithmetic on two
truth values or a branch of a `CASE` that needs a conversion, and the value has a literal. Elsewhere some computed part has a wrong one.
-/

namespace CgSql.Eval

open Outcome DefinedAux RunAux

variable {R : Type} (D : Doubles R)

namespace FoldAux

variable {e : Expr R} {literal v left right : Value R}

/-! ## The literal -/

/-- `sem_expr_const` reports nothing: the expression is accepted, its evaluation is defined, and is no error. -/
def Evaluates (e : Expr R) : Prop := (∃ s, semType e = some s) ∧ Stays D e ∧ (exact D e).isError = false

/-- The literal that replaces an expression. -/
theorem semExprConst_eq_some : semExprConst D e = some literal ↔ Evaluates D e ∧ evalSet D (exact D e) = some literal := by
  constructor
  · intro h
    obtain ⟨s, hs, h⟩ := Option.bind_eq_some_iff.mp (show (semType e).bind _ = some literal from h)
    obtain ⟨v, hv, h⟩ := Option.bind_eq_some_iff.mp (show (eval D e).bind _ = some literal from h)
    obtain ⟨hstays, rfl⟩ := eq_of_some (eval_gives D e) hv
    by_cases herror : (exact D e).isError = true
    · rw [if_pos herror] at h
      nomatch h
    · rw [if_neg herror] at h
      exact ⟨⟨⟨s, hs⟩, hstays, Bool.not_eq_true _ ▸ herror⟩, h⟩
  · rintro ⟨⟨⟨s, hs⟩, hstays, herror⟩, hset⟩
    rcases eval_gives D e with ⟨_, he⟩ | ⟨hnot, _⟩
    · simp only [semExprConst, hs, he, Option.bind_eq_bind, Option.bind_some, herror, Bool.false_eq_true, if_false, hset]
    · exact absurd hstays hnot

/-- There is a literal for every value. -/
theorem evalSet_isSome (h : v.isError = false) : ∃ literal, evalSet D v = some literal := by
  cases v with
  | error => nomatch h
  | _ => exact ⟨_, rfl⟩

/-- It has the type of the value. -/
theorem coreType_evalSet (h : evalSet D v = some literal) : literal.coreType = v.coreType := by
  cases v with
  | error => nomatch h
  | _ =>
    obtain rfl := Option.some.inj h
    rfl

/-- It is the value, but for the digits of a double. -/
theorem evalSet_eq (h : evalSet D v = some literal) (hprinted : ∀ r, v = .real r → D.printed r = r) : literal = v := by
  cases v with
  | error => nomatch h
  | real r =>
    obtain rfl := Option.some.inj h
    exact congrArg Value.real (hprinted r rfl)
  | _ =>
    obtain rfl := Option.some.inj h
    rfl

/-- On a regular expression the literal is right if and only if it can be printed. -/
theorem foldsTo_iff_printable (h : Evaluates D e) (hset : evalSet D (exact D e) = some literal)
    (hreg : Regular D e) : FoldsTo D e literal ↔ Printable D e := by
  obtain ⟨⟨s, hs⟩, _, herror⟩ := h
  obtain ⟨heq, htype⟩ := exact_agrees D e hs hreg
  rw [heq] at hset herror
  constructor
  · rintro ⟨hcore, hvalue⟩
    rw [coreType_evalSet D hset] at hcore
    refine ⟨fun hnull => ?_, fun r hr => ?_⟩
    · cases hv : run D e with
      | null =>
        rw [hv] at hcore
        exact (Option.some.inj hcore).symm
      | _ =>
        rw [hv] at hnull
        nomatch hnull
    · rw [hr] at hset
      rw [← Option.some.inj hset, hr] at hvalue
      exact Value.real.inj hvalue
  · rintro ⟨hnull, hprinted⟩
    refine ⟨?_, evalSet_eq D hset hprinted⟩
    rw [coreType_evalSet D hset]
    by_cases hn : (run D e).isNull = true
    · rw [hnull hn]
      cases hv : run D e with
      | null => rfl
      | _ =>
        rw [hv] at hn
        nomatch hn
    · rw [coreOf_eq hs]
      exact coreType_of_typed htype herror (Bool.not_eq_true _ ▸ hn)

/-! ## The computed parts -/

/-- The computed parts of an expression fold right. -/
def AllFold (es : List (Expr R)) : Prop :=
  ∀ e ∈ es, ∀ literal, Evaluates D e → evalSet D (exact D e) = some literal → FoldsTo D e literal

/-- Those of two lists together. -/
theorem allFold_append {xs ys : List (Expr R)} : AllFold D (xs ++ ys) ↔ AllFold D xs ∧ AllFold D ys := by
  constructor
  · exact fun h => ⟨fun e he => h e (List.mem_append_left _ he), fun e he => h e (List.mem_append_right _ he)⟩
  · rintro ⟨hxs, hys⟩ e he
    exact (List.mem_append.mp he).elim (hxs e) (hys e)

/-- The first of them. -/
theorem coreType_of_allFold (es : List (Expr R)) (h : AllFold D (e :: es)) (he : Evaluates D e) : (exact D e).coreType = some (coreOf e) := by
  obtain ⟨literal, hset⟩ := evalSet_isSome D he.2.2
  rw [← coreType_evalSet D hset]
  exact (h e List.mem_cons_self literal he hset).1

/-- The others. -/
theorem allFold_tail (es : List (Expr R)) (h : AllFold D (e :: es)) : AllFold D es :=
  fun e' he' => h e' (List.mem_cons_of_mem _ he')

/-- Arithmetic on two truth values gives one. -/
theorem coreType_bools {op : MathOp} (hl : left.coreType = some .bool) (hr : right.coreType = some .bool)
    (herror : (exactMath D op left right).isError = false) : (exactMath D op left right).coreType = some .bool := by
  cases left with
  | bool a =>
    cases right with
    | bool b =>
      have heq : exactMath D op (.bool a) (.bool b) =
          if op.isDivision && Value.isZero D (.bool b) then .error else .bool (op.exact 32 (bit a) (bit b) ≠ 0) := rfl
      rw [heq] at herror ⊢
      split at herror
      · nomatch herror
      · rename_i hzero
        rw [if_neg hzero]
        rfl
    | _ => nomatch hr
  | _ => nomatch hl

/-- `sem.c` takes it for an integer. -/
theorem core_of_bools {op : MathOp} {l r s : SemType} (h : semBinaryMath op l r = some s) (hl : l.core = .bool)
    (hr : r.core = .bool) : s.core = .integer := by
  obtain ⟨lc, ln⟩ := l
  obtain ⟨rc, rn⟩ := r
  obtain rfl : lc = .bool := hl
  obtain rfl : rc = .bool := hr
  cases op <;> exact (congrArg SemType.core (Option.some.inj h)).symm

/-- Both operands of an operator have a value. -/
theorem operands_no_error (h : (if left.isError || right.isError then .error else v : Value R).isError = false) :
    left.isError = false ∧ right.isError = false := by
  split at h
  · nomatch h
  · rename_i herror
    simpa only [Bool.or_eq_true, not_or, Bool.not_eq_true] using herror

/-- `IS NOT` has a value where `IS` has. -/
theorem isError_invert (v : Value R) : v.invert.isError = v.isError := by
  cases v <;> rfl

/-- So do the operands of `AND`, as far as they are computed. -/
theorem and_no_error (h : (exactAnd D left right).isError = false) : left.isError = false ∧ (¬left.isZero D = true → right.isError = false) := by
  unfold exactAnd at h
  split at h
  · nomatch h
  · rename_i hle
    refine ⟨Bool.not_eq_true _ ▸ hle, fun hzero => ?_⟩
    rw [if_neg hzero] at h
    split at h
    · nomatch h
    · rename_i hre
      exact Bool.not_eq_true _ ▸ hre

/-- And those of `OR`. -/
theorem or_no_error (h : (exactOr D left right).isError = false) : left.isError = false ∧ (¬left.isTrue D = true → right.isError = false) := by
  unfold exactOr at h
  split at h
  · nomatch h
  · rename_i hle
    refine ⟨Bool.not_eq_true _ ▸ hle, fun htrue => ?_⟩
    rw [if_neg htrue] at h
    split at h
    · nomatch h
    · rename_i hre
      exact Bool.not_eq_true _ ▸ hre

/-- So does the operand of a unary operator. -/
theorem unary_no_error {op : UnaryOp} (h : (exactUnary D op v).isError = false) : v.isError = false := by
  cases v with
  | error => nomatch h
  | _ => rfl

/-- A part that is computed is not an error. -/
theorem ne_error_of_isError (h : v.isError = false) : ¬v.isError = true := by
  rw [h]
  exact Bool.false_ne_true

/-- A branch whose value has the type of the `CASE` needs no conversion. -/
theorem branch_regular {te : SemType} {type : CoreType} (he : semType e = some te) (hstays : Stays D e)
    (htype : (exact D e).coreType = some type) (hreg : Evaluates D e → Regular D e) : Regular D e ∧ BranchFits D type e := by
  have herror : (exact D e).isError = false := by
    cases hv : exact D e with
    | error =>
      rw [hv] at htype
      nomatch htype
    | _ => rfl
  have hregular := hreg ⟨⟨te, he⟩, hstays, herror⟩
  obtain ⟨heq, htyped⟩ := exact_agrees D e he hregular
  rw [heq] at htype herror
  refine ⟨hregular, ?_⟩
  by_cases hnull : (run D e).isNull = true
  · exact Or.inl hnull
  · refine Or.inr ?_
    rw [coreType_of_typed htyped herror (Bool.not_eq_true _ ▸ hnull)] at htype
    rw [coreOf_eq he]
    exact Option.some.inj htype

theorem evaluates_operands {left right : Expr R} {s : SemType} {k : SemType → SemType → Option SemType}
    (hs : ((semType left).bind fun l => (semType right).bind (k l)) = some s) (hstays : Stays D left ∧ Stays D right)
    (herror : (exact D left).isError = false ∧ (exact D right).isError = false) (hfold : AllFold D (e :: (computed D left ++ computed D right))) :
    (Evaluates D left ∧ AllFold D (computed D left)) ∧ Evaluates D right ∧ AllFold D (computed D right) := by
  obtain ⟨l, r, hl, hr, _⟩ := operands_of_semType hs
  obtain ⟨hfoldl, hfoldr⟩ := (allFold_append D).mp (allFold_tail D _ hfold)
  exact ⟨⟨⟨⟨l, hl⟩, hstays.1, herror.1⟩, hfoldl⟩, ⟨⟨r, hr⟩, hstays.2, herror.2⟩, hfoldr⟩

mutual

/-- Where the computed parts fold right, the expression is regular. -/
theorem regular_of_allFold : ∀ e : Expr R, Evaluates D e → AllFold D (computed D e) → Regular D e
  | .null, _, _ => trivial
  | .boolNum _, _, _ => trivial
  | .intNum _, _, _ => trivial
  | .longNum _, _, _ => trivial
  | .minLong, _, _ => trivial
  | .realNum _, _, _ => trivial
  | .math op left right, h, hfold => by
    have htype := fun es hes => coreType_of_allFold D es hes h
    obtain ⟨⟨s, hs⟩, ⟨hsl, hsr, _⟩, herror⟩ := h
    obtain ⟨l, r, hl, hr, hmath⟩ := operands_of_semType hs
    obtain ⟨hle, hre⟩ := operands_no_error herror
    obtain ⟨hevall, hevalr⟩ := evaluates_operands D hs ⟨hsl, hsr⟩ ⟨hle, hre⟩ hfold
    have hregl := regular_of_allFold left hevall.1 hevall.2
    have hregr := regular_of_allFold right hevalr.1 hevalr.2
    refine ⟨hregl, hregr, ?_⟩
    obtain ⟨hel, htl⟩ := exact_agrees D left hl hregl
    obtain ⟨her, htr⟩ := exact_agrees D right hr hregr
    by_cases hln : (run D left).isNull = true
    · exact Or.inl hln
    · by_cases hrn : (run D right).isNull = true
      · exact Or.inr (Or.inl hrn)
      · refine Or.inr (Or.inr ?_)
        rintro ⟨hbl, hbr⟩
        rw [coreOf_eq hl] at hbl
        rw [coreOf_eq hr] at hbr
        have hcl : (exact D left).coreType = some .bool := by
          rw [hel, coreType_of_typed htl (hel ▸ hle) (Bool.not_eq_true _ ▸ hln), hbl]
        have hcr : (exact D right).coreType = some .bool := by
          rw [her, coreType_of_typed htr (her ▸ hre) (Bool.not_eq_true _ ▸ hrn), hbr]
        have htype := htype (computed D left ++ computed D right) hfold
        rw [show exact D (.math op left right) = exactMath D op (exact D left) (exact D right) from rfl,
          coreType_bools D hcl hcr herror, coreOf_eq hs, core_of_bools hmath hbl hbr] at htype
        nomatch htype
  | .compare op left right, h, hfold => by
    obtain ⟨⟨s, hs⟩, hstays, herror⟩ := h
    obtain ⟨hl, hr⟩ := evaluates_operands D hs hstays (operands_no_error herror) hfold
    exact ⟨regular_of_allFold left hl.1 hl.2, regular_of_allFold right hr.1 hr.2⟩
  | .is left right, h, hfold => by
    obtain ⟨⟨s, hs⟩, hstays, herror⟩ := h
    obtain ⟨hl, hr⟩ := evaluates_operands D hs hstays (operands_no_error herror) hfold
    exact ⟨regular_of_allFold left hl.1 hl.2, regular_of_allFold right hr.1 hr.2⟩
  | .isNot left right, h, hfold => by
    obtain ⟨⟨s, hs⟩, hstays, herror⟩ := h
    have hinvert : (exactIs D (exact D left) (exact D right)).invert.isError = false := herror
    rw [isError_invert] at hinvert
    obtain ⟨hl, hr⟩ := evaluates_operands D hs hstays (operands_no_error hinvert) hfold
    exact ⟨regular_of_allFold left hl.1 hl.2, regular_of_allFold right hr.1 hr.2⟩
  | .and left right, h, hfold => by
    obtain ⟨⟨s, hs⟩, ⟨hsl, hsr⟩, herror⟩ := h
    obtain ⟨l, r, hl, hr, _⟩ := operands_of_semType hs
    obtain ⟨hle, hre⟩ := and_no_error D herror
    have htail := allFold_tail D (computed D left ++ if (run D left).isZero D then [] else computed D right) hfold
    obtain ⟨hfoldl, hfoldr⟩ := (allFold_append D).mp htail
    have hregl := regular_of_allFold left ⟨⟨l, hl⟩, hsl, hle⟩ hfoldl
    refine ⟨hregl, ?_⟩
    rw [(exact_agrees D left hl hregl).1] at hsr hre hle
    by_cases hzero : (run D left).isZero D = true
    · exact Or.inl hzero
    · rw [if_neg hzero] at hfoldr
      have hstays := (hsr.resolve_left (ne_error_of_isError hle)).resolve_left hzero
      exact Or.inr (regular_of_allFold right ⟨⟨r, hr⟩, hstays, hre hzero⟩ hfoldr)
  | .or left right, h, hfold => by
    obtain ⟨⟨s, hs⟩, ⟨hsl, hsr⟩, herror⟩ := h
    obtain ⟨l, r, hl, hr, _⟩ := operands_of_semType hs
    obtain ⟨hle, hre⟩ := or_no_error D herror
    have htail := allFold_tail D (computed D left ++ if (run D left).isTrue D then [] else computed D right) hfold
    obtain ⟨hfoldl, hfoldr⟩ := (allFold_append D).mp htail
    have hregl := regular_of_allFold left ⟨⟨l, hl⟩, hsl, hle⟩ hfoldl
    refine ⟨hregl, ?_⟩
    rw [(exact_agrees D left hl hregl).1] at hsr hre hle
    by_cases htrue : (run D left).isTrue D = true
    · exact Or.inl htrue
    · rw [if_neg htrue] at hfoldr
      have hstays := (hsr.resolve_left (ne_error_of_isError hle)).resolve_left htrue
      exact Or.inr (regular_of_allFold right ⟨⟨r, hr⟩, hstays, hre htrue⟩ hfoldr)
  | .unary op operand, h, hfold => by
    obtain ⟨⟨s, hs⟩, hstays, herror⟩ := h
    obtain ⟨t, ht, _⟩ := Option.bind_eq_some_iff.mp (show (semType operand).bind _ = some s from hs)
    by_cases hmin : op = .uminus ∧ operand.isMinLong
    · cases operand with
      | minLong => trivial
      | _ => nomatch hmin.2
    · rw [exact_unary, if_neg hmin] at herror
      exact regular_of_allFold operand ⟨⟨t, ht⟩, (hstays.resolve_left hmin).1, unary_no_error D herror⟩ (allFold_tail D _ hfold)
  | .cast operand t, h, hfold => by
    obtain ⟨⟨s, hs⟩, ⟨hstays, _⟩, herror⟩ := h
    obtain ⟨s', hs', _⟩ := Option.bind_eq_some_iff.mp (show (semType operand).bind _ = some s from hs)
    have hoperand : (exact D operand).isError = false := by
      cases hv : exact D operand with
      | error =>
        have heq : exact D (.cast operand t) =
          if (exact D operand).isError || (exact D operand).isNull then exact D operand else exactCast D (exact D operand) t := rfl
        rw [heq, hv] at herror
        nomatch herror
      | _ => rfl
    exact regular_of_allFold operand ⟨⟨s', hs'⟩, hstays, hoperand⟩ (allFold_tail D _ hfold)
  | .caseOf test list, h, hfold => by
    have htype := fun es hes => coreType_of_allFold D es hes h
    obtain ⟨⟨s, hs⟩, ⟨hstest, hstays⟩, herror⟩ := h
    obtain ⟨tt, ht, hlist⟩ := Option.bind_eq_some_iff.mp (show (semType test).bind _ = some s from hs)
    have hte : ¬(exact D test).isError = true := by
      intro hte
      rw [exact_caseOf, if_pos hte] at herror
      nomatch herror
    have htail := allFold_tail D (computed D test ++ computedCaseOf D (coreOf test) (run D test) list) hfold
    obtain ⟨hfoldt, hfoldl⟩ := (allFold_append D).mp htail
    have hregt := regular_of_allFold test ⟨⟨tt, ht⟩, hstest, Bool.not_eq_true _ ▸ hte⟩ hfoldt
    refine ⟨hregt, ?_⟩
    obtain ⟨heq, htt⟩ := exact_agrees D test ht hregt
    have hcore := htype (computed D test ++ computedCaseOf D (coreOf test) (run D test) list) hfold
    rw [exact_caseOf, if_neg hte, heq] at hcore
    have hstays := hstays.resolve_left hte
    rw [heq] at hstays hte
    rw [← coreOf_eq ht] at htt
    exact regularCaseOf_of_allFold _ htt (Bool.not_eq_true _ ▸ hte) list hlist hstays hcore hfoldl
  | .caseWhen list, h, hfold => by
    have hcore := coreType_of_allFold D (computedCaseWhen D list) hfold h
    obtain ⟨⟨s, hs⟩, hstays, _⟩ := h
    exact regularCaseWhen_of_allFold _ list hs hstays hcore (allFold_tail D _ hfold)
  | .other _, _, _ => trivial

/-- So are the branches of a `CASE` of type `type` with a test expression. -/
theorem regularCaseOf_of_allFold (type : CoreType) {t : CoreType} {test : Value R} (htest : Typed test t) (hnoerror : test.isError = false) :
    ∀ (list : CaseList R) {pending : Option SemType} {s : SemType}, semCaseList pending list = some s →
      StaysCaseOf D test list → (exactCaseOf D test list).coreType = some type → AllFold D (computedCaseOf D t test list) →
      RegularCaseOf D type t test list
  | .when w e rest, _, s, h, ⟨hsw, hstays⟩, htype, hfold => by
    obtain ⟨⟨tw, hw⟩, ⟨te, he⟩, pending', hrest⟩ := semCaseList_when h
    have hunfold : exactCaseOf D test (.when w e rest) = if (exact D w).isError then .error
      else if exactEqual D test (exact D w) then exact D e else exactCaseOf D test rest := rfl
    have hew : ¬(exact D w).isError = true := by
      intro hew
      rw [hunfold, if_pos hew] at htype
      nomatch htype
    obtain ⟨hfoldw, hfoldl⟩ := (allFold_append D).mp hfold
    have hregw := regular_of_allFold w ⟨⟨tw, hw⟩, hsw, Bool.not_eq_true _ ▸ hew⟩ hfoldw
    obtain ⟨heqw, htw⟩ := exact_agrees D w hw hregw
    have hstays := hstays.resolve_left hew
    rw [hunfold, if_neg hew] at htype
    rw [heqw] at htype hstays hew
    rw [← coreOf_eq hw] at htw
    rw [equal_agrees D htest htw hnoerror (Bool.not_eq_true _ ▸ hew)] at htype hstays
    refine ⟨hregw, ?_⟩
    by_cases hequal : runEqual D (combineCores t (coreOf w)) test (run D w) = true
    · rw [if_pos hequal] at htype hstays hfoldl ⊢
      exact branch_regular D he hstays htype (fun h => regular_of_allFold e h hfoldl)
    · rw [if_neg hequal] at htype hstays hfoldl ⊢
      exact regularCaseOf_of_allFold type htest hnoerror rest hrest hstays htype hfoldl
  | .otherwise e, _, _, h, hstays, htype, hfold => by
    obtain ⟨te, he⟩ := semCaseList_otherwise h
    exact branch_regular D he hstays htype fun h => regular_of_allFold e h hfold
  | .done, _, _, _, _, _, _ => trivial

/-- And those of a `CASE` without one. -/
theorem regularCaseWhen_of_allFold (type : CoreType) :
    ∀ (list : CaseList R) {pending : Option SemType} {s : SemType}, semCaseList pending list = some s →
      StaysCaseWhen D list → (exactCaseWhen D list).coreType = some type → AllFold D (computedCaseWhen D list) →
      RegularCaseWhen D type list
  | .when w e rest, _, s, h, ⟨hsw, hstays⟩, htype, hfold => by
    obtain ⟨⟨tw, hw⟩, ⟨te, he⟩, pending', hrest⟩ := semCaseList_when h
    have hunfold : exactCaseWhen D (.when w e rest) = if (exact D w).isError then .error
      else if (exact D w).isTrue D then exact D e else exactCaseWhen D rest := rfl
    have hew : ¬(exact D w).isError = true := by
      intro hew
      rw [hunfold, if_pos hew] at htype
      nomatch htype
    obtain ⟨hfoldw, hfoldl⟩ := (allFold_append D).mp hfold
    have hregw := regular_of_allFold w ⟨⟨tw, hw⟩, hsw, Bool.not_eq_true _ ▸ hew⟩ hfoldw
    have hstays := hstays.resolve_left hew
    rw [hunfold, if_neg hew] at htype
    rw [(exact_agrees D w hw hregw).1] at htype hstays
    refine ⟨hregw, ?_⟩
    by_cases htrue : (run D w).isTrue D = true
    · rw [if_pos htrue] at htype hstays hfoldl ⊢
      exact branch_regular D he hstays htype (fun h => regular_of_allFold e h hfoldl)
    · rw [if_neg htrue] at htype hstays hfoldl ⊢
      exact regularCaseWhen_of_allFold type rest hrest hstays htype hfoldl
  | .otherwise e, _, _, h, hstays, htype, hfold => by
    obtain ⟨te, he⟩ := semCaseList_otherwise h
    exact branch_regular D he hstays htype fun h => regular_of_allFold e h hfold
  | .done, _, _, _, _, _, _ => trivial

end

/-- An expression is computed itself. -/
theorem mem_computed_self (e : Expr R) : e ∈ computed D e := by
  cases e <;> exact List.mem_cons_self

end FoldAux

open FoldAux

/-! ## Folding -/

/-- On a regular expression folding preserves type and value if and only if the value has a literal of the type. And where all the
computed parts fold right, the expression is regular. -/
theorem fold_iff {e : Expr R} {literal : Value R} (h : semExprConst D e = some literal) : (Regular D e → (FoldsTo D e literal ↔ Printable D e)) ∧
      ((∀ e' ∈ computed D e, ∀ literal', semExprConst D e' = some literal' → FoldsTo D e' literal') → Regular D e ∧ Printable D e) := by
  obtain ⟨heval, hset⟩ := (semExprConst_eq_some D).mp h
  refine ⟨foldsTo_iff_printable D heval hset, fun hall => ?_⟩
  have hreg : Regular D e := by
    refine regular_of_allFold D e heval fun e' he' literal' heval' hset' => ?_
    exact hall e' he' literal' ((semExprConst_eq_some D).mpr ⟨heval', hset'⟩)
  exact ⟨hreg, (foldsTo_iff_printable D heval hset hreg).mp (hall e (mem_computed_self D e) literal h)⟩

/-- `const(2 + 3)` is the integer 5. -/
theorem fold_sum : FoldsTo rationals (.math .add (.intNum 2) (.intNum 3)) (.integer 5) := by
  have hconst : semExprConst rationals (.math .add (.intNum 2) (.intNum 3)) = some (.integer 5) := rfl
  refine ((fold_iff rationals hconst).1 ⟨trivial, trivial, Or.inr (Or.inr (by decide))⟩).mpr ⟨?_, ?_⟩
  · intro hnull
    nomatch hnull
  · intro r hr
    nomatch hr

/-- `const(true + true)` is true, and no integer. -/
theorem fold_false : ¬∀ (R : Type) (D : Doubles R) (e : Expr R) (literal : Value R), semExprConst D e = some literal → FoldsTo D e literal := by
  intro h
  obtain ⟨htype, _⟩ := h Rat rationals (.math .add (.boolNum 1) (.boolNum 1)) (.bool true) rfl
  exact absurd htype (by decide)

end CgSql.Eval
