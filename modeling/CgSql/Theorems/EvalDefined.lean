import CgSql.Lemmas.EvalDefined

/-!
# Defined evaluation

`eval`, the loop over the values of a `SWITCH` and the loop over the members of an enumeration meet an undefined operation exactly where
exact arithmetic leaves a range.
-/

namespace CgSql.Eval

open Outcome DefinedAux

variable {R : Type}

mutual

/-- Where it reports nothing, the analysis leaves a tree with the types that are written there. -/
theorem semExpr_of_semType : ∀ (e : Expr R) {s : SemType}, semType e = some s → semExpr e = (some s, e)
  | .null, _, h | .boolNum _, _, h | .intNum _, _, h | .longNum _, _, h | .minLong, _, h | .realNum _, _, h | .other _, _, h => by
    rw [semExpr, h] <;> simp
  | .math op left right, s, h | .compare op left right, s, h => by
    obtain ⟨l, hl, h⟩ := Option.bind_eq_some_iff.mp (show (semType left).bind _ = some s from h)
    obtain ⟨r, hr, h⟩ := Option.bind_eq_some_iff.mp (show (semType right).bind _ = some s from h)
    rw [semExpr, semExpr_of_semType left hl, semExpr_of_semType right hr, ← h]
    rfl
  | .is left right, s, h | .isNot left right, s, h | .and left right, s, h | .or left right, s, h => by
    obtain ⟨l, hl, h⟩ := Option.bind_eq_some_iff.mp (show (semType left).bind _ = some s from h)
    obtain ⟨r, hr, h⟩ := Option.bind_eq_some_iff.mp (show (semType right).bind _ = some s from h)
    rw [semExpr, semExpr_of_semType left hl, semExpr_of_semType right hr, ← h]
    rfl
  | .unary op operand, s, h => by
    obtain ⟨t, ht, h⟩ := Option.bind_eq_some_iff.mp (show (semType operand).bind _ = some s from h)
    rw [semExpr, semExpr_of_semType operand ht, ← h]
    rfl
  | .cast operand t, s, h => by
    obtain ⟨s', hs', h⟩ := Option.bind_eq_some_iff.mp (show (semType operand).bind _ = some s from h)
    rw [semExpr, semExpr_of_semType operand hs', ← h]
  | .caseOf test list, s, h => by
    obtain ⟨t, ht, h⟩ := Option.bind_eq_some_iff.mp (show (semType test).bind _ = some s from h)
    rw [semExpr, semExpr_of_semType test ht]
    simp only
    rw [semWhens_of_semCaseList list none h]
  | .caseWhen list, s, h => by
    rw [semExpr, semWhens_of_semCaseList list none h]

theorem semWhens_of_semCaseList : ∀ (list : CaseList R) (pending : Option (SemType × SemType)) {s : SemType},
    semCaseList (pending.map (·.2)) list = some s → semWhens pending list = (some s, list)
  | .when w t rest, pending, s, h => by
    obtain ⟨tw, hw, h⟩ := Option.bind_eq_some_iff.mp (show (semType w).bind _ = some s from h)
    obtain ⟨tt, ht, h⟩ := Option.bind_eq_some_iff.mp (show (semType t).bind _ = some s from h)
    split at h
    · cases h
    · next hnull =>
      rw [semWhens, semExpr_of_semType w hw, semExpr_of_semType t ht]
      simp only [hnull, if_false]
      rw [semWhens_of_semCaseList rest _ (by cases pending <;> exact h)]
  | .otherwise e, pending, s, h => by
    obtain ⟨te, he, h⟩ := Option.bind_eq_some_iff.mp (show (semType e).bind _ = some s from h)
    rw [semWhens, semExpr_of_semType e he, ← h]
    cases pending <;> rfl
  | .done, pending, s, h => by
    rw [semWhens, ← h]
    cases pending <;> rfl

end

/-- Rational numbers in place of doubles. -/
def rationals : Doubles Rat where
  add := (· + ·)
  sub := (· - ·)
  mul := (· * ·)
  div := (· / ·)
  neg := (- ·)
  eq a b := a == b
  lt a b := a < b
  le a b := a ≤ b
  ofInt n := n
  trunc q := some (q.num.tdiv q.den)
  printed := id

/-- A zero divisor is an error. -/
example : (eval rationals (.math .mod (.intNum 5) (.boolNum 0))).map Value.isError = some true := by decide

end CgSql.Eval
