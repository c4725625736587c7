import CgSql.EvalExact
import CgSql.Lib.Outcome
import Mathlib.Tactic.Positivity
import Mathlib.Tactic.Ring
import Mathlib.Tactic.NormNum

/-!
# Where the evaluation ends

Each operator, each conversion and each expression ends exactly where it stays in range, with its exact value, and that is in range again.
-/

namespace CgSql.Eval

/-! ## Signed types

What keeps a number in the range of a signed type, and when a quotient leaves it. -/

variable {w : Nat}

/-- The magnitude tells. -/
theorem fits_of_natAbs {v : Int} (h : v.natAbs < 2 ^ (w - 1)) : Fits w v := by
  have hcast : ((2 ^ (w - 1) : Nat) : Int) = 2 ^ (w - 1) := by norm_cast
  constructor <;> omega

/-- A number in range has at most the magnitude of the smallest one. -/
theorem natAbs_le_of_fits {v : Int} (h : Fits w v) : v.natAbs ≤ 2 ^ (w - 1) := by
  have hcast : ((2 ^ (w - 1) : Nat) : Int) = 2 ^ (w - 1) := by norm_cast
  obtain ⟨hlow, hhigh⟩ := h
  omega

/-- The smallest number is the only one of its magnitude. -/
theorem natAbs_lt_of_fits {v : Int} (h : Fits w v) (hmin : v ≠ -2 ^ (w - 1)) : v.natAbs < 2 ^ (w - 1) := by
  have hcast : ((2 ^ (w - 1) : Nat) : Int) = 2 ^ (w - 1) := by norm_cast
  obtain ⟨hlow, hhigh⟩ := h
  omega

/-- A number between one in range and zero is in range. -/
theorem fits_of_between {a v : Int} (h : Fits w a) (hv : (0 ≤ v ∧ v ≤ a) ∨ (a ≤ v ∧ v ≤ 0)) : Fits w v := by
  have hpos : (0 : Int) < 2 ^ (w - 1) := Int.pow_pos (by decide)
  obtain ⟨hlow, hhigh⟩ := h
  rcases hv with ⟨hzero, hle⟩ | ⟨hle, hzero⟩
  · exact ⟨by omega, by omega⟩
  · exact ⟨by omega, by omega⟩

/-- The quotient of the smallest number by -1 is the only one that is too big. -/
theorem fits_tdiv_iff {a b : Int} (ha : Fits w a) (hb : b ≠ 0) : Fits w (a.tdiv b) ↔ ¬(a = -2 ^ (w - 1) ∧ b = -1) := by
  constructor
  · rintro h ⟨rfl, rfl⟩
    rw [Int.tdiv_neg, Int.tdiv_one, neg_neg] at h
    exact (Int.lt_irrefl _ h.2)
  · intro h
    by_cases hmin : a = -2 ^ (w - 1)
    · have hne : b ≠ -1 := fun heq => h ⟨hmin, heq⟩
      by_cases hone : b = 1
      · rw [hone, Int.tdiv_one]
        exact ha
      · refine fits_of_natAbs ?_
        rw [Int.natAbs_tdiv]
        have htwo : 2 ≤ b.natAbs := by omega
        have hpos : 0 < 2 ^ (w - 1) := Nat.two_pow_pos _
        have hle := natAbs_le_of_fits ha
        exact Nat.lt_of_le_of_lt (Nat.div_le_div_right hle) (Nat.div_lt_self hpos htwo)
    · refine fits_of_natAbs ?_
      rw [Int.natAbs_tdiv]
      exact Nat.lt_of_le_of_lt (Nat.div_le_self _ _) (natAbs_lt_of_fits ha hmin)

/-- A remainder has the sign of the dividend, and no greater magnitude. -/
theorem fits_tmod {a : Int} (ha : Fits w a) (b : Int) : Fits w (a.tmod b) := by
  have hle : (a.tmod b).natAbs ≤ a.natAbs := by
    rw [Int.natAbs_tmod]
    exact Nat.mod_le _ _
  refine fits_of_between ha ?_
  rcases Int.le_total 0 a with hpos | hneg
  · have hzero := Int.tmod_nonneg b hpos
    exact Or.inl ⟨hzero, by omega⟩
  · have hzero : 0 ≤ (-a).tmod b := Int.tmod_nonneg b (by omega)
    rw [Int.neg_tmod] at hzero
    exact Or.inr ⟨by omega, by omega⟩

/-- A shift to the right brings a number closer to zero, or to -1. -/
theorem fits_div {a b : Int} (ha : Fits w a) (hb : 0 < b) : Fits w (a / b) := by
  rcases Int.le_total 0 a with hpos | hneg
  · exact fits_of_between ha (Or.inl ⟨Int.ediv_nonneg hpos (Int.le_of_lt hb), Int.ediv_le_self b hpos⟩)
  · have hzero : a / b ≤ 0 := Int.ediv_nonpos_of_nonpos_of_neg hneg hb
    have hlow : a ≤ a / b :=
      Int.le_ediv_of_mul_le hb (by simpa using Int.mul_le_mul_of_nonpos_left hneg (show (1 : Int) ≤ b from hb))
    exact fits_of_between ha (Or.inr ⟨hlow, hzero⟩)

/-- What is left of a number is in range. -/
theorem fits_bmod (hw : 0 < w) (v : Int) : Fits w (v.bmod (2 ^ w)) := by
  obtain ⟨n, rfl⟩ : ∃ n, w = n + 1 := ⟨w - 1, by omega⟩
  have hpos : 0 < 2 ^ (n + 1) := Nat.two_pow_pos _
  have hlow := Int.le_bmod (x := v) hpos
  have hhigh := Int.bmod_lt (x := v) hpos
  have hcast : ((2 ^ (n + 1) : Nat) : Int) = 2 * 2 ^ n := by
    push_cast
    ring
  rw [hcast] at hlow hhigh
  have hsub : n + 1 - 1 = n := rfl
  constructor
  · rw [hsub]
    omega
  · rw [hsub]
    omega

/-- So is a number that is a bit vector. -/
theorem fits_toInt (hw : 0 < w) (v : BitVec w) : Fits w v.toInt := by
  rw [BitVec.toInt_eq_toNat_bmod]
  exact fits_bmod hw _

open Outcome

/-! ## The operators -/

variable {R : Type} (D : Doubles R)

/-- The number is one of its type. -/
def InRange : Value R → Prop
  | .integer v => Fits 32 v
  | .long v => Fits 64 v
  | _ => True

namespace DefinedAux

variable {op : MathOp} {a b : Int} {v left right : Value R}

/-- The operator is defined where it stays in range, if the divisor is not zero. -/
theorem defined_iff (ha : Fits w a) (hb : op.isDivision → b ≠ 0) : op.Defined w a b ↔ op.Stays w a b := by
  cases op with
  | div =>
    have hne : b ≠ 0 := hb rfl
    exact ⟨fun h => (fits_tdiv_iff ha hne).mp h.2, fun h => ⟨hne, (fits_tdiv_iff ha hne).mpr h⟩⟩
  | mod =>
    have hne : b ≠ 0 := hb rfl
    exact ⟨fun h => (fits_tdiv_iff ha hne).mp h.2, fun h => ⟨hne, (fits_tdiv_iff ha hne).mpr h⟩⟩
  | _ => exact Iff.rfl

/-- So it ends there. -/
theorem onInts_gives (ha : Fits w a) (hb : op.isDivision → b ≠ 0) :
    Gives (op.onInts w a b) (op.Stays w a b) (op.exact w a b) := gives_ite (defined_iff ha hb) _

/-- Truth values never leave the range. -/
theorem defined_bits {a b : Bool} (hb : op.isDivision → b = true) : op.Defined 32 (bit a) (bit b) := by
  cases op <;> cases a <;> cases b <;> first | decide | exact absurd (hb rfl) (by decide)

/-- What stays in range is in range. -/
theorem fits_exact (hw : 0 < w) (ha : Fits w a) (hb : op.isDivision → b ≠ 0) (h : op.Stays w a b) : Fits w (op.exact w a b) := by
  cases op with
  | add => exact h
  | sub => exact h
  | mul => exact h
  | div => exact (fits_tdiv_iff ha (hb rfl)).mpr h
  | mod => exact fits_tmod ha b
  | lshift => exact fits_bmod hw _
  | rshift => exact fits_div ha (Int.pow_pos (by decide))
  | binAnd => exact fits_toInt hw _
  | binOr => exact fits_toInt hw _

/-- The conversion of a double. -/
theorem toSigned_gives (w : Nat) (r : R) : Gives (toSigned D w r) (∃ n, D.trunc r = some n ∧ Fits w n) ((D.trunc r).getD 0) := by
  unfold toSigned
  cases h : D.trunc r with
  | none =>
    refine Or.inr ⟨?_, rfl⟩
    rintro ⟨n, hn, -⟩
    nomatch hn
  | some n =>
    refine gives_ite ⟨fun hfits => ⟨n, rfl, hfits⟩, ?_⟩ n
    rintro ⟨m, hm, hfits⟩
    rw [Option.some.inj hm]
    exact hfits

/-- The conversion ends where it stays in range. -/
theorem evalCastTo_gives (herror : v.isError = false) (hnull : v.isNull = false) (t : CoreType) :
    Gives (evalCastTo D v t) (CastStays D v t) (exactCast D v t) := by
  cases v with
  | error => nomatch herror
  | null => nomatch hnull
  | real r =>
    cases t with
    | integer => exact gives_map _ (toSigned_gives D 32 r)
    | long => exact gives_map _ (toSigned_gives D 64 r)
    | null => exact Or.inr ⟨id, rfl⟩
    | _ => exact gives_some trivial _
  | _ =>
    cases t with
    | null => exact Or.inr ⟨id, rfl⟩
    | _ => exact gives_some trivial _

/-- A value is an error, null, false or true. -/
theorem resultIsFalse_eq (h : v.isError = false) : resultIsFalse D v = some (v.isZero D) := by
  cases v with
  | error => nomatch h
  | integer v => simp [resultIsFalse, evalCastTo, Value.isZero, Value.isTrue, Value.isError, Value.isNull]
  | long v => simp [resultIsFalse, evalCastTo, Value.isZero, Value.isTrue, Value.isError, Value.isNull]
  | _ => rfl

/-- The same of `result_is_true`. -/
theorem resultIsTrue_eq (h : v.isError = false) : resultIsTrue D v = some (v.isTrue D) := by
  cases v with
  | error => nomatch h
  | _ => rfl

/-- Numbers can be compared. -/
theorem compareValues_eq (hle : left.isError = false) (hln : left.isNull = false)
    (hre : right.isError = false) (hrn : right.isNull = false) (op : CompareOp) :
    compareValues D op left right = some (exactRel D op left right) := by
  cases left with
  | error => nomatch hle
  | null => nomatch hln
  | _ =>
    cases right with
    | error => nomatch hre
    | null => nomatch hrn
    | _ => rfl

/-- Comparisons always end. -/
theorem compareBinaryOp_eq (op : CompareOp) (left right : Value R) : compareBinaryOp D op left right = some (exactCompare D op left right) := by
  unfold compareBinaryOp exactCompare
  by_cases herror : (left.isError || right.isError) = true
  · rw [if_pos herror, if_pos herror]
  · rw [if_neg herror, if_neg herror]
    by_cases hnull : (left.isNull || right.isNull) = true
    · rw [if_pos hnull, if_pos hnull]
    · rw [if_neg hnull, if_neg hnull]
      simp only [Bool.or_eq_true, not_or, Bool.not_eq_true] at herror hnull
      rw [compareValues_eq D herror.1 hnull.1 herror.2 hnull.2]
      rfl

/-- So does `IS`. -/
theorem isOp_eq (left right : Value R) : isOp D left right = some (exactIs D left right) := by
  unfold isOp exactIs
  by_cases herror : (left.isError || right.isError) = true
  · rw [if_pos herror, if_pos herror]
  · rw [if_neg herror, if_neg herror]
    by_cases hnull : (left.isNull || right.isNull) = true
    · rw [if_pos hnull, if_pos hnull]
    · rw [if_neg hnull, if_neg hnull]
      simp only [Bool.or_eq_true, not_or, Bool.not_eq_true] at herror hnull
      rw [compareValues_eq D herror.1 hnull.1 herror.2 hnull.2]
      rfl

/-- And the search for a branch. -/
theorem evalAreEqual_eq (hle : left.isError = false) (hre : right.isError = false) :
    evalAreEqual D left right = some (exactEqual D left right) := by
  unfold evalAreEqual exactEqual
  by_cases hnull : (right.isNull || left.isNull) = true
  · rw [if_pos hnull]
    have hfalse : (!right.isNull && !left.isNull) = false := by
      rw [← Bool.not_or, hnull]
      rfl
    rw [hfalse, Bool.false_and]
  · rw [if_neg hnull]
    simp only [Bool.or_eq_true, not_or, Bool.not_eq_true] at hnull
    rw [compareValues_eq D hle hnull.2 hre hnull.1, hnull.1, hnull.2]
    rfl

/-- Truth values are in every range. -/
theorem fits_bit (b : Bool) (hw : 1 < w) : Fits w (bit b) := by
  have hpos : (2 : Int) ≤ 2 ^ (w - 1) := by
    calc (2 : Int) = 2 ^ 1 := rfl
      _ ≤ 2 ^ (w - 1) := by exact_mod_cast Nat.pow_le_pow_right (by decide) (by omega)
  cases b with
  | false => exact ⟨by show -2 ^ (w - 1) ≤ (0 : Int); omega, by show (0 : Int) < 2 ^ (w - 1); omega⟩
  | true => exact ⟨by show -2 ^ (w - 1) ≤ (1 : Int); omega, by show (1 : Int) < 2 ^ (w - 1); omega⟩

/-- A number of 32 bits is one of 64. -/
theorem fits_widen {v : Int} (h : Fits 32 v) : Fits 64 v := by
  obtain ⟨hlow, hhigh⟩ := h
  exact ⟨by omega, by omega⟩

/-- An integer that is true is not zero. -/
theorem toInt_ne_zero (h : v.isTrue D = true) (hreal : ∀ r, v ≠ .real r) : v.toInt ≠ 0 := by
  cases v with
  | error => nomatch h
  | null => nomatch h
  | bool b =>
    cases b with
    | false => nomatch h
    | true => exact Int.one_ne_zero
  | integer v => exact of_decide_eq_true h
  | long v => exact of_decide_eq_true h
  | real r => exact absurd rfl (hreal r)

/-- The operator on integers of 32 bits. -/
theorem integers_give (ha : Fits 32 a) (hb : op.isDivision → b ≠ 0) :
    Gives ((op.onInts 32 a b).map (Value.integer (R := R))) (op.Stays 32 a b) (.integer (op.exact 32 a b)) :=
  gives_map _ (onInts_gives ha hb)

/-- The operator on integers of 64 bits. -/
theorem longs_give (ha : Fits 64 a) (hb : op.isDivision → b ≠ 0) :
    Gives ((op.onInts 64 a b).map (Value.long (R := R))) (op.Stays 64 a b) (.long (op.exact 64 a b)) :=
  gives_map _ (onInts_gives ha hb)

/-- The operator on doubles. -/
theorem reals_give (op : MathOp) (a b : R) :
    Gives ((op.onReals D a b).map Value.real) (op.isInteger = false) (.real ((op.onReals D a b).getD a)) := by
  cases op with
  | add => exact gives_some rfl _
  | sub => exact gives_some rfl _
  | mul => exact gives_some rfl _
  | div => exact gives_some rfl _
  | _ => exact Or.inr ⟨by decide, rfl⟩

/-- The operator on truth values. -/
theorem bools_give {a b : Bool} (hb : op.isDivision → b = true) :
    Gives ((op.onInts 32 (bit a) (bit b)).map fun v => Value.bool (R := R) (v ≠ 0)) True (.bool (op.exact 32 (bit a) (bit b) ≠ 0)) := by
  have hdefined : op.onInts 32 (bit a) (bit b) = some (op.exact 32 (bit a) (bit b)) := if_pos (defined_bits hb)
  rw [hdefined]
  exact gives_some trivial _

/-- The operator on numbers, behind the test for zero. -/
theorem numbers_give (hle : left.isError = false) (hln : left.isNull = false)
    (hre : right.isError = false) (hrn : right.isNull = false) (hl : InRange left) (hzero : op.isDivision → right.isTrue D = true) :
    Gives ((evalCombinedType left right).bind fun t => (evalCastTo D left t).bind fun l => (evalCastTo D right t).bind (op.apply D l))
      (NumberStays op left right) (exactNumber D op left right) := by
  have hne : op.isDivision → (∀ r, right ≠ .real r) → right.toInt ≠ 0 := fun h => toInt_ne_zero D (hzero h)
  cases left with
  | error => nomatch hle
  | null => nomatch hln
  | bool a =>
    cases right with
    | error => nomatch hre
    | null => nomatch hrn
    | bool b => exact bools_give hzero
    | integer b => exact integers_give (fits_bit a (by decide)) fun h => hne h nofun
    | long b => exact longs_give (fits_bit a (by decide)) fun h => hne h nofun
    | real b => exact reals_give D op _ b
  | integer a =>
    cases right with
    | error => nomatch hre
    | null => nomatch hrn
    | bool b => exact integers_give hl fun h => hne h nofun
    | integer b => exact integers_give hl fun h => hne h nofun
    | long b => exact longs_give (fits_widen hl) fun h => hne h nofun
    | real b => exact reals_give D op _ b
  | long a =>
    cases right with
    | error => nomatch hre
    | null => nomatch hrn
    | bool b => exact longs_give hl fun h => hne h nofun
    | integer b => exact longs_give hl fun h => hne h nofun
    | long b => exact longs_give hl fun h => hne h nofun
    | real b => exact reals_give D op _ b
  | real a =>
    cases right with
    | error => nomatch hre
    | null => nomatch hrn
    | _ => exact reals_give D op a _

/-- A binary operator ends where it stays in range. -/
theorem binaryOp_gives (op : MathOp) (hl : InRange left) :
    Gives (binaryOp D op left right) (MathStays D op left right) (exactMath D op left right) := by
  unfold binaryOp exactMath MathStays
  by_cases herror : (left.isError || right.isError) = true
  · rw [if_pos herror, if_pos herror]
    refine gives_some ?_ _
    rcases Bool.or_eq_true_iff.mp herror with h | h
    · exact Or.inl h
    · exact Or.inr (Or.inl h)
  · rw [if_neg herror, if_neg herror]
    by_cases hnull : (left.isNull || right.isNull) = true
    · rw [if_pos hnull, if_pos hnull]
      refine gives_some ?_ _
      rcases Bool.or_eq_true_iff.mp hnull with h | h
      · exact Or.inr (Or.inr (Or.inl h))
      · exact Or.inr (Or.inr (Or.inr (Or.inl h)))
    · rw [if_neg hnull, if_neg hnull]
      simp only [Bool.or_eq_true, not_or, Bool.not_eq_true] at herror hnull
      simp only [resultIsFalse_eq D herror.2, Option.bind_eq_bind, Option.bind_some]
      by_cases hzero : (op.isDivision && right.isZero D) = true
      · rw [if_pos hzero, if_pos hzero]
        exact gives_some (Or.inr (Or.inr (Or.inr (Or.inr (Or.inl (Bool.and_eq_true_iff.mp hzero)))))) _
      · rw [if_neg hzero, if_neg hzero]
        have htrue : op.isDivision → right.isTrue D = true := by
          intro hop
          have hnot : right.isZero D = false := by
            rw [hop, Bool.true_and, Bool.not_eq_true] at hzero
            exact hzero
          simpa [Value.isZero, herror.2, hnull.2] using hnot
        refine gives_congr (numbers_give D herror.1 hnull.1 herror.2 hnull.2 hl htrue) ?_
        rw [Bool.and_eq_true] at hzero
        simp [herror, hnull, hzero]

/-- Only the smallest number has no opposite. -/
theorem fits_neg_iff {v : Int} (h : Fits w v) : Fits w (-v) ↔ v ≠ -2 ^ (w - 1) := by
  obtain ⟨hlow, hhigh⟩ := h
  constructor
  · rintro ⟨_, hneg⟩ rfl
    omega
  · intro hne
    exact ⟨by omega, by omega⟩

/-- Negation ends where it stays in range. -/
theorem uminus_gives (h : InRange v) : Gives (unaryOp D .uminus v) (UnaryStays .uminus v) (exactUnary D .uminus v) := by
  cases v with
  | integer v => exact gives_ite (fits_neg_iff h) _
  | long v => exact gives_ite (fits_neg_iff h) _
  | bool b => cases b <;> exact gives_some trivial _
  | _ => exact gives_some trivial _

/-- The complement ends except on doubles. -/
theorem tilde_gives (v : Value R) : Gives (unaryOp D .tilde v) (UnaryStays .tilde v) (exactUnary D .tilde v) := by
  cases v with
  | real r => exact Or.inr ⟨id, rfl⟩
  | bool b => cases b <;> exact gives_some trivial _
  | _ => exact gives_some trivial _

/-- A unary operator ends where it stays in range. -/
theorem unaryOp_gives (op : UnaryOp) (h : InRange v) : Gives (unaryOp D op v) (UnaryStays op v) (exactUnary D op v) := by
  cases op with
  | uminus => exact uminus_gives D h
  | tilde => exact tilde_gives D v
  | not => cases v <;> exact gives_some trivial _
  | isTrue => cases v <;> exact gives_some trivial _
  | isFalse =>
    by_cases herror : v.isError = true
    · cases v <;> exact gives_some trivial _
    · rw [Bool.not_eq_true] at herror
      simp only [unaryOp, exactUnary, herror, Bool.false_eq_true, if_false, resultIsFalse_eq D herror]
      exact gives_some (by cases v <;> trivial) _
  | isNotTrue => cases v <;> exact gives_some trivial _
  | isNotFalse =>
    by_cases herror : v.isError = true
    · cases v <;> exact gives_some trivial _
    · rw [Bool.not_eq_true] at herror
      simp only [unaryOp, exactUnary, herror, Bool.false_eq_true, if_false, resultIsFalse_eq D herror]
      cases v <;> exact gives_some trivial _

/-! ### The range of the values -/

/-- A conversion that stays in range is in range. -/
theorem inRange_cast {t : CoreType} (hv : InRange v) (h : CastStays D v t) : InRange (exactCast D v t) := by
  cases t with
  | integer =>
    cases v with
    | real r =>
      obtain ⟨n, hn, hfits⟩ := h
      show Fits 32 ((D.trunc r).getD 0)
      rw [hn]
      exact hfits
    | long v => exact fits_bmod (by decide) v
    | integer v => exact hv
    | bool b => exact fits_bit b (by decide)
    | _ => exact fits_bit false (by decide)
  | long =>
    cases v with
    | real r =>
      obtain ⟨n, hn, hfits⟩ := h
      show Fits 64 ((D.trunc r).getD 0)
      rw [hn]
      exact hfits
    | long v => exact hv
    | integer v => exact fits_widen hv
    | bool b => exact fits_bit b (by decide)
    | _ => exact fits_bit false (by decide)
  | null => exact hv
  | _ => trivial

/-- Operands of 32 bits. -/
theorem commonType_integer (h : commonType left right = .integer) (hl : InRange left) : Fits 32 left.toInt ∧ ∀ r, right ≠ .real r := by
  cases left with
  | bool a => cases right <;> first | exact CoreType.noConfusion h | exact ⟨fits_bit a (by decide), nofun⟩
  | integer a => cases right <;> first | exact CoreType.noConfusion h | exact ⟨hl, nofun⟩
  | _ => cases right <;> exact CoreType.noConfusion h

/-- Operands of 64 bits. -/
theorem commonType_long (h : commonType left right = .long) (hl : InRange left) : Fits 64 left.toInt ∧ ∀ r, right ≠ .real r := by
  cases left with
  | bool a => cases right <;> first | exact CoreType.noConfusion h | exact ⟨fits_bit a (by decide), nofun⟩
  | integer a => cases right <;> first | exact CoreType.noConfusion h | exact ⟨fits_widen hl, nofun⟩
  | long a => cases right <;> first | exact CoreType.noConfusion h | exact ⟨hl, nofun⟩
  | _ => cases right <;> exact CoreType.noConfusion h

/-- So is what a binary operator gives. -/
theorem inRange_math (hl : InRange left) (h : MathStays D op left right) : InRange (exactMath D op left right) := by
  unfold exactMath
  split
  · trivial
  · split
    · trivial
    · rename_i herror hnull
      split
      · trivial
      · rename_i hzero
        simp only [Bool.or_eq_true, not_or, Bool.not_eq_true, Bool.and_eq_true] at herror hnull hzero
        have htrue : op.isDivision → right.isTrue D = true := by
          intro hop
          have hnot : ¬right.isZero D = true := fun h => hzero ⟨hop, h⟩
          simpa [Value.isZero, herror.2, hnull.2] using hnot
        simp only [MathStays, herror, hnull, hzero, Bool.false_eq_true, false_or] at h
        unfold NumberStays at h
        unfold exactNumber
        cases hcommon : commonType left right with
        | integer =>
          rw [hcommon] at h
          obtain ⟨hfits, hreal⟩ := commonType_integer hcommon hl
          exact fits_exact (by decide) hfits (fun hop => toInt_ne_zero D (htrue hop) hreal) h
        | long =>
          rw [hcommon] at h
          obtain ⟨hfits, hreal⟩ := commonType_long hcommon hl
          exact fits_exact (by decide) hfits (fun hop => toInt_ne_zero D (htrue hop) hreal) h
        | _ => trivial

/-- The complement of a number is in range. -/
theorem fits_complement {v : Int} (h : Fits w v) : Fits w (-v - 1) := by
  obtain ⟨hlow, hhigh⟩ := h
  exact ⟨by omega, by omega⟩

/-- And a unary operator. -/
theorem inRange_unary {op : UnaryOp} (hv : InRange v) (h : UnaryStays op v) : InRange (exactUnary D op v) := by
  cases op with
  | uminus =>
    cases v with
    | integer v => exact (fits_neg_iff hv).mpr h
    | long v => exact (fits_neg_iff hv).mpr h
    | bool b => exact (fits_neg_iff (fits_bit b (by decide))).mpr (by cases b <;> decide)
    | _ => trivial
  | tilde =>
    cases v with
    | integer v => exact fits_complement hv
    | long v => exact fits_complement hv
    | bool b => exact fits_complement (fits_bit b (by decide))
    | real r => exact h.elim
    | _ => trivial
  | _ => cases v <;> trivial

/-- A literal is one of 64 bits. -/
theorem fits_strtoll (n : Nat) : Fits 64 (strtoll n) := by
  unfold strtoll
  exact ⟨by omega, by omega⟩

/-- The values without a number. -/
theorem inRange_compare (op : CompareOp) (left right : Value R) : InRange (exactCompare D op left right) := by
  unfold exactCompare
  split
  · trivial
  · split <;> trivial

/-- The same of `IS`. -/
theorem inRange_is (left right : Value R) : InRange (exactIs D left right) := by
  unfold exactIs
  split
  · trivial
  · split <;> trivial

/-- The same of `IS NOT`. -/
theorem inRange_isNot (left right : Value R) : InRange (exactIsNot D left right) := by
  have h := inRange_is D left right
  unfold exactIsNot
  cases hv : exactIs D left right with
  | bool b => trivial
  | _ => rw [hv] at h; exact h

/-- The same of `AND`. -/
theorem inRange_and (left right : Value R) : InRange (exactAnd D left right) := by
  unfold exactAnd
  repeat' split
  all_goals trivial

/-- The same of `OR`. -/
theorem inRange_or (left right : Value R) : InRange (exactOr D left right) := by
  unfold exactOr
  repeat' split
  all_goals trivial

mutual

/-- The value of an expression is in range, if all the operations that are reached stay in it. -/
theorem inRange_exact : ∀ e : Expr R, Stays D e → InRange (exact D e)
  | .null, _ => trivial
  | .boolNum _, _ => trivial
  | .intNum n, _ => fits_bmod (by decide) _
  | .longNum n, _ => fits_strtoll n
  | .minLong, _ => fits_strtoll _
  | .realNum _, _ => trivial
  | .math op left right, h => inRange_math D (inRange_exact left h.1) h.2.2
  | .compare op left right, _ => inRange_compare D op _ _
  | .is left right, _ => inRange_is D _ _
  | .isNot left right, _ => inRange_isNot D _ _
  | .and left right, _ => inRange_and D _ _
  | .or left right, _ => inRange_or D _ _
  | .unary op operand, h => by
    unfold exact
    split
    · exact ⟨by decide, by decide⟩
    · rename_i hmin
      obtain ⟨hstays, hunary⟩ := h.resolve_left hmin
      exact inRange_unary D (inRange_exact operand hstays) hunary
  | .cast operand t, h => by
    unfold exact
    split
    · exact inRange_exact operand h.1
    · rename_i hnumber
      simp only [Bool.or_eq_true, not_or] at hnumber
      exact inRange_cast D (inRange_exact operand h.1) ((h.2.resolve_left hnumber.1).resolve_left hnumber.2)
  | .caseOf test list, h => by
    unfold exact
    split
    · trivial
    · rename_i herror
      exact inRange_caseOf _ list (h.2.resolve_left herror)
  | .caseWhen list, h => inRange_caseWhen list h
  | .other _, _ => trivial

/-- So is that of the branch that equals the test expression. -/
theorem inRange_caseOf (test : Value R) : ∀ list : CaseList R, StaysCaseOf D test list → InRange (exactCaseOf D test list)
  | .when w t rest, h => by
    unfold exactCaseOf
    split
    · trivial
    · rename_i herror
      have htaken := h.2.resolve_left herror
      split
      · rename_i hequal
        rw [if_pos hequal] at htaken
        exact inRange_exact t htaken
      · rename_i hequal
        rw [if_neg hequal] at htaken
        exact inRange_caseOf test rest htaken
  | .otherwise e, h => inRange_exact e h
  | .done, _ => trivial

/-- And that of the branch with a true condition. -/
theorem inRange_caseWhen : ∀ list : CaseList R, StaysCaseWhen D list → InRange (exactCaseWhen D list)
  | .when w t rest, h => by
    unfold exactCaseWhen
    split
    · trivial
    · rename_i herror
      have htaken := h.2.resolve_left herror
      split
      · rename_i htrue
        rw [if_pos htrue] at htaken
        exact inRange_exact t htaken
      · rename_i htrue
        rw [if_neg htrue] at htaken
        exact inRange_caseWhen rest htaken
  | .otherwise e, h => inRange_exact e h
  | .done, _ => trivial

end

/-! ### The evaluation -/

/-- `AND` evaluates its right operand only if the left one does not decide. -/
theorem and_gives {o : Option (Value R)} {P : Prop} (left : Value R) {right : Value R} (h : Gives o P right) : Gives (do
        if left.isError then return .error
        else if ← resultIsFalse D left then return .bool false
        else do
          let r ← o
          if r.isError then return .error
          else if ← resultIsFalse D r then return .bool false
          else if r.isNull || left.isNull then return .null
          else return .bool true)
      (left.isError ∨ left.isZero D ∨ P) (exactAnd D left right) := by
  unfold exactAnd
  by_cases hle : left.isError = true
  · rw [if_pos hle, if_pos hle]
    exact gives_some (Or.inl hle) _
  · rw [if_neg hle, if_neg hle]
    rw [Bool.not_eq_true] at hle
    simp only [resultIsFalse_eq D hle, Option.bind_eq_bind, Option.bind_some]
    by_cases hzero : left.isZero D = true
    · rw [if_pos hzero, if_pos hzero]
      exact gives_some (Or.inr (Or.inl hzero)) _
    · rw [if_neg hzero, if_neg hzero]
      rcases h with ⟨hP, rfl⟩ | ⟨hP, rfl⟩
      · refine Or.inl ⟨Or.inr (Or.inr hP), ?_⟩
        simp only [Option.bind_some]
        by_cases hre : right.isError = true
        · rw [if_pos hre, if_pos hre]
          rfl
        · rw [if_neg hre, if_neg hre]
          rw [Bool.not_eq_true] at hre
          simp only [resultIsFalse_eq D hre, Option.bind_some]
          repeat' split
          all_goals rfl
      · refine Or.inr ⟨?_, rfl⟩
        rintro (herror | hfalse | hstays)
        · rw [hle] at herror
          nomatch herror
        · exact hzero hfalse
        · exact hP hstays

/-- So does `OR`. -/
theorem or_gives {o : Option (Value R)} {P : Prop} (left : Value R) {right : Value R} (h : Gives o P right) : Gives (do
        if left.isError then return .error
        else if ← resultIsTrue D left then return .bool true
        else do
          let r ← o
          if r.isError then return .error
          else if ← resultIsTrue D r then return .bool true
          else if r.isNull || left.isNull then return .null
          else return .bool false)
      (left.isError ∨ left.isTrue D ∨ P) (exactOr D left right) := by
  unfold exactOr
  by_cases hle : left.isError = true
  · rw [if_pos hle, if_pos hle]
    exact gives_some (Or.inl hle) _
  · rw [if_neg hle, if_neg hle]
    rw [Bool.not_eq_true] at hle
    simp only [resultIsTrue_eq D hle, Option.bind_eq_bind, Option.bind_some]
    by_cases htrue : left.isTrue D = true
    · rw [if_pos htrue, if_pos htrue]
      exact gives_some (Or.inr (Or.inl htrue)) _
    · rw [if_neg htrue, if_neg htrue]
      rcases h with ⟨hP, rfl⟩ | ⟨hP, rfl⟩
      · refine Or.inl ⟨Or.inr (Or.inr hP), ?_⟩
        simp only [Option.bind_some]
        by_cases hre : right.isError = true
        · rw [if_pos hre, if_pos hre]
          rfl
        · rw [if_neg hre, if_neg hre]
          rw [Bool.not_eq_true] at hre
          simp only [resultIsTrue_eq D hre, Option.bind_some]
          repeat' split
          all_goals rfl
      · refine Or.inr ⟨?_, rfl⟩
        rintro (herror | hdecides | hstays)
        · rw [hle] at herror
          nomatch herror
        · exact htrue hdecides
        · exact hP hstays

/-- A conversion behind its operand. -/
theorem cast_gives {v : Value R} {t : CoreType} : Gives (do if v.isError || v.isNull then return v else evalCastTo D v t)
      (v.isError ∨ v.isNull ∨ CastStays D v t) (if v.isError || v.isNull then v else exactCast D v t) := by
  by_cases hnumber : (v.isError || v.isNull) = true
  · rw [if_pos hnumber, if_pos hnumber]
    refine gives_some ?_ _
    rcases Bool.or_eq_true_iff.mp hnumber with h | h
    · exact Or.inl h
    · exact Or.inr (Or.inl h)
  · rw [if_neg hnumber, if_neg hnumber]
    simp only [Bool.or_eq_true, not_or, Bool.not_eq_true] at hnumber
    exact gives_congr (evalCastTo_gives D hnumber.1 hnumber.2 t) (by simp [hnumber])

/-- A condition of a `CASE`: an error ends it, and else the branch is taken or left. -/
theorem condition_gives {o o' : Option (Value R)} {P Q : Prop} {x y : Value R} (w : Value R) (b : Bool) {taken : Option Bool}
    (htaken : w.isError = false → taken = some b) (ht : Gives o P x) (hrest : Gives o' Q y) :
    Gives (do
        if w.isError then return .error
        else if ← taken then o
        else o')
      (w.isError ∨ if b then P else Q) (if w.isError then .error else if b then x else y) := by
  by_cases herror : w.isError = true
  · rw [if_pos herror, if_pos herror]
    exact gives_some (Or.inl herror) _
  · rw [if_neg herror, if_neg herror]
    rw [htaken (Bool.not_eq_true _ ▸ herror)]
    simp only [Option.bind_eq_bind, Option.bind_some]
    cases b with
    | true => exact gives_congr ht (by simp [herror])
    | false => exact gives_congr hrest (by simp [herror])

/-- The evaluation of a unary operator. -/
theorem eval_unary (op : UnaryOp) (operand : Expr R) : eval D (.unary op operand) =
      if op = .uminus ∧ operand.isMinLong then some (.long (-2 ^ 63)) else (eval D operand).bind (unaryOp D op) := rfl

/-- Its exact value. -/
theorem exact_unary (op : UnaryOp) (operand : Expr R) : exact D (.unary op operand) =
      if op = .uminus ∧ operand.isMinLong then .long (-2 ^ 63) else exactUnary D op (exact D operand) := rfl

/-- The exact value of a `CASE` with a test expression. -/
theorem exact_caseOf (test : Expr R) (list : CaseList R) :
    exact D (.caseOf test list) = if (exact D test).isError then .error else exactCaseOf D (exact D test) list := rfl

mutual

/-- `eval` ends where all the operations that are reached stay in range, and with the exact value. -/
theorem eval_gives : ∀ e : Expr R, Gives (eval D e) (Stays D e) (exact D e)
  | .null => gives_some trivial _
  | .boolNum _ => gives_some trivial _
  | .intNum _ => gives_some trivial _
  | .longNum _ => gives_some trivial _
  | .minLong => gives_some trivial _
  | .realNum _ => gives_some trivial _
  | .math op left right =>
    gives_bind (eval_gives left) fun hl => gives_bind (eval_gives right) fun _ => binaryOp_gives D op (inRange_exact D left hl)
  | .compare op left right => both_give (eval_gives left) (eval_gives right) (compareBinaryOp_eq D op _ _)
  | .is left right => both_give (eval_gives left) (eval_gives right) (isOp_eq D _ _)
  | .isNot left right => both_give (eval_gives left) (eval_gives right) (congrArg _ (isOp_eq D _ _))
  | .and left right => gives_bind (eval_gives left) fun _ => and_gives D _ (eval_gives right)
  | .or left right => gives_bind (eval_gives left) fun _ => or_gives D _ (eval_gives right)
  | .unary op operand => by
    by_cases hmin : op = .uminus ∧ operand.isMinLong
    · rw [eval_unary, exact_unary, if_pos hmin, if_pos hmin]
      exact gives_some (Or.inl hmin) _
    · rw [eval_unary, exact_unary, if_neg hmin, if_neg hmin]
      refine gives_congr (gives_bind (eval_gives operand) fun h => unaryOp_gives D op (inRange_exact D operand h)) ?_
      exact ⟨Or.inr, fun h => h.resolve_left hmin⟩
  | .cast operand t => gives_bind (eval_gives operand) fun _ => cast_gives D
  | .caseOf test list =>
    gives_bind (eval_gives test) fun _ => by
      by_cases herror : (exact D test).isError = true
      · rw [exact_caseOf, if_pos herror, if_pos herror]
        exact gives_some (Or.inl herror) _
      · rw [exact_caseOf, if_neg herror, if_neg herror]
        rw [Bool.not_eq_true] at herror
        exact gives_congr (evalCaseOf_gives herror list) (by simp [herror])
  | .caseWhen list => evalCaseWhen_gives list
  | .other _ => gives_some trivial _

/-- So does the search for the branch that equals the test expression. -/
theorem evalCaseOf_gives {test : Value R} (htest : test.isError = false) :
    ∀ list : CaseList R, Gives (evalCaseOf D test list) (StaysCaseOf D test list) (exactCaseOf D test list)
  | .when w t rest =>
    gives_bind (eval_gives w) fun _ =>
      condition_gives _ (exactEqual D test (exact D w)) (evalAreEqual_eq D htest) (eval_gives t) (evalCaseOf_gives htest rest)
  | .otherwise e => eval_gives e
  | .done => gives_some trivial _

/-- And for the branch with a true condition. -/
theorem evalCaseWhen_gives : ∀ list : CaseList R, Gives (evalCaseWhen D list) (StaysCaseWhen D list) (exactCaseWhen D list)
  | .when w t rest =>
    gives_bind (eval_gives w) fun _ =>
      condition_gives _ ((exact D w).isTrue D) (resultIsTrue_eq D) (eval_gives t) (evalCaseWhen_gives rest)
  | .otherwise e => eval_gives e
  | .done => gives_some trivial _

end

/-! ### The uses -/

/-- A value that is no error, no null, and in range. -/
def Number (v : Value R) : Prop := v.isError = false ∧ v.isNull = false ∧ InRange v

/-- A conversion that stays in range gives a number. -/
theorem number_cast {v : Value R} {t : CoreType} (hv : InRange v) (h : CastStays D v t) : Number (exactCast D v t) := by
  refine ⟨?_, ?_, inRange_cast D hv h⟩
  · cases t with
    | null => exact h.elim
    | _ => cases v <;> rfl
  · cases t with
    | null => exact h.elim
    | _ => cases v <;> rfl

/-- The next number is there where it stays in range. -/
theorem evalAddOne_gives {v : Value R} (h : Number v) : Gives (evalAddOne D v) (AddOneStays v) (exactAddOne D v) := by
  obtain ⟨herror, hnull, hv⟩ := h
  cases v with
  | error => nomatch herror
  | null => nomatch hnull
  | integer n =>
    refine gives_ite ?_ _
    constructor
    · rintro ⟨_, hhigh⟩ rfl
      omega
    · intro hne
      obtain ⟨hlow, hhigh⟩ := hv
      exact ⟨by omega, by show n + 1 < 2 ^ 31; have hmax : n ≠ 2 ^ 31 - 1 := hne; omega⟩
  | long n =>
    refine gives_ite ?_ _
    constructor
    · rintro ⟨_, hhigh⟩ rfl
      omega
    · intro hne
      obtain ⟨hlow, hhigh⟩ := hv
      exact ⟨by omega, by show n + 1 < 2 ^ 63; have hmax : n ≠ 2 ^ 63 - 1 := hne; omega⟩
  | _ => exact gives_some trivial _

/-- It is a number, too. -/
theorem number_addOne {v : Value R} (h : Number v) (hstays : AddOneStays v) : Number (exactAddOne D v) := by
  obtain ⟨herror, hnull, hv⟩ := h
  cases v with
  | error => nomatch herror
  | null => nomatch hnull
  | integer n =>
    obtain ⟨hlow, hhigh⟩ := hv
    have hmax : n ≠ 2 ^ 31 - 1 := hstays
    exact ⟨rfl, rfl, by omega, by show n + 1 < 2 ^ 31; omega⟩
  | long n =>
    obtain ⟨hlow, hhigh⟩ := hv
    have hmax : n ≠ 2 ^ 63 - 1 := hstays
    exact ⟨rfl, rfl, by omega, by show n + 1 < 2 ^ 63; omega⟩
  | _ => exact ⟨rfl, rfl, trivial⟩

/-- A null is not converted. -/
theorem evalCastTo_null {v : Value R} (h : v.isNull = true) (t : CoreType) : evalCastTo D v t = none := by
  cases v with
  | null => cases t <;> rfl
  | _ => nomatch h

/-- The loop over the values of a `SWITCH`, behind the evaluation of one. -/
theorem switchValue_isSome (t : CoreType) (v : Value R) (rest : List (Expr R))
    (hrest : (semSwitchExprList D t rest).isSome ↔ SwitchStays D t rest) :
    (do
        if v.isError then return .error .notConstant
        else do
          let v ← evalCastTo D v .long
          let vals ← semSwitchExprList D t rest
          return vals.map fun vals => v.toInt :: vals : Option (Except EvalError (List Int))).isSome ↔
      v.isError ∨ (v.isNull = false ∧ CastStays D v .long ∧ SwitchStays D t rest) := by
  by_cases herror : v.isError = true
  · simp [herror]
  · rw [Bool.not_eq_true] at herror
    by_cases hnull : v.isNull = true
    · simp [herror, hnull, evalCastTo_null D hnull]
    · rw [Bool.not_eq_true] at hnull
      rcases evalCastTo_gives D herror hnull .long with ⟨hcast, hv⟩ | ⟨hcast, hv⟩
      · simp [herror, hnull, hv, hcast, ← hrest, Option.isSome_bind]
      · simp [herror, hv, hcast]

/-- The loop over the members of an enumeration, behind the evaluation of one. -/
theorem enumValue_isSome (t : CoreType) {v : Value R} (hv : InRange v) (rest : List (Option (Expr R)))
    (hrest : ∀ {last : Value R}, Number last → ((semEnumValues D t last rest).isSome ↔ EnumStays D t last rest)) :
    (do
        if v.isError || v.isNull then return .error .evaluationFailed
        else do
          let v ← evalCastTo D v t
          let vals ← semEnumValues D t v rest
          return vals.map fun vals => v :: vals : Option (Except EvalError (List (Value R)))).isSome ↔
      v.isError ∨ v.isNull ∨ (CastStays D v t ∧ EnumStays D t (exactCast D v t) rest) := by
  by_cases herror : v.isError = true
  · simp [herror]
  · rw [Bool.not_eq_true] at herror
    by_cases hnull : v.isNull = true
    · simp [hnull]
    · rw [Bool.not_eq_true] at hnull
      rcases evalCastTo_gives D herror hnull t with ⟨hcast, heq⟩ | ⟨hcast, heq⟩
      · simp [herror, hnull, heq, hcast, ← hrest (number_cast D hv hcast), Option.isSome_bind]
      · simp [herror, hnull, heq, hcast]

/-- The loop over the values of a `SWITCH` ends where they stay in range, and none of them is null. -/
theorem semSwitchExprList_isSome (t : CoreType) : ∀ es : List (Expr R), (semSwitchExprList D t es).isSome ↔ SwitchStays D t es
  | [] => ⟨fun _ => trivial, fun _ => rfl⟩
  | e :: rest => by
    unfold semSwitchExprList SwitchStays
    rcases semExpr e with ⟨_ | s, e⟩
    · exact ⟨fun _ => trivial, fun _ => rfl⟩
    · by_cases hrank : s.core.rank > t.rank
      · simp [hrank]
      · rcases eval_gives D e with ⟨hstays, he⟩ | ⟨hstays, he⟩
        · simp only [he, hstays, hrank, Option.bind_eq_bind, Option.bind_some, false_or, true_and]
          exact switchValue_isSome D t (exact D e) rest (semSwitchExprList_isSome t rest)
        · simp [hrank, he, hstays]

/-- The loop over the members of an enumeration. -/
theorem semEnumValues_isSome (t : CoreType) : ∀ (members : List (Option (Expr R))) {last : Value R}, Number last →
      ((semEnumValues D t last members).isSome ↔ EnumStays D t last members)
  | [], _, _ => ⟨fun _ => trivial, fun _ => rfl⟩
  | some e :: rest, last, _ => by
    unfold semEnumValues EnumStays
    rcases eval_gives D (semExpr e).2 with ⟨hstays, he⟩ | ⟨hstays, he⟩
    · simp only [he, hstays, Option.bind_eq_bind, Option.bind_some, true_and]
      exact enumValue_isSome D t (inRange_exact D _ hstays) rest (semEnumValues_isSome t rest)
    · simp [he, hstays]
  | none :: rest, last, h => by
    unfold semEnumValues EnumStays
    rcases evalAddOne_gives D h with ⟨hstays, he⟩ | ⟨hstays, he⟩
    · have hnumber := number_addOne D h hstays
      simp only [he, hstays, Option.bind_eq_bind, Option.bind_some, true_and]
      refine (enumValue_isSome D t hnumber.2.2 rest (semEnumValues_isSome t rest)).trans ?_
      simp [hnumber.1, hnumber.2.1]
    · simp [he, hstays]

end DefinedAux

end CgSql.Eval
