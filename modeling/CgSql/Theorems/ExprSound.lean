import CgSql.Lemmas.ExecFrame
import CgSql.Lemmas.SemImprove
import CgSql.Theorems.Assertions
import Mathlib.Data.Nat.Pairing

/-!
# Improvements by conditions

What a condition improves when it is true, or not true, is not null where what it guards begins.
-/

namespace CgSql

open Exits Flow M

/-! ## Conditions -/

/-- What a function improves after a condition holds, in every evaluation of the condition that `ends` says: the condition was
analysed, and the state in which it is improved by it meets `H`. -/
def ImprovesRightly (Γ : Env) (improve : Expr → M Unit) (ends : Option Int → Prop) (H : Expr → Sem → Prop) : Prop :=
  ∀ (W : World) (c c' : Expr) (s₀ s t u : Sem) (rt rt' : Rt) (v : Option Int), semExpr Γ c s₀ = (.ok c', s) →
    t.loop ≠ .analyze → H c' t → improve c' t = (.ok (), u) → eval Γ W c' rt = .done v rt' → ends v →
      ∀ l f, t.flow.flags (Γ.addr l, f) = false → u.flow.flags (Γ.addr l, f) = true → rt'.holds Γ l f

/-- What a condition improves when it is true is improved already, or declared NOT NULL, or tested where no call comes after and the only name of its
type word. -/
def Expr.TrueImprovesValid (Γ : Env) (c : Expr) (s : Sem) : Prop :=
  ∀ l ∈ c.improvedIfTrue, (l ∈ c.validIfTrue Γ ∧ Γ.Alone l) ∨ s.flow.flags (Γ.improvedKey l) = true ∨ Γ.notNull s.loop l = true

/-- What a condition improves when it is not true is improved already, or declared NOT NULL, or tested where no call comes after and the only name of
its type word. -/
def Expr.FalseImprovesValid (Γ : Env) (c : Expr) (s : Sem) : Prop :=
  ∀ l ∈ c.improvedIfFalse, (l ∈ c.validIfFalse Γ ∧ Γ.Alone l) ∨ s.flow.flags (Γ.improvedKey l) = true ∨ Γ.notNull s.loop l = true

/-- The improvements of conditions hold, of those that are true and of those that are not. -/
def ConditionsImproveRightly (Γ : Env) (H H' : Expr → Sem → Prop) : Prop :=
  ImprovesRightly Γ (semSetImprovementsForTrueCondition Γ) (fun v => isTrue v = true) H ∧
    ImprovesRightly Γ (semSetImprovementsForFalseCondition Γ) (fun v => isTrue v = false) H'

/-- The fact of an improvement by a condition. -/
theorem holds_of_read {Γ : Env} {rt : Rt} {l l' : Loc} (halone : Γ.Alone l) {f : SemFlag} {pass : LoopState} (hl : pass ≠ .analyze)
    (hk : (Γ.addr l', f) = Γ.improvedKey l) (hn : Γ.notNull pass l = false) (hr : (rt.read Γ l).isSome) : rt.holds Γ l' f := by
  have hn' : Γ.notNull .none l = false := by
    unfold Env.notNull at *
    split <;> simp_all
  have hval : (rt.val l).isSome := by
    unfold Rt.read at hr
    simpa [hn'] using hr
  cases l <;> obtain ⟨ha, rfl⟩ := Prod.mk.inj hk <;> obtain rfl := halone _ ha
  · exact hr
  · exact hr
  · exact hval

/-- What is newly set is set for a name that is valid. -/
theorem Improved.holds {Γ : Env} {ls valid : List Loc} {t u : Sem} {rt : Rt} (h : Improved Γ ls t u) (hl : t.loop ≠ .analyze)
    (hv : ∀ l ∈ ls, (l ∈ valid ∧ Γ.Alone l) ∨ t.flow.flags (Γ.improvedKey l) = true ∨ Γ.notNull t.loop l = true)
    (hr : ∀ l ∈ valid, (rt.read Γ l).isSome) {l : Loc} {f : SemFlag} (hs : t.flow.flags (Γ.addr l, f) = false)
    (hu : u.flow.flags (Γ.addr l, f) = true) : rt.holds Γ l f := by
  rcases h.new _ hu with hk | ⟨l', hmem, hkey, hn⟩
  · rw [hs] at hk
    cases hk
  · rcases hv l' hmem with ⟨hval, halone⟩ | hk | hnn
    · exact holds_of_read halone hl hkey hn (hr l' hval)
    · rw [← hkey, hs] at hk
      cases hk
    · rw [hn] at hnn
      cases hnn

namespace ExprSoundAux

open AssertionsAux

/-- `g IS NOT NULL AND f()` for a global `g`. -/
def resetByCall : Expr := .logical .and (.isOp true (use 8) .null) (.call 0 .nil)

/-- `x IS NOT NULL AND y` -/
def guardedLeft : Expr := .logical .and (.isOp true (use 0) .null) (use 1)

/-- The call succeeds and sets the globals to null. -/
def resetting : World := fun _ => ⟨false, some 1, fun _ => none⟩

/-- Nothing is null. -/
def ones : Rt := ⟨fun _ => some 1, fun _ => true, 0⟩

/-- Declarations for examples: variables, cursors and fields of cursors, all of them nullable and no two with one type word. The
variables from 8 on are global. -/
def names : Env :=
  { decls with
    addr
      | .var v => 3 * v
      | .cursor c => 3 * c + 1
      | .field c i => 3 * Nat.pair c i + 2
    globalWord p := p % 3 = 0 ∧ 24 ≤ p }

theorem names_distinct : names.Distinct := by
  intro l l' h
  cases l <;> cases l' <;> change @Eq Nat _ _ at h <;> simp only [names] at h <;> try omega
  case var.var => exact congrArg Loc.var (by omega)
  case cursor.cursor => exact congrArg Loc.cursor (by omega)
  case field.field =>
    obtain ⟨rfl, rfl⟩ := Nat.pair_eq_pair.mp (Nat.eq_of_mul_eq_mul_left (by decide) (Nat.add_right_cancel h))
    rfl

end ExprSoundAux

end CgSql
