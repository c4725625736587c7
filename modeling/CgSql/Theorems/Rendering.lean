import CgSql.Lemmas.CodeShape

/-!
# Main results about parentheses

When C reads the generated texts the way they were put together.
-/

namespace CgSql.CodeGen

open Nullability Precedence

variable {V : Type}

/-- C reads a text as the tree it was put together from. -/
def ReadRightly (t : Text V) : Prop := Reads Binary.prec (.expr 0) t.tokens t.tree []

/-- C reads all texts of an expression rightly: those that `cg_expr` gives for it and its operands, and those in its statements. -/
def PreservesStructure (V : Type) : Prop :=
  ∀ (e : Expr V) (c : Ctx), ∀ t ∈ (cgExpr c e).produced ++ (cgExpr c e).code.texts, ReadRightly t

/-- `CAST(a + b AS INTEGER) * c` is read as `a + b * c`. -/
theorem preservesStructure_false : ¬ PreservesStructure Int := by
  intro h
  have h := h (.binary .mul (.cast (.binary .add (.var ⟨.integer, true⟩ "a") (.var ⟨.integer, true⟩ "b")) .integer)
    (.var ⟨.integer, true⟩ "c")) (.root 0)
  have h := (RenderingAux.cgExpr_fit _ (.root 0)).mp ⟨fun t ht => Text.reads_iff_fits.mp (h t (List.mem_append_left _ ht)),
      fun t ht => Text.reads_iff_fits.mp (h t (List.mem_append_right _ ht))⟩
  exact absurd h (by decide +kernel)

/-- All texts of an expression are read rightly if and only if casts that do nothing, type checks and the items of IN and of CASE show no
operator that the text around them binds tighter than. -/
theorem readRightly_iff_parenSafe (e : Expr V) (c : Ctx) :
    (∀ t ∈ (cgExpr c e).produced ++ (cgExpr c e).code.texts, ReadRightly t) ↔ e.parenSafe = true := by
  rw [← RenderingAux.cgExpr_fit e c, List.forall_mem_append]
  exact and_congr (forall₂_congr fun _ _ => Text.reads_iff_fits) (forall₂_congr fun _ _ => Text.reads_iff_fits)

end CgSql.CodeGen
