import Mathlib.Logic.Basic

/-!
# Computations that end

A computation that may fail, the condition under which it ends, and its result: how they go together along the steps of a program.
-/

namespace Outcome

/-- A computation ends exactly if `P`, and with `x`. -/
def Gives {α : Type} (o : Option α) (P : Prop) (x : α) : Prop := (P ∧ o = some x) ∨ (¬P ∧ o = none)

variable {α β : Type} {o : Option α} {P Q : Prop} {x : α} {y : β}

/-- Whether it ends. -/
theorem isSome_iff (h : Gives o P x) : o.isSome ↔ P := by
  rcases h with ⟨hP, rfl⟩ | ⟨hP, rfl⟩
  · simp [hP]
  · simp [hP]

/-- It ends with nothing else. -/
theorem eq_of_some {z : α} (h : Gives o P x) (hz : o = some z) : P ∧ z = x := by
  rcases h with ⟨hP, ho⟩ | ⟨_, ho⟩
  · exact ⟨hP, Option.some.inj (hz.symm.trans ho)⟩
  · rw [ho] at hz
    nomatch hz

/-- A value that is there. -/
theorem gives_some (hP : P) (x : α) : Gives (some x) P x := Or.inl ⟨hP, rfl⟩

/-- One computation behind another. -/
theorem gives_bind {f : α → Option β} (h : Gives o P x) (hf : P → Gives (f x) Q y) : Gives (o.bind f) (P ∧ Q) y := by
  rcases h with ⟨hP, rfl⟩ | ⟨hP, rfl⟩
  · rcases hf hP with ⟨hQ, hy⟩ | ⟨hQ, hy⟩
    · exact Or.inl ⟨⟨hP, hQ⟩, hy⟩
    · exact Or.inr ⟨fun h => hQ h.2, hy⟩
  · exact Or.inr ⟨fun h => hP h.1, rfl⟩

/-- A function of its result. -/
theorem gives_map (f : α → β) (h : Gives o P x) : Gives (o.map f) P (f x) := by
  rcases h with ⟨hP, rfl⟩ | ⟨hP, rfl⟩
  · exact Or.inl ⟨hP, rfl⟩
  · exact Or.inr ⟨hP, rfl⟩

/-- The condition in other words. -/
theorem gives_congr (h : Gives o P x) (hPQ : P ↔ Q) : Gives o Q x := by
  rcases h with ⟨hP, ho⟩ | ⟨hP, ho⟩
  · exact Or.inl ⟨hPQ.mp hP, ho⟩
  · exact Or.inr ⟨mt hPQ.mpr hP, ho⟩

/-- A condition that decides. -/
theorem gives_ite [Decidable P] (h : P ↔ Q) (x : α) : Gives (if P then some x else none) Q x := by
  by_cases hP : P
  · exact Or.inl ⟨h.mp hP, if_pos hP⟩
  · exact Or.inr ⟨mt h.mpr hP, if_neg hP⟩

/-- Two operands, and an operator that always has a result. -/
theorem both_give {γ : Type} {o' : Option β} {z : γ} {f : α → β → Option γ} (hx : Gives o P x) (hy : Gives o' Q y) (hf : f x y = some z) :
    Gives (o.bind fun l => o'.bind fun r => f l r) (P ∧ Q) z := by
  refine gives_congr (gives_bind hx fun _ => gives_bind hy fun _ => ?_) (by rw [and_true])
  rw [hf]
  exact gives_some trivial z

end Outcome
