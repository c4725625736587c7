import Mathlib.Logic.Basic

/-!
# Computations that can fault

What a computation gives unless it faults in an allowed way, with the rules of sequence and of consequence.
-/

namespace Faults

variable {ε α β : Type} {allowed : ε → Prop}

/-- A computation gives a value with a property, or faults in an allowed way. -/
def Gives (allowed : ε → Prop) (x : Except ε α) (P : α → Prop) : Prop :=
  match x with
  | .ok a => P a
  | .error f => allowed f

/-- One computation after another. -/
theorem Gives.bind {x : Except ε α} {f : α → Except ε β} {P : α → Prop} {Q : β → Prop} (hx : Gives allowed x P)
    (hf : ∀ a, P a → Gives allowed (f a) Q) : Gives allowed (x >>= f) Q := by
  cases x with
  | error e => exact hx
  | ok a => exact hf a hx

theorem Gives.mono {x : Except ε α} {P Q : α → Prop} (hx : Gives allowed x P) (h : ∀ a, P a → Q a) : Gives allowed x Q := by
  cases x with
  | error e => exact hx
  | ok a => exact h a hx

end Faults
