import Mathlib.Logic.Basic

/-!
# Programs that can leave early

A program over a state ends with a value, or leaves through one of several exits, or faults. Triples give a precondition, a
postcondition and a condition for each exit, and rule faults out. The rules are those of sequence, of exits and their handlers, and
of a loop with an invariant. A loop is cut off after a number of rounds, so that a triple speaks of every number of them.
-/

namespace Exits

/-- How a program ends: with a value, through an exit, with a fault, or cut off. -/
inductive Outcome (σ κ α : Type)
  | done (a : α) (s : σ)
  | exit (k : κ) (s : σ)
  | fault
  | cutOff

/-- A program over states `σ` with exits `κ`. -/
def Prog (σ κ α : Type) : Type := σ → Outcome σ κ α

variable {σ κ α β : Type}

namespace Prog

variable {s u : σ}

/-- Run a program, then another on its value. -/
def andThen (m : Prog σ κ α) (f : α → Prog σ κ β) : Prog σ κ β := fun s =>
  match m s with
  | .done a t => f a t
  | .exit k t => .exit k t
  | .fault => .fault
  | .cutOff => .cutOff

instance : Monad (Prog σ κ) where
  pure a := fun s => .done a s
  bind := andThen

/-- The state. -/
def state : Prog σ κ σ := fun s => .done s s

/-- Change the state. -/
def update (f : σ → σ) : Prog σ κ Unit := fun s => .done () (f s)

/-- Leave through an exit. -/
def leave (k : κ) : Prog σ κ α := fun s => .exit k s

/-- Fault. -/
def fault : Prog σ κ α := fun _ => .fault

/-- Stop without an outcome. -/
def cutOff : Prog σ κ α := fun _ => .cutOff

/-- Run a program and, if it leaves through an exit that has a handler, the handler. -/
def handle (m : Prog σ κ α) (h : κ → Option (Prog σ κ α)) : Prog σ κ α := fun s =>
  match m s with
  | .exit k t =>
    match h k with
    | some p => p t
    | none => .exit k t
  | o => o

/-- Run a round until it yields false, at most the given number of times. -/
def loop : Nat → Prog σ κ Bool → Prog σ κ Unit
  | 0, _ => cutOff
  | fuel + 1, round => andThen round fun more => if more then loop fuel round else fun s => .done () s

/-! ## Values -/

/-- A sequence that ends with a value. -/
theorem bind_done {m : Prog σ κ α} {f : α → Prog σ κ β} {b : β} : (m >>= f) s = .done b u ↔ ∃ a t, m s = .done a t ∧ f a t = .done b u := by
  change Prog.andThen m f s = _ ↔ _
  unfold Prog.andThen
  cases m s with
  | done a t => exact ⟨fun h => ⟨a, t, rfl, h⟩, fun ⟨_, _, h, h'⟩ => by cases h; exact h'⟩
  | exit k t => exact ⟨fun h => (by cases h), fun ⟨_, _, h, _⟩ => by cases h⟩
  | fault => exact ⟨fun h => (by cases h), fun ⟨_, _, h, _⟩ => by cases h⟩
  | cutOff => exact ⟨fun h => (by cases h), fun ⟨_, _, h, _⟩ => by cases h⟩

theorem pure_done {a b : α} : (Pure.pure a : Prog σ κ α) s = .done b u ↔ a = b ∧ s = u := by
  change (Outcome.done a s : Outcome σ κ α) = .done b u ↔ _
  simp

theorem state_done {t : σ} : (Prog.state : Prog σ κ σ) s = .done t u ↔ s = t ∧ s = u := by
  change (Outcome.done s s : Outcome σ κ σ) = .done t u ↔ _
  simp

theorem update_done {f : σ → σ} {x : Unit} : (Prog.update f : Prog σ κ Unit) s = .done x u ↔ f s = u := by
  change (Outcome.done () (f s) : Outcome σ κ Unit) = .done x u ↔ _
  simp

end Prog

/-! ## Triples -/

/-- From every state that satisfies `P` the program does not fault; a value it ends with satisfies `Q`, and an exit `E`. -/
def Triple (P : σ → Prop) (m : Prog σ κ α) (Q : α → σ → Prop) (E : κ → σ → Prop) : Prop :=
  ∀ s, P s → match m s with
    | .done a t => Q a t
    | .exit k t => E k t
    | .fault => False
    | .cutOff => True

namespace Triple

variable {P P' : σ → Prop} {m : Prog σ κ α} {Q Q' : α → σ → Prop} {E E' : κ → σ → Prop}

theorem weaken (h : Triple P m Q E) (hP : ∀ s, P' s → P s) (hQ : ∀ a s, Q a s → Q' a s) (hE : ∀ k s, E k s → E' k s) : Triple P' m Q' E' := by
  intro s hs
  have hs := h s (hP s hs)
  split at hs
  · exact hQ _ _ hs
  · exact hE _ _ hs
  · exact hs
  · trivial

theorem strengthenPre (h : Triple P m Q E) (hP : ∀ s, P' s → P s) : Triple P' m Q E :=
  h.weaken hP (fun _ _ => id) (fun _ _ => id)

theorem weakenPost (h : Triple P m Q E) (hQ : ∀ a s, Q a s → Q' a s) : Triple P m Q' E :=
  h.weaken (fun _ => id) hQ (fun _ _ => id)

theorem weakenExit (h : Triple P m Q E) (hE : ∀ k s, E k s → E' k s) : Triple P m Q E' :=
  h.weaken (fun _ => id) (fun _ _ => id) hE

theorem pure {a : α} (h : ∀ s, P s → Q a s) : Triple P (Pure.pure a) Q E := fun s hs => h s hs

theorem bind {f : α → Prog σ κ β} {Q' : β → σ → Prop} (h : Triple P m Q E) (hf : ∀ a, Triple (Q a) (f a) Q' E) : Triple P (m >>= f) Q' E := by
  intro s hs
  have hm := h s hs
  change match Prog.andThen m f s with | .done a t => Q' a t | .exit k t => E k t | .fault => False | .cutOff => True
  unfold Prog.andThen
  cases hms : m s with
  | done a t => rw [hms] at hm; exact hf a t hm
  | exit k t => rw [hms] at hm; exact hm
  | fault => rw [hms] at hm; exact hm
  | cutOff => trivial

/-- A program that begins by reading the state is one program for each state. -/
theorem read {f : σ → Prog σ κ β} {Q : β → σ → Prop} (h : ∀ s, P s → Triple (· = s) (f s) Q E) : Triple P (Prog.state >>= f) Q E :=
  fun s hs => h s hs s rfl

/-- A triple at a state that meets the precondition. -/
theorem point {s : σ} (h : Triple P m Q E) (hs : P s) : Triple (· = s) m Q E := h.strengthenPre fun _ e => e ▸ hs

theorem update {f : σ → σ} {Q : Unit → σ → Prop} (h : ∀ s, P s → Q () (f s)) : Triple P (Prog.update f) Q E :=
  fun s hs => h s hs

theorem leave {k : κ} (h : ∀ s, P s → E k s) : Triple P (Prog.leave k : Prog σ κ α) Q E := fun s hs => h s hs

theorem cutOff : Triple P (Prog.cutOff : Prog σ κ α) Q E := fun _ _ => trivial

/-- A handled exit meets the precondition of its handler; any other is passed on. -/
theorem handle {h : κ → Option (Prog σ κ α)} {E' : κ → σ → Prop} (hm : Triple P m Q E')
    (hsome : ∀ k p, h k = some p → Triple (E' k) p Q E) (hnone : ∀ k s, h k = none → E' k s → E k s) :
    Triple P (m.handle h) Q E := by
  intro s hs
  have hms := hm s hs
  unfold Prog.handle
  cases hc : m s with
  | done a t => rw [hc] at hms; exact hms
  | fault => rw [hc] at hms; exact hms
  | cutOff => trivial
  | exit k t =>
    rw [hc] at hms
    cases hk : h k with
    | some p => simpa only [hk] using hsome k p hk t hms
    | none => simpa only [hk] using hnone k t hk hms

/-- A loop keeps what every round that goes on keeps. -/
theorem loop {I : σ → Prop} {Q : Unit → σ → Prop} {round : Prog σ κ Bool}
    (h : Triple I round (fun more s => if more then I s else Q () s) E) (fuel : Nat) :
    Triple I (Prog.loop fuel round) Q E := by
  induction fuel with
  | zero => exact cutOff
  | succ fuel ih =>
    refine bind (m := round) h fun more => ?_
    cases more with
    | true => exact ih
    | false => exact fun s hs => by simpa using hs

end Triple

end Exits
