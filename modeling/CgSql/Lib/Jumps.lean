import Mathlib.Data.List.Basic

/-!
# Code with labels

Actions in sequence, with branches, loops, blocks, labels and jumps, over any state. A jump looks for its label behind it, in its own block and
then in the blocks around it: what comes next is handed from each piece of code to the piece behind. Loops are cut off after a number of rounds.
-/

namespace Jumps

/-- What comes next: the code behind, the end of a loop or of a round of it, or a label. -/
inductive After (L : Type)
  | next
  | leave
  | continue
  | goto (l : L)
  | cutOff
  deriving DecidableEq

/-- Code over actions, tests and labels. -/
inductive Prog (A T V L : Type)
  | skip
  | seq (c d : Prog A T V L)
  | act (a : A)
  | label (l : L)
  | goto (l : L)
  | leave
  | continue
  | block (c : Prog A T V L)
  | branch (t : T) (c d : Prog A T V L)
  | loop (c : Prog A T V L)
  /-- A block that can be left. -/
  | once (c : Prog A T V L)
  /-- A block that is entered at one of its labels, and can be left. -/
  | switch (v : V) (c : Prog A T V L)

/-- What actions and tests do, and the labels that a switch tries, in this order. -/
structure Machine (σ A T V L : Type) where
  act : A → σ → After L × σ
  test : T → σ → Bool
  select : V → σ → List L

variable {σ A T V L : Type}

/-- The labels of a block. -/
def Prog.labels : Prog A T V L → List L
  | .seq c d => c.labels ++ d.labels
  | .label l => [l]
  | _ => []

/-- The end of code that can be left. -/
def After.exit : After L → After L
  | .leave => .next
  | f => f

/-- Code that can be left. -/
def exit (r : After L × σ) : After L × σ := (r.1.exit, r.2)

/-- Labels are renamed. -/
def After.map {K : Type} (m : K → L) : After K → After L
  | .next => .next
  | .leave => .leave
  | .continue => .continue
  | .goto k => .goto (m k)
  | .cutOff => .cutOff

/-- The end of a round: `continue` goes on as well. -/
def After.settle : After L → After L
  | .continue => .next
  | f => f

def settle (r : After L × σ) : After L × σ := (r.1.settle, r.2)

/-- What follows where nothing else comes next. -/
def andThen (r : After L × σ) (k : σ → After L × σ) : After L × σ :=
  match r with
  | (.next, s) => k s
  | r => r

theorem andThen_of_ne {r : After L × σ} (h : r.1 ≠ .next) (k : σ → After L × σ) : andThen r k = r := by
  unfold andThen
  split
  · exact absurd rfl h
  · rfl

theorem andThen_goto {r : After L × σ} {k : σ → After L × σ} {l : L} (h : (andThen r k).1 = .goto l) : r.1 = .goto l ∨ (k r.2).1 = .goto l := by
  unfold andThen at h
  split at h
  · exact .inr h
  · exact .inl h

theorem settle_goto {f : After L} {l : L} (h : f.settle = .goto l) : f = .goto l := by
  cases f with
  | «continue» => cases h
  | _ => exact h

/-- Rounds, at most the given number. -/
def rounds (round : σ → After L × σ) : Nat → σ → After L × σ
  | 0, s => (.cutOff, s)
  | fuel + 1, s =>
    match round s with
    | (.next, s') | (.continue, s') => rounds round fuel s'
    | r => exit r

/-- Rounds end with a jump only where one of them does. -/
theorem rounds_goto {round : σ → After L × σ} {fuel : Nat} {s : σ} {l : L} (h : (rounds round fuel s).1 = .goto l) : ∃ t, (round t).1 = .goto l := by
  induction fuel generalizing s with
  | zero => cases h
  | succ fuel ih =>
    unfold rounds at h
    generalize hr : round s = r at h
    obtain ⟨f, s'⟩ := r
    cases f with
    | next | «continue» => exact ih h
    | goto l' => exact ⟨s, by rw [hr]; exact h⟩
    | leave | cutOff => cases h

theorem rounds_ends {round : σ → After L × σ} {fuel : Nat} {s : σ} : (rounds round fuel s).1 ≠ .leave ∧ (rounds round fuel s).1 ≠ .continue := by
  induction fuel generalizing s with
  | zero => exact ⟨nofun, nofun⟩
  | succ fuel ih =>
    unfold rounds
    generalize round s = r
    obtain ⟨f, s'⟩ := r
    cases f with
    | next | «continue» => exact ih
    | _ => exact ⟨nofun, nofun⟩

/-- Rounds that do the same end in the same way. -/
theorem rounds_map {K τ : Type} {m : K → L} {R : τ → σ → Prop} {model : τ → After K × τ} {round : σ → After L × σ}
    (hround : ∀ t s, R t s → (round s).1.settle = ((model t).1.map m).settle ∧ R (model t).2 (round s).2) (fuel : Nat) (t : τ) (s : σ) (h : R t s) :
    (rounds round fuel s).1 = (rounds model fuel t).1.map m ∧ R (rounds model fuel t).2 (rounds round fuel s).2 := by
  induction fuel generalizing t s with
  | zero => exact ⟨rfl, h⟩
  | succ fuel ih =>
    obtain ⟨hflow, hstate⟩ := hround t s h
    unfold rounds
    generalize round s = r at hflow hstate
    generalize model t = q at hflow hstate
    obtain ⟨f, s'⟩ := r
    obtain ⟨g, t'⟩ := q
    -- a round that goes on does so on both sides, and so does one that ends
    cases g <;> cases f <;> simp only [After.settle, After.map, reduceCtorEq, After.goto.injEq] at hflow
    all_goals first
      | exact ih t' s' hstate
      | exact ⟨by simp [exit, After.exit, After.map, hflow], hstate⟩

variable [DecidableEq L] (M : Machine σ A T V L) (fuel : Nat)

/-- Run code, after what came before it. -/
def Prog.run : Prog A T V L → After L → σ → After L × σ
  | .skip, f, s => (f, s)
  | .seq c d, f, s => d.run (c.run f s).1 (c.run f s).2
  | .label l, f, s => (if f = .goto l then .next else f, s)
  | .act a, .next, s => M.act a s
  | .goto l, .next, s => (.goto l, s)
  | .leave, .next, s => (.leave, s)
  | .continue, .next, s => (.continue, s)
  | .block c, .next, s => c.run .next s
  | .branch t c d, .next, s => if M.test t s then c.run .next s else d.run .next s
  | .loop c, .next, s => rounds (c.run .next) fuel s
  | .once c, .next, s => exit (c.run .next s)
  | .switch v c, .next, s =>
    match (M.select v s).find? (· ∈ c.labels) with
    | some l => exit (c.run (.goto l) s)
    | none => (.next, s)
  | _, f, s => (f, s)

variable {M fuel} {c d : Prog A T V L} {f : After L} {s : σ}

/-- What does not go on in a block and is not looking for one of its labels passes by. -/
theorem Prog.run_pass (hf : f ≠ .next) (h : ∀ l ∈ c.labels, f ≠ .goto l) : c.run M fuel f s = (f, s) := by
  induction c with
  | seq c d ihc ihd =>
    have hc := ihc fun l hl => h l (List.mem_append_left _ hl)
    rw [Prog.run, hc, ihd fun l hl => h l (List.mem_append_right _ hl)]
  | label l => rw [Prog.run, if_neg (h l List.mem_cons_self)]
  | _ => cases f with
    | next => exact absurd rfl hf
    | _ => rfl

theorem Prog.run_of_leave : c.run M fuel .leave s = (.leave, s) := run_pass nofun fun _ _ => nofun

end Jumps
