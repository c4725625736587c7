import Mathlib.Logic.Relation

/-!
# Walks that mark what they reach

A recursive walk over a graph that stops at marked nodes and marks the others before it goes on. The marks are kept in a state of any
kind. In a graph without cycles the walk marks what can be reached from where it starts.
-/

namespace Walk

open Relation (ReflTransGen)

variable {fuel : Nat}

/-- Marks on nodes. -/
structure Marks (σ N : Type) where
  seen : σ → N → Bool
  add : σ → N → σ
  seen_add : ∀ s n m, seen (add s n) m = true ↔ seen s m = true ∨ m = n

variable {σ N : Type} (M : Marks σ N) (next : N → List N)

/-- The walk from a node. -/
def visit : Nat → σ → N → σ
  | 0, s, _ => s
  | fuel + 1, s, n => if M.seen s n then s else (next n).foldl (visit fuel) (M.add s n)

/-- One node leads to another directly. -/
@[reducible] def Edge (a b : N) : Prop := b ∈ next a

variable {M next}

/-- The walk does nothing at a node that is marked. -/
theorem visit_seen {s : σ} {n : N} (h : M.seen s n = true) : visit M next fuel s n = s := by
  cases fuel with
  | zero => rfl
  | succ fuel => rw [visit, if_pos h]

/-- What a step that marks a node that is not marked preserves, the walk preserves. -/
theorem visit_induct (I : σ → Prop) {n : N} {s : σ}
    (hadd : ∀ s m, M.seen s m = false → ReflTransGen (Edge next) n m → I s → I (M.add s m)) (hs : I s) : I (visit M next fuel s n) := by
  induction fuel generalizing s n with
  | zero => exact hs
  | succ fuel ih =>
    rw [visit]
    rcases hseen : M.seen s n with _ | _
    · have hfold : ∀ (l : List N) (s : σ), (∀ m ∈ l, m ∈ next n) → I s → I (l.foldl (visit M next fuel) s) := by
        intro l
        induction l with
        | nil => exact fun s _ hs => hs
        | cons m l ihl =>
          intro s hl hs
          refine ihl _ (fun k hk => hl k (List.mem_cons_of_mem _ hk)) (ih ?_ hs)
          exact fun s k hk hreach => hadd s k hk (hreach.head (hl m List.mem_cons_self))
      simp only [Bool.false_eq_true, if_false]
      exact hfold (next n) _ (fun _ hm => hm) (hadd s n hseen .refl hs)
    · exact hs

/-- Marks stay. -/
theorem seen_visit {s : σ} {n m : N} (h : M.seen s m = true) : M.seen (visit M next fuel s n) m = true :=
  visit_induct (fun s => M.seen s m = true) (fun s k _ _ hs => (M.seen_add s k m).2 (Or.inl hs)) h

theorem seen_foldl {m : N} (l : List N) {s : σ} (h : M.seen s m = true) : M.seen (l.foldl (visit M next fuel) s) m = true := by
  induction l generalizing s with
  | nil => exact h
  | cons n l ih => exact ih (seen_visit h)

/-- What the walk marks can be reached. -/
theorem reaches_of_seen_visit {s : σ} {n m : N} (h : M.seen (visit M next fuel s n) m = true) :
    M.seen s m = true ∨ ReflTransGen (Edge next) n m := by
  refine visit_induct (fun s' => M.seen s' m = true → M.seen s m = true ∨ ReflTransGen (Edge next) n m) ?_ Or.inl h
  intro s' k _ hreach hs' hm
  rcases (M.seen_add s' k m).1 hm with hm | rfl
  · exact hs' hm
  · exact Or.inr hreach

/-- Between two states, what is newly marked leads to what is marked. -/
def Fills (M : Marks σ N) (next : N → List N) (s s' : σ) : Prop :=
  ∀ a, M.seen s' a = true → M.seen s a = true ∨ ∀ b ∈ next a, M.seen s' b = true

variable {rank : N → Nat} (hrank : ∀ a, ∀ b ∈ next a, rank b < rank a)
include hrank

/-- With enough fuel the walk marks its node, and everything that its new marks lead to. -/
theorem visit_fills {s : σ} {n : N} (hfuel : rank n < fuel) :
    M.seen (visit M next fuel s n) n = true ∧ Fills M next s (visit M next fuel s n) := by
  induction fuel generalizing s n with
  | zero => omega
  | succ fuel ih =>
    rw [visit]
    rcases hseen : M.seen s n with _ | _
    · have hfold : ∀ (l : List N) (s : σ), (∀ m ∈ l, rank m < fuel) →
          (∀ m ∈ l, M.seen (l.foldl (visit M next fuel) s) m = true) ∧ Fills M next s (l.foldl (visit M next fuel) s) := by
        intro l
        induction l with
        | nil => exact fun s _ => ⟨by simp, fun a ha => Or.inl ha⟩
        | cons m l ihl =>
          intro s hl
          obtain ⟨hself, hfill⟩ := @ih s m (hl m List.mem_cons_self)
          obtain ⟨hall, hfills⟩ := ihl (visit M next fuel s m) fun k hk => hl k (List.mem_cons_of_mem _ hk)
          refine ⟨fun k hk => ?_, fun a ha => ?_⟩
          · rcases List.mem_cons.1 hk with rfl | hk
            · exact seen_foldl l hself
            · exact hall k hk
          · rcases hfills a ha with ha | ha
            · rcases hfill a ha with ha | ha
              · exact Or.inl ha
              · exact Or.inr fun b hb => seen_foldl l (ha b hb)
            · exact Or.inr ha
      simp only [Bool.false_eq_true, if_false]
      obtain ⟨hall, hfills⟩ := hfold (next n) (M.add s n) fun m hm => by
        have := hrank n m hm
        omega
      refine ⟨seen_foldl _ ((M.seen_add s n n).2 (Or.inr rfl)), fun a ha => ?_⟩
      rcases hfills a ha with ha | ha
      · rcases (M.seen_add s n a).1 ha with ha | rfl
        · exact Or.inl ha
        · exact Or.inr hall
      · exact Or.inr ha
    · exact ⟨hseen, fun a ha => Or.inl ha⟩

/-- From marks that lead to marks only, the walk adds exactly what can be reached. -/
theorem seen_visit_iff {s : σ} {n m : N} (hfuel : rank n < fuel) (hs : ∀ a, M.seen s a = true → ∀ b ∈ next a, M.seen s b = true) :
    M.seen (visit M next fuel s n) m = true ↔ M.seen s m = true ∨ ReflTransGen (Edge next) n m := by
  obtain ⟨hself, hfills⟩ := visit_fills (M := M) (s := s) hrank hfuel
  constructor
  · exact reaches_of_seen_visit
  · intro h
    rcases h with h | h
    · exact seen_visit h
    · induction h with
      | refl => exact hself
      | tail _ hbc ih =>
        rcases hfills _ ih with hb | hb
        · exact seen_visit (hs _ hb _ hbc)
        · exact hb _ hbc

end Walk
