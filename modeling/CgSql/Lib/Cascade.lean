import Mathlib.Data.Finset.Card

/-!
# Parts that depend on each other

A graph of parts, given by the direct dependents of each. Its numbering from the leaves, depth first; all that depends on a part, as a list;
and the invariant of a run that brings the parts up to date one after the other, where the update of a part loses all that depends on it
and marks only its direct dependents.
-/

namespace Cascade

open Relation (TransGen ReflTransGen)

variable {α : Type} (next : α → List α)

/-- One part depends on another directly. -/
@[reducible] def Edge (a b : α) : Prop := b ∈ next a

/-- No part depends on itself. -/
def Acyclic : Prop := ∀ a, ¬TransGen (Edge next) a a

/-! ## Heights -/

open Classical in
/-- How many of the parts depend on a part, itself counted. -/
noncomputable def height (parts : List α) (a : α) : Nat := (parts.toFinset.filter fun c => ReflTransGen (Edge next) a c).card

variable {next} {parts : List α}

theorem height_le (a : α) : height next parts a ≤ parts.length := by
  classical
  exact (Finset.card_filter_le _ _).trans (List.toFinset_card_le _)

/-- Heights get smaller along the edges. -/
theorem height_lt (hacyclic : Acyclic next) (hparts : ∀ a, next a ≠ [] → a ∈ parts) {a b : α} (hb : b ∈ next a) :
    height next parts b < height next parts a := by
  classical
  apply Finset.card_lt_card
  rw [Finset.ssubset_iff_of_subset]
  · refine ⟨a, ?_, ?_⟩
    · simpa using ⟨hparts a (List.ne_nil_of_mem hb), ReflTransGen.refl⟩
    · intro ha
      have hba : ReflTransGen (Edge next) b a := by simpa using (Finset.mem_filter.mp ha).2
      exact hacyclic a (TransGen.head' hb hba)
  · intro c hc
    rw [Finset.mem_filter] at hc ⊢
    exact ⟨hc.1, hc.2.head hb⟩

/-- A graph whose edges lower some number is acyclic. -/
theorem acyclic_of_lt (rank : α → Nat) (h : ∀ a, ∀ b ∈ next a, rank b < rank a) : Acyclic next := by
  have hlt : ∀ {a b}, TransGen (Edge next) a b → rank b < rank a := by
    intro a b hab
    induction hab with
    | single hb => exact h _ _ hb
    | tail _ hc ih => exact (h _ _ hc).trans ih
  intro a ha
  exact Nat.lt_irrefl _ (hlt ha)

/-! ## Another edge -/

section AddEdge

variable [DecidableEq α]

variable (next) in
/-- The graph with an edge from `u` to `v`. -/
def addEdge (u v : α) : α → List α := Function.update next u (next u ++ [v])

theorem edge_addEdge_iff {u v a b : α} : Edge (addEdge next u v) a b ↔ Edge next a b ∨ (a = u ∧ b = v) := by
  by_cases h : a = u
  · subst h
    simp [Edge, addEdge]
  · simp [Edge, addEdge, h]

/-- A path that takes the edge comes to its start first, and goes on from its end. -/
theorem path_addEdge {u v a b : α} (h : TransGen (Edge (addEdge next u v)) a b) :
    TransGen (Edge next) a b ∨ (ReflTransGen (Edge next) a u ∧ ReflTransGen (Edge next) v b) := by
  induction h with
  | single hb =>
    rcases edge_addEdge_iff.mp hb with hb | ⟨rfl, rfl⟩
    · exact .inl (.single hb)
    · exact .inr ⟨.refl, .refl⟩
  | tail _ hc ih =>
    rcases edge_addEdge_iff.mp hc with hc | ⟨rfl, rfl⟩
    · rcases ih with hab | ⟨hau, hvb⟩
      · exact .inl (hab.tail hc)
      · exact .inr ⟨hau, hvb.tail hc⟩
    · rcases ih with hab | ⟨hau, -⟩
      · exact .inr ⟨hab.to_reflTransGen, .refl⟩
      · exact .inr ⟨hau, .refl⟩

/-- An edge closes a cycle exactly when there is a path back. -/
theorem acyclic_addEdge_iff (hacyclic : Acyclic next) (u v : α) : Acyclic (addEdge next u v) ↔ ¬ReflTransGen (Edge next) v u := by
  constructor
  · intro h hback
    have hle : Edge next ≤ Edge (addEdge next u v) := fun _ _ hab => edge_addEdge_iff.mpr (.inl hab)
    have hpath := ReflTransGen.mono hle v u hback
    exact h u (TransGen.head' (edge_addEdge_iff.mpr (.inr ⟨rfl, rfl⟩)) hpath)
  · intro hback a ha
    rcases path_addEdge ha with ha | ⟨hau, hva⟩
    · exact hacyclic a ha
    · exact hback (hva.trans hau)

end AddEdge

/-! ## All that depends on a part -/

variable (next) in
/-- What depends on a part, and the part: dependents first. -/
def dropOrder : Nat → α → List α
  | 0, a => [a]
  | fuel + 1, a => (next a).flatMap (dropOrder fuel) ++ [a]

/-- Nothing but what depends on a part is listed. -/
theorem reaches_of_mem_dropOrder {fuel : Nat} {a c : α} (h : c ∈ dropOrder next fuel a) : ReflTransGen (Edge next) a c := by
  induction fuel generalizing a with
  | zero =>
    obtain rfl : c = a := by simpa [dropOrder] using h
    exact .refl
  | succ fuel ih =>
    rw [dropOrder, List.mem_append, List.mem_flatMap, List.mem_singleton] at h
    rcases h with ⟨b, hb, hc⟩ | rfl
    · exact (ih hc).head hb
    · exact .refl

/-! ## Numbers -/

/-- The numbers that parts have so far, and the next number. -/
structure Numbering (α : Type) where
  ordinal : α → Option Nat
  count : Nat

namespace Numbering

variable [DecidableEq α]
variable {s : Numbering α} {a : α} {limit : Nat}

/-- No part has a number. -/
def empty : Numbering α := ⟨fun _ => none, 0⟩

/-- The next number goes to a part. -/
def assign (s : Numbering α) (a : α) : Numbering α := ⟨Function.update s.ordinal a (some s.count), s.count + 1⟩

variable (next) in
/-- A part is numbered after the parts that depend on it. -/
def visit : Nat → α → Numbering α → Numbering α
  | 0, a, s => s.assign a
  | fuel + 1, a, s => ((next a).foldl (fun s b => if (s.ordinal b).isSome then s else visit fuel b s) s).assign a

variable (next) in
/-- All parts of a list are numbered, with what depends on them. -/
def visitAll (fuel : Nat) (parts : List α) (s : Numbering α) : Numbering α :=
  parts.foldl (fun s a => if (s.ordinal a).isSome then s else visit next fuel a s) s

variable (next) in
/-- Numbers are distinct, below the next one, and those of what depends on a part are below its own. -/
structure Topological (s : Numbering α) : Prop where
  lt : ∀ {a n}, s.ordinal a = some n → n < s.count
  inj : ∀ {a b n}, s.ordinal a = some n → s.ordinal b = some n → a = b
  below : ∀ {a n}, s.ordinal a = some n → ∀ b ∈ next a, ∃ m, s.ordinal b = some m ∧ m < n

omit [DecidableEq α] in
theorem topological_empty : Topological next (empty : Numbering α) :=
  ⟨by simp [empty], by simp [empty], by simp [empty]⟩

/-- A part gets a number when all that depends on it has one. -/
theorem topological_assign (h : Topological next s) (hnone : s.ordinal a = none)
    (hnext : ∀ b ∈ next a, (s.ordinal b).isSome) : Topological next (s.assign a) := by
  have hother : ∀ {c}, c ≠ a → (s.assign a).ordinal c = s.ordinal c := by
    intro c hc
    simp [assign, hc]
  have hself : (s.assign a).ordinal a = some s.count := by simp [assign]
  have hbelow : ∀ {c n}, s.ordinal c = some n → c ≠ a := by
    rintro c n hc rfl
    rw [hnone] at hc
    cases hc
  refine ⟨?_, ?_, ?_⟩
  · intro c n hc
    by_cases hca : c = a
    · subst hca
      rw [hself] at hc
      cases hc
      exact Nat.lt_succ_self _
    · exact Nat.lt_succ_of_lt (h.lt (hother hca ▸ hc))
  · intro c d n hc hd
    by_cases hca : c = a <;> by_cases hda : d = a
    · rw [hca, hda]
    · subst hca
      rw [hself] at hc
      cases hc
      exact absurd (h.lt (hother hda ▸ hd)) (Nat.lt_irrefl _)
    · subst hda
      rw [hself] at hd
      cases hd
      exact absurd (h.lt (hother hca ▸ hc)) (Nat.lt_irrefl _)
    · exact h.inj (hother hca ▸ hc) (hother hda ▸ hd)
  · intro c n hc b hb
    by_cases hca : c = a
    · subst hca
      rw [hself] at hc
      cases hc
      obtain ⟨m, hm⟩ := Option.isSome_iff_exists.mp (hnext b hb)
      exact ⟨m, by rw [hother (hbelow hm), hm], h.lt hm⟩
    · obtain ⟨m, hm, hlt⟩ := h.below (hother hca ▸ hc) b hb
      exact ⟨m, by rw [hother (hbelow hm), hm], hlt⟩

variable (next) in
/-- Numbers given are kept, and only parts below some height get new ones. -/
structure Extends (parts : List α) (limit : Nat) (s s' : Numbering α) : Prop where
  keeps : ∀ {c n}, s.ordinal c = some n → s'.ordinal c = some n
  only : ∀ {c}, s.ordinal c = none → limit ≤ height next parts c → s'.ordinal c = none

omit [DecidableEq α] in
theorem Extends.refl (s : Numbering α) : Extends next parts limit s s := ⟨id, fun h _ => h⟩

omit [DecidableEq α] in
theorem Extends.trans {s₁ s₂ s₃ : Numbering α} (h₁ : Extends next parts limit s₁ s₂)
    (h₂ : Extends next parts limit s₂ s₃) : Extends next parts limit s₁ s₃ :=
  ⟨fun h => h₂.keeps (h₁.keeps h), fun h hc => h₂.only (h₁.only h hc) hc⟩

omit [DecidableEq α] in
theorem Extends.mono {limit' : Nat} {s' : Numbering α} (h : Extends next parts limit s s') (hle : limit ≤ limit') :
    Extends next parts limit' s s' :=
  ⟨h.keeps, fun hc hl => h.only hc (hle.trans hl)⟩

theorem extends_assign (hnone : s.ordinal a = none) : Extends next parts (height next parts a + 1) s (s.assign a) := by
  refine ⟨?_, ?_⟩
  · intro c n hc
    have hca : c ≠ a := by
      rintro rfl
      rw [hnone] at hc
      cases hc
    simp [assign, hca, hc]
  · intro c hc hl
    have hca : c ≠ a := by
      rintro rfl
      omega
    simp [assign, hca, hc]

variable (next) in
/-- What a visit does: the part has its number, in a topological numbering. -/
structure Visited (parts : List α) (a : α) (s s' : Numbering α) : Prop where
  topological : Topological next s'
  extend : Extends next parts (height next parts a + 1) s s'
  numbered : (s'.ordinal a).isSome

/-- Visits one after the other, where each does what a visit does. -/
theorem visitAll_spec {fuel : Nat} {as : List α}
    (hvisit : ∀ a ∈ as, ∀ s, Topological next s → s.ordinal a = none → Visited next parts a s (visit next fuel a s))
    (hlimit : ∀ a ∈ as, height next parts a < limit) (h : Topological next s) :
    Topological next (visitAll next fuel as s) ∧ Extends next parts limit s (visitAll next fuel as s) ∧
      ∀ a ∈ as, ((visitAll next fuel as s).ordinal a).isSome := by
  induction as generalizing s with
  | nil => exact ⟨h, .refl s, by simp⟩
  | cons a as ih =>
    have ih := fun {s} => @ih s (fun b hb => hvisit b (by simp [hb])) (fun b hb => hlimit b (by simp [hb]))
    obtain ⟨s₁, hs₁, h₁, he₁, hn₁⟩ : ∃ s₁, visitAll next fuel (a :: as) s = visitAll next fuel as s₁ ∧ Topological next s₁ ∧
        Extends next parts limit s s₁ ∧ (s₁.ordinal a).isSome := by
      cases hsome : s.ordinal a with
      | some n => exact ⟨s, by simp [visitAll, hsome], h, .refl s, by simp [hsome]⟩
      | none =>
        have hv := hvisit a (by simp) s h hsome
        exact ⟨_, by simp [visitAll, hsome], hv.topological, hv.extend.mono (hlimit a (by simp)), hv.numbered⟩
    obtain ⟨h₂, he₂, hn₂⟩ := ih h₁
    rw [hs₁]
    refine ⟨h₂, he₁.trans he₂, ?_⟩
    intro b hb
    rcases List.mem_cons.mp hb with rfl | hb
    · obtain ⟨n, hn⟩ := Option.isSome_iff_exists.mp hn₁
      simp [he₂.keeps hn]
    · exact hn₂ b hb

/-- A visit with fuel for the height of the part. -/
theorem visit_spec (hacyclic : Acyclic next) (hparts : ∀ a, next a ≠ [] → a ∈ parts) {fuel : Nat}
    (h : Topological next s) (hnone : s.ordinal a = none) (hfuel : height next parts a ≤ fuel) :
    Visited next parts a s (visit next fuel a s) := by
  induction fuel generalizing a s with
  | zero =>
    have hleaf : ∀ b ∈ next a, (s.ordinal b).isSome := by
      intro b hb
      have := height_lt hacyclic hparts hb
      omega
    exact ⟨topological_assign h hnone hleaf, extends_assign hnone, by simp [visit, assign]⟩
  | succ fuel ih =>
    have hlimit : ∀ b ∈ next a, height next parts b < height next parts a := fun b hb => height_lt hacyclic hparts hb
    have hvisit : ∀ b ∈ next a, ∀ s, Topological next s → s.ordinal b = none → Visited next parts b s (visit next fuel b s) := by
      intro b hb s hs hn
      have := hlimit b hb
      exact ih hs hn (by omega)
    obtain ⟨h₁, he₁, hn₁⟩ := visitAll_spec hvisit hlimit h
    have hstill := he₁.only hnone (Nat.le_refl _)
    exact ⟨topological_assign h₁ hstill hn₁, (he₁.mono (Nat.le_succ _)).trans (extends_assign hstill),
      by simp [visit, assign]⟩

/-- Depth first, every part gets a number above those of what depends on it. -/
theorem topological_visitAll (hacyclic : Acyclic next) (hparts : ∀ a, next a ≠ [] → a ∈ parts) {as : List α} (h : Topological next s) :
    Topological next (visitAll next parts.length as s) ∧ (∀ {c n}, s.ordinal c = some n → (visitAll next parts.length as s).ordinal c = some n) ∧
      ∀ a ∈ as, ((visitAll next parts.length as s).ordinal a).isSome := by
  have hlimit : ∀ a ∈ as, height next parts a < parts.length + 1 := fun a _ => Nat.lt_succ_of_le (height_le a)
  obtain ⟨h₁, he₁, hn₁⟩ := visitAll_spec (fun a _ s hs hn => visit_spec hacyclic hparts hs hn (height_le a)) hlimit h
  exact ⟨h₁, he₁.keeps, hn₁⟩

end Numbering

/-! ## Updates -/

/-- Which parts are up to date, and which exist. -/
structure Parts (α : Type) where
  fresh : α → Prop
  built : α → Prop

variable (next) in
/-- What the update of a part does. A part that is up to date is left alone. Otherwise it is built, its direct dependents are marked, and
nothing is lost but what depends on it. -/
structure Updates (a : α) (s s' : Parts α) : Prop where
  skips : s.fresh a → s' = s
  builds : ¬s.fresh a → s'.fresh a ∧ s'.built a
  marks : ¬s.fresh a → ∀ b ∈ next a, ¬s'.fresh b
  keeps : ∀ c, c ≠ a → s.built c → s'.built c ∨ ¬s.fresh a ∧ TransGen (Edge next) a c
  stale : ∀ c, c ≠ a → s'.fresh c → s.fresh c

variable (next) in
/-- The updates of parts, one after the other. -/
inductive Run : List α → Parts α → Parts α → Prop
  | nil (s) : Run [] s s
  | cons {a as s₁ s₂ s₃} (step : Updates next a s₁ s₂) (rest : Run as s₂ s₃) : Run (a :: as) s₁ s₃

variable (next) in
/-- An order of updates: what depends on a part comes after it, and is in the list. -/
structure Order (as : List α) : Prop where
  later : as.Pairwise fun a b => a ≠ b ∧ ¬TransGen (Edge next) b a
  closed : ∀ a ∈ as, ∀ b ∈ next a, b ∈ as

variable (next) in
/-- A part that will be updated in its turn: it depends on a part that is not up to date, or is one. -/
def Due (as : List α) (s : Parts α) (c : α) : Prop := ∃ i ∈ as, ¬s.fresh i ∧ ReflTransGen (Edge next) i c

variable {as : List α} {a c : α} {s s' : Parts α}

theorem Order.tail (h : Order next (a :: as)) : Order next as := by
  obtain ⟨hhead, htail⟩ := List.pairwise_cons.mp h.later
  refine ⟨htail, ?_⟩
  intro c hc b hb
  rcases List.mem_cons.mp (h.closed c (by simp [hc]) b hb) with rfl | hmem
  · exact absurd (TransGen.single hb) (hhead c hc).2
  · exact hmem

theorem Order.mem_of_reaches (h : Order next as) (ha : a ∈ as) (hac : ReflTransGen (Edge next) a c) : c ∈ as := by
  induction hac with
  | refl => exact ha
  | tail _ hb ih => exact h.closed _ ih _ hb

/-- All that depends on the first part comes later. -/
theorem Order.mem_tail (h : Order next (a :: as)) (hacyclic : Acyclic next) (hac : TransGen (Edge next) a c) : c ∈ as := by
  rcases List.mem_cons.mp (h.mem_of_reaches (by simp) hac.to_reflTransGen) with rfl | hmem
  · exact absurd hac (hacyclic c)
  · exact hmem

/-- The first part is not up to date if it is due. -/
theorem Due.head (hdue : Due next (a :: as) s a) (h : Order next (a :: as)) : ¬s.fresh a := by
  obtain ⟨i, hi, hstale, hreach⟩ := hdue
  rcases List.mem_cons.mp hi with rfl | hi
  · exact hstale
  · obtain ⟨hne, hnot⟩ := (List.pairwise_cons.mp h.later).1 i hi
    rcases Relation.reflTransGen_iff_eq_or_transGen.mp hreach with he | hreach
    · exact absurd he hne
    · exact absurd hreach hnot

/-- What is due is still due after the update of another part. -/
theorem Due.step (hdue : Due next (a :: as) s c) (hca : c ≠ a) (h : Order next (a :: as)) (hacyclic : Acyclic next)
    (hu : Updates next a s s') : Due next as s' c := by
  obtain ⟨i, hi, hstale, hreach⟩ := hdue
  rcases List.mem_cons.mp hi with rfl | hi
  · -- the mark moves to the next part of the chain
    rcases Relation.ReflTransGen.cases_head hreach with rfl | ⟨b, hb, hbc⟩
    · exact absurd rfl hca
    · exact ⟨b, h.mem_tail hacyclic (.single hb), hu.marks hstale b hb, hbc⟩
  · have hne : i ≠ a := ((List.pairwise_cons.mp h.later).1 i hi).1.symm
    exact ⟨i, hi, fun hf => hstale (hu.stale i hne hf), hreach⟩

/-- What the update of a part may lose is due after it. -/
theorem due_of_reaches (hu : Updates next a s s') (h : Order next (a :: as)) (hacyclic : Acyclic next) (hstale : ¬s.fresh a)
    (hac : TransGen (Edge next) a c) : Due next as s' c := by
  have hca : c ≠ a := by
    rintro rfl
    exact hacyclic c hac
  exact Due.step ⟨a, by simp, hstale, hac.to_reflTransGen⟩ hca h hacyclic hu

/-- What is due is not up to date when its turn comes. -/
theorem Due.at_turn {pre post : List α} (hdue : Due next (pre ++ c :: post) s c) (h : Order next (pre ++ c :: post))
    (hacyclic : Acyclic next) (hrun : Run next pre s s') : ¬s'.fresh c := by
  induction pre generalizing s with
  | nil =>
    cases hrun
    exact hdue.head h
  | cons a pre ih =>
    cases hrun with
    | cons step rest =>
      have hca : c ≠ a := ((List.pairwise_cons.mp h.later).1 c (by simp)).1.symm
      exact ih (hdue.step hca h hacyclic step) h.tail rest

/-- After a run all its parts are built, where at its start each was built or due. -/
theorem Run.built (hrun : Run next as s s') (h : Order next as) (hacyclic : Acyclic next) (done : List α)
    (hdone : ∀ d ∈ done, s.built d ∧ ∀ a ∈ as, d ≠ a ∧ ¬TransGen (Edge next) a d)
    (hstart : ∀ c ∈ as, s.built c ∨ Due next as s c) : ∀ c, c ∈ done ∨ c ∈ as → s'.built c := by
  induction hrun generalizing done with
  | nil s =>
    rintro c (hc | hc)
    · exact (hdone c hc).1
    · cases hc
  | @cons a as s₁ s₂ s₃ step rest ih =>
    have hhead := (List.pairwise_cons.mp h.later).1
    have hbuilt : s₂.built a := by
      by_cases hf : s₁.fresh a
      · rw [step.skips hf]
        exact (hstart a (by simp)).resolve_right fun hdue => hdue.head h hf
      · exact (step.builds hf).2
    have hdone' : ∀ d ∈ a :: done, s₂.built d ∧ ∀ b ∈ as, d ≠ b ∧ ¬TransGen (Edge next) b d := by
      intro d hd
      rcases List.mem_cons.mp hd with rfl | hd
      · exact ⟨hbuilt, hhead⟩
      · obtain ⟨hb, hnot⟩ := hdone d hd
        refine ⟨?_, fun b hb => hnot b (by simp [hb])⟩
        exact (step.keeps d (hnot a (by simp)).1 hb).resolve_right fun hlost => (hnot a (by simp)).2 hlost.2
    have hstart' : ∀ c ∈ as, s₂.built c ∨ Due next as s₂ c := by
      intro c hc
      have hca : c ≠ a := (hhead c hc).1.symm
      rcases hstart c (by simp [hc]) with hb | hdue
      · rcases step.keeps c hca hb with hb | ⟨hstale, hlost⟩
        · exact .inl hb
        · exact .inr (due_of_reaches step h hacyclic hstale hlost)
      · exact .inr (hdue.step hca h hacyclic step)
    intro c hc
    refine ih h.tail (a :: done) hdone' hstart' c ?_
    simp only [List.mem_cons] at hc ⊢
    tauto

/-- A run leaves the parts alone that are not among its own. -/
theorem Run.frame (hrun : Run next as s s') (h : Order next as) (hc : c ∉ as) : (s.built c → s'.built c) ∧ (s'.fresh c → s.fresh c) := by
  induction hrun with
  | nil s => exact ⟨id, id⟩
  | @cons a as s₁ s₂ s₃ step rest ih =>
    have hca : c ≠ a := by
      rintro rfl
      exact hc (by simp)
    obtain ⟨hb, hf⟩ := ih h.tail fun hmem => hc (by simp [hmem])
    refine ⟨fun hbuilt => hb ?_, fun hfresh => step.stale c hca (hf hfresh)⟩
    exact (step.keeps c hca hbuilt).resolve_right fun hlost => hc (h.mem_of_reaches (by simp) hlost.2.to_reflTransGen)

end Cascade
