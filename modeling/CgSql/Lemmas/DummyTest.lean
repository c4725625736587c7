import CgSql.DummyTest
import Mathlib.Data.Finset.Card

/-!
# What the walk over a procedure finds

What depends on what, and the invariant of the walk: what is found is closed under the names that are walked, and each name comes before what it was
found from, unless it led there.
-/

namespace CgSql.DummyTest

open Relation (ReflTransGen)

variable {N : Type} [DecidableEq N]

/-! ## Dependencies -/

namespace Node

/-- The names that are walked, in their order. -/
def refs : Node N → List N
  | .leaf => []
  | .pair left right => left.refs ++ right.refs
  | .fromName name => [name]
  | .target name => [name]
  | .withCte _ body rest => body.refs ++ rest.refs
  | .altered _ => []
  | .fragment proc _ bindings => proc.refs ++ bindings.refs

/-- The names that denote a table or a view. A common table expression hides them, in its body and in what comes after it. -/
def deps : (scope : List N) → Node N → List N
  | _, .leaf => []
  | scope, .pair left right => left.deps scope ++ right.deps scope
  | scope, .fromName name => if name ∈ scope then [] else [name]
  | _, .target name => [name]
  | scope, .withCte name body rest => body.deps (name :: scope) ++ rest.deps (name :: scope)
  | _, .altered name => [name]
  | scope, .fragment proc args bindings => proc.deps [] ++ args.deps scope ++ bindings.deps scope

end Node

namespace Schema

variable (S : Schema N)

/-- A table or a view of a kind that is not deleted. -/
def IsKind (x : N) (k : Kind) : Prop := ∃ o, find S.objects x = some o ∧ o.deleted = false ∧ o.definition.kind = k

/-- A table or a view that is not deleted. -/
def Usable (x : N) : Prop := ∃ o, find S.objects x = some o ∧ o.deleted = false

/-- The definition of a name has another in it. -/
def Edge (x y : N) : Prop := ∃ o, find S.objects x = some o ∧ o.deleted = false ∧ y ∈ o.definition.node.refs ∧ S.Usable y

/-- A table has a foreign key to another, or a view reads another. -/
def Dep (x y : N) : Prop := ∃ o, find S.objects x = some o ∧ o.deleted = false ∧ y ∈ o.definition.node.deps [] ∧ S.Usable y

/-- A name leads to another through the names in definitions, common table expressions among them. -/
def Leads : N → N → Prop := ReflTransGen S.Edge

/-- The tables and views that a procedure reaches. -/
inductive Reached (proc : Node N) : N → Prop
  | ref {x : N} (h : x ∈ proc.deps []) (hx : S.Usable x) : Reached proc x
  | dep {x y : N} (hx : Reached proc x) (h : S.Dep x y) : Reached proc y
  | trigger {x y : N} {t : Trigger N} (hx : Reached proc x) (ht : t ∈ S.triggersOf x) (h : y ∈ t.body.deps []) (hy : S.Usable y) : Reached proc y

/-- The tables and views that a procedure leads to through the names that are walked. -/
inductive Met (proc : Node N) : N → Prop
  | ref {x : N} (h : x ∈ proc.refs) (hx : S.Usable x) : Met proc x
  | edge {x y : N} (hx : Met proc x) (h : S.Edge x y) : Met proc y
  | trigger {x y : N} {t : Trigger N} (hx : Met proc x) (ht : t ∈ S.triggersOf x) (h : y ∈ t.body.refs) (hy : S.Usable y) : Met proc y

end Schema

/-- The list of a kind. -/
def Info.foundOf (info : Info N) : Kind → List N
  | .table => info.foundTables
  | .view => info.foundViews

namespace DummyTestAux

variable {S : Schema N} {t : Trigger N}

/-- A name has one kind. -/
theorem kind_unique {x : N} {k k' : Kind} (h : S.IsKind x k) (h' : S.IsKind x k') : k = k' := by
  obtain ⟨o, ho, -, hk⟩ := h
  obtain ⟨o', ho', -, hk'⟩ := h'
  obtain rfl : o = o' := Option.some.inj (ho.symm.trans ho')
  exact hk.symm.trans hk'

/-! ## The lists -/

omit [DecidableEq N] in
/-- What is put on the lists is not noted as visited. -/
@[simp] theorem visited_add (info : Info N) (x : N) (k : Kind) : (info.add x k).visited = info.visited := by
  cases k <;> rfl

omit [DecidableEq N] in
/-- Triggers are found in another way. -/
@[simp] theorem foundTriggers_add (info : Info N) (x : N) (k : Kind) : (info.add x k).foundTriggers = info.foundTriggers := by
  cases k <;> rfl

omit [DecidableEq N] in
/-- And so is what is pending of them. -/
@[simp] theorem pendingTriggers_add (info : Info N) (x : N) (k : Kind) : (info.add x k).pendingTriggers = info.pendingTriggers := by
  cases k <;> rfl

omit [DecidableEq N] in
/-- What is added comes first. -/
@[simp] theorem foundOf_add_self (info : Info N) (x : N) (k : Kind) : (info.add x k).foundOf k = x :: info.foundOf k := by
  cases k <;> rfl

omit [DecidableEq N] in
/-- The other kind is left alone. -/
theorem foundOf_add_ne (info : Info N) (x : N) {k k' : Kind} (h : k ≠ k') : (info.add x k).foundOf k' = info.foundOf k' := by
  cases k <;> cases k' <;> first | rfl | exact absurd rfl h

theorem mem_foundOf_add {info : Info N} {x y : N} {k k' : Kind} : y ∈ (info.add x k).foundOf k' ↔ k = k' ∧ y = x ∨ y ∈ info.foundOf k' := by
  by_cases h : k = k'
  · subst h
    simp
  · simp [foundOf_add_ne _ _ h, h]

@[simp] theorem visited_enqueue (info : Info N) (ts : List (Trigger N)) : (enqueue info ts).visited = info.visited := by
  fun_induction enqueue info ts <;> simp_all

@[simp] theorem foundOf_enqueue (info : Info N) (ts : List (Trigger N)) (k : Kind) : (enqueue info ts).foundOf k = info.foundOf k := by
  fun_induction enqueue info ts with
  | case1 => rfl
  | case2 info t ts h ih => exact ih
  | case3 info t ts h ih =>
    rw [ih]
    cases k <;> rfl

theorem mem_foundTriggers_enqueue (info : Info N) (ts : List (Trigger N)) (name : N) :
    name ∈ (enqueue info ts).foundTriggers ↔ name ∈ info.foundTriggers ∨ ∃ t ∈ ts, t.name = name := by
  fun_induction enqueue info ts with
  | case1 => simp
  | case2 info t ts h ih =>
    rw [ih, List.exists_mem_cons_iff]
    constructor
    · rintro (h' | h')
      · exact Or.inl h'
      · exact Or.inr (Or.inr h')
    · rintro (h' | rfl | h')
      · exact Or.inl h'
      · exact Or.inl h
      · exact Or.inr h'
  | case3 info t ts h ih =>
    rw [ih, List.exists_mem_cons_iff, List.mem_cons, eq_comm (a := name)]
    tauto

theorem pending_enqueue (info : Info N) (ts : List (Trigger N)) : info.pendingTriggers ⊆ (enqueue info ts).pendingTriggers := by
  fun_induction enqueue info ts with
  | case1 => exact List.Subset.refl _
  | case2 info t ts h ih => exact ih
  | case3 info t ts h ih => exact fun x hx => ih (List.mem_cons_of_mem _ hx)

/-- What is pending was found. -/
theorem mem_pending_enqueue (info : Info N) (ts : List (Trigger N)) (h : t ∈ (enqueue info ts).pendingTriggers) :
    t ∈ info.pendingTriggers ∨ t ∈ ts ∧ t.name ∉ info.foundTriggers := by
  fun_induction enqueue info ts with
  | case1 => exact Or.inl h
  | case2 info u ts hu ih =>
    rcases ih h with h | ⟨ht, hn⟩
    · exact Or.inl h
    · exact Or.inr ⟨List.mem_cons_of_mem _ ht, hn⟩
  | case3 info u ts hu ih =>
    rcases ih h with h | ⟨ht, hn⟩
    · rcases List.mem_cons.mp h with rfl | h
      · exact Or.inr ⟨List.mem_cons_self, hu⟩
      · exact Or.inl h
    · exact Or.inr ⟨List.mem_cons_of_mem _ ht, fun h => hn (List.mem_cons_of_mem _ h)⟩

/-- A trigger that is found is pending, or was found before. -/
theorem handled_enqueue (info : Info N) (ts : List (Trigger N)) (hts : ∀ t ∈ ts, t ∈ S.triggers) (ht : t ∈ S.triggers)
    (h : t.name ∈ (enqueue info ts).foundTriggers) : t ∈ (enqueue info ts).pendingTriggers ∨ t.name ∈ info.foundTriggers := by
  fun_induction enqueue info ts with
  | case1 => exact Or.inr h
  | case2 info u ts hu ih => exact ih (fun t ht => hts t (List.mem_cons_of_mem _ ht)) h
  | case3 info u ts hu ih =>
    rcases ih (fun t ht => hts t (List.mem_cons_of_mem _ ht)) h with h | h
    · exact Or.inl h
    · rcases List.mem_cons.mp h with heq | h
      · have hut : t = u := List.inj_on_of_nodup_map S.nodup ht (hts u List.mem_cons_self) heq
        exact Or.inl (pending_enqueue _ ts (hut ▸ List.mem_cons_self))
      · exact Or.inr h

/-! ## The walk ends -/

/-- What a walk only adds to. -/
structure Extends (S : Schema N) (info info' : Info N) : Prop where
  visited : info.visited ⊆ info'.visited
  found : ∀ k, info.foundOf k <:+ info'.foundOf k
  triggers : info.foundTriggers ⊆ info'.foundTriggers
  pending : ∀ t ∈ info'.pendingTriggers, t ∈ info.pendingTriggers ∨ t ∈ S.triggers ∧ t.name ∉ info.foundTriggers ∧ t.name ∈ info'.foundTriggers

namespace Extends

theorem refl (info : Info N) : Extends S info info :=
  ⟨List.Subset.refl _, fun _ => List.suffix_refl _, List.Subset.refl _, fun _ h => Or.inl h⟩

theorem trans {info info' info'' : Info N} (h : Extends S info info') (h' : Extends S info' info'') : Extends S info info'' := by
  refine ⟨List.Subset.trans h.visited h'.visited, fun k => (h.found k).trans (h'.found k), List.Subset.trans h.triggers h'.triggers,
    fun t ht => ?_⟩
  rcases h'.pending t ht with ht | ⟨ht, hnew, hfound⟩
  · rcases h.pending t ht with ht | ⟨ht, hnew, hfound⟩
    · exact Or.inl ht
    · exact Or.inr ⟨ht, hnew, h'.triggers hfound⟩
  · exact Or.inr ⟨ht, fun hn => hnew (h.triggers hn), hfound⟩

end Extends

theorem mem_triggersOf {x : N} (h : t ∈ S.triggersOf x) : t ∈ S.triggers := (List.mem_filter.mp h).1

/-- The triggers are queued and a name is added. -/
theorem extends_add (info : Info N) (x : N) (k : Kind) : Extends S info ((enqueue info (S.triggersOf x)).add x k) := by
  refine ⟨by simp, fun k' => ?_, fun n hn => ?_, fun t ht => ?_⟩
  · by_cases hk : k = k'
    · subst hk
      simp
    · rw [foundOf_add_ne _ _ hk, foundOf_enqueue]
  · rw [foundTriggers_add]
    exact (mem_foundTriggers_enqueue info _ n).mpr (Or.inl hn)
  · rw [pendingTriggers_add] at ht
    rcases mem_pending_enqueue info _ ht with ht | ⟨ht, hnew⟩
    · exact Or.inl ht
    · rw [foundTriggers_add]
      exact Or.inr ⟨mem_triggersOf ht, hnew, (mem_foundTriggers_enqueue info _ _).mpr (Or.inr ⟨t, ht, rfl⟩)⟩

/-- The names that are not visited yet. -/
def unvisited (S : Schema N) (info : Info N) : Finset N := (S.objects.map Object.name).toFinset \ info.visited.toFinset

theorem unvisited_mono {info info' : Info N} (h : info.visited ⊆ info'.visited) : (unvisited S info').card ≤ (unvisited S info).card := by
  refine Finset.card_le_card (Finset.sdiff_subset_sdiff (Finset.Subset.refl _) ?_)
  intro x hx
  exact List.mem_toFinset.mpr (h (List.mem_toFinset.mp hx))

variable {o : Object N} {fuel : Nat}

theorem name_of_find {x : N} (h : find S.objects x = some o) : o ∈ S.objects ∧ o.name = x :=
  ⟨List.mem_of_find?_eq_some h, by simpa using List.find?_some h⟩

theorem unvisited_lt {info : Info N} {x : N} (h : find S.objects x = some o) (hx : x ∉ info.visited) :
    (unvisited S { info with visited := x :: info.visited }).card < (unvisited S info).card := by
  obtain ⟨hmem, hname⟩ := name_of_find h
  refine Finset.card_lt_card (Finset.ssubset_iff_of_subset (fun y hy => ?_) |>.mpr ⟨x, ?_, ?_⟩)
  · simp only [unvisited, Finset.mem_sdiff, List.mem_toFinset, List.mem_cons, not_or] at hy ⊢
    exact ⟨hy.1, hy.2.2⟩
  · simp only [unvisited, Finset.mem_sdiff, List.mem_toFinset]
    exact ⟨hname ▸ List.mem_map_of_mem hmem, hx⟩
  · simp [unvisited]

theorem walk_ends (node : Node N) {info : Info N} (h : (unvisited S info).card < fuel)
    (hfound : ∀ x info, (unvisited S info).card < fuel → ∃ info', S.found fuel x info = some info' ∧ Extends S info info') :
    ∃ info', continueFindTableNode (S.found fuel) node info = some info' ∧ Extends S info info' := by
  have hpair : ∀ left right : Node N, (∀ {info : Info N}, (unvisited S info).card < fuel →
        ∃ info', continueFindTableNode (S.found fuel) left info = some info' ∧ Extends S info info') →
      (∀ {info : Info N}, (unvisited S info).card < fuel →
        ∃ info', continueFindTableNode (S.found fuel) right info = some info' ∧ Extends S info info') →
      ∀ {info : Info N}, (unvisited S info).card < fuel → ∃ info',
        (continueFindTableNode (S.found fuel) left info).bind (continueFindTableNode (S.found fuel) right) = some info' ∧ Extends S info info' := by
    intro left right hleft hright info h
    obtain ⟨info₁, h₁, hext₁⟩ := hleft h
    obtain ⟨info₂, h₂, hext₂⟩ := hright ((unvisited_mono hext₁.visited).trans_lt h)
    exact ⟨info₂, by rw [h₁, Option.bind_some, h₂], hext₁.trans hext₂⟩
  induction node generalizing info with
  | leaf => exact ⟨info, rfl, Extends.refl info⟩
  | pair left right ihl ihr => exact hpair left right ihl ihr h
  | fromName name => exact hfound name info h
  | target name => exact hfound name info h
  | withCte name body rest ihb ihr => exact hpair body rest ihb ihr h
  | altered name => exact ⟨info, rfl, Extends.refl info⟩
  | fragment proc args bindings ihp _ ihb => exact hpair proc bindings ihp ihb h

/-- The walk from a name ends, and only adds to what was found. -/
theorem found_ends (fuel : Nat) (x : N) (info : Info N) (h : (unvisited S info).card < fuel) :
    ∃ info', S.found fuel x info = some info' ∧ Extends S info info' := by
  induction fuel generalizing x info with
  | zero => omega
  | succ fuel ih =>
    rw [Schema.found]
    cases ho : find S.objects x with
    | none => exact ⟨info, rfl, Extends.refl info⟩
    | some o =>
      dsimp only
      split_ifs with hdel hvis
      · exact ⟨info, rfl, Extends.refl info⟩
      · exact ⟨info, rfl, Extends.refl info⟩
      · have hlt : (unvisited S { info with visited := x :: info.visited }).card < fuel := (unvisited_lt ho hvis).trans_le (by omega)
        obtain ⟨info₁, h₁, hext₁⟩ := walk_ends o.definition.node hlt ih
        have hvisit : Extends S info { info with visited := x :: info.visited } :=
          ⟨List.subset_cons_self _ _, fun _ => List.suffix_refl _, List.Subset.refl _, fun _ h => Or.inl h⟩
        have hext := (hvisit.trans hext₁).trans (extends_add info₁ x o.definition.kind)
        rw [h₁]
        cases hk : o.definition.kind with
        | table =>
          rw [hk] at hext
          exact ⟨_, rfl, hext⟩
        | view =>
          rw [hk] at hext
          have hlt₂ : (unvisited S ((enqueue info₁ (S.triggersOf x)).add x .view)).card < fuel :=
            ((unvisited_mono (hext₁.trans (extends_add info₁ x .view)).visited).trans_lt hlt)
          obtain ⟨info₂, h₂, hext₂⟩ := walk_ends o.definition.node hlt₂ ih
          exact ⟨info₂, h₂, hext.trans hext₂⟩

/-! ## The invariant -/

/-- All that a trigger names was visited. -/
def Handled (S : Schema N) (info : Info N) (t : Trigger N) : Prop :=
  ∀ y ∈ (Node.pair (.target t.table) t.body).refs, S.Usable y → y ∈ info.visited

/-- What holds of a walk that is at the definitions of the names in `stack` and has the triggers in `todo` still to go through. -/
structure Inv (S : Schema N) (info : Info N) (stack : List N) (todo : List (Trigger N)) : Prop where
  nodup : ∀ k, (info.foundOf k).Nodup
  kind : ∀ k, ∀ x ∈ info.foundOf k, S.IsKind x k
  visited : ∀ x, x ∈ info.visited ↔ x ∈ stack ∨ ∃ k, x ∈ info.foundOf k
  fresh : ∀ x ∈ stack, ∀ k, x ∉ info.foundOf k
  closed : ∀ k, ∀ x ∈ info.foundOf k, ∀ y, S.Edge x y → y ∈ info.visited
  /-- What is found from a name is behind it, or led to it. -/
  order : ∀ k l₁ x l₂, info.foundOf k = l₁ ++ x :: l₂ → ∀ y, S.Edge x y → S.IsKind y k → y ∈ l₂ ∨ S.Leads y x
  queued : ∀ k, ∀ x ∈ info.foundOf k, ∀ t ∈ S.triggersOf x, t.name ∈ info.foundTriggers
  handled : ∀ t ∈ S.triggers, t.name ∈ info.foundTriggers → t ∈ info.pendingTriggers ∨ t ∈ todo ∨ Handled S info t

/-- What a walk from some names achieves. -/
def Walked (S : Schema N) (names : List N) (stack : List N) (todo : List (Trigger N)) (info' : Info N) : Prop :=
  Inv S info' stack todo ∧ ∀ x ∈ names, S.Usable x → x ∈ info'.visited

/-- The names in the definition of what is walked lead on from what is open. -/
def Open (S : Schema N) (stack names : List N) : Prop := ∀ x ∈ names, S.Usable x → ∀ a ∈ stack, S.Leads a x

theorem walk_inv {stack : List N} {todo : List (Trigger N)}
    (hfound : ∀ x info info', Inv S info stack todo → (S.Usable x → ∀ a ∈ stack, S.Leads a x) → (unvisited S info).card < fuel →
      S.found fuel x info = some info' → Walked S [x] stack todo info')
    (node : Node N) {info info' : Info N} (hinv : Inv S info stack todo) (hopen : Open S stack node.refs)
    (hfuel : (unvisited S info).card < fuel) (h : continueFindTableNode (S.found fuel) node info = some info') :
    Walked S node.refs stack todo info' := by
  have hpair : ∀ left right : Node N, (∀ {info info' : Info N}, Inv S info stack todo → Open S stack left.refs → (unvisited S info).card < fuel →
        continueFindTableNode (S.found fuel) left info = some info' → Walked S left.refs stack todo info') →
      (∀ {info info' : Info N}, Inv S info stack todo → Open S stack right.refs → (unvisited S info).card < fuel →
        continueFindTableNode (S.found fuel) right info = some info' → Walked S right.refs stack todo info') →
      ∀ {info info' : Info N}, Inv S info stack todo → Open S stack (left.refs ++ right.refs) → (unvisited S info).card < fuel →
        (continueFindTableNode (S.found fuel) left info).bind (continueFindTableNode (S.found fuel) right) = some info' →
        Walked S (left.refs ++ right.refs) stack todo info' := by
    intro left right hleft hright info info' hinv hopen hfuel h
    obtain ⟨info₁, h₁, h₂⟩ := Option.bind_eq_some_iff.mp h
    obtain ⟨hinv₁, hvis₁⟩ := hleft hinv (fun x hx => hopen x (List.mem_append_left _ hx)) hfuel h₁
    obtain ⟨info₁', h₁', hext₁⟩ := walk_ends left hfuel (found_ends fuel)
    obtain rfl : info₁ = info₁' := Option.some.inj (h₁.symm.trans h₁')
    have hfuel₁ := (unvisited_mono (S := S) hext₁.visited).trans_lt hfuel
    obtain ⟨hinv₂, hvis₂⟩ := hright hinv₁ (fun x hx => hopen x (List.mem_append_right _ hx)) hfuel₁ h₂
    obtain ⟨info₂, h₂', hext₂⟩ := walk_ends right hfuel₁ (found_ends fuel)
    obtain rfl : info' = info₂ := Option.some.inj (h₂.symm.trans h₂')
    refine ⟨hinv₂, fun x hx hu => ?_⟩
    rcases List.mem_append.mp hx with hx | hx
    · exact hext₂.visited (hvis₁ x hx hu)
    · exact hvis₂ x hx hu
  induction node generalizing info info' with
  | leaf =>
    obtain rfl : info = info' := Option.some.inj h
    exact ⟨hinv, by simp [Node.refs]⟩
  | pair left right ihl ihr => exact hpair left right ihl ihr hinv hopen hfuel h
  | fromName name => exact hfound name info info' hinv (hopen name List.mem_cons_self) hfuel h
  | target name => exact hfound name info info' hinv (hopen name List.mem_cons_self) hfuel h
  | withCte name body rest ihb ihr => exact hpair body rest ihb ihr hinv hopen hfuel h
  | altered name =>
    obtain rfl : info = info' := Option.some.inj h
    exact ⟨hinv, by simp [Node.refs]⟩
  | fragment proc args bindings ihp _ ihb => exact hpair proc bindings ihp ihb hinv hopen hfuel h

/-- A name is visited, and its definition is open. -/
theorem Inv.push {info : Info N} {stack : List N} {todo : List (Trigger N)} (h : Inv S info stack todo) {x : N} (hx : x ∉ info.visited) :
    Inv S { info with visited := x :: info.visited } (x :: stack) todo where
  nodup := h.nodup
  kind := h.kind
  visited y := by
    have hy := h.visited y
    rw [List.mem_cons, List.mem_cons, hy, or_assoc]
    rfl
  fresh y hy k hk := by
    rcases List.mem_cons.mp hy with rfl | hy
    · exact hx ((h.visited y).mpr (Or.inr ⟨k, hk⟩))
    · exact h.fresh y hy k hk
  closed k y hy z hz := List.mem_cons_of_mem _ (h.closed k y hy z hz)
  order := h.order
  queued := h.queued
  handled t ht hfound := by
    rcases h.handled t ht hfound with hp | hp | hp
    · exact Or.inl hp
    · exact Or.inr (Or.inl hp)
    · exact Or.inr (Or.inr fun y hy hu => List.mem_cons_of_mem _ (hp y hy hu))

/-- The definition of a name is done, and the name is added. -/
theorem Inv.pop {info : Info N} {stack : List N} {todo : List (Trigger N)} {x : N} (h : Inv S info (x :: stack) todo) {k : Kind}
    (hk : S.IsKind x k) (hrefs : ∀ y, S.Edge x y → y ∈ info.visited) (hlead : ∀ a ∈ stack, S.Leads a x) (hstack : x ∉ stack) :
    Inv S ((enqueue info (S.triggersOf x)).add x k) stack todo where
  nodup k' := by
    by_cases heq : k = k'
    · subst heq
      rw [foundOf_add_self, foundOf_enqueue]
      exact List.nodup_cons.mpr ⟨h.fresh x List.mem_cons_self k, h.nodup k⟩
    · rw [foundOf_add_ne _ _ heq, foundOf_enqueue]
      exact h.nodup k'
  kind k' y hy := by
    rw [mem_foundOf_add, foundOf_enqueue] at hy
    rcases hy with ⟨rfl, rfl⟩ | hy
    · exact hk
    · exact h.kind k' y hy
  visited y := by
    simp only [visited_add, visited_enqueue, h.visited y, List.mem_cons, mem_foundOf_add, foundOf_enqueue]
    constructor
    · rintro ((rfl | hy) | ⟨k', hy⟩)
      · exact Or.inr ⟨k, Or.inl ⟨rfl, rfl⟩⟩
      · exact Or.inl hy
      · exact Or.inr ⟨k', Or.inr hy⟩
    · rintro (hy | ⟨k', ⟨rfl, rfl⟩ | hy⟩)
      · exact Or.inl (Or.inr hy)
      · exact Or.inl (Or.inl rfl)
      · exact Or.inr ⟨k', hy⟩
  fresh y hy k' hk' := by
    rw [mem_foundOf_add, foundOf_enqueue] at hk'
    rcases hk' with ⟨-, rfl⟩ | hk'
    · exact hstack hy
    · exact h.fresh y (List.mem_cons_of_mem _ hy) k' hk'
  closed k' y hy z hz := by
    rw [mem_foundOf_add, foundOf_enqueue] at hy
    rw [visited_add, visited_enqueue]
    rcases hy with ⟨-, rfl⟩ | hy
    · exact hrefs z hz
    · exact h.closed k' y hy z hz
  order k' l₁ y l₂ heq z hz hkz := by
    by_cases hkk : k = k'
    · subst hkk
      rw [foundOf_add_self, foundOf_enqueue] at heq
      cases l₁ with
      | nil =>
        obtain ⟨rfl, rfl⟩ := List.cons.inj heq
        -- What is visited is open, and led here, or it is behind.
        rcases (h.visited z).mp (hrefs z hz) with hz' | ⟨k', hz'⟩
        · rcases List.mem_cons.mp hz' with rfl | hz'
          · exact Or.inr ReflTransGen.refl
          · exact Or.inr (hlead z hz')
        · obtain rfl : k' = k := kind_unique (h.kind k' z hz') hkz
          exact Or.inl hz'
      | cons w l₁ => exact h.order k l₁ y l₂ (List.cons.inj heq).2 z hz hkz
    · rw [foundOf_add_ne _ _ hkk, foundOf_enqueue] at heq
      exact h.order k' l₁ y l₂ heq z hz hkz
  queued k' y hy t ht := by
    rw [mem_foundOf_add, foundOf_enqueue] at hy
    rw [foundTriggers_add, mem_foundTriggers_enqueue]
    rcases hy with ⟨-, rfl⟩ | hy
    · exact Or.inr ⟨t, ht, rfl⟩
    · exact Or.inl (h.queued k' y hy t ht)
  handled t ht hfound := by
    have hpending := pending_enqueue info (S.triggersOf x)
    rw [foundTriggers_add] at hfound
    rw [pendingTriggers_add]
    rcases handled_enqueue info (S.triggersOf x) (fun t ht => mem_triggersOf ht) ht hfound with hp | hfound
    · exact Or.inl hp
    · rcases h.handled t ht hfound with hp | hp | hp
      · exact Or.inl (hpending hp)
      · exact Or.inr (Or.inl hp)
      · refine Or.inr (Or.inr fun y hy hu => ?_)
        rw [visited_add, visited_enqueue]
        exact hp y hy hu

/-- What the walk does at a name: nothing, or it goes through the definition, once or twice, and adds the name. -/
theorem found_cases {x : N} {info info' : Info N} (h : S.found (fuel + 1) x info = some info') :
    (info' = info ∧ (S.Usable x → x ∈ info.visited)) ∨ x ∉ info.visited ∧ ∃ o info₁, find S.objects x = some o ∧ o.deleted = false ∧
        continueFindTableNode (S.found fuel) o.definition.node { info with visited := x :: info.visited } = some info₁ ∧
        (info' = (enqueue info₁ (S.triggersOf x)).add x o.definition.kind ∨
          continueFindTableNode (S.found fuel) o.definition.node ((enqueue info₁ (S.triggersOf x)).add x o.definition.kind) = some info') := by
  rw [Schema.found] at h
  cases ho : find S.objects x with
  | none =>
    rw [ho] at h
    refine Or.inl ⟨(Option.some.inj h).symm, fun hu => ?_⟩
    obtain ⟨o, ho', -⟩ := hu
    exact absurd (ho.symm.trans ho') (by simp)
  | some o =>
    rw [ho] at h
    dsimp only at h
    split_ifs at h with hdel hvis
    · refine Or.inl ⟨(Option.some.inj h).symm, fun hu => ?_⟩
      obtain ⟨o', ho', hd'⟩ := hu
      obtain rfl := Option.some.inj (ho.symm.trans ho')
      exact absurd hdel (by simp [hd'])
    · exact Or.inl ⟨(Option.some.inj h).symm, fun _ => hvis⟩
    · refine Or.inr ⟨hvis, o, ?_⟩
      cases h₁ : continueFindTableNode (S.found fuel) o.definition.node { info with visited := x :: info.visited } with
      | none => simp [h₁] at h
      | some info₁ =>
        rw [h₁] at h
        refine ⟨info₁, rfl, by simpa using hdel, rfl, ?_⟩
        cases hk : o.definition.kind with
        | table =>
          simp only [hk] at h
          exact Or.inl (Option.some.inj h).symm
        | view =>
          simp only [hk] at h
          exact Or.inr h

theorem edge_iff {x y : N} (ho : find S.objects x = some o) (hdel : o.deleted = false) :
    S.Edge x y ↔ y ∈ o.definition.node.refs ∧ S.Usable y := by
  constructor
  · rintro ⟨o', ho', -, hy, hy'⟩
    obtain rfl := Option.some.inj (ho.symm.trans ho')
    exact ⟨hy, hy'⟩
  · exact fun h => ⟨o, ho, hdel, h.1, h.2⟩

theorem found_inv (fuel : Nat) {stack : List N} {todo : List (Trigger N)} (x : N) (info info' : Info N) (hinv : Inv S info stack todo)
    (hlead : S.Usable x → ∀ a ∈ stack, S.Leads a x) (hfuel : (unvisited S info).card < fuel) (h : S.found fuel x info = some info') :
    Walked S [x] stack todo info' := by
  induction fuel generalizing x info info' stack with
  | zero => omega
  | succ fuel ih =>
    rcases found_cases h with ⟨rfl, hvis⟩ | ⟨hvis, o, info₁, ho, hdel, h₁, h₂⟩
    · exact ⟨hinv, fun y hy hu => by rw [List.mem_singleton.mp hy] at hu ⊢; exact hvis hu⟩
    · have hlead := hlead ⟨o, ho, hdel⟩
      have hstack : x ∉ stack := fun hx => hvis ((hinv.visited x).mpr (Or.inl hx))
      have hopen : Open S stack o.definition.node.refs := fun y hy hy' a ha => (hlead a ha).tail ((edge_iff ho hdel).mpr ⟨hy, hy'⟩)
      have hopen' : Open S (x :: stack) o.definition.node.refs := by
        intro y hy hy' a ha
        rcases List.mem_cons.mp ha with rfl | ha
        · exact ReflTransGen.single ((edge_iff ho hdel).mpr ⟨hy, hy'⟩)
        · exact hopen y hy hy' a ha
      have hlt : (unvisited S { info with visited := x :: info.visited }).card < fuel := (unvisited_lt ho hvis).trans_le (by omega)
      obtain ⟨hinv₁, hvis₁⟩ := walk_inv (fun y i i' hi hl hf he => ih y i i' hi hl hf he) o.definition.node (hinv.push hvis) hopen' hlt h₁
      have hpop := hinv₁.pop ⟨o, ho, hdel, rfl⟩ (fun y hy => hvis₁ y ((edge_iff ho hdel).mp hy).1 ((edge_iff ho hdel).mp hy).2) hlead hstack
      have hadded : x ∈ ((enqueue info₁ (S.triggersOf x)).add x o.definition.kind).visited := by
        rw [visited_add, visited_enqueue]
        exact (hinv₁.visited x).mpr (Or.inl List.mem_cons_self)
      rcases h₂ with rfl | h₂
      · exact ⟨hpop, fun y hy _ => List.mem_singleton.mp hy ▸ hadded⟩
      · obtain ⟨info₁', h₁', hext₁⟩ := walk_ends o.definition.node hlt (found_ends fuel)
        obtain rfl := Option.some.inj (h₁.symm.trans h₁')
        have hlt₂ := (unvisited_mono (hext₁.trans (extends_add info₁ x o.definition.kind)).visited).trans_lt hlt
        obtain ⟨hinv₂, -⟩ := walk_inv (fun y i i' hi hl hf he => ih y i i' hi hl hf he) o.definition.node hpop hopen hlt₂ h₂
        obtain ⟨info₂, h₂', hext₂⟩ := walk_ends o.definition.node hlt₂ (found_ends fuel)
        obtain rfl := Option.some.inj (h₂.symm.trans h₂')
        exact ⟨hinv₂, fun y hy _ => List.mem_singleton.mp hy ▸ hext₂.visited hadded⟩

/-! ## What is found is met -/

/-- Everything that was visited satisfies `P`, and the pending triggers are of such names. -/
structure Only (S : Schema N) (P : N → Prop) (info : Info N) : Prop where
  visited : ∀ x ∈ info.visited, P x
  pending : ∀ t ∈ info.pendingTriggers, ∃ x, P x ∧ t ∈ S.triggersOf x

variable {P : N → Prop} {info info' : Info N}

/-- A walk over names that satisfy `P`, if a walk from one of them keeps to `P`. -/
theorem walk_only (hfound : ∀ x info info', Only S P info → (S.Usable x → P x) → S.found fuel x info = some info' → Only S P info') (node : Node N)
    (honly : Only S P info) (hrefs : ∀ x ∈ node.refs, S.Usable x → P x) (h : continueFindTableNode (S.found fuel) node info = some info') :
    Only S P info' := by
  have hpair : ∀ left right : Node N, (∀ {info info' : Info N}, Only S P info → (∀ x ∈ left.refs, S.Usable x → P x) →
        continueFindTableNode (S.found fuel) left info = some info' → Only S P info') →
      (∀ {info info' : Info N}, Only S P info → (∀ x ∈ right.refs, S.Usable x → P x) →
        continueFindTableNode (S.found fuel) right info = some info' → Only S P info') →
      ∀ {info info' : Info N}, Only S P info → (∀ x ∈ left.refs ++ right.refs, S.Usable x → P x) →
        (continueFindTableNode (S.found fuel) left info).bind (continueFindTableNode (S.found fuel) right) = some info' → Only S P info' := by
    intro left right hleft hright info info' honly hrefs h
    obtain ⟨info₁, h₁, h₂⟩ := Option.bind_eq_some_iff.mp h
    have honly₁ := hleft honly (fun x hx => hrefs x (List.mem_append_left _ hx)) h₁
    exact hright honly₁ (fun x hx => hrefs x (List.mem_append_right _ hx)) h₂
  induction node generalizing info info' with
  | leaf => exact Option.some.inj h ▸ honly
  | pair left right ihl ihr => exact hpair left right ihl ihr honly hrefs h
  | fromName name => exact hfound name info info' honly (hrefs name List.mem_cons_self) h
  | target name => exact hfound name info info' honly (hrefs name List.mem_cons_self) h
  | withCte name body rest ihb ihr => exact hpair body rest ihb ihr honly hrefs h
  | altered name => exact Option.some.inj h ▸ honly
  | fragment proc args bindings ihp _ ihb => exact hpair proc bindings ihp ihb honly hrefs h

/-- A walk from a name keeps to what is closed under the names in definitions. -/
theorem found_only (hedge : ∀ x y, P x → S.Edge x y → P y) (fuel : Nat) (x : N) (info info' : Info N) (honly : Only S P info)
    (hx : S.Usable x → P x) (h : S.found fuel x info = some info') : Only S P info' := by
  induction fuel generalizing x info info' with
  | zero => cases h
  | succ fuel ih =>
    rcases found_cases h with ⟨rfl, -⟩ | ⟨-, o, info₁, ho, hdel, h₁, h₂⟩
    · exact honly
    · have hPx := hx ⟨o, ho, hdel⟩
      have hrefs : ∀ y ∈ o.definition.node.refs, S.Usable y → P y := fun y hy hu => hedge x y hPx ((edge_iff ho hdel).mpr ⟨hy, hu⟩)
      have hpush : Only S P { info with visited := x :: info.visited } :=
        ⟨List.forall_mem_cons.mpr ⟨hPx, honly.visited⟩, honly.pending⟩
      have honly₁ := walk_only ih o.definition.node hpush hrefs h₁
      have hadd : Only S P ((enqueue info₁ (S.triggersOf x)).add x o.definition.kind) := by
        refine ⟨fun y hy => honly₁.visited y (by simpa using hy), fun t ht => ?_⟩
        rw [pendingTriggers_add] at ht
        rcases mem_pending_enqueue info₁ _ ht with ht | ⟨ht, -⟩
        · exact honly₁.pending t ht
        · exact ⟨x, hPx, ht⟩
      rcases h₂ with rfl | h₂
      · exact hadd
      · exact walk_only ih o.definition.node hadd hrefs h₂

end DummyTestAux

end CgSql.DummyTest
