import CgSql.Lemmas.DummyTest

/-!
# The order of dummy tests

What a procedure reaches is found once, and it is created after and dropped before what it depends on, as long as no argument of a fragment names
what does not stand elsewhere, and nothing that a table or a view depends on leads back to it. The walk does not see the arguments, and it takes the
name of a common table expression for the table or view that is declared later under this name.
-/

namespace CgSql.DummyTest

open Relation (ReflTransGen)

variable {N : Type} [DecidableEq N]

/-- What a procedure reaches is found once, and the orders of creation and of dropping are right. -/
def Right (S : Schema N) (proc : Node N) : Prop :=
  ∃ found, S.findAllTableNodes proc = some found ∧ (∀ x, S.Reached proc x → found.count x = 1) ∧
    (∀ v w, S.Dep v w → v ≠ w → v ∈ S.creates found → S.created w → [w, v].Sublist (S.creates found)) ∧
    ∀ v w, S.Dep v w → v ≠ w → v ∈ S.drops found → w ∈ S.drops found → [v, w].Sublist (S.drops found)

/-- What a procedure reaches, it also leads to through the names that are walked. -/
def NoneMissed (S : Schema N) (proc : Node N) : Prop := ∀ x, S.Reached proc x → S.Met proc x

/-- What the arguments of fragments name in a tree is also walked there. -/
def ArgsSeen (S : Schema N) (node : Node N) : Prop := ∀ x ∈ node.deps [], S.Usable x → x ∈ node.refs

/-- The arguments of fragments hide nothing in a procedure, and in the definitions and triggers of what it leads to. -/
def Plain (S : Schema N) (proc : Node N) : Prop :=
  ArgsSeen S proc ∧ ∀ x, S.Met proc x → (∀ o, find S.objects x = some o → ArgsSeen S o.definition.node) ∧ ∀ t ∈ S.triggersOf x, ArgsSeen S t.body

/-- Nothing that is created leads back to what depends on it among the tables or among the views, where arguments hide nothing. -/
def NoneLeadsBack (S : Schema N) : Prop :=
  ∀ v w, S.Dep v w → v ≠ w → S.created v → S.created w → ∀ k, S.IsKind v k → S.IsKind w k → Plain S (.fromName w) → ¬S.Leads w v

namespace DummyTestAux

variable {S : Schema N} {info : Info N} {fuel : ℕ}

/-! ### Triggers -/

theorem Inv.done {stack : List N} {t : Trigger N} {todo : List (Trigger N)} (h : Inv S info stack (t :: todo))
    (ht : Handled S info t) : Inv S info stack todo :=
  { h with
    handled := by
      intro u hu hfound
      rcases h.handled u hu hfound with hp | hp | hp
      · exact Or.inl hp
      · rcases List.mem_cons.mp hp with rfl | hp
        · exact Or.inr (Or.inr ht)
        · exact Or.inr (Or.inl hp)
      · exact Or.inr (Or.inr hp) }

theorem open_nil (names : List N) : Open S [] names := by
  simp [Open]

/-- A walk with enough fuel, from a state where nothing is open. -/
theorem walk_run (node : Node N) {todo : List (Trigger N)} (hinv : Inv S info [] todo) (hfuel : (unvisited S info).card < fuel) :
    ∃ info', continueFindTableNode (S.found fuel) node info = some info' ∧ Extends S info info' ∧ Walked S node.refs [] todo info' := by
  obtain ⟨info', h, hext⟩ := walk_ends node hfuel (found_ends fuel)
  exact ⟨info', h, hext, walk_inv (fun y i i' hi hl hf he => found_inv fuel y i i' hi hl hf he) node hinv (open_nil _) hfuel h⟩

theorem processTriggers_run (ts : List (Trigger N)) (hinv : Inv S info [] ts) (hfuel : (unvisited S info).card < fuel) :
    ∃ info', S.processTriggers fuel ts info = some info' ∧ Extends S info info' ∧ Inv S info' [] [] := by
  induction ts generalizing info with
  | nil => exact ⟨info, rfl, Extends.refl info, hinv⟩
  | cons t ts ih =>
    obtain ⟨info₁, h₁, hext₁, hinv₁, hvis₁⟩ := walk_run (.pair (.target t.table) t.body) hinv hfuel
    obtain ⟨info₂, h₂, hext₂, hinv₂⟩ := ih (hinv₁.done hvis₁) ((unvisited_mono hext₁.visited).trans_lt hfuel)
    exact ⟨info₂, by rw [Schema.processTriggers, h₁, Option.bind_some, h₂], hext₁.trans hext₂, hinv₂⟩

/-- The triggers that are not found yet. -/
def unfound (S : Schema N) (info : Info N) : Finset N := (S.triggers.map Trigger.name).toFinset \ info.foundTriggers.toFinset

theorem unfound_lt {info' : Info N} (h : Extends S info info') (hnone : info.pendingTriggers = []) (hsome : info'.pendingTriggers ≠ []) :
    (unfound S info').card < (unfound S info).card := by
  obtain ⟨t, ht⟩ := List.exists_mem_of_ne_nil _ hsome
  rcases h.pending t ht with ht | ⟨ht, hnew, hfound⟩
  · simp [hnone] at ht
  · refine Finset.card_lt_card (Finset.ssubset_iff_of_subset (fun n hn => ?_) |>.mpr ⟨t.name, ?_, ?_⟩)
    · simp only [unfound, Finset.mem_sdiff, List.mem_toFinset] at hn ⊢
      exact ⟨hn.1, fun h' => hn.2 (h.triggers h')⟩
    · simp only [unfound, Finset.mem_sdiff, List.mem_toFinset]
      exact ⟨List.mem_map_of_mem ht, hnew⟩
    · simp [unfound, hfound]

/-- The rounds end with no trigger pending. -/
theorem processPendingTriggers_run (rounds : ℕ) (hinv : Inv S info [] []) (hfuel : (unvisited S info).card < fuel)
    (hrounds : info.pendingTriggers = [] ∧ 0 < rounds ∨ (unfound S info).card + 1 < rounds) :
    ∃ info', S.processPendingTriggers fuel rounds info = some info' ∧ Inv S info' [] [] ∧ info'.pendingTriggers = [] ∧
      info.visited ⊆ info'.visited ∧ ∀ k, info.foundOf k <:+ info'.foundOf k := by
  induction rounds generalizing info with
  | zero => omega
  | succ rounds ih =>
    rw [Schema.processPendingTriggers]
    rcases hpending : info.pendingTriggers with _ | ⟨t, ts⟩
    · exact ⟨info, rfl, hinv, hpending, List.Subset.refl _, fun _ => List.suffix_refl _⟩
    · have hinv₀ : Inv S { info with pendingTriggers := [] } [] (t :: ts) :=
        { hinv with
          handled := by
            intro u hu hfound
            rcases hinv.handled u hu hfound with hp | hp | hp
            · exact Or.inr (Or.inl (hpending ▸ hp))
            · simp at hp
            · exact Or.inr (Or.inr hp) }
      obtain ⟨info₁, h₁, hext₁, hinv₁⟩ := processTriggers_run (t :: ts) hinv₀ hfuel
      have hrounds₁ : info₁.pendingTriggers = [] ∧ 0 < rounds ∨ (unfound S info₁).card + 1 < rounds := by
        have hlt : (unfound S info).card + 1 < rounds + 1 := by simpa [hpending] using hrounds
        by_cases hnone : info₁.pendingTriggers = []
        · exact Or.inl ⟨hnone, by omega⟩
        · have hless := unfound_lt hext₁ rfl hnone
          have hsame : unfound S { info with pendingTriggers := [] } = unfound S info := rfl
          rw [hsame] at hless
          exact Or.inr (by omega)
      obtain ⟨info₂, h₂, hinv₂, hnone, hvis, hfound⟩ := ih hinv₁ ((unvisited_mono hext₁.visited).trans_lt hfuel) hrounds₁
      refine ⟨info₂, ?_, hinv₂, hnone, List.Subset.trans hext₁.visited hvis, fun k => (hext₁.found k).trans (hfound k)⟩
      dsimp only
      rw [h₁, Option.bind_some, h₂]

/-! ### What is found is met -/

variable {P : N → Prop} {info' : Info N}

theorem processTriggers_only (hedge : ∀ x y, P x → S.Edge x y → P y)
    (htrigger : ∀ x, P x → ∀ t ∈ S.triggersOf x, ∀ y ∈ t.body.refs, S.Usable y → P y) (ts : List (Trigger N)) (honly : Only S P info)
    (hts : ∀ t ∈ ts, ∃ x, P x ∧ t ∈ S.triggersOf x) (h : S.processTriggers fuel ts info = some info') : Only S P info' := by
  induction ts generalizing info with
  | nil => exact Option.some.inj h ▸ honly
  | cons t ts ih =>
    obtain ⟨info₁, h₁, h₂⟩ := Option.bind_eq_some_iff.mp h
    obtain ⟨x, hx, ht⟩ := hts t List.mem_cons_self
    have htable : t.table = x := by
      have hmem := (List.mem_filter.mp ht).2
      simp only [Bool.and_eq_true, decide_eq_true_eq] at hmem
      exact hmem.1
    refine ih (walk_only (found_only hedge fuel) _ honly ?_ h₁) (fun u hu => hts u (List.mem_cons_of_mem _ hu)) h₂
    intro y hy hu
    rcases List.mem_cons.mp hy with rfl | hy
    · exact htable ▸ hx
    · exact htrigger x hx t ht y hy hu

theorem processPendingTriggers_only (hedge : ∀ x y, P x → S.Edge x y → P y)
    (htrigger : ∀ x, P x → ∀ t ∈ S.triggersOf x, ∀ y ∈ t.body.refs, S.Usable y → P y) (rounds : ℕ) (honly : Only S P info)
    (h : S.processPendingTriggers fuel rounds info = some info') : Only S P info' := by
  induction rounds generalizing info with
  | zero => cases h
  | succ rounds ih =>
    rw [Schema.processPendingTriggers] at h
    rcases hpending : info.pendingTriggers with _ | ⟨t, ts⟩
    · rw [hpending] at h
      exact Option.some.inj h ▸ honly
    · rw [hpending] at h
      obtain ⟨info₁, h₁, h₂⟩ := Option.bind_eq_some_iff.mp h
      have hnone : Only S P { info with pendingTriggers := [] } := ⟨honly.visited, fun t ht => absurd ht List.not_mem_nil⟩
      exact ih (processTriggers_only hedge htrigger (t :: ts) hnone (hpending ▸ honly.pending) h₁) h₂

/-- What the walk over a procedure finds, that leads to. -/
theorem met_of_visited {proc : Node N} (h : S.findTableRefs proc = some info) : ∀ x ∈ info.visited, S.Met proc x := by
  obtain ⟨info₁, h₁, h₂⟩ := Option.bind_eq_some_iff.mp h
  have honly₁ : Only S (S.Met proc) info₁ :=
    walk_only (found_only (fun x y => .edge) _) proc ⟨by simp, by simp⟩ (fun x hx hu => .ref hx hu) h₁
  exact (processPendingTriggers_only (fun x y => .edge) (fun x hx t ht y hy hu => .trigger hx ht hy hu) _ honly₁ h₂).visited

/-! ### The whole walk -/

theorem inv_empty : Inv S ⟨[], [], [], [], []⟩ [] [] where
  nodup k := by cases k <;> simp [Info.foundOf]
  kind k x hx := by cases k <;> simp [Info.foundOf] at hx
  visited x := by
    constructor
    · intro h
      simp at h
    · rintro (h | ⟨k, h⟩)
      · simp at h
      · cases k <;> simp [Info.foundOf] at h
  fresh x hx := by simp at hx
  closed k x hx := by cases k <;> simp [Info.foundOf] at hx
  order k l₁ x l₂ h := by cases k <;> simp [Info.foundOf] at h
  queued k x hx := by cases k <;> simp [Info.foundOf] at hx
  handled t _ h := by simp at h

/-- The fuel of the walk. -/
theorem unvisited_empty : (unvisited S ⟨[], [], [], [], []⟩).card < S.objects.length + 1 := by
  have hle := (Finset.card_le_card (Finset.sdiff_subset (s := (S.objects.map Object.name).toFinset) (t := ([] : List N).toFinset))).trans
    (List.toFinset_card_le _)
  rw [List.length_map] at hle
  exact Nat.lt_succ_of_le hle

/-- What the walk over a procedure leaves: its first part, and the end. -/
theorem run_spec (proc : Node N) : ∃ info₁ info,
    continueFindTableNode (S.found (S.objects.length + 1)) proc ⟨[], [], [], [], []⟩ = some info₁ ∧ S.findTableRefs proc = some info ∧
    Inv S info [] [] ∧ info.pendingTriggers = [] ∧ (∀ x ∈ proc.refs, S.Usable x → x ∈ info.visited) ∧
    ∀ k, info₁.foundOf k <:+ info.foundOf k := by
  obtain ⟨info₁, h₁, hext₁, hinv₁, hvis₁⟩ := walk_run proc inv_empty unvisited_empty
  have hrounds : info₁.pendingTriggers = [] ∧ 0 < S.triggers.length + 1 ∨ (unfound S info₁).card + 1 < S.triggers.length + 1 := by
    by_cases hnone : info₁.pendingTriggers = []
    · exact Or.inl ⟨hnone, Nat.succ_pos _⟩
    · have hlt := unfound_lt hext₁ rfl hnone
      have hle := (Finset.card_le_card (Finset.sdiff_subset (s := (S.triggers.map Trigger.name).toFinset) (t := ([] : List N).toFinset))).trans
        (List.toFinset_card_le _)
      rw [List.length_map] at hle
      exact Or.inr (Nat.succ_lt_succ (hlt.trans_le hle))
  obtain ⟨info, h, hinv, hnone, hvis, hfound⟩ := processPendingTriggers_run (S.triggers.length + 1) hinv₁
    ((unvisited_mono hext₁.visited).trans_lt unvisited_empty) hrounds
  refine ⟨info₁, info, h₁, ?_, hinv, hnone, fun x hx hu => hvis (hvis₁ x hx hu), hfound⟩
  rw [Schema.findTableRefs, h₁, Option.bind_some, h]

theorem visited_iff (h : Inv S info [] []) (x : N) : x ∈ info.visited ↔ ∃ k, x ∈ info.foundOf k := by
  rw [h.visited x]
  simp

/-- What the procedure leads to was visited. -/
theorem visited_of_met (h : Inv S info [] []) (hnone : info.pendingTriggers = []) {proc : Node N}
    (hproc : ∀ x ∈ proc.refs, S.Usable x → x ∈ info.visited) {x : N} (hx : S.Met proc x) : x ∈ info.visited := by
  induction hx with
  | ref href hu => exact hproc _ href hu
  | edge _ hedge ih =>
    obtain ⟨k, hk⟩ := (visited_iff h _).mp ih
    exact h.closed k _ hk _ hedge
  | trigger _ ht href hu ih =>
    obtain ⟨k, hk⟩ := (visited_iff h _).mp ih
    rcases h.handled _ (mem_triggersOf ht) (h.queued k _ hk _ ht) with hp | hp | hp
    · simp [hnone] at hp
    · simp at hp
    · exact hp _ (List.mem_cons_of_mem _ href) hu

theorem nodup_found (h : Inv S info [] []) : (info.foundViews ++ info.foundTables).Nodup := by
  refine List.nodup_append.mpr ⟨h.nodup .view, h.nodup .table, fun x hx y hy heq => ?_⟩
  subst heq
  exact absurd (kind_unique (h.kind .view x hx) (h.kind .table x hy)) (by simp)

omit [DecidableEq N] in
/-- What is found is of either kind. -/
theorem mem_found_iff (x : N) : x ∈ info.foundViews ++ info.foundTables ↔ ∃ k, x ∈ info.foundOf k := by
  rw [List.mem_append]
  constructor
  · rintro (h | h)
    · exact ⟨.view, h⟩
    · exact ⟨.table, h⟩
  · rintro ⟨_ | _, h⟩
    · exact Or.inr h
    · exact Or.inl h

omit [DecidableEq N] in
/-- What is found of a kind is in order among all that is found. -/
theorem foundOf_sublist (info : Info N) (k : Kind) : (info.foundOf k).Sublist (info.foundViews ++ info.foundTables) := by
  cases k with
  | table => exact List.sublist_append_right _ _
  | view => exact List.sublist_append_left _ _

theorem creates_eq (found : List N) : S.creates found = (S.drops found).reverse := List.filter_reverse

/-- The foreign keys of a table are all that its definition has. -/
theorem deps_table (fks : List N) : (Definition.table fks).node.deps [] = fks := by
  rw [Definition.node]
  induction fks with
  | nil => rfl
  | cons fk fks ih => simp [Node.deps, ih]

/-- A table depends on tables. -/
theorem kind_of_dep {v w : N} (h : S.Dep v w) (hv : S.IsKind v .table) : S.IsKind w .table := by
  obtain ⟨o, ho, hdel, hw, p, hp, hpdel⟩ := h
  obtain ⟨o', ho', -, hk⟩ := hv
  obtain rfl := Option.some.inj (ho.symm.trans ho')
  cases hdef : o.definition with
  | table fks =>
    rw [hdef, deps_table] at hw
    exact ⟨p, hp, hpdel, S.fkTable o (name_of_find ho).1 fks hdef w hw p hp⟩
  | view select => simp [hdef, Definition.kind] at hk

/-! ### Arguments that hide nothing -/

/-- Where arguments hide nothing, what something depends on stands in its definition. -/
theorem edge_of_plain {proc : Node N} (hplain : Plain S proc) {v w : N} (hv : S.Met proc v) (hdep : S.Dep v w) : S.Edge v w := by
  obtain ⟨o, ho, hdel, hw, hu⟩ := hdep
  exact ⟨o, ho, hdel, (hplain.2 v hv).1 o ho w hw hu, hu⟩

theorem noneMissed_of_plain {proc : Node N} (hplain : Plain S proc) : NoneMissed S proc := by
  intro x hx
  induction hx with
  | ref hdep hu => exact .ref (hplain.1 _ hdep hu) hu
  | dep _ hdep ih => exact .edge ih (edge_of_plain hplain ih hdep)
  | trigger _ ht hdep hu ih => exact .trigger ih ht ((hplain.2 _ ih).2 _ ht _ hdep hu) hu

/-- They hide nothing either in a procedure that reads only something that is led to. -/
theorem plain_fromName {proc : Node N} (hplain : Plain S proc) {w : N} (hw : S.Met proc w) : Plain S (.fromName w) := by
  have hmet : ∀ x, S.Met (.fromName w) x → S.Met proc x := by
    intro x hx
    induction hx with
    | ref href _ => exact List.mem_singleton.mp href ▸ hw
    | edge _ hedge ih => exact .edge ih hedge
    | trigger _ ht href hu ih => exact .trigger ih ht href hu
  exact ⟨fun x hx _ => hx, fun x hx => hplain.2 x (hmet x hx)⟩

/-! ### Orders -/

theorem pair_sublist_filter {l : List N} {v w : N} (h : [v, w].Sublist l) (hv : S.created v) (hw : S.created w) :
    [v, w].Sublist (l.filter S.created) := by
  have hfilter := h.filter S.created
  simpa [hv, hw] using hfilter

/-- What depends on something is dropped first. -/
theorem dropped_first (h : Inv S info [] []) (hback : NoneLeadsBack S) {v w : N} (hdep : S.Dep v w) (hedge : S.Edge v w)
    (hplain : Plain S (.fromName w)) (hne : v ≠ w) (hv : v ∈ S.drops (info.foundViews ++ info.foundTables)) (hw : S.created w) :
    [v, w].Sublist (S.drops (info.foundViews ++ info.foundTables)) := by
  obtain ⟨hmem, hcreated⟩ := List.mem_filter.mp hv
  refine pair_sublist_filter ?_ hcreated hw
  obtain ⟨k, hk⟩ := (mem_found_iff v).mp hmem
  obtain ⟨k', hk'⟩ := (visited_iff h w).mp (h.closed k v hk w hedge)
  by_cases heq : k = k'
  · subst heq
    obtain ⟨l₁, l₂, hl⟩ := List.append_of_mem hk
    have hafter : w ∈ l₂ := by
      refine (h.order k l₁ v l₂ hl w hedge (h.kind k w hk')).resolve_right ?_
      exact hback v w hdep hne hcreated hw k (h.kind k v hk) (h.kind k w hk') hplain
    have hpair : [v, w].Sublist (info.foundOf k) := by
      rw [hl]
      exact ((List.singleton_sublist.mpr hafter).cons_cons v).trans (List.sublist_append_right _ _)
    exact hpair.trans (foundOf_sublist info k)
  · cases k with
    | table => exact absurd (kind_unique (kind_of_dep hdep (h.kind .table v hk)) (h.kind k' w hk')) heq
    | view =>
      cases k' with
      | table => exact (List.singleton_sublist.mpr hk).append (List.singleton_sublist.mpr hk')
      | view => exact absurd rfl heq

omit [DecidableEq N] in
/-- Two different elements of a list without duplicates have one order. -/
theorem eq_of_both_orders {l : List N} (hl : l.Nodup) {v w : N} (h : [v, w].Sublist l) (h' : [w, v].Sublist l) : v = w := by
  induction l with
  | nil => simp at h
  | cons x l ih =>
    obtain ⟨hx, hl⟩ := List.nodup_cons.mp hl
    cases h with
    | cons _ h =>
      cases h' with
      | cons _ h' => exact ih hl h h'
      | cons_cons _ h' => exact absurd (h.subset (by simp)) hx
    | cons_cons _ h =>
      cases h' with
      | cons _ h' => exact absurd (h'.subset (by simp)) hx
      | cons_cons _ h' => rfl

/-- From a name, the walk finds all that it leads to before it adds the name. -/
theorem found_before {w v : N} (hw : S.Usable w) (hne : v ≠ w) (hlead : S.Leads w v) {k : Kind} (hkv : S.IsKind v k) (hkw : S.IsKind w k)
    (hfuel : (unvisited S ⟨[], [], [], [], []⟩).card < fuel)
    (h : S.found fuel w ⟨[], [], [], [], []⟩ = some info) : ∃ l, w :: l <:+ info.foundOf k ∧ v ∈ l := by
  cases fuel with
  | zero => omega
  | succ fuel =>
    rcases found_cases h with ⟨-, hvis⟩ | ⟨hvis, o, info₁, ho, hdel, h₁, h₂⟩
    · exact absurd (hvis hw) (by simp)
    · have hlt := (unvisited_lt ho hvis).trans_le (Nat.lt_succ_iff.mp hfuel)
      have hopen : Open S [w] o.definition.node.refs := by
        intro y hy hy' a ha
        rw [List.mem_singleton.mp ha]
        exact ReflTransGen.single ((edge_iff ho hdel).mpr ⟨hy, hy'⟩)
      obtain ⟨hinv₁, hvis₁⟩ := walk_inv (fun y i i' hi hl hf he => found_inv fuel y i i' hi hl hf he) o.definition.node
        (inv_empty.push hvis) hopen hlt h₁
      obtain ⟨info₁', h₁', hext₁⟩ := walk_ends o.definition.node hlt (found_ends fuel)
      obtain rfl := Option.some.inj (h₁.symm.trans h₁')
      have hall : ∀ x, S.Leads w x → x ∈ info₁.visited := by
        intro x hx
        induction hx with
        | refl => exact hext₁.visited List.mem_cons_self
        | @tail x y _ hedge ih =>
          rcases (hinv₁.visited x).mp ih with hx | ⟨k', hx⟩
          · rw [List.mem_singleton.mp hx] at hedge
            exact hvis₁ y ((edge_iff ho hdel).mp hedge).1 ((edge_iff ho hdel).mp hedge).2
          · exact hinv₁.closed k' x hx y hedge
      have hv : v ∈ info₁.foundOf k := by
        rcases (hinv₁.visited v).mp (hall v hlead) with hv | ⟨k', hv⟩
        · exact absurd (List.mem_singleton.mp hv) hne
        · rwa [kind_unique hkv (hinv₁.kind k' v hv)]
      have hkind : o.definition.kind = k := kind_unique ⟨o, ho, hdel, rfl⟩ hkw
      have hadd : w :: info₁.foundOf k <:+ ((enqueue info₁ (S.triggersOf w)).add w o.definition.kind).foundOf k := by
        rw [hkind, foundOf_add_self, foundOf_enqueue]
      refine ⟨info₁.foundOf k, ?_, hv⟩
      rcases h₂ with rfl | h₂
      · exact hadd
      · have hlt₂ := (unvisited_mono (hext₁.trans (extends_add info₁ w o.definition.kind)).visited).trans_lt hlt
        obtain ⟨info₂, h₂', hext₂⟩ := walk_ends o.definition.node hlt₂ (found_ends fuel)
        obtain rfl := Option.some.inj (h₂.symm.trans h₂')
        exact hadd.trans (hext₂.found k)

theorem findAllTableNodes_eq {proc : Node N} (h : S.findTableRefs proc = some info) :
    S.findAllTableNodes proc = some (info.foundViews ++ info.foundTables) := by
  rw [Schema.findAllTableNodes, h, Option.map_some]

/-- The list and the orders are right for a procedure whose arguments hide nothing. -/
theorem right_of_noneLeadsBack (hback : NoneLeadsBack S) (proc : Node N) (hplain : Plain S proc) : Right S proc := by
  obtain ⟨-, info, -, hrun, hinv, hnone, hproc, -⟩ := run_spec (S := S) proc
  have hfirst : ∀ v w, S.Dep v w → v ≠ w → v ∈ S.drops (info.foundViews ++ info.foundTables) → S.created w →
      [v, w].Sublist (S.drops (info.foundViews ++ info.foundTables)) := by
    intro v w hdep hne hv hw
    have hfound := (mem_found_iff v).mp (List.mem_filter.mp hv).1
    have hmet := met_of_visited hrun v ((visited_iff hinv v).mpr hfound)
    have hedge := edge_of_plain hplain hmet hdep
    exact dropped_first hinv hback hdep hedge (plain_fromName hplain (.edge hmet hedge)) hne hv hw
  refine ⟨_, findAllTableNodes_eq hrun, fun x hx => ?_, fun v w hdep hne hv hw => ?_, fun v w hdep hne hv hw => ?_⟩
  · refine List.count_eq_one_of_mem (nodup_found hinv) ((mem_found_iff x).mpr ?_)
    exact (visited_iff hinv x).mp (visited_of_met hinv hnone hproc (noneMissed_of_plain hplain x hx))
  · rw [creates_eq, List.mem_reverse] at hv
    rw [creates_eq]
    exact (hfirst v w hdep hne hv hw).reverse
  · exact hfirst v w hdep hne hv (List.mem_filter.mp hw).2

/-- What is found is led to, so a right list misses nothing. -/
theorem noneMissed_of_right {proc : Node N} (h : Right S proc) : NoneMissed S proc := by
  intro x hx
  obtain ⟨-, info, -, hrun, hinv, -, -, -⟩ := run_spec (S := S) proc
  obtain ⟨found, hfound, hcount, -, -⟩ := h
  obtain rfl := Option.some.inj (hfound.symm.trans (findAllTableNodes_eq hrun))
  have hmem : x ∈ info.foundViews ++ info.foundTables := List.count_pos_iff.mp (by rw [hcount x hx]; exact Nat.one_pos)
  exact met_of_visited hrun x ((visited_iff hinv x).mpr ((mem_found_iff x).mp hmem))

theorem noneLeadsBack_of_right (h : ∀ proc, Plain S proc → Right S proc) : NoneLeadsBack S := by
  intro v w hdep hne hv hw k hkv hkw hplain hlead
  have hu : S.Usable w := by
    obtain ⟨-, -, -, -, hu⟩ := hdep
    exact hu
  -- The procedure that reads only `w` meets it first.
  obtain ⟨info₁, info, hfirst, hrun, hinv, -, -, hsuffix⟩ := run_spec (S := S) (.fromName w)
  obtain ⟨found, hfound, -, hcreates, -⟩ := h (.fromName w) hplain
  obtain rfl := Option.some.inj (hfound.symm.trans (findAllTableNodes_eq hrun))
  obtain ⟨l, hl, hvl⟩ := found_before hu hne hlead hkv hkw unvisited_empty hfirst
  have hafter : [w, v].Sublist (S.drops (info.foundViews ++ info.foundTables)) := by
    refine pair_sublist_filter ?_ hw hv
    exact (((List.singleton_sublist.mpr hvl).cons_cons w).trans (hl.trans (hsuffix k)).sublist).trans (foundOf_sublist info k)
  have hmem : v ∈ S.creates (info.foundViews ++ info.foundTables) := by
    rw [creates_eq, List.mem_reverse]
    exact hafter.subset (by simp)
  have hbefore := hcreates v w hdep hne hmem hw
  rw [creates_eq] at hbefore
  have hbefore : [v, w].Sublist (S.drops (info.foundViews ++ info.foundTables)) := by simpa using hbefore.reverse
  exact hne (eq_of_both_orders ((nodup_found hinv).filter _) hbefore hafter)

end DummyTestAux

open DummyTestAux

namespace DummyTestAux

/-- `v` reads a common table expression `w`, and the view `w`, which is declared later, reads `v`. -/
def shadowed : Schema String where
  objects := [⟨"v", .view (.withCte "w" .leaf (.fromName "w")), false, false⟩, ⟨"w", .view (.fromName "v"), false, false⟩]
  triggers := []
  nodup := List.nodup_nil
  fkTable := by simp

end DummyTestAux

end CgSql.DummyTest
