import Mathlib.Data.List.Forall2
import CgSql.Regions

/-!
# Regions are closed under references

While a region is open its image is the regions that are visible from it, what is declared there refers to objects in visible regions
only, and deployable regions are entered through their roots. A table that is deleted, or declared in a procedure, can have foreign
keys to any table (`refersWithin_false`).
-/

namespace CgSql.Regions

open Relation (ReflTransGen)

variable {N : Type}

/-! ## What holds of a program -/

/-- A link of a region. -/
def Linked (regions : List (Region N)) (a : N) (l : Link N) : Prop := ∃ r ∈ regions, r.name = a ∧ l ∈ r.links

/-- A link that is not private. -/
def PublicEdge (regions : List (Region N)) (a b : N) : Prop := Linked regions a ⟨b, false⟩

/-- The regions that can be reached from a region by links of which only the first may be private. -/
def Visible (regions : List (Region N)) (r other : N) : Prop :=
  other = r ∨ ∃ l, Linked regions r l ∧ ReflTransGen (PublicEdge regions) l.target other

/-- The image of the current region is the regions that are visible from it. -/
def ImageExact (s : State N) : Prop :=
  ∀ r image, s.current = some (r, image) → ∀ other, other ∈ image ↔ Visible s.regions r other

/-- What is declared in a region refers only to objects of regions that are visible from it. -/
def RefersWithin (s : State N) (e : Declared N) : Prop :=
  ∀ r, e.region = some r → ∀ o ∈ e.targets, ∃ other, o.region = some other ∧ Visible s.regions r other

/-- A region is in the deployable region that is its owner. -/
def Owned (s : State N) (owner r : N) : Prop := s.owners r = some owner

/-- The owner of a region is a deployable region, there is at most one, and links from outside of what a deployable region owns go
to its root. -/
structure Deployed (s : State N) : Prop where
  deployable : ∀ owner r, Owned s owner r → ∃ d ∈ s.regions, d.name = owner ∧ d.deployable = true
  unique : ∀ owner owner' r, Owned s owner r → Owned s owner' r → owner = owner'
  rooted : ∀ a l owner, Linked s.regions a l → Owned s owner l.target → ¬Owned s owner a → l.target = owner

/-- Regions are closed: images are exact, the declarations that are covered refer to visible regions, and deployable regions are
entered through their roots. -/
structure RegionsHold (covered : Declared N → Prop) (s : State N) : Prop where
  image : ImageExact s
  refers : ∀ e ∈ s.declared, covered e → RefersWithin s e
  deployed : Deployed s

/-- The checks of foreign keys apply: the declaration is not that of a table that is deleted or in a procedure. -/
def Declared.Checked (e : Declared N) : Prop :=
  match e.decl with
  | .table _ deleted _ => deleted = false ∧ e.inProc = false
  | _ => True

namespace RegionsAux

variable {r : Region N} {regions : List (Region N)} {a n b name : N} {l : Link N} {s s' : State N} {owners : N → Option N} {o : Object N}
  {d : Decl N}

/-! ## Declared regions -/

/-- Every region is new, and links to older ones. -/
def Grown : List (Region N) → Prop
  | [] => True
  | r :: regions => (∀ r' ∈ regions, r'.name ≠ r.name) ∧ (∀ l ∈ r.links, ∃ r' ∈ regions, r'.name = l.target) ∧ Grown regions

theorem linked_cons : Linked (r :: regions) a l ↔ (r.name = a ∧ l ∈ r.links) ∨ Linked regions a l := by
  simp [Linked]

/-- What a region links to is declared. -/
theorem target_declared (h : Grown regions) (hl : Linked regions a l) : ∃ r ∈ regions, r.name = l.target := by
  induction regions with
  | nil =>
    obtain ⟨r, hr, _⟩ := hl
    simp at hr
  | cons r regions ih =>
    obtain ⟨_, hlinks, hgrown⟩ := h
    rcases linked_cons.1 hl with ⟨_, hmem⟩ | hl
    · obtain ⟨r', hr', hname⟩ := hlinks l hmem
      exact ⟨r', List.mem_cons_of_mem _ hr', hname⟩
    · obtain ⟨r', hr', hname⟩ := ih hgrown hl
      exact ⟨r', List.mem_cons_of_mem _ hr', hname⟩

/-- Older regions see the same regions when there is a new one. -/
theorem visible_cons (h : Grown (r :: regions))
    (ha : ∃ r' ∈ regions, r'.name = a) (other : N) : Visible (r :: regions) a other ↔ Visible regions a other := by
  obtain ⟨hnew, _, hgrown⟩ := h
  have hlinked : ∀ {a l}, (∃ r' ∈ regions, r'.name = a) → (Linked (r :: regions) a l ↔ Linked regions a l) := by
    intro a l ⟨r', hr', hname⟩
    rw [linked_cons]
    constructor
    · intro h
      exact h.resolve_left fun h => hnew r' hr' (hname.trans h.1.symm)
    · exact Or.inr
  have hreach : ∀ {b}, (∃ r' ∈ regions, r'.name = b) →
      (ReflTransGen (PublicEdge (r :: regions)) b other ↔ ReflTransGen (PublicEdge regions) b other) := by
    intro b hb
    constructor
    · intro hpath
      induction hpath using ReflTransGen.head_induction_on with
      | refl => exact .refl
      | head hbc _ ih =>
        have hold := (hlinked hb).1 hbc
        exact (ih (target_declared hgrown hold)).head hold
    · intro hpath
      exact hpath.lift id fun b c hbc => linked_cons.2 (Or.inr hbc)
  unfold Visible
  constructor
  · rintro (rfl | ⟨l, hl, hpath⟩)
    · exact Or.inl rfl
    · have hold := (hlinked ha).1 hl
      exact Or.inr ⟨l, hold, (hreach (target_declared hgrown hold)).1 hpath⟩
  · rintro (rfl | ⟨l, hl, hpath⟩)
    · exact Or.inl rfl
    · exact Or.inr ⟨l, (hlinked ha).2 hl, (hreach (target_declared hgrown hl)).2 hpath⟩

/-- What is visible stays visible. -/
theorem visible_new {other : N} (h : Visible regions a other) : Visible (r :: regions) a other := by
  rcases h with rfl | ⟨l, hl, hpath⟩
  · exact Or.inl rfl
  · exact Or.inr ⟨l, linked_cons.2 (Or.inr hl), hpath.lift id fun b c hbc => linked_cons.2 (Or.inr hbc)⟩

/-! ## Invariant -/

/-- A region of this name is deployable. -/
def Deployable (regions : List (Region N)) (n : N) : Prop := ∃ d ∈ regions, d.name = n ∧ d.deployable = true

/-- What holds after every accepted statement. -/
structure Inv (s : State N) : Prop where
  grown : Grown s.regions
  known : ∀ r image, s.current = some (r, image) → ∃ r' ∈ s.regions, r'.name = r
  image : ImageExact s
  ownedKnown : ∀ r owner, s.owners r = some owner → ∃ r' ∈ s.regions, r'.name = r
  owner : ∀ r owner, s.owners r = some owner → Deployable s.regions owner
  /-- What an owned region links to is owned. -/
  closed : ∀ a l, Linked s.regions a l → (s.owners a).isSome = true → (s.owners l.target).isSome = true
  root : ∀ d, Deployable s.regions d → s.owners d = some d
  /-- Only the owner's regions link to a region that is not deployable. -/
  inside : ∀ a l owner, Linked s.regions a l → s.owners l.target = some owner → ¬Deployable s.regions l.target → s.owners a = some owner
  refers : ∀ e ∈ s.declared, e.Checked → RefersWithin s e

theorem inv_init : Inv (State.init : State N) := by
  have hnil : ∀ a l, ¬Linked ([] : List (Region N)) a l := by
    intro a l ⟨r, hr, _⟩
    simp at hr
  have hnone : ∀ n, ¬Deployable ([] : List (Region N)) n := by
    intro n ⟨d, hd, _⟩
    simp at hd
  exact {
    grown := trivial
    known := fun r image h => by simp [State.init] at h
    image := fun r image h => by simp [State.init] at h
    ownedKnown := fun r owner h => by simp [State.init] at h
    owner := fun r owner h => by simp [State.init] at h
    closed := fun a l hl => absurd hl (hnil a l)
    root := fun d hd => absurd hd (hnone d)
    inside := fun a l owner hl => absurd hl (hnil a l)
    refers := fun e he => by simp [State.init] at he }

/-- The objects of the current region, and what was declared, see what they saw when there is a new region. -/
theorem refersWithin_cons {e : Declared N} (h : RefersWithin s e) : RefersWithin { s with regions := r :: s.regions, owners := owners } e := by
  intro region hregion o ho
  obtain ⟨other, hother, hvis⟩ := h region hregion o ho
  exact ⟨other, hother, visible_new hvis⟩

theorem imageExact_cons (hs : Inv s) (hgrown : Grown (r :: s.regions)) : ImageExact { s with regions := r :: s.regions, owners := owners } := by
  intro region image hcurrent other
  rw [hs.image region image hcurrent other]
  exact (visible_cons hgrown (hs.known region image hcurrent) other).symm

/-- A new region is unowned. -/
theorem owners_new (hs : Inv s) (hgrown : Grown (r :: s.regions)) : s.owners r.name = none := by
  rcases howner : s.owners r.name with _ | owner
  · rfl
  · obtain ⟨r', hr', hname⟩ := hs.ownedKnown _ _ howner
    exact absurd hname (hgrown.1 r' hr')

theorem deployable_cons : Deployable (r :: regions) n ↔ (r.name = n ∧ r.deployable = true) ∨ Deployable regions n := by
  simp [Deployable]

/-! ## Walks -/

variable [DecidableEq N]

/-- The age of a region. -/
def rank : List (Region N) → N → Nat
  | [], _ => 0
  | r :: regions, n => if r.name = n then regions.length + 1 else rank regions n

theorem rank_le (regions : List (Region N)) (n : N) : rank regions n ≤ regions.length := by
  induction regions with
  | nil => exact Nat.le_refl _
  | cons r regions ih =>
    rw [rank, List.length_cons]
    split
    · exact Nat.le_refl _
    · omega

/-- The links of a region lead to older ones. -/
theorem rank_lt (h : Grown regions) (hl : Linked regions a l) : rank regions l.target < rank regions a := by
  induction regions with
  | nil =>
    obtain ⟨r, hr, _⟩ := hl
    simp at hr
  | cons r regions ih =>
    obtain ⟨hnew, hlinks, hgrown⟩ := h
    have hold : ∀ n, (∃ r' ∈ regions, r'.name = n) → rank (r :: regions) n = rank regions n := by
      intro n ⟨r', hr', hn⟩
      rw [rank, if_neg]
      intro hname
      exact hnew r' hr' (hn.trans hname.symm)
    rcases linked_cons.1 hl with ⟨rfl, hmem⟩ | hl
    · rw [hold _ (hlinks l hmem), rank, if_pos rfl]
      have := rank_le regions l.target
      omega
    · have hlt := ih hgrown hl
      rw [hold _ (target_declared hgrown hl)]
      obtain ⟨r', hr', hname, _⟩ := hl
      rw [hold _ ⟨r', hr', hname⟩]
      exact hlt

/-- A region is found by its name. -/
theorem findRegion_eq (h : Grown regions) (hr : r ∈ regions) : findRegion regions r.name = some r := by
  unfold findRegion
  induction regions with
  | nil => simp at hr
  | cons r' regions ih =>
    obtain ⟨hnew, _, hgrown⟩ := h
    rcases List.mem_cons.1 hr with rfl | hr
    · simp
    · have hne : r'.name ≠ r.name := fun h => hnew r hr h.symm
      rw [List.find?_cons_of_neg (by simpa using hne)]
      exact ih hgrown hr

/-- What is found is declared. -/
theorem mem_of_findRegion (h : findRegion regions n = some r) : r ∈ regions ∧ r.name = n :=
  ⟨List.mem_of_find?_eq_some h, by simpa using List.find?_some h⟩

/-- The links of the region with a name. -/
theorem linked_iff (h : Grown regions) : Linked regions a l ↔ ∃ r, findRegion regions a = some r ∧ l ∈ r.links := by
  constructor
  · intro ⟨r, hr, hname, hl⟩
    exact ⟨r, hname ▸ findRegion_eq h hr, hl⟩
  · intro ⟨r, hfind, hl⟩
    obtain ⟨hr, hname⟩ := mem_of_findRegion hfind
    exact ⟨r, hr, hname, hl⟩

theorem mem_allLinks (h : Grown regions) : b ∈ allLinks regions a ↔ ∃ l, Linked regions a l ∧ l.target = b := by
  simp only [linked_iff h, allLinks]
  rcases findRegion regions a with _ | r
  · simp
  · simp

theorem mem_walkLinks (h : Grown regions) {root : N} :
    b ∈ walkLinks regions true root a ↔ ∃ l, Linked regions a l ∧ (a = root ∨ l.isPrivate = false) ∧ l.target = b := by
  simp only [linked_iff h, walkLinks]
  rcases findRegion regions a with _ | r
  · simp
  · simp [and_assoc]

/-! ## Images -/

/-- Below the root the walk follows public links. -/
theorem reaches_public (h : Grown regions) {root : N} (hlt : rank regions a < rank regions root)
    (hreach : ReflTransGen (Walk.Edge (walkLinks regions true root)) a b) : ReflTransGen (PublicEdge regions) a b := by
  induction hreach using ReflTransGen.head_induction_on with
  | refl => exact .refl
  | @head a c hac _ ih =>
    obtain ⟨l, hl, hpublic, rfl⟩ := (mem_walkLinks h).1 hac
    have hdown := rank_lt h hl
    rcases hpublic with rfl | hpublic
    · exact absurd hlt (Nat.lt_irrefl _)
    · refine (ih (Nat.lt_trans hdown hlt)).head ?_
      obtain ⟨target, isPrivate⟩ := l
      simp only at hpublic
      subst hpublic
      exact hl

/-- The image is the regions that are visible. -/
theorem mem_publicRegionImage (h : Grown regions) (r other : N) : other ∈ publicRegionImage regions r ↔ Visible regions r other := by
  have hrank : ∀ a, ∀ b ∈ walkLinks regions true r a, rank regions b < rank regions a := by
    intro a b hb
    obtain ⟨l, hl, _, rfl⟩ := (mem_walkLinks h).1 hb
    exact rank_lt h hl
  have hfuel : rank regions r < regions.length + 1 := Nat.lt_succ_of_le (rank_le regions r)
  have hiff := Walk.seen_visit_iff (M := imageMarks) (s := ([] : List N)) (m := other) hrank hfuel (by simp [imageMarks])
  have hmem : other ∈ publicRegionImage regions r ↔ ReflTransGen (Walk.Edge (walkLinks regions true r)) r other := by
    simpa [imageMarks, publicRegionImage, walkRegions] using hiff
  rw [hmem, Visible]
  constructor
  · intro hreach
    rcases ReflTransGen.cases_head hreach with rfl | ⟨c, hc, hreach⟩
    · exact Or.inl rfl
    · obtain ⟨l, hl, _, rfl⟩ := (mem_walkLinks h).1 hc
      exact Or.inr ⟨l, hl, reaches_public h (rank_lt h hl) hreach⟩
  · intro hvis
    rcases hvis with rfl | ⟨l, hl, hreach⟩
    · exact .refl
    · have hfirst : Walk.Edge (walkLinks regions true r) r l.target := (mem_walkLinks h).2 ⟨l, hl, Or.inl rfl, rfl⟩
      refine ReflTransGen.head hfirst (hreach.lift id fun a b hab => ?_)
      exact (mem_walkLinks h).2 ⟨⟨b, false⟩, hab, Or.inr rfl, rfl⟩

/-- The check of links: the targets that are owned are deployable. -/
theorem validateRegionLinks_iff (h : Grown regions) : validateRegionLinks regions owners r = true ↔
      ∀ l ∈ r.links, (owners l.target).isSome = true → Deployable regions l.target := by
  unfold validateRegionLinks
  rw [List.all_eq_true]
  refine forall_congr' fun l => imp_congr_right fun _ => ?_
  have hfind : (findRegion regions l.target).any Region.deployable = true ↔ Deployable regions l.target := by
    constructor
    · intro hany
      rcases hf : findRegion regions l.target with _ | d
      · rw [hf] at hany
        simp at hany
      · rw [hf] at hany
        obtain ⟨hd, hname⟩ := mem_of_findRegion hf
        exact ⟨d, hd, hname, hany⟩
    · intro ⟨d, hd, hname, hdep⟩
      rw [← hname, findRegion_eq h hd]
      exact hdep
  rw [← hfind]
  rcases (owners l.target).isSome with _ | _
  · simp
  · rcases (findRegion regions l.target).any Region.deployable with _ | _
    · simp
    · simp

theorem isSome_findRegion : (findRegion regions n).isSome = true ↔ ∃ r ∈ regions, r.name = n := by
  rw [findRegion, List.find?_isSome]
  simp

/-- What a declaration of a region checks. -/
theorem declareRegion_cases (hs : Inv s) (h : s.declareRegion r = some s') : s' = { s with regions := r :: s.regions } ∧ Grown (r :: s.regions) ∧
      ∀ l ∈ r.links, (s.owners l.target).isSome = true → Deployable (r :: s.regions) l.target := by
  unfold State.declareRegion at h
  by_cases hproc : s.inProc = true
  · rw [if_pos hproc] at h
    simp at h
  rw [if_neg hproc] at h
  by_cases hdup : (r.links.map Link.target).Nodup
  · rw [if_neg (not_not_intro hdup)] at h
    by_cases hunknown : (r.links.any fun l => (findRegion s.regions l.target).isNone) = true
    · rw [if_pos hunknown] at h
      simp at h
    rw [if_neg hunknown] at h
    by_cases hexists : (findRegion s.regions r.name).isSome = true
    · rw [if_pos hexists] at h
      simp at h
    rw [if_neg hexists] at h
    have hgrown : Grown (r :: s.regions) := by
      refine ⟨fun r' hr' hname => hexists (isSome_findRegion.2 ⟨r', hr', hname⟩), fun l hl => ?_, hs.grown⟩
      rw [← isSome_findRegion]
      rw [List.any_eq_true] at hunknown
      rcases hf : (findRegion s.regions l.target).isSome with _ | _
      · exact absurd ⟨l, hl, by simpa using hf⟩ hunknown
      · rfl
    by_cases hvalid : validateRegionLinks (r :: s.regions) s.owners r = true
    · rw [if_pos hvalid] at h
      exact ⟨(Option.some.inj h).symm, hgrown, (validateRegionLinks_iff hgrown).1 hvalid⟩
    · rw [if_neg hvalid] at h
      simp at h
  · rw [if_pos hdup] at h
    simp at h

/-! ## Steps -/

theorem declareSchemaRegion_inv (hs : Inv s) (hr : r.deployable = false) (h : s.declareRegion r = some s') : Inv s' := by
  obtain ⟨rfl, hgrown, hlinks⟩ := declareRegion_cases hs h
  have hnew := owners_new hs hgrown
  have hdep : ∀ n, Deployable (r :: s.regions) n ↔ Deployable s.regions n := by
    intro n
    rw [deployable_cons]
    simp [hr]
  exact {
    grown := hgrown
    known := fun region image hcurrent => by
      obtain ⟨r', hr', hname⟩ := hs.known region image hcurrent
      exact ⟨r', List.mem_cons_of_mem _ hr', hname⟩
    image := imageExact_cons hs hgrown
    ownedKnown := fun n owner howner => by
      obtain ⟨r', hr', hname⟩ := hs.ownedKnown n owner howner
      exact ⟨r', List.mem_cons_of_mem _ hr', hname⟩
    owner := fun n owner howner => (hdep owner).2 (hs.owner n owner howner)
    closed := fun a l hl ha => by
      rcases linked_cons.1 hl with ⟨rfl, _⟩ | hl
      · rw [hnew] at ha
        simp at ha
      · exact hs.closed a l hl ha
    root := fun d hd => hs.root d ((hdep d).1 hd)
    inside := fun a l owner hl howner hnot => by
      rcases linked_cons.1 hl with ⟨rfl, hmem⟩ | hl
      · exact absurd (hlinks l hmem (by rw [howner]; rfl)) hnot
      · exact hs.inside a l owner hl howner fun hd => hnot ((hdep _).2 hd)
    refers := fun e he hchecked => refersWithin_cons (hs.refers e he hchecked) }

/-- What the marks of a deployable region do to the owners. -/
theorem mark_spec (hs : Inv s) (hgrown : Grown (r :: s.regions))
    (hmark : owners = markDeploymentSubgraph (r :: s.regions) s.owners r.name r.name) :
    (∀ n owner, s.owners n = some owner → owners n = some owner) ∧ (∀ n, s.owners n = none → owners n = none ∨ owners n = some r.name) ∧
      (∀ n, (owners n).isSome = true ↔ (s.owners n).isSome = true ∨ ReflTransGen (Walk.Edge (allLinks (r :: s.regions))) r.name n) := by
  have hnew := owners_new hs hgrown
  have hrank : ∀ a, ∀ b ∈ allLinks (r :: s.regions) a, rank (r :: s.regions) b < rank (r :: s.regions) a := by
    intro a b hb
    obtain ⟨l, hl, rfl⟩ := (mem_allLinks hgrown).1 hb
    exact rank_lt hgrown hl
  have hclosed : ∀ a, (s.owners a).isSome = true → ∀ b ∈ allLinks (r :: s.regions) a, (s.owners b).isSome = true := by
    intro a ha b hb
    obtain ⟨l, hl, rfl⟩ := (mem_allLinks hgrown).1 hb
    rcases linked_cons.1 hl with ⟨rfl, _⟩ | hl
    · rw [hnew] at ha
      simp at ha
    · exact hs.closed a l hl ha
  have hdata : (∀ n owner, s.owners n = some owner → owners n = some owner) ∧
      (∀ n, s.owners n = none → owners n = none ∨ owners n = some r.name) := by
    rw [hmark]
    refine Walk.visit_induct (fun owners : N → Option N => (∀ n owner, s.owners n = some owner → owners n = some owner) ∧
      (∀ n, s.owners n = none → owners n = none ∨ owners n = some r.name)) ?_ ⟨fun n owner h => h, fun n h => Or.inl h⟩
    intro owners m hm _ ⟨hkeep, hfill⟩
    have hm' : owners m = none := Option.not_isSome_iff_eq_none.1 (Bool.eq_false_iff.1 hm)
    refine ⟨fun n owner hn => ?_, fun n hn => ?_⟩
    · have hne : n ≠ m := by
        intro hnm
        rw [← hnm, hkeep n owner hn] at hm'
        simp at hm'
      exact (Function.update_of_ne hne _ _).trans (hkeep n owner hn)
    · by_cases hnm : n = m
      · exact Or.inr (by rw [hnm]; exact Function.update_self _ _ _)
      · rw [show (ownerMarks r.name).add owners m n = owners n from Function.update_of_ne hnm _ _]
        exact hfill n hn
  refine ⟨hdata.1, hdata.2, fun n => ?_⟩
  rw [hmark]
  exact Walk.seen_visit_iff (M := ownerMarks r.name) hrank (Nat.lt_succ_of_le (rank_le _ _)) hclosed

theorem declareDeployableRegion_inv (hs : Inv s) (hr : r.deployable = true) (h : s.declareDeployableRegion r = some s') : Inv s' := by
  unfold State.declareDeployableRegion at h
  obtain ⟨s1, h1, h⟩ := Option.bind_eq_some_iff.1 h
  obtain ⟨rfl, hgrown, hlinks⟩ := declareRegion_cases hs h1
  have hnew := owners_new hs hgrown
  generalize hmark : markDeploymentSubgraph (r :: s.regions) s.owners r.name r.name = owners at h
  obtain ⟨hkeep, hfill, hsome⟩ := mark_spec hs hgrown hmark.symm
  simp only at h
  split at h
  case isFalse => simp at h
  rename_i hvalid
  have hself : owners r.name = some r.name := by
    rcases hfill r.name hnew with hnone | hsome'
    · have := (hsome r.name).2 (Or.inr .refl)
      rw [hnone] at this
      simp at this
    · exact hsome'
  have hagain : markDeploymentSubgraph (r :: s.regions) owners r.name r.name = owners :=
    Walk.visit_seen (by simp [ownerMarks, hself])
  rw [hagain] at h
  rw [← Option.some.inj h]
  have hrecheck : ∀ r' ∈ r :: s.regions, owners r'.name = none →
      ∀ l ∈ r'.links, (owners l.target).isSome = true → Deployable (r :: s.regions) l.target := by
    intro r' hr' hnone
    have hor := List.all_eq_true.1 hvalid r' hr'
    rw [hnone] at hor
    exact (validateRegionLinks_iff hgrown).1 (by simpa using hor)
  exact {
    grown := hgrown
    known := fun region image hcurrent => by
      obtain ⟨r', hr', hname⟩ := hs.known region image hcurrent
      exact ⟨r', List.mem_cons_of_mem _ hr', hname⟩
    image := imageExact_cons hs hgrown
    ownedKnown := fun n owner (howner : owners n = some owner) => by
      rcases (hsome n).1 (by rw [howner]; rfl) with hold | hreach
      · obtain ⟨owner', howner'⟩ := Option.isSome_iff_exists.1 hold
        obtain ⟨r', hr', hname⟩ := hs.ownedKnown n owner' howner'
        exact ⟨r', List.mem_cons_of_mem _ hr', hname⟩
      · rcases ReflTransGen.cases_tail hreach with rfl | ⟨b, _, hb⟩
        · exact ⟨r, List.mem_cons_self, rfl⟩
        · obtain ⟨l, hl, rfl⟩ := (mem_allLinks hgrown).1 hb
          exact target_declared hgrown hl
    owner := fun n owner (howner : owners n = some owner) => by
      rcases hold : s.owners n with _ | owner'
      · rcases hfill n hold with hnone | hsome'
        · rw [hnone] at howner
          simp at howner
        · rw [hsome'] at howner
          exact ⟨r, List.mem_cons_self, Option.some.inj howner, hr⟩
      · rw [hkeep n owner' hold] at howner
        exact deployable_cons.2 (Or.inr (Option.some.inj howner ▸ hs.owner n owner' hold))
    closed := fun a l hl (ha : (owners a).isSome = true) => by
      rcases (hsome a).1 ha with hold | hreach
      · rcases linked_cons.1 hl with ⟨rfl, _⟩ | hl
        · rw [hnew] at hold
          simp at hold
        · exact (hsome _).2 (Or.inl (hs.closed a l hl hold))
      · exact (hsome _).2 (Or.inr (hreach.tail ((mem_allLinks hgrown).2 ⟨l, hl, rfl⟩)))
    root := fun d hd => by
      rcases deployable_cons.1 hd with ⟨rfl, _⟩ | hd
      · exact hself
      · exact hkeep d d (hs.root d hd)
    inside := fun a l owner hl (howner : owners l.target = some owner) hnot => by
      rcases hold : s.owners l.target with _ | owner'
      -- the target is newly owned, and so is what links to it
      · have howner' : owner = r.name := by
          rcases hfill _ hold with hnone | hsome'
          · rw [hnone] at howner
            simp at howner
          · rw [hsome'] at howner
            exact (Option.some.inj howner).symm
        rcases hold' : s.owners a with _ | owner''
        · rcases hfill a hold' with hnone | hsome'
          · obtain ⟨r', hr', rfl, hmem⟩ := hl
            exact absurd (hrecheck r' hr' hnone l hmem (by rw [howner]; rfl)) hnot
          · exact hsome'.trans (congrArg some howner'.symm)
        · rcases linked_cons.1 hl with ⟨rfl, _⟩ | hl
          · rw [hnew] at hold'
            simp at hold'
          · have := hs.closed a l hl (by rw [hold']; rfl)
            rw [hold] at this
            simp at this
      · rw [hkeep _ _ hold] at howner
        rcases linked_cons.1 hl with ⟨rfl, hmem⟩ | hl
        · exact absurd (hlinks l hmem (by rw [hold]; rfl)) hnot
        · refine hkeep a owner (hs.inside a l owner hl (hold.trans howner) fun hd => ?_)
          exact hnot (deployable_cons.2 (Or.inr hd))
    refers := fun e he hchecked => refersWithin_cons (hs.refers e he hchecked) }

theorem beginRegion_inv (hs : Inv s) (h : s.beginRegion name = some s') : Inv s' := by
  unfold State.beginRegion at h
  split at h
  · simp at h
  · obtain ⟨r, hfind, h⟩ := Option.bind_eq_some_iff.1 h
    obtain ⟨hr, _⟩ := mem_of_findRegion hfind
    rw [← Option.some.inj h]
    exact { hs with
      known := fun region image hcurrent => by
        obtain ⟨rfl, _⟩ := Prod.mk.inj (Option.some.inj hcurrent)
        exact ⟨r, hr, rfl⟩
      image := fun region image hcurrent other => by
        obtain ⟨rfl, rfl⟩ := Prod.mk.inj (Option.some.inj hcurrent)
        exact mem_publicRegionImage hs.grown r.name other }

omit [DecidableEq N] in
theorem endRegion_inv (hs : Inv s) (h : s.endRegion = some s') : Inv s' := by
  unfold State.endRegion at h
  split at h
  · simp at h
  · rw [← Option.some.inj h]
    exact { hs with
      known := fun region image hcurrent => by simp at hcurrent
      image := fun region image hcurrent => by simp at hcurrent }

/-! ## Declarations -/

/-- What is usable in a region is in a region that is visible from it. -/
theorem usable_visible (hs : Inv s) (h : s.findUsable name = some o) {r : N}
    (hr : s.current.map Prod.fst = some r) : ∃ other, o.region = some other ∧ Visible s.regions r other := by
  obtain ⟨_, hvalid⟩ := Option.filter_eq_some_iff.1 h
  unfold State.validateInCurrentRegion at hvalid
  rcases hcurrent : s.current with _ | ⟨region, image⟩
  · rw [hcurrent] at hr
    simp at hr
  rw [hcurrent] at hr hvalid
  obtain rfl : region = r := Option.some.inj hr
  rcases hregion : o.region with _ | other
  · rw [hregion] at hvalid
    simp at hvalid
  · rw [hregion] at hvalid
    exact ⟨other, rfl, (hs.image region image hcurrent other).1 (by simpa using hvalid)⟩

theorem usableNotDeleted (h : s.findUsableNotDeleted name = some o) : s.findUsable name = some o := (Option.filter_eq_some_iff.1 h).1

/-- What is found for a list of names is found for one of them. -/
theorem mem_of_mapM {α β : Type} {f : α → Option β} {l : List α} {bs : List β} (h : l.mapM f = some bs) {b : β} (hb : b ∈ bs) :
    ∃ a ∈ l, f a = some b := by
  induction l generalizing bs with
  | nil =>
    obtain rfl : [] = bs := Option.some.inj h
    simp at hb
  | cons a l ih =>
    rw [List.mapM_cons] at h
    obtain ⟨b', hb', h⟩ := Option.bind_eq_some_iff.1 h
    obtain ⟨bs', hbs', h⟩ := Option.bind_eq_some_iff.1 h
    obtain rfl : b' :: bs' = bs := Option.some.inj h
    rcases List.mem_cons.1 hb with rfl | hb
    · exact ⟨a, List.mem_cons_self, hb'⟩
    · obtain ⟨a', ha', hfa'⟩ := ih hbs' hb
      exact ⟨a', List.mem_cons_of_mem _ ha', hfa'⟩

theorem findTables_usable {froms : List (From N)} {targets : List (Object N)}
    (h : s.findTables froms = some targets) : ∀ o ∈ targets, ∃ name, s.findUsable name = some o := by
  intro o ho
  obtain ⟨f, _, hf⟩ := mem_of_mapM h ho
  exact ⟨f.name, usableNotDeleted hf⟩

theorem findTarget_usable (h : s.findTarget d name = some o) : s.findUsable name = some o := by
  unfold State.findTarget at h
  split at h
  · exact (Option.filter_eq_some_iff.1 h).1
  · exact usableNotDeleted h

/-- The targets of a declaration whose foreign keys are checked are usable, or the table itself. -/
theorem targets_usable {targets : List (Object N)} (h : s.targets d = some targets)
    (hchecked : ∀ name deleted foreignKeys, d = .table name deleted foreignKeys → deleted = false ∧ s.inProc = false) :
    ∀ o ∈ targets, o = s.object d ∨ ∃ name, s.findUsable name = some o := by
  intro o ho
  cases d with
  | table name deleted foreignKeys =>
    obtain ⟨rfl, hproc⟩ := hchecked name deleted foreignKeys rfl
    obtain ⟨key, _, hkey⟩ := mem_of_mapM (show foreignKeys.mapM _ = some targets from h) ho
    unfold State.findReferencedTable at hkey
    split at hkey
    · exact Or.inl (Option.some.inj hkey).symm
    · rw [if_neg (by simp [Decl.deleted, hproc])] at hkey
      exact Or.inr ⟨key, usableNotDeleted hkey⟩
  | view name deleted froms => exact Or.inr (findTables_usable h o ho)
  | index name deleted target =>
    obtain ⟨o', ho', h⟩ := Option.bind_eq_some_iff.1 h
    obtain rfl : [o'] = targets := Option.some.inj h
    obtain rfl : o = o' := List.mem_singleton.1 ho
    exact Or.inr ⟨target, findTarget_usable ho'⟩
  | trigger name deleted target body =>
    obtain ⟨o', ho', h⟩ := Option.bind_eq_some_iff.1 h
    obtain ⟨os, hos, h⟩ := Option.bind_eq_some_iff.1 h
    obtain rfl : o' :: os = targets := Option.some.inj h
    rcases List.mem_cons.1 ho with rfl | ho
    · exact Or.inr ⟨target, findTarget_usable ho'⟩
    · exact Or.inr (findTables_usable hos o ho)

theorem declare_inv (hs : Inv s) (h : s.declare d = some s') : Inv s' := by
  unfold State.declare at h
  obtain ⟨targets, htargets, h⟩ := Option.bind_eq_some_iff.1 h
  have hnew : ∀ e, e = (⟨d, s.current.map Prod.fst, s.inProc, targets⟩ : Declared N) → e.Checked → RefersWithin s e := by
    rintro e rfl hchecked r hr o ho
    have hkeys : ∀ name deleted foreignKeys, d = .table name deleted foreignKeys → deleted = false ∧ s.inProc = false := by
      rintro name deleted foreignKeys rfl
      exact hchecked
    rcases targets_usable htargets hkeys o ho with rfl | ⟨name, hname⟩
    · exact ⟨r, hr, Or.inl rfl⟩
    · exact usable_visible hs hname hr
  have hdeclared : ∀ objects, Inv { s with
      objects := objects, declared := ⟨d, s.current.map Prod.fst, s.inProc, targets⟩ :: s.declared } := by
    intro objects
    refine { hs with refers := fun e he hchecked => ?_ }
    rcases List.mem_cons.1 he with he | he
    · exact hnew e he hchecked
    · exact hs.refers e he hchecked
  split at h
  · split at h
    · rw [← Option.some.inj h]
      exact hdeclared s.objects
    · simp at h
  · rw [← Option.some.inj h]
    split
    · exact hdeclared (s.object d :: s.objects)
    · exact hdeclared s.objects

theorem step_inv {stmt : Stmt N} (hs : Inv s) (h : s.step stmt = some s') : Inv s' := by
  cases stmt with
  | declareSchemaRegion name links => exact declareSchemaRegion_inv hs rfl h
  | declareDeployableRegion name links => exact declareDeployableRegion_inv hs rfl h
  | beginSchemaRegion name => exact beginRegion_inv hs h
  | endSchemaRegion => exact endRegion_inv hs h
  | beginProc =>
    have h : (if s.inProc then none else some { s with inProc := true }) = some s' := h
    split at h
    · simp at h
    · rw [← Option.some.inj h]
      exact { hs with }
  | endProc =>
    have h : (if s.inProc then some { s with inProc := false } else none) = some s' := h
    split at h
    · rw [← Option.some.inj h]
      exact { hs with }
    · simp at h
  | declare d => exact declare_inv hs h

theorem run_inv {stmts : List (Stmt N)} (hs : Inv s) (h : run s stmts = some s') : Inv s' := by
  induction stmts generalizing s with
  | nil => exact Option.some.inj h ▸ hs
  | cons stmt stmts ih =>
    unfold run at h
    rw [List.foldlM_cons] at h
    obtain ⟨s1, h1, h⟩ := Option.bind_eq_some_iff.1 h
    exact ih (step_inv hs h1) h

omit [DecidableEq N] in
theorem Inv.deployed (hs : Inv s) : Deployed s := by
  refine ⟨fun owner r h => hs.owner r owner h, fun owner owner' r h h' => Option.some.inj (h.symm.trans h'), ?_⟩
  intro a l owner hl howner hnot
  by_cases hdep : Deployable s.regions l.target
  · exact Option.some.inj ((hs.root _ hdep).symm.trans howner)
  · exact absurd (hs.inside a l owner hl howner hdep) hnot

end RegionsAux

/-! ## Every program -/

open RegionsAux in
/-- After every program that is accepted regions are closed, but for the foreign keys of tables that are deleted or in a procedure. -/
theorem regionsHold_of_run [DecidableEq N] {stmts : List (Stmt N)} {s : State N} (h : run .init stmts = some s) :
    RegionsHold Declared.Checked s :=
  have hs := run_inv inv_init h
  ⟨hs.image, hs.refers, hs.deployed⟩

/-- Regions 1 and 2, where 2 has a private link to 1, and a deployable region 3 above them: table 10 in region 1, and in region 2
table 20 with a foreign key to it, an index, a view and a trigger. -/
def twoRegions : List (Stmt Nat) :=
  [.declareSchemaRegion 1 [], .declareSchemaRegion 2 [⟨1, true⟩], .declareDeployableRegion 3 [⟨2, false⟩],
    .beginSchemaRegion 1, .declare (.table 10 false []), .endSchemaRegion,
    .beginSchemaRegion 2, .declare (.table 20 false [10, 20]), .declare (.index 30 false 20),
    .declare (.view 40 false [⟨[], 10⟩, ⟨[50], 50⟩]), .declare (.trigger 60 false 20 [⟨[], 40⟩])]

theorem regionsHold_twoRegions :
    ∃ s, run .init twoRegions = some s ∧ s.declared.length = 5 ∧ s.owners 1 = some 3 ∧ RegionsHold Declared.Checked s := by
  have h : run .init twoRegions = some _ := rfl
  exact ⟨_, h, rfl, rfl, regionsHold_of_run h⟩

/-- A table of region 2 that is deleted has a foreign key to a table of region 1, which 2 has no link to. -/
theorem refersWithin_false : ¬∀ (stmts : List (Stmt Nat)) (s : State Nat), run .init stmts = some s → RegionsHold (fun _ => True) s := by
  intro h
  have hs := h [.declareSchemaRegion 1 [], .declareSchemaRegion 2 [], .beginSchemaRegion 1, .declare (.table 10 false []),
    .endSchemaRegion, .beginSchemaRegion 2, .declare (.table 20 true [10])] _ rfl
  obtain ⟨other, hother, hvis⟩ := hs.refers _ List.mem_cons_self trivial 2 rfl ⟨10, some 1, false⟩ List.mem_cons_self
  obtain rfl : 1 = other := Option.some.inj hother
  rcases hvis with hvis | ⟨l, ⟨r, hr, hname, hl⟩, _⟩
  · exact absurd hvis (by decide)
  · have hempty : ∀ r ∈ [(⟨2, false, []⟩ : Region Nat), ⟨1, false, []⟩], r.links = [] := by decide
    rw [hempty r hr] at hl
    simp at hl

end CgSql.Regions
