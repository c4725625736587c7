import Mathlib.Tactic.SplitIfs
import CgSql.Unsub

/-!
# Unsubscription

What is declared refers to what is there, and the record has it. An `@unsub` that the record allows strands nothing, as long as the record and what
is created agree on what is still there.
-/

namespace CgSql.Unsub

open Regions (From Space)

variable {N : Type} [DecidableEq N]

namespace UnsubAux

variable {others : State N → Decl N → Bool} {s s' : State N} {d : Decl N} {name : N}

/-! ### Declarations -/

/-- What is recorded of a first declaration. -/
def targets (s : State N) : Decl N → List N
  | .table t => t.foreignKeys
  | .view v => s.found (s.walkView v)
  | .index _ => []
  | .trigger r => (s.found (s.walkTrigger r)).filter fun name => name ≠ r.target

/-- What is recorded of a repeated declaration. -/
def aliasTargets : Decl N → List N
  | .table t => t.foreignKeys
  | _ => []

/-- What an accepted declaration has passed. -/
def Checked (s : State N) : Decl N → Prop
  | .table t => s.semForeignKeys t = true
  | .view v => s.semFroms v.froms = true ∧ s.semFroms v.nested = true
  | .index i => (s.findNotDeleted i.target).isSome
  | .trigger r => (s.findNotDeleted r.target).isSome ∧ s.semFroms r.froms = true ∧ s.semDml r.dml = true

/-- The state after a first declaration. -/
def added (s : State N) (d : Decl N) : State N :=
  { declared := d :: s.declared, unsubscribed := s.unsubscribed, refSources := s.refSources ++ (targets s d).map fun target => (target, ⟨d, false⟩) }

/-- The state after a repeated declaration. -/
def repeated (s : State N) (d : Decl N) : State N :=
  { s with refSources := s.refSources ++ (aliasTargets d).map fun target => (target, ⟨d, true⟩) }

/-- A declaration is new or repeats one. -/
theorem declareAs_cases {first again : State N} (h : s.declareAs d first again = some s') :
    (s.find d.space d.name = none ∧ s' = { first with declared := d :: first.declared }) ∨ (d ∈ s.declared ∧ s' = again) := by
  unfold State.declareAs at h
  split at h
  · rename_i existing hfind
    split at h
    · rename_i heq
      exact .inr ⟨heq ▸ List.mem_of_find?_eq_some hfind, (Option.some.inj h).symm⟩
    · cases h
  · rename_i hfind
    exact .inl ⟨hfind, (Option.some.inj h).symm⟩

/-- A declaration is checked, and is a new one or one that was there. -/
theorem declare_cases (h : s.declare others d = some s') : (d.temp && d.deleted) = false ∧ Checked s d ∧
    ((s.find d.space d.name = none ∧ s' = added s d) ∨ (d ∈ s.declared ∧ s' = repeated s d)) := by
  unfold State.declare at h
  split at h
  · cases h
  · rename_i hothers
    simp only [Bool.or_eq_true, Bool.not_eq_true', not_or, Bool.not_eq_true, Bool.not_eq_false] at hothers
    refine ⟨hothers.1, ?_⟩
    cases d with
    | table t =>
      simp only [State.semCreateTable] at h
      split at h
      · rename_i hchecked
        rw [Bool.and_eq_true] at hchecked
        exact ⟨hchecked.1, declareAs_cases h⟩
      · cases h
    | view v =>
      simp only [State.semCreateView] at h
      split at h
      · rename_i hchecked
        rw [Bool.and_eq_true] at hchecked
        refine ⟨hchecked, (declareAs_cases h).imp_right ?_⟩
        simp [repeated, aliasTargets]
      · cases h
    | index i =>
      simp only [State.semCreateIndex] at h
      split at h
      · rename_i hchecked
        refine ⟨hchecked, (declareAs_cases h).imp ?_ ?_⟩
        · simp [added, targets]
        · simp [repeated, aliasTargets]
      · cases h
    | trigger r =>
      simp only [State.semCreateTrigger] at h
      split at h
      · rename_i hchecked
        rw [Bool.and_eq_true, Bool.and_eq_true] at hchecked
        refine ⟨⟨hchecked.1.1, hchecked.1.2, hchecked.2⟩, (declareAs_cases h).imp_right ?_⟩
        simp [repeated, aliasTargets]
      · cases h

/-- An accepted `@unsub` is for something that is there and not used. -/
theorem unsub_cases (h : s.semSchemaUnsubStmt name = .ok s') :
    (s.findTableOrView name).isSome ∧ s.usedBy name = [] ∧ s' = { s with unsubscribed := name :: s.unsubscribed } := by
  unfold State.semSchemaUnsubStmt at h
  split at h
  · cases h
  · rename_i target htarget
    split_ifs at h
    split at h
    · rename_i hused
      cases h
      exact ⟨by simp [htarget], hused, rfl⟩
    · cases h

/-! ### Lookups -/

theorem findTableOrView_some (h : s.findTableOrView name = some d) : d ∈ s.declared ∧ d.space = .tables ∧ d.name = name :=
  ⟨List.mem_of_find?_eq_some h, by simpa using List.find?_some h⟩

theorem isSome_of_findNotDeleted (h : (s.findNotDeleted name).isSome) : (s.findTableOrView name).isSome := by
  unfold State.findNotDeleted at h
  cases hfind : s.findTableOrView name with
  | none => simp [hfind] at h
  | some o => rfl

/-- What is found stays what it is when something is added. -/
theorem find_added (hnew : s.find d.space d.name = none) {o : Decl N} (h : s.findTableOrView name = some o) :
    (added s d).findTableOrView name = some o := by
  have hne : ¬(d.space = .tables ∧ d.name = name) := by
    rintro ⟨hspace, hname⟩
    rw [State.findTableOrView, ← hspace, ← hname, hnew] at h
    cases h
  simp only [State.findTableOrView, State.find, added, List.find?_cons, hne, decide_false]
  exact h

theorem find_self (hspace : d.space = .tables) : (added s d).findTableOrView d.name = some d := by
  simp [State.findTableOrView, State.find, added, hspace]

/-- What was found is found behind a new declaration. -/
theorem findNotDeleted_added (hnew : s.find d.space d.name = none) (h : (s.findNotDeleted name).isSome) :
    ((added s d).findNotDeleted name).isSome := by
  obtain ⟨o, ho⟩ := Option.isSome_iff_exists.mp (isSome_of_findNotDeleted h)
  rw [State.findNotDeleted, ho] at h
  rw [State.findNotDeleted, find_added hnew ho]
  exact h

theorem backing_added (hnew : s.find d.space d.name = none) (h : (s.findTableOrView name).isSome) : (added s d).backing name = s.backing name := by
  obtain ⟨o, ho⟩ := Option.isSome_iff_exists.mp h
  rw [State.backing, State.backing, ho, find_added hnew ho]

theorem tableDeleted_added (hnew : s.find d.space d.name = none) (h : (s.findTableOrView name).isSome) :
    (added s d).tableDeleted name = s.tableDeleted name := by
  obtain ⟨o, ho⟩ := Option.isSome_iff_exists.mp h
  rw [State.tableDeleted, State.tableDeleted, ho, find_added hnew ho]
  rfl

/-! ### References -/

/-- A select that is rewritten reads what its FROM clauses name and the backing tables of that. -/
theorem mem_reads {froms : List (From N)} :
    name ∈ s.reads froms ↔ ∃ f ∈ froms, f.name ∉ f.ctes ∧ (name = f.name ∨ s.backing f.name = some name) := by
  simp [State.reads, and_assoc]

/-- The walk of such a select also meets the names of CTEs. -/
theorem mem_walkRewritten {froms : List (From N)} :
    name ∈ s.walkRewritten froms ↔ ∃ f ∈ froms, name = f.name ∨ (f.name ∉ f.ctes ∧ s.backing f.name = some name) := by
  have hite : ∀ f : From N, (name ∈ if f.name ∈ f.ctes then [] else (s.backing f.name).toList) ↔ f.name ∉ f.ctes ∧ s.backing f.name = some name := by
    intro f
    by_cases hcte : f.name ∈ f.ctes
    · simp [hcte]
    · simp [hcte]
  simp [State.walkRewritten, hite]

/-- The names that a view uses. -/
theorem mem_refers_view {v : View N} : name ∈ s.refers (.view v) ↔ (∃ f ∈ v.froms, f.name ∉ f.ctes ∧ f.name = name) ∨ name ∈ s.reads v.nested := by
  simp [State.refers, and_assoc]

/-- The names that a trigger uses in its body. -/
theorem mem_refers_trigger {r : Trigger N} :
    name ∈ s.refers (.trigger r) ↔ name = r.target ∨ name ∈ s.reads r.froms ∨ ∃ n ∈ r.dml, name = n ∨ s.backing n = some name := by
  simp [State.refers]

/-- The names that the walk of a trigger meets. -/
theorem mem_walkTrigger {r : Trigger N} :
    name ∈ s.walkTrigger r ↔ name ∈ s.walkRewritten r.froms ∨ ∃ n ∈ r.dml, name = n ∨ s.backing n = some name := by
  simp [State.walkTrigger]

/-- What a select reads is walked. -/
theorem mem_walkRewritten_of_reads {froms : List (From N)} (h : name ∈ s.reads froms) : name ∈ s.walkRewritten froms := by
  obtain ⟨f, hf, hcte, hor⟩ := mem_reads.mp h
  exact mem_walkRewritten.mpr ⟨f, hf, hor.imp_right fun hbacking => ⟨hcte, hbacking⟩⟩

/-- The names that are found. -/
theorem mem_found {names : List N} : name ∈ s.found names ↔ name ∈ names ∧ (s.findTableOrView name).any (fun d => !d.deleted) = true := by
  simp [State.found, List.mem_eraseDups]

theorem mem_found_of_findNotDeleted {names : List N} (hmem : name ∈ names) (h : (s.findNotDeleted name).isSome) : name ∈ s.found names := by
  refine mem_found.mpr ⟨hmem, ?_⟩
  obtain ⟨o, ho⟩ := Option.isSome_iff_exists.mp (isSome_of_findNotDeleted h)
  rw [State.findNotDeleted, ho] at h
  cases hdeleted : o.deleted with
  | false => simp [ho, hdeleted]
  | true => simp [State.isDeleted, hdeleted] at h

/-! ### What is checked -/

/-- What an accepted FROM names is there. -/
theorem of_semFroms {froms : List (From N)} (h : s.semFroms froms = true) {f : From N} (hf : f ∈ froms) :
    (∀ cte ∈ f.ctes, s.nameHidesRootTable cte = false) ∧ (f.name ∉ f.ctes → (s.findNotDeleted f.name).isSome) := by
  have hall := List.all_eq_true.mp h f hf
  rw [Bool.and_eq_true, Bool.or_eq_true, decide_eq_true_eq] at hall
  refine ⟨fun cte hcte => by simpa using List.all_eq_true.mp hall.1 cte hcte, fun hname => ?_⟩
  have hany := hall.2.resolve_left hname
  cases hfind : s.findNotDeleted f.name with
  | none => simp [hfind] at hany
  | some o => rfl

/-- What an accepted statement names is there. -/
theorem of_semDml {dml : List N} (h : s.semDml dml = true) (hn : name ∈ dml) :
    (s.findNotDeleted name).isSome ∧ ∀ backing, s.backing name = some backing → (s.findNotDeleted backing).isSome := by
  have hall := List.all_eq_true.mp h name hn
  rw [Bool.and_eq_true] at hall
  refine ⟨hall.1, fun backing hbacking => ?_⟩
  simpa [hbacking] using hall.2

/-- A select whose FROM clauses are checked, with their backing tables there, reads what is there. -/
theorem reads_live {froms : List (From N)} (hfroms : s.semFroms froms = true) (hbackings : s.BackingFound froms) (hname : name ∈ s.reads froms) :
    (s.findNotDeleted name).isSome := by
  obtain ⟨f, hf, hcte, rfl | hbacking⟩ := mem_reads.mp hname
  · exact (of_semFroms hfroms hf).2 hcte
  · exact hbackings f hf hcte name hbacking

/-- Views, indices and triggers refer to what is there. -/
theorem refers_live (hchecked : Checked s d) (hregular : s.Regular (.declare d)) (htable : ∀ t, d ≠ .table t) :
    ∀ name ∈ s.refers d, (s.findNotDeleted name).isSome := by
  intro name hname
  cases d with
  | table t => exact absurd rfl (htable t)
  | view v =>
    rcases mem_refers_view.mp hname with ⟨f, hf, hcte, rfl⟩ | hnested
    · exact (of_semFroms hchecked.1 hf).2 hcte
    · exact reads_live hchecked.2 hregular hnested
  | index i =>
    simp only [State.refers, List.mem_singleton] at hname
    exact hname ▸ hchecked
  | trigger r =>
    obtain ⟨htarget, hfroms, hdml⟩ := hchecked
    rcases mem_refers_trigger.mp hname with rfl | hreads | ⟨n, hn, rfl | hbacking⟩
    · exact htarget
    · exact reads_live hfroms hregular.2 hreads
    · exact (of_semDml hdml hn).1
    · exact (of_semDml hdml hn).2 name hbacking

/-- A table refers to itself or to what is found, and is there unless the table is deleted. -/
theorem refers_table {t : Table N} (hchecked : Checked s (.table t)) (hname : name ∈ t.foreignKeys) (hself : name ≠ t.name) :
    (s.findTableOrView name).isSome ∧ (t.deleted = false → (s.findNotDeleted name).isSome) := by
  have hall := List.all_eq_true.mp hchecked name hname
  rw [Bool.or_eq_true, decide_eq_true_eq] at hall
  have hfound := hall.resolve_left hself
  cases hdeleted : t.deleted with
  | true =>
    rw [hdeleted] at hfound
    exact ⟨hfound, by simp⟩
  | false =>
    rw [hdeleted] at hfound
    exact ⟨isSome_of_findNotDeleted hfound, fun _ => hfound⟩

/-! ### The invariant -/

/-- A recorded source is declared and refers to the target, unless that is unsubscribed or backed: the walk also meets the names of CTEs. -/
structure SourceHolds (s : State N) (name : N) (src : Source N) : Prop where
  declared : src.decl ∈ s.declared
  index : ∀ i, src.decl ≠ .index i
  isAlias : src.isAlias = true → ∃ t, src.decl = .table t
  target : ∀ r, src.decl = .trigger r → name ≠ r.target
  refers : name ∈ s.refers src.decl ∨ name ∈ s.unsubscribed ∨ (s.backing name).isSome

/-- References are found and recorded, no trigger has a name that its body uses, and what is temp is not deleted. -/
structure Inv (s : State N) : Prop where
  noneStranded : s.NoneStranded
  found : ∀ d ∈ s.declared, ∀ name ∈ s.refers d, (s.findTableOrView name).isSome
  recorded : ∀ d ∈ s.declared, ∀ name ∈ s.refers d, (name, ⟨d, false⟩) ∈ s.refSources ∨ (d.space ≠ .tables ∧ d.BelongsTo name)
  names : ∀ r, Decl.trigger r ∈ s.declared → ∀ name ∈ s.refers (.trigger r), name ≠ r.target → r.name ≠ name
  temp : ∀ d ∈ s.declared, d.temp = true → s.isDeleted ⟨d, false⟩ = false
  unsubscribed : ∀ name ∈ s.unsubscribed, (s.findTableOrView name).isSome
  sources : ∀ name src, (name, src) ∈ s.refSources → SourceHolds s name src

theorem inv_init : Inv (State.init : State N) where
  noneStranded _ hd := absurd hd List.not_mem_nil
  found _ hd := absurd hd List.not_mem_nil
  recorded _ hd := absurd hd List.not_mem_nil
  names _ hr := absurd hr List.not_mem_nil
  temp _ hd := absurd hd List.not_mem_nil
  unsubscribed _ hname := absurd hname List.not_mem_nil
  sources _ _ hsrc := absurd hsrc List.not_mem_nil

/-! ### A first declaration -/

/-- What a select reads does not change when something is added. -/
theorem mem_reads_added (hnew : s.find d.space d.name = none) {froms : List (From N)}
    (hfound : ∀ name ∈ s.reads froms, (s.findTableOrView name).isSome) : name ∈ (added s d).reads froms ↔ name ∈ s.reads froms := by
  rw [mem_reads, mem_reads]
  refine exists_congr fun f => and_congr_right fun hf => and_congr_right fun hcte => ?_
  rw [backing_added hnew (hfound f.name (mem_reads.mpr ⟨f, hf, hcte, .inl rfl⟩))]

/-- What a declaration refers to does not change when something is added. -/
theorem mem_refers_added (hnew : s.find d.space d.name = none) {e : Decl N}
    (hfound : (∀ t, e ≠ .table t) → ∀ name ∈ s.refers e, (s.findTableOrView name).isSome) : name ∈ (added s d).refers e ↔ name ∈ s.refers e := by
  cases e with
  | table t => exact Iff.rfl
  | view v =>
    have hall := hfound (by simp)
    rw [mem_refers_view, mem_refers_view]
    exact or_congr_right (mem_reads_added hnew fun name hname => hall name (mem_refers_view.mpr (.inr hname)))
  | index i => exact Iff.rfl
  | trigger r =>
    have hall := hfound (by simp)
    rw [mem_refers_trigger, mem_refers_trigger]
    refine or_congr Iff.rfl (or_congr ?_ ?_)
    · exact mem_reads_added hnew fun name hname => hall name (mem_refers_trigger.mpr (.inr (.inl hname)))
    · refine exists_congr fun n => and_congr_right fun hn => ?_
      rw [backing_added hnew (hall n (mem_refers_trigger.mpr (.inr (.inr ⟨n, hn, .inl rfl⟩))))]

/-- A new declaration changes nothing that is created. -/
theorem creates_added (hnew : s.find d.space d.name = none) {e : Decl N} (hfound : ∀ name ∈ s.refers e, (s.findTableOrView name).isSome) :
    (added s d).creates e = s.creates e := by
  cases e with
  | table t => rfl
  | view v => rfl
  | index i => rw [State.creates, State.creates, tableDeleted_added hnew (hfound _ (by simp [State.refers]))]
  | trigger r => rw [State.creates, State.creates, tableDeleted_added hnew (hfound _ (by simp [State.refers]))]

/-- What a first declaration refers to is found. -/
theorem found_self (hnew : s.find d.space d.name = none) (hchecked : Checked s d) (hregular : s.Regular (.declare d))
    (hname : name ∈ s.refers d) : ((added s d).findTableOrView name).isSome := by
  have hold : (s.findTableOrView name).isSome → ((added s d).findTableOrView name).isSome := by
    intro h
    obtain ⟨o, ho⟩ := Option.isSome_iff_exists.mp h
    simp [find_added hnew ho]
  cases d with
  | table t =>
    by_cases hself : name = t.name
    · have hfind := find_self (s := s) (d := .table t) rfl
      rw [hself]
      exact Option.isSome_iff_exists.mpr ⟨_, hfind⟩
    · exact hold (refers_table hchecked hname hself).1
  | view v => exact hold (isSome_of_findNotDeleted (refers_live hchecked hregular (by simp) name hname))
  | index i => exact hold (isSome_of_findNotDeleted (refers_live hchecked hregular (by simp) name hname))
  | trigger r => exact hold (isSome_of_findNotDeleted (refers_live hchecked hregular (by simp) name hname))

/-- A new name is not unsubscribed. -/
theorem not_unsubscribed (hinv : Inv s) (hnew : s.find d.space d.name = none) (hspace : d.space = .tables) : d.name ∉ s.unsubscribed := by
  intro hmem
  have hfind := hinv.unsubscribed d.name hmem
  rw [State.findTableOrView, ← hspace, hnew] at hfind
  cases hfind

/-- A first declaration is deleted only by what it says itself. -/
theorem isDeleted_self (hinv : Inv s) (hnew : s.find d.space d.name = none) : (added s d).isDeleted ⟨d, false⟩ = d.deleted := by
  by_cases hspace : d.space = .tables
  · have hname := not_unsubscribed hinv hnew hspace
    simp [State.isDeleted, added, hname]
  · simp [State.isDeleted, hspace]

/-- A first declaration that is created refers to what is there. -/
theorem live_self (hinv : Inv s) (hnew : s.find d.space d.name = none) (htemp : (d.temp && d.deleted) = false) (hchecked : Checked s d)
    (hregular : s.Regular (.declare d)) (hcreates : (added s d).creates d = true) (hname : name ∈ s.refers d) :
    ((added s d).findNotDeleted name).isSome := by
  cases d with
  | table t =>
    have hdeleted : t.deleted = false := by
      have hself := isDeleted_self hinv hnew
      cases hstorage : t.storage with
      | ordinary =>
        simp only [State.creates, hstorage, Bool.not_eq_true'] at hcreates
        exact hself.symm.trans hcreates
      | temp => simpa [Decl.temp, Decl.deleted, hstorage] using htemp
      | eponymous => simp [State.creates, hstorage] at hcreates
      | backed backing => simp [State.creates, hstorage] at hcreates
      | blobStorage => simp [State.creates, hstorage] at hcreates
    by_cases hself : name = t.name
    · have hfind := find_self (s := s) (d := .table t) rfl
      have hnotDeleted : (added s (.table t)).isDeleted ⟨.table t, false⟩ = false := (isDeleted_self hinv hnew).trans hdeleted
      rw [hself, State.findNotDeleted]
      change ((State.findTableOrView (added s (.table t)) (Decl.table t).name).filter _).isSome
      rw [hfind]
      simp [hnotDeleted]
    · exact findNotDeleted_added hnew ((refers_table hchecked hname hself).2 hdeleted)
  | view v => exact findNotDeleted_added hnew (refers_live hchecked hregular (by simp) name hname)
  | index i => exact findNotDeleted_added hnew (refers_live hchecked hregular (by simp) name hname)
  | trigger r => exact findNotDeleted_added hnew (refers_live hchecked hregular (by simp) name hname)

/-- The names that a trigger refers to in its body are walked. -/
theorem mem_walkTrigger_of_refers {r : Trigger N} (hname : name ∈ s.refers (.trigger r)) (htarget : name ≠ r.target) : name ∈ s.walkTrigger r := by
  exact mem_walkTrigger.mpr (((mem_refers_trigger.mp hname).resolve_left htarget).imp_left mem_walkRewritten_of_reads)

/-- What a first declaration refers to is recorded, but for the targets of indices and triggers. -/
theorem targets_of_refers (hchecked : Checked s d) (hregular : s.Regular (.declare d)) (hname : name ∈ s.refers d) :
    name ∈ targets s d ∨ (d.space ≠ .tables ∧ d.BelongsTo name) := by
  cases d with
  | table t => exact .inl hname
  | view v =>
    have hlive := refers_live hchecked hregular (by simp) name hname
    refine .inl (mem_found_of_findNotDeleted ?_ hlive)
    rcases mem_refers_view.mp hname with ⟨f, hf, -, rfl⟩ | hnested
    · exact List.mem_append_left _ (List.mem_map_of_mem hf)
    · exact List.mem_append_right _ (mem_walkRewritten_of_reads hnested)
  | index i =>
    simp only [State.refers, List.mem_singleton] at hname
    exact .inr ⟨by simp [Decl.space], hname.symm⟩
  | trigger r =>
    by_cases htarget : name = r.target
    · exact .inr ⟨by simp [Decl.space], htarget.symm⟩
    · have hlive := refers_live hchecked hregular (by simp) name hname
      have hfound := mem_found_of_findNotDeleted (mem_walkTrigger_of_refers hname htarget) hlive
      exact .inl (List.mem_filter.mpr ⟨hfound, by simpa using htarget⟩)

/-- A CTE has no name of a table or view that is there, unless that is backed. -/
theorem cte_gone (hcte : s.nameHidesRootTable name = false) (hfound : (s.findTableOrView name).any (fun d => !d.deleted) = true) :
    name ∈ s.unsubscribed ∨ (s.backing name).isSome := by
  cases ho : s.findTableOrView name with
  | none => simp [ho] at hfound
  | some o =>
    obtain ⟨-, hspace, hname⟩ := findTableOrView_some ho
    by_cases hmem : name ∈ s.unsubscribed
    · exact .inl hmem
    · right
      have hdeleted : s.isDeleted ⟨o, false⟩ = false := by
        simp only [ho, Option.any_some, Bool.not_eq_true'] at hfound
        simp [State.isDeleted, hfound, hname, hmem]
      simp only [State.nameHidesRootTable, State.findNotDeleted, ho] at hcte
      simp only [Option.filter, hdeleted] at hcte
      rw [State.backing, ho]
      simpa using hcte

/-- What the walk of a select finds is what that reads, or the name of a CTE. -/
theorem reads_of_walkRewritten {froms : List (From N)} (hfroms : s.semFroms froms = true) (hwalk : name ∈ s.walkRewritten froms)
    (hfound : (s.findTableOrView name).any (fun d => !d.deleted) = true) :
    name ∈ s.reads froms ∨ name ∈ s.unsubscribed ∨ (s.backing name).isSome := by
  obtain ⟨f, hf, rfl | ⟨hcte, hbacking⟩⟩ := mem_walkRewritten.mp hwalk
  · by_cases hcte : f.name ∈ f.ctes
    · exact .inr (cte_gone ((of_semFroms hfroms hf).1 f.name hcte) hfound)
    · exact .inl (mem_reads.mpr ⟨f, hf, hcte, .inl rfl⟩)
  · exact .inl (mem_reads.mpr ⟨f, hf, hcte, .inr hbacking⟩)

/-- What is recorded of a first declaration is what it refers to, or the name of a CTE. -/
theorem refers_of_targets (hchecked : Checked s d) (hname : name ∈ targets s d) :
    (name ∈ s.refers d ∨ name ∈ s.unsubscribed ∨ (s.backing name).isSome) ∧ (∀ i, d ≠ .index i) ∧ ∀ r, d = .trigger r → name ≠ r.target := by
  cases d with
  | table t => exact ⟨.inl hname, by simp, by simp⟩
  | view v =>
    obtain ⟨hwalk, hfound⟩ := mem_found.mp hname
    refine ⟨?_, by simp, by simp⟩
    rcases List.mem_append.mp hwalk with hfroms | hnested
    · obtain ⟨f, hf, rfl⟩ := List.mem_map.mp hfroms
      by_cases hcte : f.name ∈ f.ctes
      · exact .inr (cte_gone ((of_semFroms hchecked.1 hf).1 f.name hcte) hfound)
      · exact .inl (mem_refers_view.mpr (.inl ⟨f, hf, hcte, rfl⟩))
    · exact (reads_of_walkRewritten hchecked.2 hnested hfound).imp_left fun hreads => mem_refers_view.mpr (.inr hreads)
  | index i => exact absurd hname List.not_mem_nil
  | trigger r =>
    obtain ⟨hmem, htarget⟩ := List.mem_filter.mp hname
    obtain ⟨hwalk, hfound⟩ := mem_found.mp hmem
    refine ⟨?_, by simp, by rintro _ ⟨⟩; simpa using htarget⟩
    rcases mem_walkTrigger.mp hwalk with hrewritten | hdml
    · exact (reads_of_walkRewritten hchecked.2.1 hrewritten hfound).imp_left fun hreads => mem_refers_trigger.mpr (.inr (.inl hreads))
    · exact .inl (mem_refers_trigger.mpr (.inr (.inr hdml)))

/-- A source holds after something is added. -/
theorem sourceHolds_added (hinv : Inv s) (hnew : s.find d.space d.name = none) {src : Source N} (h : SourceHolds s name src) :
    SourceHolds (added s d) name src where
  declared := List.mem_cons_of_mem _ h.declared
  index := h.index
  isAlias := h.isAlias
  target := h.target
  refers := by
    rcases h.refers with hrefers | hunsubscribed | hbacking
    · exact .inl ((mem_refers_added hnew fun _ => hinv.found src.decl h.declared).mpr hrefers)
    · exact .inr (.inl hunsubscribed)
    · have hfound : (s.findTableOrView name).isSome := by
        cases ho : s.findTableOrView name with
        | none => simp [State.backing, ho] at hbacking
        | some o => rfl
      exact .inr (.inr (backing_added hnew hfound ▸ hbacking))

/-- A first declaration keeps the invariant. -/
theorem inv_added (hinv : Inv s) (hnew : s.find d.space d.name = none) (htemp : (d.temp && d.deleted) = false) (hchecked : Checked s d)
    (hregular : s.Regular (.declare d)) : Inv (added s d) := by
  have hself : ∀ name, name ∈ (added s d).refers d ↔ name ∈ s.refers d := by
    refine fun name => mem_refers_added hnew fun htable name hname => ?_
    exact isSome_of_findNotDeleted (refers_live hchecked hregular htable name hname)
  have hold : ∀ e ∈ s.declared, ∀ name, name ∈ (added s d).refers e ↔ name ∈ s.refers e :=
    fun e he name => mem_refers_added hnew fun _ => hinv.found e he
  constructor
  · intro e he hcreates name hname
    rcases List.mem_cons.mp he with rfl | he
    · exact live_self hinv hnew htemp hchecked hregular hcreates ((hself name).mp hname)
    · rw [creates_added hnew (hinv.found e he)] at hcreates
      exact findNotDeleted_added hnew (hinv.noneStranded e he hcreates name ((hold e he name).mp hname))
  · intro e he name hname
    rcases List.mem_cons.mp he with rfl | he
    · exact found_self hnew hchecked hregular ((hself name).mp hname)
    · obtain ⟨o, ho⟩ := Option.isSome_iff_exists.mp (hinv.found e he name ((hold e he name).mp hname))
      simp [find_added hnew ho]
  · intro e he name hname
    rcases List.mem_cons.mp he with rfl | he
    · refine (targets_of_refers hchecked hregular ((hself name).mp hname)).imp_left fun htarget => ?_
      exact List.mem_append_right _ (List.mem_map.mpr ⟨name, htarget, rfl⟩)
    · exact (hinv.recorded e he name ((hold e he name).mp hname)).imp_left (List.mem_append_left _)
  · intro r hr name hname htarget
    rcases List.mem_cons.mp hr with rfl | hr
    · exact hregular.1 name (mem_walkTrigger_of_refers ((hself name).mp hname) htarget) htarget
    · exact hinv.names r hr name ((hold _ hr name).mp hname) htarget
  · intro e he hetemp
    rcases List.mem_cons.mp he with rfl | he
    · rw [isDeleted_self hinv hnew]
      simpa [hetemp] using htemp
    · exact hinv.temp e he hetemp
  · intro name hname
    obtain ⟨o, ho⟩ := Option.isSome_iff_exists.mp (hinv.unsubscribed name hname)
    simp [find_added hnew ho]
  · intro name src hsrc
    rcases List.mem_append.mp hsrc with hsrc | hsrc
    · exact sourceHolds_added hinv hnew (hinv.sources name src hsrc)
    · obtain ⟨target, htarget, heq⟩ := List.mem_map.mp hsrc
      cases heq
      obtain ⟨hrefers, hindex, hne⟩ := refers_of_targets hchecked htarget
      refine ⟨List.mem_cons_self, hindex, by simp, hne, ?_⟩
      rcases hrefers with hrefers | hunsubscribed | hbacking
      · exact .inl ((hself _).mpr hrefers)
      · exact .inr (.inl hunsubscribed)
      · have hfound : (s.findTableOrView name).isSome := by
          cases ho : s.findTableOrView name with
          | none => simp [State.backing, ho] at hbacking
          | some o => rfl
        exact .inr (.inr (backing_added hnew hfound ▸ hbacking))

/-- A repeated declaration keeps the invariant: only foreign keys are recorded once more. -/
theorem inv_repeated (hinv : Inv s) (hd : d ∈ s.declared) : Inv (repeated s d) := by
  refine ⟨hinv.noneStranded, hinv.found, ?_, hinv.names, hinv.temp, hinv.unsubscribed, ?_⟩
  · intro e he name hname
    exact (hinv.recorded e he name hname).imp_left (List.mem_append_left _)
  · intro name src hsrc
    rcases List.mem_append.mp hsrc with hsrc | hsrc
    · obtain ⟨hdeclared, hindex, halias, htarget, hrefers⟩ := hinv.sources name src hsrc
      exact ⟨hdeclared, hindex, halias, htarget, hrefers⟩
    · obtain ⟨target, htarget, heq⟩ := List.mem_map.mp hsrc
      cases heq
      cases d with
      | table t => exact ⟨hd, by simp, fun _ => ⟨t, rfl⟩, by simp, .inl htarget⟩
      | view v => exact absurd htarget List.not_mem_nil
      | index i => exact absurd htarget List.not_mem_nil
      | trigger r => exact absurd htarget List.not_mem_nil

/-! ### `@unsub` -/

/-- The state after an `@unsub`. -/
def removed (s : State N) (name : N) : State N := { s with unsubscribed := name :: s.unsubscribed }

/-- What an unsubscription deletes. -/
theorem isDeleted_removed {src : Source N} :
    (removed s name).isDeleted src = true ↔ s.isDeleted src = true ∨ (src.isAlias = false ∧ src.decl.space = .tables ∧ src.decl.name = name) := by
  simp only [State.isDeleted, removed, Bool.or_eq_true, Bool.and_eq_true, Bool.not_eq_true', decide_eq_true_eq, List.mem_cons]
  constructor
  · rintro (hdeleted | ⟨⟨halias, hspace⟩, hname | hname⟩)
    · exact .inl (.inl hdeleted)
    · exact .inr ⟨halias, hspace, hname⟩
    · exact .inl (.inr ⟨⟨halias, hspace⟩, hname⟩)
  · rintro ((hdeleted | ⟨hs, hname⟩) | ⟨halias, hspace, hname⟩)
    · exact .inl hdeleted
    · exact .inr ⟨hs, .inr hname⟩
    · exact .inr ⟨⟨halias, hspace⟩, .inl hname⟩

theorem isDeleted_of_name (hspace : d.space = .tables) (hname : d.name = name) : (removed s name).isDeleted ⟨d, false⟩ = true :=
  isDeleted_removed.mpr (.inr ⟨rfl, hspace, hname⟩)

/-- What is created is not deleted, if it is a table, a view or a trigger. -/
theorem not_isDeleted_of_creates (htemp : d.temp = true → s.isDeleted ⟨d, false⟩ = false) (hcreates : s.creates d = true)
    (hindex : ∀ i, d ≠ .index i) : s.isDeleted ⟨d, false⟩ = false := by
  cases d with
  | table t =>
    cases hstorage : t.storage with
    | ordinary => simpa [State.creates, hstorage] using hcreates
    | temp => exact htemp (by simp [Decl.temp, hstorage])
    | eponymous => simp [State.creates, hstorage] at hcreates
    | backed backing => simp [State.creates, hstorage] at hcreates
    | blobStorage => simp [State.creates, hstorage] at hcreates
  | view v =>
    cases hv : v.temp with
    | true => exact htemp hv
    | false => simpa [State.creates, hv] using hcreates
  | index i => exact absurd rfl (hindex i)
  | trigger r =>
    cases hr : r.temp with
    | true => exact htemp hr
    | false =>
      simp only [State.creates, hr, Bool.false_or, Bool.and_eq_true, Bool.not_eq_true'] at hcreates
      simp [State.isDeleted, Decl.deleted, Decl.space, hcreates.2]

/-- What has a name that is unsubscribed is gone. -/
theorem tableDeleted_removed (h : (s.findTableOrView name).isSome) : (removed s name).tableDeleted name = true := by
  obtain ⟨o, ho⟩ := Option.isSome_iff_exists.mp h
  obtain ⟨-, hspace, hname⟩ := findTableOrView_some ho
  have hfind : (removed s name).findTableOrView name = some o := ho
  rw [State.tableDeleted, hfind, Option.any_some]
  exact isDeleted_of_name hspace hname

/-- What is still created does not refer to what is unsubscribed. -/
theorem not_mem_refers_of_creates (hinv : Inv s) (hfound : (s.findTableOrView name).isSome) (hused : s.usedBy name = [])
    (hregular : s.Regular (.unsub name)) (hd : d ∈ s.declared) (htemp : d.temp = true → (removed s name).isDeleted ⟨d, false⟩ = false)
    (hcreates : (removed s name).creates d = true) : name ∉ s.refers d := by
  intro hname
  have hgone := tableDeleted_removed hfound
  -- A source that is recorded is deleted or has the name.
  have hsource : (name, ⟨d, false⟩) ∈ s.refSources → (removed s name).isDeleted ⟨d, false⟩ = false → d.name = name := by
    intro hmem hdeleted
    by_contra hne
    have hold : s.isDeleted ⟨d, false⟩ = false := by
      by_contra htrue
      rw [Bool.not_eq_false] at htrue
      exact absurd (isDeleted_removed.mpr (.inl htrue)) (Bool.eq_false_iff.mp hdeleted)
    have huser : (⟨d, false⟩ : Source N) ∈ s.usedBy name := by
      refine List.mem_filter.mpr ⟨List.mem_map.mpr ⟨_, List.mem_filter.mpr ⟨hmem, by simp⟩, rfl⟩, ?_⟩
      simp [hold, hne]
    rw [hused] at huser
    exact absurd huser List.not_mem_nil
  cases d with
  | index i =>
    simp only [State.refers, List.mem_singleton] at hname
    simp [State.creates, ← hname, hgone] at hcreates
  | table t =>
    have hdeleted := not_isDeleted_of_creates htemp hcreates (by simp)
    rcases hinv.recorded _ hd name hname with hmem | ⟨hspace, -⟩
    · exact Bool.eq_false_iff.mp hdeleted (isDeleted_of_name rfl (hsource hmem hdeleted))
    · exact hspace rfl
  | view v =>
    have hdeleted := not_isDeleted_of_creates htemp hcreates (by simp)
    rcases hinv.recorded _ hd name hname with hmem | ⟨hspace, -⟩
    · exact Bool.eq_false_iff.mp hdeleted (isDeleted_of_name rfl (hsource hmem hdeleted))
    · exact hspace rfl
  | trigger r =>
    by_cases htarget : name = r.target
    · have hnotTemp : r.temp = false := hregular _ hd htarget.symm
      simp [State.creates, hnotTemp, ← htarget, hgone] at hcreates
    · rcases hinv.recorded _ hd name hname with hmem | ⟨-, hbelongs⟩
      · exact hinv.names r hd name hname htarget (hsource hmem (not_isDeleted_of_creates htemp hcreates (by simp)))
      · exact htarget hbelongs.symm

/-- An accepted `@unsub` keeps the invariant. -/
theorem inv_removed (hinv : Inv s) (hfound : (s.findTableOrView name).isSome) (hused : s.usedBy name = []) (hregular : s.Regular (.unsub name)) :
    Inv (removed s name) := by
  have htemp : ∀ d ∈ s.declared, d.temp = true → (removed s name).isDeleted ⟨d, false⟩ = false := by
    intro d hd hdtemp
    rw [Bool.eq_false_iff]
    intro hdeleted
    rcases isDeleted_removed.mp hdeleted with hold | ⟨-, hspace, hname⟩
    · exact absurd hold (Bool.eq_false_iff.mp (hinv.temp d hd hdtemp))
    · have hbelongs : d.BelongsTo name := by
        cases d with
        | table t => exact hname
        | view v => exact hname
        | index i => cases hspace
        | trigger r => cases hspace
      exact absurd hdtemp (Bool.eq_false_iff.mp (hregular d hd hbelongs))
  have hcreates : ∀ d ∈ s.declared, (removed s name).creates d = true → s.creates d = true := by
    have hmono : ∀ src, (removed s name).isDeleted src = false → s.isDeleted src = false := by
      intro src hsrc
      rw [Bool.eq_false_iff]
      exact fun htrue => Bool.eq_false_iff.mp hsrc (isDeleted_removed.mpr (.inl htrue))
    have htable : ∀ target, (removed s name).tableDeleted target = false → s.tableDeleted target = false := by
      intro target htarget
      have hfind : (removed s name).findTableOrView target = s.findTableOrView target := rfl
      rw [State.tableDeleted, hfind] at htarget
      rw [State.tableDeleted]
      cases ho : s.findTableOrView target with
      | none => rfl
      | some o =>
        rw [ho, Option.any_some] at htarget
        exact hmono _ htarget
    intro d hd hnow
    cases d with
    | table t =>
      cases hstorage : t.storage with
      | ordinary =>
        simp only [State.creates, hstorage, Bool.not_eq_true'] at hnow ⊢
        exact hmono _ hnow
      | temp => simp [State.creates, hstorage]
      | eponymous => simp [State.creates, hstorage] at hnow
      | backed backing => simp [State.creates, hstorage] at hnow
      | blobStorage => simp [State.creates, hstorage] at hnow
    | view v =>
      simp only [State.creates, Bool.or_eq_true, Bool.not_eq_true'] at hnow ⊢
      exact hnow.imp_right (hmono _)
    | index i =>
      simp only [State.creates, Bool.and_eq_true, Bool.not_eq_true'] at hnow ⊢
      exact ⟨htable _ hnow.1, hnow.2⟩
    | trigger r =>
      simp only [State.creates, Bool.or_eq_true, Bool.and_eq_true, Bool.not_eq_true'] at hnow ⊢
      exact hnow.imp_right fun h => ⟨htable _ h.1, h.2⟩
  refine ⟨?_, hinv.found, hinv.recorded, hinv.names, htemp, ?_, ?_⟩
  · intro d hd hnow target htarget
    have hne : target ≠ name := by
      rintro rfl
      exact not_mem_refers_of_creates hinv hfound hused hregular hd (htemp d hd) hnow htarget
    have hlive := hinv.noneStranded d hd (hcreates d hd hnow) target htarget
    obtain ⟨o, ho⟩ := Option.isSome_iff_exists.mp (isSome_of_findNotDeleted hlive)
    have hfind : (removed s name).findTableOrView target = some o := ho
    obtain ⟨-, -, honame⟩ := findTableOrView_some ho
    rw [State.findNotDeleted, ho] at hlive
    rw [State.findNotDeleted, hfind]
    have hdeleted : (removed s name).isDeleted ⟨o, false⟩ = false := by
      rw [Bool.eq_false_iff]
      intro htrue
      rcases isDeleted_removed.mp htrue with hold | ⟨-, -, hoe⟩
      · simp [hold] at hlive
      · exact hne (honame.symm.trans hoe)
    simp [hdeleted]
  · intro target htarget
    rcases List.mem_cons.mp htarget with rfl | htarget
    · exact hfound
    · exact hinv.unsubscribed target htarget
  · intro target src hsrc
    obtain ⟨hdeclared, hindex, halias, hne, hrefers⟩ := hinv.sources target src hsrc
    refine ⟨hdeclared, hindex, halias, hne, ?_⟩
    exact hrefers.imp_right (Or.imp_left (List.mem_cons_of_mem _))

/-- Every regular step keeps the invariant. -/
theorem inv_step {stmt : Stmt N} (hinv : Inv s) (hregular : s.Regular stmt) (hstep : s.step others stmt = some s') : Inv s' := by
  cases stmt with
  | declare d =>
    obtain ⟨htemp, hchecked, ⟨hnew, rfl⟩ | ⟨hd, rfl⟩⟩ := declare_cases hstep
    · exact inv_added hinv hnew htemp hchecked hregular
    · exact inv_repeated hinv hd
  | unsub name =>
    cases hunsub : s.semSchemaUnsubStmt name with
    | error errors => simp [State.step, hunsub, Except.toOption] at hstep
    | ok next =>
      simp only [State.step, hunsub, Except.toOption, Option.some.injEq] at hstep
      obtain ⟨hfound, hused, rfl⟩ := unsub_cases hunsub
      exact hstep ▸ inv_removed hinv hfound hused hregular

/-- So does every run. -/
theorem inv_of_reached (h : Reached others s) : Inv s := by
  induction h with
  | init => exact inv_init
  | step stmt _ hregular hstep ih => exact inv_step ih hregular hstep

/-! ### What is accepted -/

/-- A source that is not deleted, and is current, is created. -/
theorem creates_of_current {src : Source N} (hsource : SourceHolds s name src) (hcurrent : s.Current src) (hdeleted : s.isDeleted src = false) :
    s.creates src.decl = true := by
  obtain ⟨decl, isAlias⟩ := src
  obtain ⟨hflag, hunsubscribed⟩ := Bool.or_eq_false_iff.mp hdeleted
  cases decl with
  | table t =>
    have hself : s.isDeleted ⟨.table t, false⟩ = false := by
      cases isAlias with
      | false => exact hdeleted
      | true => simp [State.isDeleted, show (Decl.table t).deleted = false from hflag, Decl.space, Decl.name, hcurrent.2 rfl]
    rcases hcurrent.1 with hstorage | hstorage
    · simp [State.creates, hstorage, hself]
    · simp [State.creates, hstorage]
  | view v =>
    cases isAlias with
    | false => simp [State.creates, hdeleted]
    | true =>
      obtain ⟨t, ht⟩ := hsource.isAlias rfl
      cases ht
  | index i => exact absurd rfl (hsource.index i)
  | trigger r =>
    have hr : r.deleted = false := hflag
    have htarget : s.tableDeleted r.target = false := hcurrent
    simp [State.creates, hr, htarget]

/-- With current sources only, it is accepted. -/
theorem accepts_of_current (hinv : Inv s) (hcurrent : ∀ src, (name, src) ∈ s.refSources → s.Current src) : s.Accepts name := by
  intro target htarget hphysical hbelongs
  have hfind : s.findTableOrView name = some target := by
    have hsome : (s.findTableOrView name).isSome := isSome_of_findNotDeleted (by simp [htarget])
    obtain ⟨o, ho⟩ := Option.isSome_iff_exists.mp hsome
    rw [State.findNotDeleted, ho] at htarget
    rw [ho]
    exact (Option.filter_eq_some_iff.mp htarget).1
  have hdeleted : s.isDeleted ⟨target, false⟩ = false := by
    rw [State.findNotDeleted, hfind] at htarget
    simpa using (Option.filter_eq_some_iff.mp htarget).2
  obtain ⟨-, hspace, hname⟩ := findTableOrView_some hfind
  have hflag : target.deleted = false := (Bool.or_eq_false_iff.mp hdeleted).1
  have hunsubscribed : name ∉ s.unsubscribed := by
    intro hmem
    simp [State.isDeleted, hflag, hspace, hname, hmem] at hdeleted
  have hused : s.usedBy name = [] := by
    refine List.eq_nil_iff_forall_not_mem.mpr fun src hsrc => ?_
    obtain ⟨hmem, huses⟩ := List.mem_filter.mp hsrc
    obtain ⟨⟨n, src'⟩, href, rfl⟩ := List.mem_map.mp hmem
    obtain ⟨hrefmem, hn⟩ := List.mem_filter.mp href
    rw [decide_eq_true_eq] at hn
    subst hn
    rw [Bool.and_eq_true, Bool.not_eq_true', decide_eq_true_eq] at huses
    have hholds := hinv.sources _ _ hrefmem
    have hcreates := creates_of_current hholds (hcurrent _ hrefmem) huses.1
    have hrefers : n ∈ s.refers src'.decl := by
      rcases hholds.refers with hrefers | hgone | hbacking
      · exact hrefers
      · exact absurd hgone hunsubscribed
      · rw [State.backing, hfind] at hbacking
        rw [Decl.isNotPhysical, Bool.or_eq_false_iff] at hphysical
        exact absurd hbacking (by simp [hphysical.1])
    have hown := hbelongs src'.decl hholds.declared hcreates hrefers
    cases hdecl : src'.decl with
    | table t =>
      rw [hdecl] at hown
      exact huses.2 (by rw [hdecl]; exact hown)
    | view v =>
      rw [hdecl] at hown
      exact huses.2 (by rw [hdecl]; exact hown)
    | index i => exact hholds.index i hdecl
    | trigger r =>
      rw [hdecl] at hown
      exact hholds.target r hdecl hown.symm
  refine ⟨removed s name, ?_⟩
  simp [State.semSchemaUnsubStmt, hfind, hflag, hunsubscribed, hphysical, hused, removed]

end UnsubAux

open UnsubAux

/-- A trigger on `U` that has the name of `T` and inserts into `T`. -/
def UnsubAux.sameName : Decl String := .trigger ⟨"T", false, false, "U", [], ["T"]⟩

/-- `B` has a foreign key to `A`: once `B` is unsubscribed, `A` can be. -/
def UnsubAux.foreignKey : State String :=
  ⟨[.table ⟨"B", .ordinary, false, ["A"]⟩, .table ⟨"A", .ordinary, false, []⟩], ["B"], [("A", ⟨.table ⟨"B", .ordinary, false, ["A"]⟩, false⟩)]⟩

theorem UnsubAux.reached_foreignKey : Reached (fun _ _ => true) foreignKey := by
  refine .step (.unsub "B") (.step (.declare (.table ⟨"B", .ordinary, false, ["A"]⟩)) (.step (.declare (.table ⟨"A", .ordinary, false, []⟩)) .init
    trivial rfl) trivial rfl) ?_ rfl
  intro d hd hbelongs
  rcases List.mem_cons.mp hd with rfl | hd
  · rfl
  · rw [List.mem_singleton.mp hd]
    rfl

end CgSql.Unsub
