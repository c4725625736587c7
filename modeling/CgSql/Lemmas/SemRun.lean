import CgSql.SemStmt
import CgSql.Lemmas.FlowFrame
import CgSql.Lemmas.FlowAssert

/-!
# Semantic analysis as a run

Every step of semantic analysis makes a run of flow calls: contexts are popped in the order they were pushed, also after an error
in the program, flags are set only where their type word has them, and each branch group is popped in a state the analysis noted. An
analysis that fails an assertion of `flow.c` does so after such a run.
-/

namespace CgSql

open Flow M

variable {α β : Type}
variable {m : M α} {s u : Sem} {Γ : Env} {lvl : Level} {R : Rules} {s' : Flow} {after : M Unit}

/-! ## Results -/

/-- A bind stops with its first part or goes on. -/
theorem bind_eq {f : α → M β} {r : Except Stop β} (h : (m >>= f) s = (r, u)) :
    (∃ a t, m s = (.ok a, t) ∧ f a t = (r, u)) ∨ ∃ e, m s = (.error e, u) ∧ r = .error e := by
  change andThen m f s = _ at h
  unfold andThen at h
  cases hm : m s with
  | mk r' t =>
    rw [hm] at h
    cases r' with
    | ok a => exact .inl ⟨a, t, rfl, h⟩
    | error e =>
      cases h
      exact .inr ⟨e, rfl, rfl⟩

/-- A bind that succeeds. -/
theorem bind_ok {f : α → M β} {b : β} (h : (m >>= f) s = (.ok b, u)) : ∃ a t, m s = (.ok a, t) ∧ f a t = (.ok b, u) := by
  rcases bind_eq h with h | ⟨e, -, he⟩
  · exact h
  · cases he

/-- Both parts run, also behind an error. -/
theorem bothWith_eq {f : Option α → M β} {r : Except Stop (α × β)} (h : bothWith m f s = (r, u)) :
    (∃ a t r', m s = (.ok a, t) ∧ f (some a) t = (r', u) ∧ r = r'.map fun b => (a, b)) ∨
      (∃ t r', m s = (.error .error, t) ∧ f none t = (r', u) ∧ r = match r' with | .ok _ => .error .error | .error e => .error e) ∨
      ∃ e, e ≠ .error ∧ m s = (.error e, u) ∧ r = .error e := by
  unfold bothWith at h
  rcases hm : m s with ⟨r₁, t⟩
  rw [hm] at h
  cases r₁ with
  | ok a =>
    rcases hf : f (some a) t with ⟨r₂, u'⟩
    simp only [hf] at h
    cases r₂ <;> cases h <;> exact .inl ⟨a, t, _, rfl, hf, rfl⟩
  | error e =>
    by_cases he : e = .error
    · subst he
      rcases hf : f none t with ⟨r₂, u'⟩
      simp only [hf] at h
      cases r₂ <;> cases h <;> exact .inr (.inl ⟨t, _, rfl, hf, rfl⟩)
    · refine .inr (.inr ⟨e, he, ?_⟩)
      cases e <;> first | exact absurd rfl he | (cases h; exact ⟨rfl, rfl⟩)

theorem both_ok {m' : M β} {p : α × β} (h : both m m' s = (.ok p, u)) : ∃ t, m s = (.ok p.1, t) ∧ m' t = (.ok p.2, u) := by
  rcases bothWith_eq h with ⟨a, t, r', hm, hf, hr⟩ | ⟨t, r', -, -, hr⟩ | ⟨e, -, -, hr⟩
  · cases r' with
    | ok b =>
      cases hr
      exact ⟨t, hm, hf⟩
    | error e => cases hr
  · cases r' <;> cases hr
  · cases hr

/-- Analysis goes on after the result: there was none but an error in the program. -/
def goesOn : Except Stop α → Bool
  | .ok _ => true
  | .error .error => true
  | _ => false

/-- What comes last runs in any case. -/
theorem finally_eq {r : Except Stop α} (h : finally' m after s = (r, u)) : (∃ r' t, m s = (r', t) ∧ goesOn r' = true ∧
        ((after t = (.ok (), u) ∧ r = r') ∨ ∃ e, after t = (.error e, u) ∧ r = .error e)) ∨
      ∃ e, e ≠ .error ∧ m s = (.error e, u) ∧ r = .error e := by
  rcases bind_eq h with ⟨p, t, hb, hp⟩ | ⟨e, hb, rfl⟩
  · cases hp
    obtain ⟨t', hm, ha⟩ := both_ok hb
    exact .inl ⟨_, t', hm, rfl, .inl ⟨ha, rfl⟩⟩
  · rcases bothWith_eq hb with ⟨a, t, r', hm, ha, hr⟩ | ⟨t, r', hm, ha, hr⟩ | ⟨e', he, hm, hr⟩
    · cases r' with
      | ok b => cases hr
      | error e' =>
        cases hr
        exact .inl ⟨_, t, hm, rfl, .inr ⟨_, ha, rfl⟩⟩
    · refine .inl ⟨_, t, hm, rfl, ?_⟩
      cases r' with
      | ok b =>
        cases hr
        exact .inl ⟨ha, rfl⟩
      | error e' =>
        cases hr
        exact .inr ⟨_, ha, rfl⟩
    · cases hr
      exact .inr ⟨_, he, hm, rfl⟩

/-- A flow operation or its assertion. -/
theorem flow_eq {f : Flow → Except FlowAssertion Flow} {r : Except Stop Unit} (h : flow f s = (r, u)) :
    (∃ t, f s.flow = .ok t ∧ r = .ok () ∧ u = { s with flow := t }) ∨ ∃ a, f s.flow = .error a ∧ r = .error (.assertion a) ∧ u = s := by
  unfold M.flow at h
  cases hf : f s.flow with
  | ok t => rw [hf] at h; cases h; exact .inl ⟨t, rfl, rfl, rfl⟩
  | error a => rw [hf] at h; cases h; exact .inr ⟨a, rfl, rfl, rfl⟩

/-! ## What every step keeps -/

/-- What analysis notes only grows. -/
structure Sem.Grows (s s' : Sem) : Prop where
  groups : s.groups <:+ s'.groups
  globals : s.globals <:+ s'.globals
  loop : s'.loop = s.loop

theorem Sem.Grows.refl (s : Sem) : s.Grows s := ⟨List.suffix_refl _, List.suffix_refl _, rfl⟩

theorem Sem.Grows.trans {t : Sem} (h₁ : s.Grows t) (h₂ : t.Grows u) : s.Grows u :=
  ⟨h₁.groups.trans h₂.groups, h₁.globals.trans h₂.globals, h₂.loop.trans h₁.loop⟩

/-- A flag the type word at an address can have: a nullable type can be improved, a nonnull reference initialized, a cursor have a
row. -/
def Env.Typed (Γ : Env) (k : Key) : Prop :=
  match k.2 with
  | .inferredNotnull => Γ.word k.1 ≠ .cursor ∧ ∀ r, Γ.word k.1 ≠ .data true r
  | .initComplete => Γ.word k.1 = .data true true
  | .hasRow => Γ.word k.1 = .cursor

/-- A type word has one kind of improvement. -/
theorem Env.Typed.unique {k k' : Key} (h : Γ.Typed k) (h' : Γ.Typed k') (he : k.1 = k'.1) : k.2 = k'.2 := by
  obtain ⟨p, f⟩ := k
  obtain ⟨p', f'⟩ := k'
  obtain rfl := he
  cases f <;> cases f' <;> simp_all [Env.Typed]

/-- The rules that the flow calls of an analysis are held to, by what it has noted: a flag is one its type word can have, an
improved global is listed among the globals, and a branch group is popped in a state that was noted. -/
def Sem.rules (Γ : Env) (s : Sem) : Rules where
  typed k := Γ.Typed k ∧ (k.2 = .inferredNotnull → Γ.globalWord k.1 = true → k.1 ∈ s.globals)
  group f := f ∈ s.groups

/-- What was typed stays typed. -/
theorem Sem.Grows.typed {s' : Sem} (h : s.Grows s') (k : Key) (hk : (s.rules Γ).typed k) : (s'.rules Γ).typed k :=
  ⟨hk.1, fun hn hg => h.globals.subset (hk.2 hn hg)⟩

/-- What was noted stays noted. -/
theorem Sem.Grows.group {s' : Sem} (h : s.Grows s') (f : Flow) (hf : (s.rules Γ).group f) : (s'.rules Γ).group f :=
  h.groups.subset hf

/-- Where the steps of an analysis are made: anywhere, and calm; in the context of a statement list; or in a branch group. -/
inductive Level
  | calm
  | list
  | group
  deriving DecidableEq

/-- The run of a step: a calm one, or any. -/
def Steps (lvl : Level) (R : Rules) (s s' : Flow) : Prop := if lvl = .calm then Calm R s s' else Run R s s'

/-- Steps are a run. -/
theorem Steps.run {s : Flow} (h : Steps lvl R s s') : Run R s s' := by
  cases lvl with
  | calm => exact Calm.run h
  | _ => exact h

theorem Calm.steps {s : Flow} (h : Calm R s s') : Steps lvl R s s' := by
  cases lvl with
  | calm => exact h
  | _ => exact h.run

theorem Steps.trans {s t u : Flow} (h₁ : Steps lvl R s t) (h₂ : Steps lvl R t u) : Steps lvl R s u := by
  cases lvl with
  | calm => exact Calm.trans h₁ h₂
  | _ => exact Run.trans h₁ h₂

/-- Weaker rules allow them too. -/
theorem Steps.mono {R' : Rules} (ht : ∀ k, R.typed k → R'.typed k) (hg : ∀ s, R.group s → R'.group s)
    {s : Flow} (h : Steps lvl R s s') : Steps lvl R' s s' := by
  cases lvl with
  | calm => exact Calm.mono ht hg h
  | _ => exact Run.mono ht hg h

/-- A call fails for the kind of the current context, which has to be a branch group. -/
def OutOfGroup (lvl : Level) (a : FlowAssertion) (s : Flow) : Prop :=
  lvl = .group ∧ a = .contextKind ∧ s.inBranchGroup = false

/-- A run ahead of an assertion that fails. -/
theorem OutOfGroup.of_run {a : FlowAssertion} {s t : Flow} (hr : Run R s t) (h : OutOfGroup lvl a t) : OutOfGroup lvl a s := by
  refine ⟨h.1, h.2.1, ?_⟩
  by_cases hs : s.contexts = []
  · simp [Flow.inBranchGroup, hs]
  · rw [← (hr.frame hs).inBranchGroup]
    exact h.2.2

/-- What holds of every step of analysis: what it notes grows, its flow calls are a run, and an assertion that fails fails after a
run, unless the step was made outside of the branch group it belongs to. -/
structure Tracks (Γ : Env) (lvl : Level) (m : M α) : Prop where
  grows : ∀ {s s' : Sem} {r : Except Stop α}, m s = (r, s') → s.Grows s'
  steps : ∀ {s s' : Sem} {r : Except Stop α}, m s = (r, s') → goesOn r = true → Steps lvl (s'.rules Γ) s.flow s'.flow
  fails : ∀ {s s' : Sem} {a : FlowAssertion}, m s = (.error (.assertion a), s') → OutOfGroup lvl a s.flow ∨ Fails (s'.rules Γ) a s.flow

namespace Tracks

variable {Γ : Env} {lvl : Level}

theorem pure (a : α) : Tracks Γ lvl (Pure.pure a : M α) where
  grows h := by
    cases h
    exact .refl _
  steps h _ := by
    cases h
    exact Calm.steps .refl
  fails h := by cases h

theorem get : Tracks Γ lvl M.get where
  grows h := by
    cases h
    exact .refl _
  steps h _ := by
    cases h
    exact Calm.steps .refl
  fails h := by cases h

theorem stop {e : Stop} (he : ∀ a, e ≠ .assertion a) : Tracks Γ lvl (M.stop e : M α) where
  grows h := by
    cases h
    exact .refl _
  steps h _ := by
    cases h
    exact Calm.steps .refl
  fails h := by
    cases h
    exact absurd rfl (he _)

theorem require (b : Bool) : Tracks Γ lvl (M.require b) := by
  unfold M.require
  split
  · exact .pure ()
  · exact .stop (by simp)

/-- A step that changes nothing of the flow state. -/
theorem of_same {m : M α} (hok : ∀ s, ∃ a, (m s).1 = .ok a) (hf : ∀ s, (m s).2.flow = s.flow) (hg : ∀ s : Sem, s.Grows (m s).2) :
    Tracks Γ lvl m where
  grows h := by
    have := congrArg Prod.snd h
    simp only at this
    exact this ▸ hg _
  steps {s s' _} h _ := by
    have := hf s
    rw [h] at this
    simp only at this
    rw [this]
    exact Calm.steps .refl
  fails {s _ _} h := by
    obtain ⟨a, ha⟩ := hok s
    rw [h] at ha
    cases ha

theorem free {m : M α} (h : Tracks Γ .calm m) : Tracks Γ lvl m :=
  ⟨h.grows, fun hm hr => Calm.steps (h.steps hm hr), fun hm => (h.fails hm).imp (fun ho => by cases ho.1) id⟩

/-- A step that can be made in the context of a statement list. -/
theorem inList {m : M α} (h : Tracks Γ lvl m) (hl : lvl ≠ .group) : Tracks Γ .list m :=
  ⟨h.grows, fun hm hr => (h.steps hm hr).run, fun hm => (h.fails hm).imp (fun ho => absurd ho.1 hl) id⟩

/-- One after the other. -/
theorem bind {m : M α} {f : α → M β} (hm : Tracks Γ lvl m) (hf : ∀ a, Tracks Γ lvl (f a)) : Tracks Γ lvl (m >>= f) where
  grows h := by
    rcases bind_eq h with ⟨a, t, h₁, h₂⟩ | ⟨e, h₁, rfl⟩
    · exact (hm.grows h₁).trans ((hf a).grows h₂)
    · exact hm.grows h₁
  steps h hr := by
    rcases bind_eq h with ⟨a, t, h₁, h₂⟩ | ⟨e, h₁, rfl⟩
    · have hg := (hf a).grows h₂
      exact ((hm.steps h₁ rfl).mono hg.typed hg.group).trans ((hf a).steps h₂ hr)
    · exact hm.steps h₁ (by cases e <;> first | rfl | cases hr)
  fails h := by
    rcases bind_eq h with ⟨a, t, h₁, h₂⟩ | ⟨e, h₁, he⟩
    · have hg := (hf a).grows h₂
      exact ((hf a).fails h₂).imp (.of_run (hm.steps h₁ rfl).run) fun hfl => Fails.of_run ((hm.steps h₁ rfl).run.mono hg.typed hg.group) hfl
    · cases he
      exact hm.fails h₁

/-- Both parts, also behind an error. -/
theorem bothWith {m : M α} {f : Option α → M β} (hm : Tracks Γ lvl m) (hf : ∀ a, Tracks Γ lvl (f a)) : Tracks Γ lvl (M.bothWith m f) where
  grows h := by
    rcases bothWith_eq h with ⟨a, t, r', h₁, h₂, -⟩ | ⟨t, r', h₁, h₂, -⟩ | ⟨e, -, h₁, -⟩
    · exact (hm.grows h₁).trans ((hf _).grows h₂)
    · exact (hm.grows h₁).trans ((hf _).grows h₂)
    · exact hm.grows h₁
  steps h hr := by
    rcases bothWith_eq h with ⟨a, t, r', h₁, h₂, rfl⟩ | ⟨t, r', h₁, h₂, rfl⟩ | ⟨e, he, h₁, rfl⟩
    · have hg := (hf _).grows h₂
      refine ((hm.steps h₁ rfl).mono hg.typed hg.group).trans ((hf _).steps h₂ ?_)
      cases r' with
      | ok b => rfl
      | error e => cases e <;> first | rfl | cases hr
    · have hg := (hf _).grows h₂
      refine ((hm.steps h₁ rfl).mono hg.typed hg.group).trans ((hf _).steps h₂ ?_)
      cases r' with
      | ok b => rfl
      | error e => cases e <;> first | rfl | cases hr
    · cases e <;> first | exact absurd rfl he | cases hr
  fails h := by
    rcases bothWith_eq h with ⟨a, t, r', h₁, h₂, hr⟩ | ⟨t, r', h₁, h₂, hr⟩ | ⟨e, he, h₁, hr⟩
    · cases r' with
      | ok b => cases hr
      | error e =>
        cases hr
        have hg := (hf _).grows h₂
        have hr := (hm.steps h₁ rfl).run
        exact ((hf _).fails h₂).imp (.of_run hr) (.of_run (hr.mono hg.typed hg.group))
    · cases r' with
      | ok b => cases hr
      | error e =>
        cases hr
        have hg := (hf _).grows h₂
        have hr := (hm.steps h₁ rfl).run
        exact ((hf _).fails h₂).imp (.of_run hr) (.of_run (hr.mono hg.typed hg.group))
    · cases hr
      exact hm.fails h₁

theorem both {m : M α} {m' : M β} (hm : Tracks Γ lvl m) (hm' : Tracks Γ lvl m') : Tracks Γ lvl (M.both m m') :=
  hm.bothWith fun _ => hm'

/-- With what comes last. -/
theorem finally' {m : M α} (hm : Tracks Γ lvl m) (ha : Tracks Γ lvl after) : Tracks Γ lvl (M.finally' m after) :=
  (hm.both ha).bind fun _ => .pure _

/-- Analysis with some of what is not the flow state changed, and restored. -/
theorem saving {m m' : M α} (hm : Tracks Γ lvl m) (enter : Sem → Sem) (leave : Sem → Sem → Sem)
    (he : ∀ s, (enter s).flow = s.flow) (hl : ∀ s t, (leave s t).flow = t.flow ∧ (leave s t).groups = t.groups ∧ (leave s t).globals = t.globals)
    (hm' : ∀ s, m' s = ((m (enter s)).1, leave s (m (enter s)).2))
    (hg : ∀ s t, (enter s).Grows t → s.Grows (leave s t)) : Tracks Γ lvl m' := by
  have hrules : ∀ s t, (leave s t).rules Γ = t.rules Γ := fun s t => by
    unfold Sem.rules
    rw [(hl s t).2.1, (hl s t).2.2]
  refine ⟨fun {s s' r} h => ?_, fun {s s' r} h hr => ?_, fun {s s' a} h => ?_⟩ <;> rw [hm'] at h <;>
    rcases hms : m (enter s) with ⟨r', t⟩ <;> rw [hms] at h <;> cases h
  · exact hg s t (hm.grows hms)
  · rw [hrules, (hl s t).1, ← he s]
    exact hm.steps hms hr
  · rw [hrules, ← he s]
    exact hm.fails hms

theorem withLoop {m : M α} (l : LoopState) (hm : Tracks Γ lvl m) : Tracks Γ lvl (M.withLoop l m) :=
  hm.saving (fun s => { s with loop := l }) (fun s t => { t with loop := s.loop }) (fun _ => rfl) (fun _ _ => ⟨rfl, rfl, rfl⟩)
    (fun _ => rfl) fun _ _ h => ⟨h.groups, h.globals, rfl⟩

theorem deeper {m : M α} (hm : Tracks Γ lvl m) : Tracks Γ lvl (M.deeper m) :=
  hm.saving (fun s => { s with loopDepth := s.loopDepth + 1 }) (fun s t => { t with loopDepth := s.loopDepth }) (fun _ => rfl)
    (fun _ _ => ⟨rfl, rfl, rfl⟩) (fun _ => rfl) fun _ _ h => ⟨h.groups, h.globals, h.loop⟩

theorem withinSwitch {m : M α} (hm : Tracks Γ lvl m) : Tracks Γ lvl (M.withinSwitch m) :=
  hm.saving (fun s => { s with inSwitch := true }) (fun s t => { t with inSwitch := s.inSwitch }) (fun _ => rfl)
    (fun _ _ => ⟨rfl, rfl, rfl⟩) (fun _ => rfl) fun _ _ h => ⟨h.groups, h.globals, h.loop⟩

/-! ## Contexts -/

/-- A context pushed, run in and popped, the popping noted where it has to be. -/
theorem block {inner : Level} {push pop : Flow → Except FlowAssertion Flow} (mark : Sem → Sem) {m : M α}
    (hm : Tracks Γ inner m) (hf : ∀ s, (mark s).flow = s.flow) (hg : ∀ s : Sem, s.Grows (mark s))
    (hpush : ∀ s a, push s = .error a → OutOfGroup lvl a s)
    (hkind : ∀ s t₀, push s = .ok t₀ → inner = .group → t₀.inBranchGroup = true)
    (hsteps : ∀ s t₀ t t', push s = .ok t₀ → Run ((mark t).rules Γ) t₀ t.flow → pop t.flow = .ok t' → Steps lvl ((mark t).rules Γ) s t')
    (hin : ∀ R s t₀ a, push s = .ok t₀ → Fails R a t₀ → Fails R a s)
    (hpop : ∀ s t₀ t a, push s = .ok t₀ → Run ((mark t).rules Γ) t₀ t.flow → pop t.flow = .error a → Fails ((mark t).rules Γ) a s) :
    Tracks Γ lvl (flow push >>= fun _ => M.finally' m fun s => flow pop (mark s)) := by
  have run : ∀ {s : Sem} {t₀ : Flow} {r : Except Stop α} {t : Sem}, m { s with flow := t₀ } = (r, t) → goesOn r = true →
      Run ((mark t).rules Γ) t₀ t.flow := fun h hr =>
    (hm.steps h hr).run.mono (hg _).typed (hg _).group
  refine ⟨fun {s s' r} h => ?_, fun {s s' r} h hr => ?_, fun {s s' a} h => ?_⟩ <;> rcases bind_eq h with ⟨_, u, h₁, h₂⟩ | ⟨e, h₁, he⟩
  · rcases flow_eq h₁ with ⟨t₀, hp, -, rfl⟩ | ⟨a, -, hr, -⟩
    · have hs : s.Grows { s with flow := t₀ } := ⟨List.suffix_refl _, List.suffix_refl _, rfl⟩
      rcases finally_eq h₂ with ⟨r', t, h₃, -, h₄⟩ | ⟨e, -, h₃, -⟩
      · refine hs.trans ((hm.grows h₃).trans ((hg t).trans ?_))
        rcases h₄ with ⟨h₄, -⟩ | ⟨e, h₄, -⟩ <;> rcases flow_eq h₄ with ⟨t', -, -, rfl⟩ | ⟨a, -, -, rfl⟩ <;>
          exact ⟨List.suffix_refl _, List.suffix_refl _, rfl⟩
      · exact hs.trans (hm.grows h₃)
    · cases hr
  · rcases flow_eq h₁ with ⟨t₀, -, hr, -⟩ | ⟨a, -, -, rfl⟩
    · cases hr
    · exact .refl _
  · rcases flow_eq h₁ with ⟨t₀, hp, -, rfl⟩ | ⟨a, -, hr, -⟩
    · rcases finally_eq h₂ with ⟨r', t, h₃, hr', h₄⟩ | ⟨e, he, h₃, rfl⟩
      · rcases h₄ with ⟨h₄, -⟩ | ⟨e, h₄, rfl⟩ <;> rcases flow_eq h₄ with ⟨t', hp', hok, rfl⟩ | ⟨a, -, he, rfl⟩
        · exact hsteps _ _ t _ hp (run h₃ hr') (by rwa [hf] at hp')
        · cases he
        · cases hok
        · cases he
          cases hr
      · cases e <;> first | exact absurd rfl he | cases hr
    · cases hr
  · rcases flow_eq h₁ with ⟨t₀, -, hr, -⟩ | ⟨a, -, he', -⟩
    · cases hr
    · cases he'
      subst he
      cases hr
  · rcases flow_eq h₁ with ⟨t₀, hp, -, rfl⟩ | ⟨a, -, hr, -⟩
    · rcases finally_eq h₂ with ⟨r', t, h₃, hr', h₄⟩ | ⟨e, -, h₃, he⟩
      · rcases h₄ with ⟨-, rfl⟩ | ⟨e, h₄, he⟩
        · cases hr'
        · cases he
          rcases flow_eq h₄ with ⟨t', -, hok, -⟩ | ⟨a', hp', ha, rfl⟩
          · cases hok
          · cases ha
            exact .inr (hpop _ _ t _ hp (run h₃ hr') (by rwa [hf] at hp'))
      · cases he
        rcases hm.fails h₃ with ho | hfl
        · have hk := hkind _ _ hp ho.1
          rw [ho.2.2] at hk
          cases hk
        · exact .inr (hin _ _ _ _ hp hfl)
    · cases hr
  · rcases flow_eq h₁ with ⟨t₀, -, hr, -⟩ | ⟨a', hp, ha, -⟩
    · cases hr
    · cases he
      cases ha
      exact .inl (hpush _ _ hp)

/-- In a normal context. -/
theorem inNormal {m : M α} (hm : Tracks Γ .list m) : Tracks Γ lvl (M.inNormal m) :=
  block id hm (fun _ => rfl) (fun _ => .refl _) (fun _ _ h => by cases h) (fun _ _ _ h => by cases h)
    (fun _ _ _ _ hp hr he => by cases hp; exact Calm.steps (.normal .refl hr he))
    (fun _ _ _ _ hp hf => by cases hp; exact .inNormal .refl hf)
    (fun _ _ _ _ hp hr he => by cases hp; exact .popNormal .refl hr he)

/-- In a jump context. -/
theorem inJump {m : M α} (hm : Tracks Γ .list m) : Tracks Γ lvl (M.inJump m) :=
  block id hm (fun _ => rfl) (fun _ => .refl _) (fun _ _ h => by cases h) (fun _ _ _ h => by cases h)
    (fun _ _ _ _ hp hr he => by cases hp; exact Calm.steps (.jump .refl hr he))
    (fun _ _ _ _ hp hf => by cases hp; exact .inJump .refl hf)
    (fun _ _ _ _ hp hr he => by cases hp; exact .popJump .refl hr he)

/-- In a branch group. -/
theorem inBranchGroup {m : M α} (hm : Tracks Γ .group m) : Tracks Γ lvl (M.inBranchGroup m) := by
  have hmark : ∀ t : Sem, (Sem.rules Γ { t with groups := t.flow :: t.groups }).group t.flow :=
    fun _ => List.mem_cons_self
  exact block (fun t => { t with groups := t.flow :: t.groups }) hm (fun _ => rfl)
    (fun _ => ⟨List.suffix_cons _ _, List.suffix_refl _, rfl⟩) (fun _ _ h => by cases h)
    (fun _ _ hp _ => by cases hp; rfl)
    (fun _ _ t _ hp hr he => by cases hp; exact Calm.steps (.branchGroup .refl hr (hmark t) he))
    (fun _ _ _ _ hp hf => by cases hp; exact .inBranchGroup .refl hf)
    (fun _ _ t _ hp hr he => by cases hp; exact .popBranchGroup .refl hr (hmark t) he)

/-- A flow function that asks for a branch group and for nothing else. -/
theorem outOfGroup {f : Flow → Except FlowAssertion Flow} (hf : ∀ s c ps, s.contexts = c :: ps → c.kind.isBranchGroup = true → ∃ t, f s = .ok t)
    (he : ∀ s a, f s = .error a → a = .contextKind) (s : Flow) (a : FlowAssertion) (h : f s = .error a) :
    OutOfGroup .group a s := by
  refine ⟨rfl, he s a h, ?_⟩
  unfold Flow.inBranchGroup
  split
  · next c ps hc =>
    by_contra hk
    obtain ⟨t, ht⟩ := hf s c _ hc (by simpa using hk)
    rw [h] at ht
    cases ht
  · rfl

/-- In a branch. -/
theorem inBranch {m : M α} (hm : Tracks Γ .list m) : Tracks Γ .group (M.inBranch m) := by
  refine block id hm (fun _ => rfl) (fun _ => .refl _) (outOfGroup ?_ ?_) (fun _ _ _ h => by cases h)
    (fun _ _ _ _ hp hr he => .branch .refl hp hr he) (fun _ _ _ _ hp hf => .inBranch .refl hp hf)
    (fun _ _ _ _ hp hr he => .popBranch .refl hp hr he)
  · intro s c ps hc hk
    unfold Flow.pushBranch
    rw [hc]
    cases hck : c.kind <;> rw [hck] at hk <;> cases hk
    exact ⟨_, by simp only [hck]; rfl⟩
  · intro s a h
    unfold Flow.pushBranch at h
    split at h
    · split at h <;> cases h
      rfl
    · cases h
      rfl

/-- A single call of a flow function. -/
theorem call {f : Flow → Except FlowAssertion Flow} (hok : ∀ R s t, f s = .ok t → Steps lvl R s t)
    (herr : ∀ R s a, f s = .error a → OutOfGroup lvl a s ∨ Fails R a s) : Tracks Γ lvl (flow f) where
  grows h := by
    rcases flow_eq h with ⟨t, -, -, rfl⟩ | ⟨a, -, -, rfl⟩
    · exact ⟨List.suffix_refl _, List.suffix_refl _, rfl⟩
    · exact .refl _
  steps h hr := by
    rcases flow_eq h with ⟨t, ht, -, rfl⟩ | ⟨a, -, rfl, -⟩
    · exact hok _ _ _ ht
    · cases hr
  fails h := by
    rcases flow_eq h with ⟨t, -, hr, -⟩ | ⟨a, ha, hr, -⟩
    · cases hr
    · cases hr
      exact herr _ _ _ ha

theorem setCoversAllCases (b : Bool) : Tracks Γ .group (flow (Flow.setCoversAllCases b)) := by
  refine call (fun _ _ _ h => .coversAllCases .refl h) fun _ s a h => .inl (outOfGroup ?_ ?_ s a h)
  · intro s c ps hc hk
    unfold Flow.setCoversAllCases
    rw [hc]
    cases hck : c.kind <;> rw [hck] at hk <;> cases hk
    exact ⟨_, by simp only [hck]; rfl⟩
  · intro s a h
    unfold Flow.setCoversAllCases at h
    split at h
    · split at h <;> cases h
      rfl
    · cases h
      rfl

theorem addEmptyBranch : Tracks Γ .group (flow Flow.addEmptyBranch) := by
  refine call (fun _ _ _ h => .emptyBranch .refl h) fun _ s a h => .inl (outOfGroup ?_ ?_ s a h)
  · intro s c ps hc hk
    unfold Flow.addEmptyBranch
    rw [hc]
    cases hck : c.kind <;> rw [hck] at hk <;> cases hk
    exact ⟨_, by simp only [hck]; rfl⟩
  · intro s a h
    unfold Flow.addEmptyBranch at h
    split at h
    · split at h <;> cases h
      rfl
    · cases h
      rfl

theorem setAlwaysJumps (b : Bool) : Tracks Γ .list (flow (Flow.setAlwaysJumps b)) :=
  call (fun _ _ _ h => .alwaysJumps .refl h) fun _ _ _ h => .inr (.alwaysJumps .refl h)

/-! ## Improvements -/

/-- A flag is set. -/
theorem raise {k : Key} (hk : ∀ s : Sem, (s.rules Γ).typed k) : Tracks Γ lvl (CgSql.raise k) := by
  have heq : ∀ s, CgSql.raise k s = if s.flow.flags k then (.ok (), s) else flow (setFlag k) s := fun s => by
    change (if s.flow.flags k then _ else _ : M Unit) s = _
    split <;> rfl
  refine ⟨fun {s s' r} h => ?_, fun {s s' r} h hr => ?_, fun {s s' a} h => ?_⟩ <;> rw [heq] at h <;> split at h
  · cases h
    exact .refl _
  · rcases flow_eq h with ⟨t, -, -, rfl⟩ | ⟨a, -, -, rfl⟩
    · exact ⟨List.suffix_refl _, List.suffix_refl _, rfl⟩
    · exact .refl _
  · cases h
    exact Calm.steps .refl
  · rcases flow_eq h with ⟨t, ht, -, rfl⟩ | ⟨a, -, rfl, -⟩
    · exact Calm.steps (.set .refl (hk _) ht)
    · cases hr
  · cases h
  · next hf =>
    rcases flow_eq h with ⟨t, -, hr, -⟩ | ⟨a, ha, hr, -⟩
    · cases hr
    · cases hr
      exact .inr (.set .refl (hk _) (by simpa using hf) ha)

/-- A flag is un-set. -/
theorem lower (k : Key) : Tracks Γ lvl (CgSql.lower k) := by
  have heq : ∀ s, CgSql.lower k s = if s.flow.flags k then flow (unsetFlag k) s else (.ok (), s) := fun s => by
    change (if s.flow.flags k then _ else _ : M Unit) s = _
    split <;> rfl
  refine ⟨fun {s s' r} h => ?_, fun {s s' r} h hr => ?_, fun {s s' a} h => ?_⟩ <;> rw [heq] at h <;> split at h
  · rcases flow_eq h with ⟨t, -, -, rfl⟩ | ⟨a, -, -, rfl⟩
    · exact ⟨List.suffix_refl _, List.suffix_refl _, rfl⟩
    · exact .refl _
  · cases h
    exact .refl _
  · rcases flow_eq h with ⟨t, ht, -, rfl⟩ | ⟨a, -, rfl, -⟩
    · exact Calm.steps (.unset .refl ht)
    · cases hr
  · cases h
    exact Calm.steps .refl
  · next hf =>
    rcases flow_eq h with ⟨t, -, hr, -⟩ | ⟨a, ha, hr, -⟩
    · cases hr
    · cases hr
      exact .inr (.unset .refl hf ha)
  · cases h

/-- Several flags are. -/
theorem lowerAll (ks : List Key) : Tracks Γ lvl (CgSql.lowerAll ks) := by
  induction ks with
  | nil => exact .pure ()
  | cons k ks ih => exact (lower k).bind fun _ => ih

end Tracks

end CgSql
