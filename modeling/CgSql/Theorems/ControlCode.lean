import CgSql.ControlCode

/-!
# Control flow is kept

What is generated for a procedure, in C and in Lua, does what the procedure does: LEAVE, CONTINUE, THROW and RETURN come to where they should, through
any nest of IF, SWITCH, loops and TRY. The labels of a TRY are numbered, and only those that something jumps to are there.
-/

namespace CgSql.ControlCode

open Jumps SqlCode

namespace ControlCodeAux

variable {σ A T E : Type} {W : World σ A T E} {dml : Bool} {fuel : Nat} {b : Backend} {ctx ctx' : Ctx} {g g' : Gen} {f : After Exit} {l : Label}

/-! ### Counts and flags -/

/-- While code is generated counts go up, and flags stay set. -/
structure Grows (g g' : Gen) : Prop where
  catchBlock : g.catchBlockCount ≤ g'.catchBlockCount
  rcthrown : g.rcthrownIndex ≤ g'.rcthrownIndex
  errorTargetUsed : g.errorTargetUsed = true → g'.errorTargetUsed = true
  rcthrownUsed : g.rcthrownUsed = true → g'.rcthrownUsed = true
  returnUsed : g.returnUsed = true → g'.returnUsed = true
  continueNeeded : g.continueNeeded = true → g'.continueNeeded = true

theorem Grows.refl (g : Gen) : Grows g g := ⟨Nat.le_refl _, Nat.le_refl _, id, id, id, id⟩

theorem Grows.trans {g'' : Gen} (h : Grows g g') (h' : Grows g' g'') : Grows g g'' where
  catchBlock := h.catchBlock.trans h'.catchBlock
  rcthrown := h.rcthrown.trans h'.rcthrown
  errorTargetUsed := h'.errorTargetUsed ∘ h.errorTargetUsed
  rcthrownUsed := h'.rcthrownUsed ∘ h.rcthrownUsed
  returnUsed := h'.returnUsed ∘ h.returnUsed
  continueNeeded := h'.continueNeeded ∘ h.continueNeeded

/-- A statement uses at most the error target. -/
theorem grows_use (a : Act A) : Grows g (g.use a) :=
  ⟨Nat.le_refl _, Nat.le_refl _, fun h => by simp [Gen.use, h], fun h => by simp [Gen.use, h], id, id⟩

/-- A loop restores whether CONTINUE is needed. -/
theorem Grows.of_enter (h : Grows g.enter g') : Grows g { g' with continueNeeded := g.continueNeeded } :=
  ⟨h.catchBlock, h.rcthrown, h.errorTargetUsed, h.rcthrownUsed, h.returnUsed, id⟩

/-- Where code is generated, everything that is outside has been numbered before. -/
structure Below (ctx : Ctx) (g : Gen) : Prop where
  errorTarget : ctx.errorTarget = .cleanup ∨ ∃ n ≤ g.catchBlockCount, ctx.errorTarget = .catchStart n
  rcthrown : ∀ k, ctx.rcthrown = some k → k ≤ g.rcthrownIndex

/-- Counters that grow keep the context below. -/
theorem Below.mono (h : Below ctx g) (hg : Grows g g') : Below ctx g' where
  errorTarget := h.errorTarget.imp_right fun ⟨n, hn, heq⟩ => ⟨n, hn.trans hg.catchBlock, heq⟩
  rcthrown := fun k hk => (h.rcthrown k hk).trans hg.rcthrown

/-- Where a way out leads. -/
def Target (ctx : Ctx) : Exit → Label
  | .throw => ctx.errorTarget
  | .return => .cleanup

/-- What comes next in the code. -/
def Next (b : Backend) (ctx : Ctx) : After Exit → After Label
  | .continue =>
    match b with
    | .c => if ctx.inFor then .goto (.forContinue ctx.loop) else .continue
    | .lua => .goto (.loopContinue ctx.loop)
  | f => f.map (Target ctx)

/-- A label of a TRY that is numbered later. -/
def Later (n : Nat) (l : Label) : Prop := ∃ m, n < m ∧ (l = .catchStart m ∨ l = .catchEnd m)

theorem Later.mono {n n' : Nat} (h : Later n' l) (hn : n ≤ n') : Later n l := by
  obtain ⟨m, hm, hl⟩ := h
  exact ⟨m, hn.trans_lt hm, hl⟩

/-- No exit goes to a label that comes later. -/
theorem target_ne_of (hctx : Below ctx g) (hl : ∀ n ≤ g.catchBlockCount, l ≠ .catchStart n) (hcleanup : l ≠ .cleanup) (k : Exit) :
    Target ctx k ≠ l := by
  cases k with
  | «return» => exact hcleanup.symm
  | throw =>
    rcases hctx.errorTarget with h | ⟨n, hn, h⟩
    · exact fun heq => hcleanup (heq.symm.trans h)
    · exact fun heq => hl n hn (heq.symm.trans h)

/-- Nothing from outside jumps to it. -/
theorem target_ne (hctx : Below ctx g) (hl : Later g.catchBlockCount l) (k : Exit) : Target ctx k ≠ l := by
  obtain ⟨m, hm, rfl | rfl⟩ := hl
  · refine target_ne_of (l := .catchStart m) hctx (fun n hn h => ?_) nofun k
    cases h
    omega
  · exact target_ne_of (l := .catchEnd m) hctx nofun nofun k

/-- Nor does what comes next. -/
theorem next_ne_goto (f : After Exit) (htarget : ∀ k, Target ctx k ≠ l) (hfor : ∀ n, l ≠ .forContinue n) (hloop : ∀ n, l ≠ .loopContinue n) :
    Next b ctx f ≠ .goto l := by
  cases f with
  | goto k => exact fun h => htarget k (After.goto.inj h)
  | «continue» =>
    cases b with
    | c =>
      simp only [Next]
      split
      · exact fun h => hfor _ (After.goto.inj h).symm
      · exact nofun
    | lua => exact fun h => hloop _ (After.goto.inj h).symm
  | _ => exact nofun

/-- Labels that come later are not reached. -/
theorem next_ne (hctx : Below ctx g) (f : After Exit) (hl : Later g.catchBlockCount l) : Next b ctx f ≠ .goto l := by
  refine next_ne_goto f (target_ne hctx hl) ?_ ?_
  all_goals obtain ⟨m, -, rfl | rfl⟩ := hl <;> exact nofun

theorem next_ne_next (h : f ≠ .next) : Next b ctx f ≠ .next := by
  cases f with
  | next => exact absurd rfl h
  | «continue» => cases b <;> simp only [Next] <;> try split
                  all_goals exact nofun
  | _ => exact nofun

/-- Without CONTINUE the exits are mapped to their labels. -/
theorem next_eq_map (hf : f ≠ .continue) : Next b ctx f = f.map (Target ctx) := by
  cases f with
  | «continue» => exact absurd rfl hf
  | _ => rfl

/-- Loops and switches end their exits. -/
theorem next_exit (f : After Exit) : (Next b ctx f).exit = Next b ctx f.exit := by
  cases f with
  | «continue» =>
    change (Next b ctx .continue).exit = Next b ctx .continue
    cases b with
    | c => simp only [Next]; split <;> rfl
    | lua => rfl
  | _ => rfl

/-- The flags that ways out leave. -/
structure Used (b : Backend) (f : After Exit) (g : Gen) : Prop where
  errorTarget : f = .goto .throw → g.errorTargetUsed = true
  returns : f = .goto .return → g.returnUsed = true
  continues : f = .continue → b = .lua → g.continueNeeded = true

theorem Used.mono (h : Used b f g) (hg : Grows g g') : Used b f g' :=
  ⟨hg.errorTargetUsed ∘ h.errorTarget, hg.returnUsed ∘ h.returns, fun hf hb => hg.continueNeeded (h.continues hf hb)⟩

theorem Used.plain (hf : ∀ k, f ≠ .goto k) (hc : f ≠ .continue) : Used b f g :=
  ⟨fun h => absurd h (hf _), fun h => absurd h (hf _), fun h => absurd h hc⟩

/-! ### Pieces of code -/

/-- What a piece of code is for, in a CATCH that has a code. -/
abbrev Meaning (σ : Type) := SqlCode.Code → σ → After Exit × σ

/-- The code ends as the statements do, and keeps the variables of the catches outside. -/
structure Ends (flow : After Exit → After Label → Prop) (g : Gen) (env : Env σ) (q : After Exit × σ) (r : After Label × Env σ) : Prop where
  after : flow q.1 r.1
  state : r.2.state = q.2
  thrown : ∀ k ≤ g.rcthrownIndex, r.2.thrown k = env.thrown k

/-- What is to be known of a piece of code. -/
structure Good (W : World σ A T E) (fuel : Nat) (b : Backend) (ctx : Ctx) (g : Gen) (c : Text A T E × Gen) (run : Meaning σ) : Prop where
  grows : Grows g c.2
  labels : ∀ l ∈ c.1.labels, Later g.catchBlockCount l
  used : ∀ thrown s, Used b (run thrown s).1 c.2
  ends : ∀ thrown env, (c.2.rcthrownUsed = true → env.rcthrown ctx.rcthrown = thrown) →
    Ends (Next b ctx · = ·) g env (run thrown env.state) (c.1.run (machine W) fuel .next env)

variable {env env' : Env σ} {thrown : SqlCode.Code} {flow flow' : After Exit → After Label → Prop} {q : After Exit × σ} {r : After Label × Env σ}
  {c d u : Text A T E × Gen} {code code' label : Text A T E} {run run' inner : Meaning σ} (prep : Act A) (t : T)

theorem Ends.imp (h : Ends flow g env q r) (himp : ∀ f f', flow f f' → flow' f f') : Ends flow' g env q r :=
  ⟨himp _ _ h.after, h.state, h.thrown⟩

theorem Ends.mono (h : Ends flow g' env q r) (hg : Grows g g') : Ends flow g env q r :=
  ⟨h.after, h.state, fun k hk => h.thrown k (hk.trans hg.rcthrown)⟩

/-- The code that was thrown is kept. -/
theorem rcthrown_of_kept (hctx : Below ctx g) (h : ∀ k ≤ g.rcthrownIndex, env'.thrown k = env.thrown k) :
    env'.rcthrown ctx.rcthrown = env.rcthrown ctx.rcthrown := by
  cases hk : ctx.rcthrown with
  | none => rfl
  | some k => exact h k (hctx.rcthrown k hk)

/-- An action goes on or throws. -/
theorem exec_cases (W : World σ A T E) (thrown : SqlCode.Code) (a : Act A) (s : σ) :
    (W.exec a thrown s).1 = .next ∨ a.checked = true ∧ (W.exec a thrown s).1 = .goto .throw := by
  unfold World.exec
  dsimp only
  generalize W.failed a.code _ = failed
  cases a.checked <;> cases failed <;> simp

/-- Actions are simulated. -/
theorem good_cgAct : Good W fuel b ctx g (cgAct ctx prep, g.use prep) fun thrown => W.exec prep thrown where
  grows := grows_use prep
  labels := nofun
  used := by
    intro thrown s
    rcases exec_cases W thrown prep s with h | ⟨ha, h⟩
    · rw [h]
      exact .plain nofun nofun
    · rw [h]
      exact ⟨fun _ => by simp [Gen.use, ha], nofun, nofun⟩
  ends := by
    intro thrown env hrc
    have hrc : (if prep.readsRc = true then env.rcthrown ctx.rcthrown else sqliteOk) = if prep.readsRc = true then thrown else sqliteOk := by
      split
      · next ha => exact hrc (by simp [Gen.use, ha])
      · rfl
    refine ⟨?_, ?_, fun _ _ => rfl⟩
    · simp only [cgAct, Prog.run, machine, Simple.run, World.exec, hrc]
      generalize (prep.checked && W.failed prep.code _) = failed
      cases failed <;> rfl
    · simp only [cgAct, Prog.run, machine, Simple.run, World.exec, hrc]

/-- Pieces in sequence. -/
theorem Ends.seq {k : σ → After Exit × σ} (hc : Ends (Next b ctx · = ·) g env q (code.run (machine W) fuel .next env))
    (hd : ∀ env', env'.state = q.2 → (∀ k ≤ g.rcthrownIndex, env'.thrown k = env.thrown k) →
      Ends flow g env' (k q.2) (code'.run (machine W) fuel .next env'))
    (hpass : ∀ l ∈ code'.labels, Next b ctx q.1 ≠ .goto l) (hflow : q.1 ≠ .next → flow q.1 (Next b ctx q.1)) :
    Ends flow g env (andThen q k) ((code.seq code').run (machine W) fuel .next env) := by
  rw [Prog.run]
  obtain ⟨f, s⟩ := q
  generalize code.run (machine W) fuel .next env = r at hc
  obtain ⟨f', env'⟩ := r
  obtain ⟨hafter, hstate, hthrown⟩ := hc
  by_cases hf : f = .next
  · subst hf
    have h := hd env' hstate hthrown
    rw [show f' = .next from hafter.symm]
    exact ⟨h.after, h.state, fun k hk => (h.thrown k hk).trans (hthrown k hk)⟩
  · rw [andThen_of_ne hf, show f' = Next b ctx f from hafter.symm, Prog.run_pass (next_ne_next hf) hpass]
    exact ⟨hflow hf, hstate, hthrown⟩

/-- Sequences are simulated. -/
theorem Good.seq (hctx : Below ctx g) (hc : Good W fuel b ctx g c run) (hd : Good W fuel b ctx c.2 d run') :
    Good W fuel b ctx g (.seq c.1 d.1, d.2) fun thrown s => andThen (run thrown s) (run' thrown) where
  grows := hc.grows.trans hd.grows
  labels := by
    intro l hl
    rcases List.mem_append.mp hl with hl | hl
    · exact hc.labels l hl
    · exact (hd.labels l hl).mono hc.grows.catchBlock
  used := by
    intro thrown s
    have h := (hc.used thrown s).mono hd.grows
    unfold andThen
    split
    · exact hd.used thrown _
    · exact h
  ends := by
    intro thrown env hrc
    refine (hc.ends thrown env fun h => hrc (hd.grows.rcthrownUsed h)).seq ?_
      (fun l hl => next_ne hctx _ ((hd.labels l hl).mono hc.grows.catchBlock)) fun _ => rfl
    intro env' hstate hthrown
    exact hstate ▸ (hd.ends thrown env' fun h => (rcthrown_of_kept hctx hthrown).trans (hrc h)).mono hc.grows

theorem good_skip : Good W fuel b ctx g ((.skip : Text A T E), g) fun _ s => (.next, s) :=
  ⟨.refl g, nofun, fun _ _ => .plain nofun nofun, fun _ _ _ => ⟨rfl, rfl, fun _ _ => rfl⟩⟩

/-- A branch of the code. -/
theorem run_branch : (Prog.branch (.expr t) code code').run (machine W) fuel .next env =
    if W.test t env.state then code.run (machine W) fuel .next env else code'.run (machine W) fuel .next env := rfl

/-- Branches are simulated. -/
theorem Good.branch (hc : Good W fuel b ctx g c run) (hd : Good W fuel b ctx c.2 d run') :
    Good W fuel b ctx g (.branch (.expr t) c.1 d.1, d.2) fun thrown s => if W.test t s then run thrown s else run' thrown s where
  grows := hc.grows.trans hd.grows
  labels := nofun
  used := by
    intro thrown s
    dsimp only
    split
    · exact (hc.used thrown s).mono hd.grows
    · exact hd.used thrown s
  ends := by
    intro thrown env hrc
    rw [run_branch]
    split
    · exact hc.ends thrown env fun h => hrc (hd.grows.rcthrownUsed h)
    · exact (hd.ends thrown env hrc).mono hc.grows

/-! ### Loops -/

/-- How a round ends. -/
def Settled (ctx : Ctx) (f : After Exit) (f' : After Label) : Prop := f'.settle = (f.map (Target ctx)).settle

/-- A round, with its test. -/
def cgRound (ctx : Ctx) (prep : Act A) (t : T) (rest : Text A T E) : Text A T E := .seq (cgAct ctx prep) (.seq (.branch (.expr t) .skip .leave) rest)

def execRound (W : World σ A T E) (prep : Act A) (t : T) (inner : Meaning σ) : Meaning σ := fun thrown s =>
  andThen (W.exec prep thrown s) fun s => if W.test t s then inner thrown s else (.leave, s)

/-- One round of a loop. -/
theorem ends_cgRound (b : Backend) (hlabels : ∀ l ∈ code.labels, ctx.errorTarget ≠ l)
    (hrc : (g.use prep).rcthrownUsed = true → env.rcthrown ctx.rcthrown = thrown)
    (hrest : ∀ env', (∀ k ≤ g.rcthrownIndex, env'.thrown k = env.thrown k) →
      Ends (Settled ctx) g env' (inner thrown env'.state) (code.run (machine W) fuel .next env')) :
    Ends (Settled ctx) g env (execRound W prep t inner thrown env.state) ((cgRound ctx prep t code).run (machine W) fuel .next env) := by
  have hexec := exec_cases W thrown prep env.state
  refine ((good_cgAct (b := b) prep).ends thrown env hrc).seq ?_ ?_ ?_
  · intro env' hstate hthrown
    rw [← hstate, Prog.run, run_branch]
    split
    · exact hrest env' hthrown
    · change Ends _ g env' _ (code.run (machine W) fuel .leave env')
      rw [Prog.run_of_leave]
      exact ⟨rfl, rfl, fun _ _ => rfl⟩
  · intro l hl
    rcases hexec with hexec | ⟨-, hexec⟩
    · simp [hexec, Next, After.map]
    · rw [hexec]
      exact fun h => hlabels l (by simpa [Prog.labels] using hl) (After.goto.inj h)
  · rcases hexec with hexec | ⟨-, hexec⟩ <;> rw [hexec] <;> exact fun _ => rfl

/-- Loops are simulated, by induction on the fuel. -/
theorem good_cgLoop (hctx : Below ctx g) (hgrows : Grows (g.use prep) g') (hlabels : ∀ l ∈ code.labels, ctx.errorTarget ≠ l)
    (hused : ∀ thrown s k, (inner thrown s).1 = .goto k → Used b (.goto k) g')
    (hrest : ∀ thrown env, (g'.rcthrownUsed = true → env.rcthrown ctx.rcthrown = thrown) →
      Ends (Settled ctx) g env (inner thrown env.state) (code.run (machine W) fuel .next env)) :
    Good W fuel b ctx g (cgLoop (cgAct ctx prep) t code, g') fun thrown => rounds (execRound W prep t inner thrown) fuel where
  grows := (grows_use prep).trans hgrows
  labels := nofun
  used := by
    intro thrown s
    have hends := @rounds_ends _ _ (execRound W prep t inner thrown) fuel s
    generalize hf : (rounds _ fuel s).1 = f at hends
    cases f with
    | goto k =>
      obtain ⟨s', hround⟩ := rounds_goto hf
      rcases andThen_goto hround with h | h
      · rcases exec_cases W thrown prep s' with hexec | ⟨hchecked, hexec⟩
        · rw [hexec] at h
          cases h
        · rw [hexec] at h
          cases h
          exact ⟨fun _ => hgrows.errorTargetUsed (by simp [Gen.use, hchecked]), nofun, nofun⟩
      · split at h
        · exact hused thrown _ k h
        · cases h
    | «continue» => exact absurd rfl hends.2
    | _ => exact .plain nofun nofun
  ends := by
    intro thrown env hrc
    have hround : ∀ s e, (e.state = s ∧ ∀ k ≤ g.rcthrownIndex, e.thrown k = env.thrown k) →
        Ends (Settled ctx) g e (execRound W prep t inner thrown s) ((cgRound ctx prep t code).run (machine W) fuel .next e) := by
      rintro s e ⟨rfl, hkept⟩
      have hrce : g'.rcthrownUsed = true → e.rcthrown ctx.rcthrown = thrown := fun h => (rcthrown_of_kept hctx hkept).trans (hrc h)
      refine ends_cgRound prep t b hlabels (fun h => hrce (hgrows.rcthrownUsed h)) fun env' hthrown => hrest thrown env' ?_
      exact fun h => (rcthrown_of_kept hctx hthrown).trans (hrce h)
    have h := rounds_map (m := Target ctx) (R := fun s e => e.state = s ∧ ∀ k ≤ g.rcthrownIndex, e.thrown k = env.thrown k)
      (fun s e he => ⟨(hround s e he).after, (hround s e he).state, fun k hk => ((hround s e he).thrown k hk).trans (he.2 k hk)⟩)
      fuel env.state env ⟨rfl, fun _ _ => rfl⟩
    refine ⟨?_, h.2.1, h.2.2⟩
    rw [next_eq_map rounds_ends.2]
    exact h.1.symm

/-- The label of a loop stands behind its body, or nothing jumps there. -/
theorem Ends.labelled (h : Ends (Next b ctx' · = ·) g env q (code.run (machine W) fuel .next env))
    (hlabel : label = .label l ∨ label = .skip ∧ q.1 ≠ .continue) (hnext : Next b ctx' .continue = .goto l) (htarget : Target ctx' = Target ctx)
    (hl : ∀ k, Target ctx k ≠ l) : Ends (Next b ctx · = ·) g env (settle q) ((code.seq label).run (machine W) fuel .next env) := by
  rw [Prog.run, ← h.after]
  obtain ⟨f, s⟩ := q
  obtain ⟨-, hstate, hthrown⟩ := h
  dsimp only at hlabel hstate ⊢
  have hgoto : ∀ k, Next b ctx (.goto k) = Next b ctx' (.goto k) := fun k => congrArg After.goto (congrFun htarget.symm k)
  rcases hlabel with rfl | ⟨rfl, hf⟩
  · refine ⟨?_, hstate, hthrown⟩
    cases f with
    | «continue» => rw [hnext, Prog.run, if_pos rfl]; rfl
    | goto k =>
      have hne : Next b ctx' (.goto k) ≠ .goto l := fun h => hl k (htarget ▸ After.goto.inj h)
      rw [Prog.run, if_neg hne]
      exact hgoto k
    | _ => rfl
  · refine ⟨?_, hstate, hthrown⟩
    cases f with
    | «continue» => exact absurd rfl hf
    | goto k => exact hgoto k
    | _ => rfl

/-- A loop whose body has a label behind it. -/
theorem good_labelled (hctx : Below ctx g) (hc : Good W fuel b ctx' (g.use prep).enter c run) (hu : Good W fuel b ctx' c.2 u run')
    (herror : ctx'.errorTarget = ctx.errorTarget) (hrcthrown : ctx'.rcthrown = ctx.rcthrown)
    (hlabel : label = .label l ∨ label = .skip ∧ ∀ thrown s, (run thrown s).1 ≠ .continue) (hnext : Next b ctx' .continue = .goto l)
    (hl : ∀ n, l ≠ .catchStart n) (hcleanup : l ≠ .cleanup) (hupdate : ∀ thrown s, (run' thrown s).1 ≠ .continue)
    (hinner : ∀ thrown s, settle (inner thrown s) = settle (andThen (settle (run thrown s)) (run' thrown))) :
    Good W fuel b ctx g (cgLoop (cgAct ctx prep) t (.seq c.1 (.seq label u.1)), { u.2 with continueNeeded := (g.use prep).continueNeeded })
      fun thrown => rounds (execRound W prep t inner thrown) fuel := by
  have hctxp := hctx.mono (grows_use prep)
  have htarget : Target ctx' = Target ctx := by
    funext k
    cases k with
    | throw => exact herror
    | «return» => rfl
  have hne := target_ne_of hctx (fun n _ => hl n) hcleanup
  have hlater : ∀ m ∈ u.1.labels, Later (g.use prep).catchBlockCount m := fun m hm => (hu.labels m hm).mono hc.grows.catchBlock
  refine good_cgLoop prep t hctx (hc.grows.trans hu.grows).of_enter ?_ ?_ ?_
  · intro m hm
    simp only [Prog.labels, List.mem_append] at hm
    rcases hm with hm | hm | hm
    · exact target_ne hctxp (hc.labels m hm) .throw
    · rcases hlabel with rfl | ⟨rfl, -⟩
      · exact List.mem_singleton.mp hm ▸ hne .throw
      · cases hm
    · exact target_ne hctxp (hlater m hm) .throw
  · intro thrown s k hk
    have hgoto : (andThen (settle (run thrown s)) (run' thrown)).1 = .goto k := by
      refine settle_goto ((congrArg Prod.fst (hinner thrown s)).symm.trans ?_)
      change (inner thrown s).1.settle = _
      rw [hk]
      rfl
    have h : Used b (.goto k) u.2 := by
      rcases andThen_goto hgoto with h | h
      · exact settle_goto h ▸ (hc.used thrown s).mono hu.grows
      · exact h ▸ hu.used thrown _
    exact ⟨h.errorTarget, h.returns, nofun⟩
  · intro thrown env hrc
    have hlabel : label = .label l ∨ label = .skip ∧ (run thrown env.state).1 ≠ .continue := hlabel.imp_right fun h => ⟨h.1, h.2 _ _⟩
    have hbody := (hc.ends thrown env fun h => hrcthrown ▸ hrc (hu.grows.rcthrownUsed h)).labelled hlabel hnext htarget hne
    have h : Ends (Next b ctx · = ·) _ _ (andThen _ (run' thrown)) _ := hbody.seq ?_ (fun m hm => next_ne hctxp _ (hlater m hm)) fun _ => rfl
    · obtain ⟨hafter, hstate, hthrown⟩ := h
      have hinner := hinner thrown env.state
      refine ⟨?_, hstate.trans (congrArg Prod.snd hinner).symm, hthrown⟩
      have hflow : ∀ f : After Exit, (f.map (Target ctx)).settle = f.settle.map (Target ctx) := fun f => by cases f <;> rfl
      have hf : (andThen (settle (run thrown env.state)) (run' thrown)).1 ≠ .continue := by
        generalize run thrown env.state = q
        obtain ⟨f, s⟩ := q
        cases f with
        | next | «continue» => exact hupdate _ _
        | _ => exact nofun
      rw [next_eq_map hf] at hafter
      rw [Settled, hflow, show (inner thrown env.state).1.settle = _ from congrArg Prod.fst hinner]
      exact (hflow _ ▸ congrArg After.settle hafter).symm
    · intro env' hstate hthrown
      have hkept := rcthrown_of_kept hctxp hthrown
      obtain ⟨hafter, hstate', hthrown'⟩ := hstate ▸ hu.ends thrown env' fun h => hrcthrown ▸ hkept.trans (hrc h)
      refine ⟨?_, hstate', fun k hk => hthrown' k (hk.trans hc.grows.rcthrown)⟩
      rw [← hafter, next_eq_map (hupdate _ _), next_eq_map (hupdate _ _), htarget]

/-! ### SWITCH -/

/-- Where the cases are entered. -/
def entry (b : Backend) (c : Text A T E) (v : Int) : After Label :=
  match b with
  | .c => if .case v ∈ c.labels then .goto (.case v) else .goto .default
  | .lua => .next

/-- How the cases end. In C there may be no label to enter at. -/
def Selected (b : Backend) (ctx : Ctx) (v : Int) (labels : List Label) (f : After Exit) (f' : After Label) : Prop :=
  f'.exit = Next b ctx f.exit ∨ b = .c ∧ f = .next ∧ .case v ∉ labels ∧ .default ∉ labels

/-- A label of a case. -/
def OfCase (l : Label) : Prop := (∃ v, l = .case v) ∨ l = .default

abbrev CaseMeaning (σ : Type) := SqlCode.Code → Int → σ → After Exit × σ

/-- What is to be known of the code of cases. -/
structure GoodCases (W : World σ A T E) (fuel : Nat) (b : Backend) (ctx : Ctx) (g : Gen) (c : Text A T E × Gen) (run : CaseMeaning σ) : Prop where
  grows : Grows g c.2
  labels : ∀ l ∈ c.1.labels, Later g.catchBlockCount l ∨ b = .c ∧ OfCase l
  used : ∀ thrown v s, Used b (run thrown v s).1 c.2
  ends : ∀ thrown v env, (c.2.rcthrownUsed = true → env.rcthrown ctx.rcthrown = thrown) → (b = .lua → env.val = v) →
    Ends (Selected b ctx v c.1.labels) g env (run thrown v env.state) (c.1.run (machine W) fuel (entry b c.1 v) env)

variable {v : Int} {values : List Int} {cases rest : CaseMeaning σ}

/-- No exit goes to a case. -/
theorem next_ne_case (hctx : Below ctx g) (f : After Exit) (hl : OfCase l) : Next b ctx f ≠ .goto l := by
  refine next_ne_goto f (target_ne_of hctx ?_ ?_) ?_ ?_
  all_goals rcases hl with ⟨v, rfl⟩ | rfl <;> exact nofun

/-- A case leaves the SWITCH, and passes by the cases behind it. -/
theorem Ends.left {labels : List Label} (h : Ends (Next b ctx · = ·) g env q (code.run (machine W) fuel .next env))
    (hd : ∀ l ∈ code'.labels, ∀ f, Next b ctx f ≠ .goto l) :
    Ends (Selected b ctx v labels) g env q (((code.seq .leave).seq code').run (machine W) fuel .next env) := by
  obtain ⟨f, s⟩ := q
  obtain ⟨hafter, hstate, hthrown⟩ := h
  rw [Prog.run, Prog.run, ← hafter]
  by_cases hf : f = .next
  · subst hf
    change Ends _ g env _ (code'.run (machine W) fuel .leave (code.run (machine W) fuel .next env).2)
    rw [Prog.run_of_leave]
    exact ⟨.inl rfl, hstate, hthrown⟩
  · rw [Prog.run_pass (c := .leave) (next_ne_next hf) (by simp [Prog.labels]), Prog.run_pass (next_ne_next hf) fun l hl => hd l hl f]
    exact ⟨.inl (next_exit f), hstate, hthrown⟩

/-- The labels of a WHEN catch its values. -/
theorem run_caseLabels (values : List Int) (f : After Label) :
    (caseLabels values : Text A T E).run (machine W) fuel f env = (if ∃ v ∈ values, f = .goto (.case v) then .next else f, env) := by
  induction values generalizing f with
  | nil => simp [caseLabels, Prog.run]
  | cons v values ih =>
    rw [caseLabels, Prog.run, Prog.run, ih]
    by_cases hf : f = .goto (.case v) <;> simp [hf]

theorem labels_caseLabels (values : List Int) : (caseLabels values : Text A T E).labels = values.map .case := by
  induction values with
  | nil => rfl
  | cons v values ih => simp [caseLabels, Prog.labels, ih]

theorem later_ofCase {n : Nat} (h : Later n l) : ¬ OfCase l := by
  obtain ⟨m, -, rfl | rfl⟩ := h <;> exact fun h => by rcases h with ⟨v, h⟩ | h <;> cases h

theorem good_nil : GoodCases W fuel b ctx g ((.skip : Text A T E), g) fun _ _ s => (.next, s) where
  grows := .refl g
  labels := nofun
  used := fun _ _ _ => .plain nofun nofun
  ends := by
    intro thrown v env _ _
    refine ⟨?_, rfl, fun _ _ => rfl⟩
    cases b with
    | c => exact .inr ⟨rfl, rfl, nofun, nofun⟩
    | lua => exact .inl rfl

/-- The ELSE of a SWITCH. -/
theorem good_otherwise (hc : Good W fuel b ctx g c run) : GoodCases W fuel b ctx g (cgDefault b c.1, c.2) fun thrown _ => run thrown where
  grows := hc.grows
  labels := by
    intro l hl
    cases b with
    | c =>
      simp only [cgDefault, Prog.labels, List.mem_append, List.mem_singleton, List.not_mem_nil, or_false] at hl
      exact hl.symm.imp (hc.labels l) fun h => ⟨rfl, .inr h⟩
    | lua => exact .inl (hc.labels l hl)
  used := fun thrown _ => hc.used thrown
  ends := by
    intro thrown v env hrc _
    have h := hc.ends thrown env hrc
    cases b with
    | c =>
      have hv : (.case v : Label) ∉ (cgDefault .c c.1).labels := by
        simp only [cgDefault, Prog.labels, List.mem_append, List.mem_singleton, reduceCtorEq, List.not_mem_nil, or_false, false_or]
        exact fun hl => later_ofCase (hc.labels _ hl) (.inl ⟨v, rfl⟩)
      have hentry : entry .c (cgDefault .c c.1) v = .goto .default := if_neg hv
      dsimp only
      rw [hentry]
      have hskip : ∀ l ∈ (Prog.skip : Text A T E).labels, ∀ f, Next .c ctx f ≠ .goto l := nofun
      exact h.left hskip
    | lua => exact h.imp fun f f' hf => .inl (hf ▸ next_exit f)

/-- A case that is not left out. -/
theorem good_when (hctx : Below ctx g) (hc : Good W fuel b ctx g c run) (hd : GoodCases W fuel b ctx c.2 d rest) :
    GoodCases W fuel b ctx g (.seq (cgWhen b values c.1) d.1, d.2) fun thrown v s => if v ∈ values then run thrown s else rest thrown v s where
  grows := hc.grows.trans hd.grows
  labels := by
    intro l hl
    have hrest := fun hl => (hd.labels l hl).imp_left fun h => h.mono hc.grows.catchBlock
    cases b with
    | c =>
      simp only [cgWhen, Prog.labels, List.mem_append, labels_caseLabels, List.mem_map, List.not_mem_nil, or_false] at hl
      rcases hl with (⟨v, -, rfl⟩ | hl) | hl
      · exact .inr ⟨rfl, .inl ⟨v, rfl⟩⟩
      · exact .inl (hc.labels l hl)
      · exact hrest hl
    | lua => exact hrest (by simpa [cgWhen, Prog.labels] using hl)
  used := by
    intro thrown v s
    dsimp only
    split
    · exact (hc.used thrown s).mono hd.grows
    · exact hd.used thrown v s
  ends := by
    intro thrown v env hrc hval
    have hbody := hc.ends thrown env fun h => hrc (hd.grows.rcthrownUsed h)
    have hpass : ∀ l ∈ d.1.labels, ∀ f, Next b ctx f ≠ .goto l := by
      intro l hl f
      rcases hd.labels l hl with h | ⟨-, h⟩
      · exact next_ne hctx f (h.mono hc.grows.catchBlock)
      · exact next_ne_case hctx f h
    have hrest := (hd.ends thrown v env hrc hval).mono hc.grows
    cases b with
    | c =>
      dsimp only [cgWhen]
      have hlabel : .case v ∈ (Prog.seq (.seq (caseLabels values) (.seq c.1 .leave)) d.1).labels ↔ v ∈ values ∨ .case v ∈ d.1.labels := by
        have hbody : (.case v : Label) ∉ c.1.labels := fun hl => later_ofCase (hc.labels _ hl) (.inl ⟨v, rfl⟩)
        simp [Prog.labels, labels_caseLabels, hbody]
      by_cases hv : v ∈ values
      · simp only [entry, if_pos hv, if_pos (hlabel.mpr (.inl hv))]
        rw [Prog.run, Prog.run, run_caseLabels, if_pos ⟨v, hv, rfl⟩]
        exact hbody.left hpass
      · have hentry : entry .c (Prog.seq (.seq (caseLabels values) (.seq c.1 .leave)) d.1) v = entry .c d.1 v := by
          simp only [entry, hlabel, hv, false_or]
        obtain ⟨l, hl, hcase⟩ : ∃ l, entry .c d.1 v = .goto l ∧ (l = .case v ∨ l = .default) := by
          unfold entry
          dsimp only
          split
          · exact ⟨_, rfl, .inl rfl⟩
          · exact ⟨_, rfl, .inr rfl⟩
        have hnot : ¬ ∃ w ∈ values, (.goto l : After Label) = .goto (.case w) := by
          rintro ⟨w, hw, h⟩
          rcases hcase with rfl | rfl <;> cases h
          exact hv hw
        have hskip : ∀ m ∈ c.1.labels, (.goto l : After Label) ≠ .goto m := by
          intro m hm h
          cases h
          exact later_ofCase (hc.labels l hm) (hcase.imp_left fun h => ⟨v, h⟩)
        rw [hl] at hrest
        rw [if_neg hv, hentry, hl, Prog.run, Prog.run, Prog.run, run_caseLabels, if_neg hnot, Prog.run_pass (f := .goto l) (by simp) hskip,
          Prog.run_pass (c := .leave) (f := .goto l) (by simp) (by simp [Prog.labels])]
        refine hrest.imp fun f f' h => h.imp_right fun h => ⟨h.1, h.2.1, fun h' => (hlabel.mp h').elim hv h.2.2.1, ?_⟩
        have hbody : (.default : Label) ∉ c.1.labels := fun hl => later_ofCase (hc.labels _ hl) (.inr rfl)
        simp [Prog.labels, labels_caseLabels, hbody, h.2.2.2]
    | lua =>
      change Ends _ g env _ ((Prog.seq (.branch (.among values) (.seq c.1 .leave) .skip) d.1).run (machine W) fuel .next env)
      have hmem : (machine (A := A) (T := T) W).test (.among values) env = decide (v ∈ values) := by rw [← hval rfl]; rfl
      rw [Prog.run, Prog.run, hmem]
      by_cases hv : v ∈ values
      · rw [if_pos hv, if_pos (decide_eq_true hv)]
        exact hbody.left hpass
      · rw [if_neg hv, if_neg (by simpa using hv)]
        exact hrest.imp fun f f' h => h.imp_right fun h => absurd h.1 (by simp)

/-- Switches are simulated. -/
theorem good_switch (hctx : Below ctx g) (e : E) (hc : GoodCases W fuel b ctx g c cases) :
    Good W fuel b ctx g (cgSwitch b e c.1, c.2) fun thrown s => exit (cases thrown (W.value e s) s) where
  grows := hc.grows
  labels := by cases b <;> exact nofun
  used := by
    intro thrown s
    have h := hc.used thrown (W.value e s) s
    generalize cases thrown (W.value e s) s = q at h
    obtain ⟨f, s'⟩ := q
    cases f with
    | leave => exact .plain nofun nofun
    | _ => exact h
  ends := by
    intro thrown env hrc
    cases b with
    | c =>
      have hselect : (machine (A := A) (T := T) W).select e env = [.case (W.value e env.state), .default] := rfl
      have h := hc.ends thrown (W.value e env.state) env hrc nofun
      generalize cases thrown (W.value e env.state) env.state = q at h
      obtain ⟨f, s⟩ := q
      obtain ⟨hafter, hstate, hthrown⟩ := h
      dsimp only [cgSwitch] at hafter ⊢
      rw [Prog.run, hselect]
      unfold entry at hafter hstate hthrown
      dsimp only at hafter hstate hthrown
      by_cases hcase : .case (W.value e env.state) ∈ c.1.labels
      · rw [if_pos hcase] at hafter hstate hthrown
        rw [List.find?_cons_of_pos (by simpa using hcase)]
        exact ⟨(hafter.resolve_right fun h => h.2.2.1 hcase).symm, hstate, hthrown⟩
      rw [if_neg hcase] at hafter hstate hthrown
      rw [List.find?_cons_of_neg (by simpa using hcase)]
      by_cases hdefault : .default ∈ c.1.labels
      · rw [List.find?_cons_of_pos (by simpa using hdefault)]
        exact ⟨(hafter.resolve_right fun h => h.2.2.2 hdefault).symm, hstate, hthrown⟩
      · rw [List.find?_cons_of_neg (by simpa using hdefault)]
        have hrun : c.1.run (machine W) fuel (.goto .default) env = (.goto .default, env) :=
          Prog.run_pass (by simp) fun l hl h => hdefault (After.goto.inj h ▸ hl)
        rw [hrun] at hafter hstate
        rcases hafter with hafter | ⟨-, rfl, -⟩
        · exact absurd hafter.symm (next_ne_case hctx _ (.inr rfl))
        · exact ⟨rfl, hstate, fun _ _ => rfl⟩
    | lua =>
      obtain ⟨hafter, hstate, hthrown⟩ := hc.ends thrown (W.value e env.state) { env with val := W.value e env.state } hrc fun _ => rfl
      exact ⟨(hafter.resolve_right fun h => absurd h.1 (by simp)).symm, hstate, hthrown⟩

/-! ### TRY -/

/-- What stands behind the body of a TRY. -/
def behind (n k : Nat) (errorTargetUsed rcthrownUsed : Bool) (handler : Text A T E) : Text A T E :=
  .seq (.goto (.catchEnd n)) (.seq (if errorTargetUsed then .label (.catchStart n) else .skip)
    (.seq (.block (.seq (if rcthrownUsed then .act (.saveRc k) else .skip) handler)) (.label (.catchEnd n))))

section

variable {n k : Nat} {used saved : Bool} {body handler : Text A T E}

/-- The body of a TRY runs, then what is behind it. -/
theorem run_cgTrycatchHelper : (cgTrycatchHelper b n k used saved body handler).run (machine W) fuel .next env =
    (behind n k used saved handler).run (machine W) fuel (body.run (machine W) fuel .next env).1 (body.run (machine W) fuel .next env).2 := by
  cases b <;> rfl

theorem labels_behind (hl : l ∈ (behind n k used saved handler).labels) : l = .catchStart n ∨ l = .catchEnd n := by
  cases used <;> simp [behind, Prog.labels] at hl <;> tauto

/-- Without an error the CATCH is skipped. -/
theorem run_behind_next : (behind n k used saved handler).run (machine W) fuel .next env = (.next, env) := by
  cases used <;> simp [behind, Prog.run]

/-- With an error it runs. -/
theorem run_behind_throw : (behind n k true saved handler).run (machine W) fuel (.goto (.catchStart n)) env =
    (handler.seq (.label (.catchEnd n))).run (machine W) fuel .next
      (if saved then { env with thrown := Function.update env.thrown k (W.rc env.state) } else env) := by
  have hact : (machine (A := A) (T := T) (E := E) W).act (.saveRc k) env =
    (.next, { env with thrown := Function.update env.thrown k (W.rc env.state) }) := rfl
  cases saved <;> simp [behind, Prog.run, hact]

/-- What neither ends in the TRY nor is its error passes by. -/
theorem run_behind_pass (hctx : Below ctx g) (hn : g.catchBlockCount < n) (hf : f ≠ .next) :
    (behind n k used saved handler).run (machine W) fuel (Next b ctx f) env = (Next b ctx f, env) :=
  Prog.run_pass (next_ne_next hf) fun _ hl => next_ne hctx f ⟨n, hn, labels_behind hl⟩

end

/-- TRY and CATCH are simulated. -/
theorem good_trycatch {handler : Meaning σ} (hctx : Below ctx g)
    (hc : Good W fuel b { ctx with errorTarget := .catchStart (g.catchBlockCount + 1) } g.enterTry c run)
    (hd : Good W fuel b { ctx with rcthrown := some (c.2.rcthrownIndex + 1) } (c.2.enterCatch g.errorTargetUsed) d handler) :
    Good W fuel b ctx g (cgTrycatchHelper b (g.catchBlockCount + 1) (c.2.rcthrownIndex + 1) c.2.errorTargetUsed d.2.rcthrownUsed c.1 d.1,
        { d.2 with rcthrownUsed := c.2.rcthrownUsed })
      fun thrown s => match run thrown s with
        | (.goto .throw, s) => handler (W.rc s) s
        | r => r where
  grows :=
    { catchBlock := (Nat.le_succ _).trans (hc.grows.catchBlock.trans hd.grows.catchBlock)
      rcthrown := hc.grows.rcthrown.trans ((Nat.le_succ _).trans hd.grows.rcthrown)
      errorTargetUsed := hd.grows.errorTargetUsed
      rcthrownUsed := hc.grows.rcthrownUsed
      returnUsed := fun h => hd.grows.returnUsed (hc.grows.returnUsed h)
      continueNeeded := fun h => hd.grows.continueNeeded (hc.grows.continueNeeded h) }
  labels := by
    intro l hl
    have hl : l ∈ c.1.labels ∨ l = .catchStart (g.catchBlockCount + 1) ∨ l = .catchEnd (g.catchBlockCount + 1) := by
      cases b <;> cases hu : c.2.errorTargetUsed <;> simp [cgTrycatchHelper, Prog.labels, hu] at hl <;> tauto
    rcases hl with hl | hl
    · exact (hc.labels l hl).mono (Nat.le_succ _)
    · exact ⟨_, Nat.lt_succ_self _, hl⟩
  used := by
    intro thrown s
    have h := hc.used thrown s
    generalize run thrown s = q at h
    obtain ⟨f, s'⟩ := q
    have hkept : f ≠ .goto .throw → Used b f { d.2 with rcthrownUsed := c.2.rcthrownUsed } := fun hf =>
      ⟨fun h => absurd h hf, fun hf => hd.grows.returnUsed (h.returns hf), fun hf hb => hd.grows.continueNeeded (h.continues hf hb)⟩
    cases f with
    | goto k =>
      cases k with
      | throw =>
        have h := hd.used (W.rc s') s'
        exact ⟨h.errorTarget, h.returns, h.continues⟩
      | «return» => exact hkept nofun
    | _ => exact hkept nofun
  ends := by
    intro thrown env hrc
    have h := hc.ends thrown env hrc
    have hused := (hc.used thrown env.state).errorTarget
    dsimp only
    rw [run_cgTrycatchHelper]
    generalize c.1.run (machine W) fuel .next env = r at h
    generalize run thrown env.state = q at h hused
    obtain ⟨f, s⟩ := q
    obtain ⟨f', env'⟩ := r
    obtain ⟨hafter, hstate, hthrown⟩ := h
    dsimp only at hafter hstate hthrown hused ⊢
    subst hafter hstate
    have hpass : ∀ {f} k used saved (handler : Text A T E), f ≠ .next → (behind _ k used saved handler).run (machine W) fuel (Next b ctx f) env' =
      (Next b ctx f, env') := fun _ _ _ _ => run_behind_pass hctx (Nat.lt_succ_self _)
    cases f with
    | next =>
      change Ends _ g env _ ((behind _ _ _ _ _).run (machine W) fuel .next env')
      rw [run_behind_next]
      exact ⟨rfl, rfl, hthrown⟩
    | goto k =>
      cases k with
      | «return» => exact hpass (f := .goto .return) _ _ _ _ nofun ▸ ⟨rfl, rfl, hthrown⟩
      | throw =>
        change Ends _ g env (handler (W.rc env'.state) env'.state) ((behind _ _ _ _ _).run (machine W) fuel (.goto (.catchStart _)) env')
        rw [hused rfl, run_behind_throw]
        generalize henv : (if d.2.rcthrownUsed = true then _ else env' : Env σ) = env''
        have hstate : env''.state = env'.state := by rw [← henv]; split <;> rfl
        have hkept : ∀ k ≤ c.2.rcthrownIndex, env''.thrown k = env'.thrown k := by
          intro k hk
          rw [← henv]
          split
          · exact Function.update_of_ne (by omega) _ _
          · rfl
        have h := hd.ends (W.rc env'.state) env'' fun hsaved => by
          rw [← henv, if_pos hsaved]
          exact Function.update_self _ _ _
        rw [hstate] at h
        obtain ⟨hafter, hstate, hthrown'⟩ := h
        have hne := next_ne (b := b) hctx (handler (W.rc env'.state) env'.state).1 ⟨_, Nat.lt_succ_self _, .inr rfl⟩
        refine ⟨?_, hstate, fun k hk => ?_⟩
        · rw [Prog.run, Prog.run, ← hafter]
          exact (if_neg hne).symm
        · have hk' : k ≤ c.2.rcthrownIndex := hk.trans hc.grows.rcthrown
          exact (hthrown' k (hk'.trans (Nat.le_succ _))).trans ((hkept k hk').trans (hthrown k hk))
    | «continue» => exact hpass (f := .continue) _ _ _ _ (by simp) ▸ ⟨rfl, rfl, hthrown⟩
    | leave => exact hpass (f := .leave) _ _ _ _ (by simp) ▸ ⟨rfl, rfl, hthrown⟩
    | cutOff => exact hpass (f := .cutOff) _ _ _ _ (by simp) ▸ ⟨rfl, rfl, hthrown⟩

/-! ### LEAVE, CONTINUE, RETURN and THROW -/

theorem run_cgClear : (cgClear dml : Text A T E).run (machine W) fuel .next env = (.next, { env with state := W.clear dml env.state }) := by
  cases dml <;> rfl

/-- Control statements are simulated. -/
theorem good_cgControl (k : Control) : Good W fuel b ctx g (cgControl dml b ctx k g : Text A T E × Gen) fun thrown s =>
    execStmt W dml fuel thrown (.control k : Stmt A T E) s := by
  cases k with
  | leave => exact ⟨.refl g, nofun, fun _ _ => .plain nofun nofun, fun _ _ _ => ⟨rfl, rfl, fun _ _ => rfl⟩⟩
  | «continue» =>
    cases b with
    | c =>
      refine ⟨.refl g, ?_, fun _ _ => ⟨nofun, nofun, nofun⟩, fun thrown env _ => ?_⟩
      · simp only [cgControl]
        split <;> exact nofun
      · simp only [cgControl, execStmt]
        split
        · next hfor => exact ⟨if_pos hfor, rfl, fun _ _ => rfl⟩
        · next hfor => exact ⟨if_neg hfor, rfl, fun _ _ => rfl⟩
    | lua =>
      refine ⟨⟨Nat.le_refl _, Nat.le_refl _, id, id, id, fun _ => rfl⟩, nofun, fun _ _ => ⟨nofun, nofun, fun _ _ => rfl⟩, ?_⟩
      exact fun thrown env _ => ⟨rfl, rfl, fun _ _ => rfl⟩
  | «return» =>
    refine ⟨⟨Nat.le_refl _, Nat.le_refl _, id, id, fun _ => rfl, id⟩, ?_, fun _ _ => ⟨nofun, fun _ => rfl, nofun⟩, ?_⟩
    · cases dml <;> exact nofun
    · intro thrown env _
      cases dml <;> exact ⟨rfl, rfl, fun _ _ => rfl⟩
  | throw =>
    refine ⟨⟨Nat.le_refl _, Nat.le_refl _, fun _ => rfl, fun _ => rfl, id, id⟩, nofun, fun _ _ => ⟨fun _ => rfl, nofun, nofun⟩, ?_⟩
    intro thrown env hrc
    have hrc := hrc rfl
    subst hrc
    exact ⟨rfl, rfl, fun _ _ => rfl⟩

/-! ### Where LEAVE and CONTINUE stand -/

/-- LEAVE and CONTINUE come out only where they may. -/
def Stays (leaves continues : Bool) (f : After Exit) : Prop := (f = .leave → leaves = true) ∧ (f = .continue → continues = true)

variable {leaves continues : Bool}

theorem stays_andThen {k : σ → After Exit × σ} (hq : Stays leaves continues q.1)
    (hk : ∀ s, Stays leaves continues (k s).1) : Stays leaves continues (andThen q k).1 := by
  unfold andThen
  split
  · exact hk _
  · exact hq

theorem stays_exec (s : σ) : Stays leaves continues (W.exec prep thrown s).1 := by
  rcases exec_cases W thrown prep s with h | ⟨-, h⟩ <;> rw [h] <;> exact ⟨nofun, nofun⟩

mutual

/-- Accepted statements leave loops that they are in only, by induction. -/
theorem stays_stmt (leaves continues : Bool) : ∀ (stmt : Stmt A T E), stmt.accepted leaves continues = true → ∀ thrown s,
    Stays leaves continues (execStmt W dml fuel thrown stmt s).1
  | .act a, _, _, s => stays_exec a s
  | .control .leave, h, _, _ => ⟨fun _ => h, nofun⟩
  | .control .continue, h, _, _ => ⟨nofun, fun _ => h⟩
  | .control .return, _, _, _ => ⟨nofun, nofun⟩
  | .control .throw, _, _, _ => ⟨nofun, nofun⟩
  | .ifStmt prep t body alt, h, thrown, s => by
    simp only [Stmt.accepted, Bool.and_eq_true] at h
    rw [execStmt]
    refine stays_andThen (stays_exec prep s) fun s => ?_
    split
    · exact stays_stmts leaves continues body h.1 thrown s
    · exact stays_stmts leaves continues alt h.2 thrown s
  | .switchStmt prep e cases, h, thrown, s => by
    simp only [Stmt.accepted, Bool.and_eq_true] at h
    rw [execStmt]
    refine stays_andThen (stays_exec prep s) fun s => ?_
    have hc := stays_cases continues cases h.2 thrown (W.value e s) s
    generalize execCases W dml fuel thrown (W.value e s) cases s = q at hc
    obtain ⟨f, s'⟩ := q
    cases f with
    | «continue» => exact ⟨nofun, hc.2⟩
    | _ => exact ⟨nofun, nofun⟩
  | .whileStmt _ _ _, _, _, _ => ⟨fun h => absurd h rounds_ends.1, fun h => absurd h rounds_ends.2⟩
  | .forStmt _ _ _ _, _, _, _ => ⟨fun h => absurd h rounds_ends.1, fun h => absurd h rounds_ends.2⟩
  | .trycatchStmt body handler, h, thrown, s => by
    simp only [Stmt.accepted, Bool.and_eq_true] at h
    rw [execStmt]
    split
    · exact stays_stmts leaves continues handler h.2 _ _
    · exact stays_stmts leaves continues body h.1 thrown s

/-- Lists of statements. -/
theorem stays_stmts (leaves continues : Bool) : ∀ (list : Stmts A T E), list.accepted leaves continues = true → ∀ thrown s,
    Stays leaves continues (execStmts W dml fuel thrown list s).1
  | .nil, _, _, _ => ⟨nofun, nofun⟩
  | .cons stmt rest, h, thrown, s => by
    simp only [Stmts.accepted, Bool.and_eq_true] at h
    rw [execStmts]
    exact stays_andThen (stays_stmt leaves continues stmt h.1 thrown s) (stays_stmts leaves continues rest h.2 thrown)

/-- The cases of a SWITCH. -/
theorem stays_cases (continues : Bool) : ∀ (cases : Cases A T E), cases.accepted continues = true → ∀ thrown v s,
    Stays true continues (execCases W dml fuel thrown v cases s).1
  | .nil, _, _, _, _ => ⟨nofun, nofun⟩
  | .when values body rest, h, thrown, v, s => by
    simp only [Cases.accepted, Bool.and_eq_true] at h
    rw [execCases]
    split
    · exact stays_stmts true continues body h.1 thrown s
    · exact stays_cases continues rest h.2 thrown v s
  | .otherwise body, h, thrown, _, s => stays_stmts true continues body h thrown s

end

/-! ### Procedures -/

/-- A value that no case has, where there is no ELSE. -/
theorem execCases_none {v : Int} : ∀ (cases : Cases A T E), v ∉ cases.values → cases.hasDefault = false → ∀ s,
    execCases W dml fuel thrown v cases s = (.next, s)
  | .nil, _, _, _ => rfl
  | .when values body rest, hv, hd, s => by
    simp only [Cases.values, List.mem_append, not_or] at hv
    rw [execCases, if_neg hv.1]
    exact execCases_none rest hv.2 hd s

/-- In Lua the label of a loop is there, or nothing jumps to it. -/
theorem continueLabel_cases (h : ∀ thrown s, Used .lua (run thrown s).1 g) (n : Nat) :
    (continueLabel g.continueNeeded n : Text A T E) = .label (.loopContinue n) ∨
      (continueLabel g.continueNeeded n : Text A T E) = .skip ∧ ∀ thrown s, (run thrown s).1 ≠ .continue := by
  cases hn : g.continueNeeded with
  | true => exact .inl rfl
  | false => exact .inr ⟨rfl, fun thrown s hf => by simp [(h thrown s).continues hf rfl] at hn⟩

section

/-- What is generated for statements is good. -/
abbrev Kept (W : World σ A T E) (dml : Bool) (fuel : Nat) (b : Backend) (list : Stmts A T E) : Prop :=
  ∀ ctx g, Below ctx g → Good W fuel b ctx g (cgStmtList dml b ctx list g) fun thrown s => execStmts W dml fuel thrown list s

variable {body update : Stmts A T E}

/-- WHILE. -/
theorem good_whileStmt (hctx : Below ctx g) (hbody : Kept W dml fuel b body) :
    Good W fuel b ctx g (cgStmt dml b ctx (.whileStmt prep t body) g) fun thrown s => execStmt W dml fuel thrown (.whileStmt prep t body) s := by
  have hp := hctx.mono (grows_use prep)
  cases b with
  | c =>
    have hc := hbody { ctx with inFor := false } (g.use prep) ⟨hp.errorTarget, hp.rcthrown⟩
    refine good_cgLoop prep t hctx hc.grows (fun l hl => target_ne hp (hc.labels l hl) .throw) (fun thrown s k hk => hk ▸ hc.used thrown s) ?_
    intro thrown env hrc
    refine ((hc.ends thrown env hrc).mono (grows_use prep)).imp fun f f' hf => ?_
    subst hf
    cases f <;> rfl
  | lua =>
    have hc := hbody { ctx with loop := (g.use prep).loopCount + 1 } (g.use prep).enter ⟨hp.errorTarget, hp.rcthrown⟩
    have h := good_labelled prep t hctx hc good_skip rfl rfl (continueLabel_cases hc.used _) rfl nofun nofun (fun _ _ => nofun)
      fun thrown s => (?_ : settle (execStmts W dml fuel thrown body s) = _)
    · exact ⟨h.grows, h.labels, h.used, h.ends⟩
    · generalize execStmts W dml fuel thrown body s = q
      obtain ⟨f, s'⟩ := q
      cases f <;> rfl

/-- FOR. -/
theorem good_forStmt (hctx : Below ctx g) (hbody : Kept W dml fuel b body) (hupdate : Kept W dml fuel b update)
    (haccepted : update.accepted false false = true) : Good W fuel b ctx g (cgStmt dml b ctx (.forStmt prep t update body) g) fun thrown s =>
      execStmt W dml fuel thrown (.forStmt prep t update body) s := by
  have hp := hctx.mono (grows_use prep)
  have hctx' : Below { ctx with inFor := true, loop := (g.use prep).loopCount + 1 } (g.use prep).enter := ⟨hp.errorTarget, hp.rcthrown⟩
  have hc := hbody _ _ hctx'
  have hu := hupdate _ _ (hctx'.mono hc.grows)
  have hstays : ∀ thrown s, (execStmts W dml fuel thrown update s).1 ≠ .continue := fun thrown s h =>
    nomatch (stays_stmts false false update haccepted thrown s).2 h
  cases b with
  | c => exact good_labelled prep t hctx hc hu rfl rfl (.inl rfl) rfl nofun nofun hstays fun _ _ => rfl
  | lua => exact good_labelled prep t hctx hc hu rfl rfl (continueLabel_cases hc.used _) rfl nofun nofun hstays fun _ _ => rfl

end

mutual

/-- Every accepted statement is simulated, by induction. -/
theorem good_cgStmt : ∀ (stmt : Stmt A T E) (leaves continues : Bool), stmt.accepted leaves continues = true → ∀ ctx g, Below ctx g →
    Good W fuel b ctx g (cgStmt dml b ctx stmt g) fun thrown s => execStmt W dml fuel thrown stmt s
  | .act a, _, _, _, _, _, _ => good_cgAct a
  | .control k, _, _, _, _, _, _ => good_cgControl k
  | .ifStmt prep t body alt, leaves, continues, h, ctx, g, hctx => by
    simp only [Stmt.accepted, Bool.and_eq_true] at h
    have hp := hctx.mono (grows_use prep)
    have hc := good_cgStmtList body leaves continues h.1 ctx _ hp
    have hd := good_cgStmtList alt leaves continues h.2 ctx _ (hp.mono hc.grows)
    exact (good_cgAct prep).seq hctx (hc.branch t hd)
  | .switchStmt prep e cases, _, continues, h, ctx, g, hctx => by
    simp only [Stmt.accepted, Bool.and_eq_true, decide_eq_true_eq] at h
    have hp := hctx.mono (grows_use prep)
    have hc := good_cgCases cases continues h.2 h.1 ctx _ hp
    exact (good_cgAct prep).seq hctx (good_switch hp e hc)
  | .whileStmt prep t body, _, _, h, ctx, g, hctx => good_whileStmt prep t hctx (good_cgStmtList body true true h)
  | .forStmt prep t update body, _, _, h, ctx, g, hctx => by
    simp only [Stmt.accepted, Bool.and_eq_true] at h
    exact good_forStmt prep t hctx (good_cgStmtList body true true h.2) (good_cgStmtList update false false h.1) h.1
  | .trycatchStmt body handler, leaves, continues, h, ctx, g, hctx => by
    simp only [Stmt.accepted, Bool.and_eq_true] at h
    have hc := good_cgStmtList body leaves continues h.1 { ctx with errorTarget := .catchStart (g.catchBlockCount + 1) } g.enterTry
      ⟨.inr ⟨_, Nat.le_refl _, rfl⟩, hctx.rcthrown⟩
    refine good_trycatch hctx hc (good_cgStmtList handler leaves continues h.2 _ _ ⟨?_, fun k hk => (Option.some.inj hk).ge⟩)
    exact hctx.errorTarget.imp_right fun ⟨n, hn, heq⟩ => ⟨n, hn.trans ((Nat.le_succ _).trans hc.grows.catchBlock), heq⟩

/-- Lists of statements are. -/
theorem good_cgStmtList : ∀ (list : Stmts A T E) (leaves continues : Bool), list.accepted leaves continues = true → ∀ ctx g, Below ctx g →
    Good W fuel b ctx g (cgStmtList dml b ctx list g) fun thrown s => execStmts W dml fuel thrown list s
  | .nil, _, _, _, _, _, _ => good_skip
  | .cons stmt rest, leaves, continues, h, ctx, g, hctx => by
    simp only [Stmts.accepted, Bool.and_eq_true] at h
    have hc := good_cgStmt stmt leaves continues h.1 ctx g hctx
    exact hc.seq hctx (good_cgStmtList rest leaves continues h.2 ctx _ (hctx.mono hc.grows))

/-- The cases of a SWITCH are. -/
theorem good_cgCases : ∀ (cases : Cases A T E) (continues : Bool), cases.accepted continues = true → cases.values.Nodup → ∀ ctx g,
    Below ctx g → GoodCases W fuel b ctx g (cgCases dml b ctx cases.hasDefault cases g) fun thrown v s => execCases W dml fuel thrown v cases s
  | .nil, _, _, _, _, _, _ => good_nil
  | .when values body rest, continues, h, hnodup, ctx, g, hctx => by
    simp only [Cases.accepted, Bool.and_eq_true] at h
    obtain ⟨-, hnodup, hdisjoint⟩ := List.nodup_append.mp hnodup
    rw [show (Cases.when values body rest).hasDefault = rest.hasDefault from rfl, cgCases]
    by_cases hout : (body.isNil && !rest.hasDefault) = true
    · -- a case that is left out does nothing, and no other case has its values
      rw [if_pos hout]
      simp only [Bool.and_eq_true, Bool.not_eq_true'] at hout
      have heq : (fun thrown v s => execCases W dml fuel thrown v (.when values body rest) s) =
          fun thrown v s => execCases W dml fuel thrown v rest s := by
        funext thrown v s
        rw [execCases]
        split
        · next hv =>
          have hnot : v ∉ rest.values := fun h => hdisjoint v hv v h rfl
          rw [execCases_none rest hnot hout.2]
          cases body with
          | nil => rfl
          | cons => exact nomatch hout.1
        · rfl
      rw [heq]
      exact good_cgCases rest continues h.2 hnodup ctx g hctx
    · rw [if_neg hout]
      have hc := good_cgStmtList body true continues h.1 ctx g hctx
      have hd := good_cgCases rest continues h.2 hnodup ctx _ (hctx.mono hc.grows)
      exact good_when hctx hc hd
  | .otherwise body, continues, h, _, ctx, g, hctx => good_otherwise (good_cgStmtList body true continues h ctx g hctx)

end

end ControlCodeAux

open ControlCodeAux

/-- What is generated for a procedure does what the procedure does, in C and in Lua, whatever was generated before it: it comes to the cleanup in
the same state, or it is cut off in a loop where the procedure is. No jump is left that has no label. -/
theorem run_cgProc {σ A T E : Type} (W : World σ A T E) (dml : Bool) (fuel : Nat) (b : Backend) (catchBlockCount loopCount : Nat)
    (body : Stmts A T E) (h : body.accepted false false = true) (env : Env σ) :
    let r := (cgProc dml b catchBlockCount loopCount body).run (machine W) fuel .next env
    let q := execProc W dml fuel body env.state
    r.2.state = q.2 ∧ (r.1 = .next ∧ q.1 = .next ∨ r.1 = .cutOff ∧ q.1 = .cutOff) := by
  have hgood : Good W fuel b _ _ _ fun thrown => execStmts W dml fuel thrown body :=
    good_cgStmtList body false false h ⟨.cleanup, none, false, 0⟩ ⟨catchBlockCount, loopCount, 0, false, false, false, false⟩ ⟨.inl rfl, nofun⟩
  have hstays : Stays false false (execStmts W dml fuel sqliteOk body env.state).1 := stays_stmts false false body h sqliteOk env.state
  have hused := hgood.used sqliteOk env.state
  have hends := hgood.ends sqliteOk env fun _ => rfl
  dsimp only [cgProc, execProc]
  rw [Prog.run]
  generalize cgStmtList dml b ⟨.cleanup, none, false, 0⟩ body ⟨catchBlockCount, loopCount, 0, false, false, false, false⟩ = c at hused hends
  generalize c.1.run (machine W) fuel .next env = r at hends
  generalize execStmts W dml fuel sqliteOk body env.state = q at hstays hused hends
  obtain ⟨f, s⟩ := q
  obtain ⟨f', env'⟩ := r
  obtain ⟨hafter, hstate, -⟩ := hends
  dsimp only at hafter hstate hstays hused ⊢
  subst hafter hstate
  cases f with
  | next =>
    have hrun : ∀ u : Bool, (Prog.seq (cgClear dml) (if u then .label .cleanup else .skip) : Text A T E).run (machine W) fuel .next env' =
        (.next, { env' with state := W.clear dml env'.state }) := by
      intro u
      rw [Prog.run, run_cgClear]
      cases u <;> rfl
    exact hrun _ ▸ ⟨rfl, .inl ⟨rfl, rfl⟩⟩
  | goto k =>
    have hrun : (Prog.seq (cgClear dml) (.label .cleanup) : Text A T E).run (machine W) fuel (.goto .cleanup) env' = (.next, env') := by
      cases dml <;> rfl
    have hlabel : (c.2.errorTargetUsed || c.2.returnUsed) = true := by
      cases k with
      | throw => simp [hused.errorTarget rfl]
      | «return» => simp [hused.returns rfl]
    have hnext : Next b ⟨.cleanup, none, false, 0⟩ (.goto k) = .goto .cleanup := by cases k <;> rfl
    rw [hlabel, if_pos rfl, hnext, hrun]
    exact ⟨rfl, .inl ⟨rfl, rfl⟩⟩
  | cutOff =>
    have hrun : ∀ d : Text A T E, d.run (machine W) fuel .cutOff env' = (.cutOff, env') := fun d => Prog.run_pass (by simp) (by simp)
    exact hrun _ ▸ ⟨rfl, .inr ⟨rfl, rfl⟩⟩
  | leave => exact absurd (hstays.1 rfl) Bool.false_ne_true
  | «continue» => exact absurd (hstays.2 rfl) Bool.false_ne_true

/-- A number and a code: additions, of which one comes to 3 and fails, and the code added to the number. -/
def counter : World (Int × SqlCode.Code) (Option Int) Int Unit where
  act
    | some n, _, s => (s.1 + n, if s.1 + n = 3 then sqliteError else s.2)
    | none, rc, s => (s.1 + rc, s.2)
  failed _ s := s.1 = 3
  test t s := s.1 < t
  value _ s := s.1
  rc := Prod.snd
  setRc rc s := (s.1, rc)

/-- Count in a TRY, and go on with CONTINUE; in the CATCH add `@rc` and leave. -/
def counting : Stmts (Option Int) Int Unit :=
  .cons (.whileStmt ⟨none, false, false⟩ 5 (.cons (.trycatchStmt (.cons (.act ⟨some 1, false, true⟩) (.cons (.control .continue) .nil))
    (.cons (.act ⟨none, true, false⟩) (.cons (.control .leave) .nil))) .nil)) .nil

theorem run_cgProc_counting : counting.accepted false false = true ∧ execProc counter true 9 counting (0, 0) = (.next, (4, 0)) ∧
      let r := (cgProc true .lua 2 3 counting).run (machine counter) 9 .next ⟨(0, 0), fun _ => 0, 0⟩
      let q := execProc counter true 9 counting (0, 0)
      r.2.state = q.2 ∧ (r.1 = .next ∧ q.1 = .next ∨ r.1 = .cutOff ∧ q.1 = .cutOff) :=
  ⟨rfl, rfl, run_cgProc counter true 9 .lua 2 3 counting rfl ⟨(0, 0), fun _ => 0, 0⟩⟩

end CgSql.ControlCode
