import CgSql.Lemmas.FlowFrame

/-!
# Un-sets and jump contexts

A flag that rises in a context leaves a set in the context's history, so popping a jump or normal context never leaves a flag
set that was unset when the context was pushed. From this and what branch groups keep of the un-sets inside them follows the
law of jump contexts: what was un-set inside one is unset after it.
-/

namespace CgSql

open DeltaLog

namespace Flow

variable {c : FlowContext} {s s' : Flow} {h : History} {k : Key} {f : Flags}

variable {t₁ : Flow} {k : Key}

/-! ## The top of the stack along a frame -/

/-- The un-sets recorded by the nearest jump context, if there is one. -/
def nearestUnsets : List FlowContext → Option (List Key)
  | [] => none
  | c :: ps =>
    match c.kind with
    | .jump u => some u
    | _ => nearestUnsets ps

theorem nearestUnsets_of_not_jump (hc : c.kind.isJump = false) (ps : List FlowContext) : nearestUnsets (c :: ps) = nearestUnsets ps := by
  cases hk : c.kind <;> simp_all [nearestUnsets, ContextKind.isJump]

theorem nearestUnsets_recordAll (u : List Key) (cs : List FlowContext) : nearestUnsets (recordAll u cs) = (nearestUnsets cs).map (u ++ ·) := by
  induction cs with
  | nil => rfl
  | cons c ps ih =>
    cases hk : c.kind with
    | jump v => rw [recordAll_cons_of_jump hk]; simp [nearestUnsets, hk]
    | _ =>
      have hj : c.kind.isJump = false := by rw [hk]; rfl
      rw [recordAll_cons_of_not_jump hj, nearestUnsets_of_not_jump hj, nearestUnsets_of_not_jump hj, ih]

theorem nearestUnsets_sameSite {c' : FlowContext} (hs : c.kind.Same c'.kind) (ps : List FlowContext) :
    nearestUnsets (c' :: ps) = nearestUnsets (c :: ps) := by
  cases hk : c.kind <;> cases hk' : c'.kind <;> simp_all [nearestUnsets, ContextKind.Same]

theorem Frame.nearest (h : Frame s s') : ∃ u, nearestUnsets s'.contexts = (nearestUnsets s.contexts).map (u ++ ·) := by
  obtain ⟨u, c, ps, c', hr, hc', hs⟩ := h
  exact ⟨u, by rw [hc', nearestUnsets_sameSite hs.kind, ← hr, nearestUnsets_recordAll]⟩

/-- The current context along a frame. -/
theorem Frame.top (h : Frame s s') {ps : List FlowContext} (hc : s.contexts = c :: ps) :
    ∃ c' ps', s'.contexts = c' :: ps' ∧ c.history <:+ c'.history ∧ c'.entry = c.entry ∧ c'.entryUnsets = c.entryUnsets ∧
      (c.kind.isJump = false → c.kind.Same c'.kind) := by
  obtain ⟨u, d, qs, c', hr, hc', hs⟩ := h
  obtain ⟨d', qs', hr', hh, he, hu, -, hk, -⟩ := recordAll_cons_eq u c ps
  rw [hc, hr'] at hr
  obtain ⟨rfl, rfl⟩ := List.cons.inj hr
  exact ⟨c', _, hc', hh ▸ hs.history, hs.entry.trans he, hs.entryUnsets.trans hu, fun hj => hk hj ▸ hs.kind⟩

/-! ## Un-set counts -/

/-- A flag that is set after local calls and was not before leaves a set among them. -/
theorem Local.raised (l : Local s s' h) (hk : s.flags k = false) (hk' : s'.flags k = true) : (⟨k, true⟩ : Delta Key) ∈ h := by
  rw [← l.rewind, rewind_apply] at hk
  cases hf : first k h with
  | none => simp [hf, hk'] at hk
  | some b =>
    have hb : b = true := by simpa [hf] using hk
    exact hb ▸ mem_of_first hf

/-! ## Flags that rise -/

/-- Every flag unset when the context was pushed is still unset, or the oldest item of the context's history for it is a
set. -/
def Rises (f : Flags) (c : FlowContext) : Prop :=
  ∀ k, c.entry k = false → first k c.history = some true ∨ (first k c.history = none ∧ f k = false)

/-- `Rises` for the current context. -/
def RiseTop (s : Flow) : Prop := ∀ c ps, s.contexts = c :: ps → Rises s.flags c

theorem riseTop_pushContext (kind : ContextKind) (s : Flow) : RiseTop (s.pushContext kind) := by
  intro c ps hc
  obtain ⟨rfl, rfl⟩ := List.cons.inj hc
  exact fun k hk => .inr ⟨rfl, hk⟩

theorem riseTop_pushBranch (h : s.pushBranch = .ok s') : RiseTop s' := by
  obtain ⟨g, ps, hs, n, covers, -, -, rfl⟩ := pushBranch_ok h
  exact riseTop_pushContext _ _

/-- Rewinding the history of a rising context sets no flag that was unset at its entry. -/
theorem Rises.rewind (hc : Rises f c) (hk : c.entry k = false) : rewind f c.history k = false := by
  rw [rewind_apply]
  rcases hc k hk with h | ⟨h, h'⟩
  · rw [h]; rfl
  · rw [h]; exact h'

/-- After `items` were made on top of flags `g`, a rising context still rises. -/
theorem Rises.append {g : Flags} {items : History} (hc : Rises g c)
    (hi : ∀ k, g k = false → first k items = some true ∨ (first k items = none ∧ f k = false)) :
    Rises f { c with history := items ++ c.history } := by
  intro k hk
  rw [first_append]
  rcases hc k hk with hf | ⟨hf, hg⟩
  · exact .inl (by rw [hf]; rfl)
  · rw [hf, Option.none_or]
    exact hi k hg

theorem Local.first_items (l : Local s s' h) (hk : s.flags k = false) : first k h = some true ∨ (first k h = none ∧ s'.flags k = false) := by
  rw [← l.rewind, rewind_apply] at hk
  cases hf : first k h with
  | none => exact .inr ⟨rfl, by simpa [hf] using hk⟩
  | some b =>
    have hb : b = true := by simpa [hf] using hk
    exact .inl (by rw [hb])

theorem Local.riseTop (l : Local s s' h) (hr : RiseTop s) : RiseTop s' := by
  obtain ⟨c, ps, hc, hc'⟩ := l.contexts
  intro d qs hd
  obtain ⟨rfl, -⟩ := List.cons.inj (hd.symm.trans hc')
  exact (hr c ps hc).append fun k hk => l.first_items hk

/-- Leaving a rising context, the context it was pushed on rises. -/
theorem Inside.riseTop_leave {t : Flow} {kind : ContextKind} (hi : Inside t kind s c)
    (hc : Rises s.flags c) (ht : t.contexts ≠ []) (hr : RiseTop t) : RiseTop s.leave := by
  obtain ⟨v, hv⟩ := hi.contexts
  obtain ⟨p, ps, hp⟩ := List.exists_cons_of_ne_nil ht
  obtain ⟨q, qs, hq, hh, he, -⟩ := recordAll_cons_eq v p ps
  rw [hp, hq] at hv
  intro d ds hd
  rw [leave_contexts hv] at hd
  obtain ⟨rfl, -⟩ := List.cons.inj hd
  have hp' : Rises t.flags q := fun k hk => by
    rw [hh]
    exact hr p ps hp k (he ▸ hk)
  rw [leave_flags]
  exact hp'.append fun k hk => hc k (hi.entry ▸ hk)

/-- A context that rises has no flag above its entry once what its history set is un-set. -/
theorem Rises.le_entry {g : Flags} (hc : Rises f c)
    (hf : g k = true → f k = true ∧ k ∉ setKeys c.history) (hk : g k = true) : c.entry k = true := by
  by_contra he
  obtain ⟨hfk, hks⟩ := hf hk
  rcases hc k (by simpa using he) with h | ⟨-, h⟩
  · exact hks (mem_setKeys.mpr (mem_of_first h))
  · rw [hfk] at h
    cases h

end Flow

open Flow

variable {R : Rules} {s s' : Flow}

/-- Along a run, a rising context keeps rising. -/
theorem Run.riseTop (h : Run R s s') (hs : s.contexts ≠ []) (hr : RiseTop s) : RiseTop s' := by
  induction h with
  | refl => exact hr
  | set _ _ he ih => exact (setFlag_ok he).2.2.2.riseTop (ih hs hr)
  | unset _ he ih => exact (unsetFlag_ok he).2.2.2.riseTop (ih hs hr)
  | coversAllCases _ he ih =>
    obtain ⟨c, ps, gs, n, was, hc, hk, rfl⟩ := setCoversAllCases_ok he
    intro d ds hd
    obtain ⟨rfl, -⟩ := List.cons.inj hd
    exact ih hs hr c ps hc
  | emptyBranch _ he ih =>
    obtain ⟨c, ps, gs, n, covers, hc, hk, rfl⟩ := addEmptyBranch_ok he
    intro d ds hd
    obtain ⟨rfl, -⟩ := List.cons.inj hd
    exact ih hs hr c ps hc
  | alwaysJumps _ he ih =>
    rcases setAlwaysJumps_ok he with rfl | ⟨c, ps, was, hc, hk, rfl⟩
    · exact ih hs hr
    · intro d ds hd
      obtain ⟨rfl, -⟩ := List.cons.inj hd
      exact ih hs hr c ps hc
  | normal hr₁ hr₂ he ih ihb =>
    obtain ⟨c, ps, s₁, items, hc, -, hl, -, -, rfl⟩ := popNormal_ok he
    obtain ⟨d, hi, -⟩ := inside_of_frame (hr₂.frame (List.cons_ne_nil _ _))
    have hi' := hi.local hl
    obtain ⟨v, hv⟩ := hi'.contexts
    have hrise := hl.riseTop (ihb (List.cons_ne_nil _ _) (riseTop_pushContext _ _)) _ _ hv
    exact hi'.riseTop_leave hrise (hr₁.frame hs).contexts_ne (ih hs hr)
  | branchGroup hr₁ hr₂ _ he ih ihb =>
    obtain ⟨c, ps, gs, n, covers, s₁, s₂, i₁, i₂, hc, -, hl₁, -, hf₁, hl₂, -, -, rfl⟩ := popBranchGroup_ok he
    obtain ⟨d, hi, -⟩ := inside_of_frame (hr₂.frame (List.cons_ne_nil _ _))
    obtain ⟨v, hv⟩ := hi.contexts
    obtain ⟨rfl, -⟩ := List.cons.inj (hc.symm.trans hv)
    have hi₁ := (hi.local hl₁).clearHistory
    have hrise := ihb (List.cons_ne_nil _ _) (riseTop_pushContext _ _) _ _ hc
    have htop : RiseTop s₁.clearHistory := by
      obtain ⟨w, hw⟩ := hi₁.contexts
      intro e es hes
      obtain ⟨rfl, -⟩ := List.cons.inj (hes.symm.trans hw)
      refine fun k hk => .inr ⟨rfl, ?_⟩
      rw [clearHistory_flags]
      by_contra hk'
      exact absurd (hrise.le_entry (g := s₁.flags) (by simp [hf₁]) (by simpa using hk')) (by simpa using hk)
    have hi₂ := hi₁.local hl₂
    obtain ⟨w, hw⟩ := hi₂.contexts
    exact hi₂.riseTop_leave (hl₂.riseTop htop _ _ hw) (hr₁.frame hs).contexts_ne (ih hs hr)
  | branch hr₁ hp hr₂ he ih ihb =>
    obtain ⟨g, ps, gs, n, covers, c, jumps, v, b⟩ := branch_block hp (hr₂.frame (pushBranch_ne hp)) he
    have hrise := ihb (pushBranch_ne hp) (riseTop_pushBranch hp) _ _ b.inside
    intro e es hes
    obtain ⟨rfl, -⟩ := List.cons.inj (hes.symm.trans b.after)
    refine fun k hk => (ih hs hr g ps b.group k hk).imp id fun ⟨hf, hk⟩ => ⟨hf, ?_⟩
    rw [b.flags]
    exact hrise.rewind (b.entry ▸ hk)
  | jump hr₁ hr₂ he ih ihb =>
    obtain ⟨c, ps, u, s₁, items, hc, -, hl, -, -, rfl⟩ := popJump_ok he
    obtain ⟨d, hi, -⟩ := inside_of_frame (hr₂.frame (List.cons_ne_nil _ _))
    have hi' := hi.local hl
    obtain ⟨v, hv⟩ := hi'.contexts
    have hrise := hl.riseTop (ihb (List.cons_ne_nil _ _) (riseTop_pushContext _ _)) _ _ hv
    exact hi'.riseTop_leave hrise (hr₁.frame hs).contexts_ne (ih hs hr)

/-- In a context pushed and run, the flags of the history's sets are the only ones above the entry. -/
theorem Run.rises_inside {kind : ContextKind} {t : Flow} (h : Run R (t.pushContext kind) t₁) {c : FlowContext}
    {ps : List FlowContext} (hc : t₁.contexts = c :: ps) : Rises t₁.flags c ∧ c.entry = t.flags ∧ c.entryUnsets = t.unsets := by
  have hne : (t.pushContext kind).contexts ≠ [] := List.cons_ne_nil _ _
  obtain ⟨d, hi, -⟩ := inside_of_frame (h.frame hne)
  obtain ⟨v, hv⟩ := hi.contexts
  obtain ⟨rfl, -⟩ := List.cons.inj (hc.symm.trans hv)
  exact ⟨h.riseTop hne (riseTop_pushContext _ _) _ _ hc, hi.entry, hi.entryUnsets⟩

/-- No flag is set after a normal context that was not set before it. -/
theorem popNormal_le {t t' : Flow} (h : Run R t.pushNormal t₁) (he : t₁.popNormal = .ok t')
    (hk : t'.flags k = true) : t.flags k = true ∧ t₁.flags k = true := by
  obtain ⟨c, ps, s₁, items, hc, -, -, -, hf, rfl⟩ := popNormal_ok he
  obtain ⟨hr, hentry, -⟩ := h.rises_inside hc
  rw [leave_flags] at hk
  refine ⟨hentry ▸ hr.le_entry (g := s₁.flags) (by simp [hf]) hk, ?_⟩
  rw [hf] at hk
  simp_all

/-- No flag is set after a jump context that was not set before it. -/
theorem popJump_le {t t' : Flow} (h : Run R t.pushJump t₁) (he : t₁.popJump = .ok t')
    (hk : t'.flags k = true) : t.flags k = true ∧ t₁.flags k = true := by
  obtain ⟨c, ps, u, s₁, items, hc, -, -, -, hf, rfl⟩ := popJump_ok he
  obtain ⟨hr, hentry, -⟩ := h.rises_inside hc
  rw [leave_flags] at hk
  refine ⟨hentry ▸ hr.le_entry (g := s₁.flags) (fun hk => ?_) hk, ?_⟩
  all_goals
    rw [hf] at hk
    simp_all

/-- A flag that is set after a run and was not before leaves a set in the history of the current context. -/
theorem Run.raised (h : Run R s s') (hs : s.contexts ≠ []) (hk : s.flags k = false) (hk' : s'.flags k = true) :
    ∃ c ps, s'.contexts = c :: ps ∧ (⟨k, true⟩ : Delta Key) ∈ c.history := by
  have keep : ∀ {t t' : Flow}, Frame t t' → (∃ c ps, t.contexts = c :: ps ∧ (⟨k, true⟩ : Delta Key) ∈ c.history) →
      ∃ c ps, t'.contexts = c :: ps ∧ (⟨k, true⟩ : Delta Key) ∈ c.history := by
    rintro t t' hf ⟨c, ps, hc, hm⟩
    obtain ⟨c', ps', hc', hsuf, -⟩ := hf.top hc
    exact ⟨c', ps', hc', hsuf.subset hm⟩
  have here : ∀ {t t' : Flow} {items : History}, Local t t' items → t.flags k = false → t'.flags k = true →
      ∃ c ps, t'.contexts = c :: ps ∧ (⟨k, true⟩ : Delta Key) ∈ c.history := by
    intro t t' items hl ht ht'
    obtain ⟨c, ps, -, hc'⟩ := hl.contexts
    exact ⟨_, _, hc', List.mem_append_left _ (hl.raised ht ht')⟩
  induction h with
  | refl =>
    rw [hk] at hk'
    cases hk'
  | @set _ t t' k' hr _ he ih =>
    by_cases ht : t.flags k = true
    · exact keep (setFlag_ok he).2.2.2.frame (ih hs hk ht)
    · exact here (setFlag_ok he).2.2.2 (by simpa using ht) hk'
  | @unset _ t t' k' hr he ih =>
    by_cases ht : t.flags k = true
    · exact keep (unsetFlag_ok he).2.2.2.frame (ih hs hk ht)
    · exact here (unsetFlag_ok he).2.2.2 (by simpa using ht) hk'
  | coversAllCases hr he ih =>
    have hf := (Run.coversAllCases (R := R) .refl he).frame (hr.frame hs).contexts_ne
    obtain ⟨c, ps, gs, n, was, hc, -, rfl⟩ := setCoversAllCases_ok he
    exact keep hf (ih hs hk hk')
  | emptyBranch hr he ih =>
    have hf := (Run.emptyBranch (R := R) .refl he).frame (hr.frame hs).contexts_ne
    obtain ⟨c, ps, gs, n, covers, hc, -, rfl⟩ := addEmptyBranch_ok he
    exact keep hf (ih hs hk hk')
  | alwaysJumps hr he ih =>
    have hf := (Run.alwaysJumps (R := R) .refl he).frame (hr.frame hs).contexts_ne
    refine keep hf (ih hs hk ?_)
    rcases setAlwaysJumps_ok he with rfl | ⟨c, ps, was, hc, -, rfl⟩ <;> exact hk'
  | normal hr hr₂ he ih _ =>
    exact keep (frame_popNormal (hr.frame hs).contexts_ne (hr₂.frame (List.cons_ne_nil _ _)) he) (ih hs hk (popNormal_le hr₂ he hk').1)
  | @branchGroup _ t t₁ t' hr hr₂ hg he ih _ =>
    have hf := frame_popBranchGroup (hr.frame hs).contexts_ne (hr₂.frame (List.cons_ne_nil _ _)) he
    by_cases ht : t.flags k = true
    · exact keep hf (ih hs hk ht)
    · obtain ⟨c, ps, gs, n, covers, s₁, s₂, i₁, i₂, hc, -, hl₁, -, hf₁, hl₂, -, -, rfl⟩ := popBranchGroup_ok he
      obtain ⟨hrise, hentry, -⟩ := hr₂.rises_inside hc
      have hk₁ : s₁.clearHistory.flags k = false := by
        by_contra hk₁
        rw [clearHistory_flags] at hk₁
        have := hrise.le_entry (g := s₁.flags) (by simp [hf₁]) (by simpa using hk₁)
        exact ht (hentry ▸ this)
      rw [leave_flags] at hk'
      obtain ⟨e, es, -, he'⟩ := hl₂.contexts
      obtain ⟨d, hi, -⟩ := inside_of_frame (hr₂.frame (List.cons_ne_nil _ _))
      have hi₂ := (hi.local hl₁).clearHistory.local hl₂
      obtain ⟨v, hv⟩ := hi₂.contexts
      obtain ⟨p, qs, hp⟩ := List.exists_cons_of_ne_nil (hr.frame hs).contexts_ne
      obtain ⟨q, rs, hq, -⟩ := recordAll_cons_eq v p qs
      rw [hp, hq] at hv
      exact ⟨_, _, leave_contexts hv, List.mem_append_left _ (List.mem_append_left _ (hl₂.raised hk₁ hk'))⟩
  | branch hr hp hr₂ he ih _ =>
    have hne := pushBranch_ne hp
    obtain ⟨g, ps, gs, n, covers, c, jumps, v, b⟩ := branch_block hp (hr₂.frame hne) he
    refine keep b.frame (ih hs hk ?_)
    by_contra hk₀
    rw [b.flags, (hr₂.riseTop hne (riseTop_pushBranch hp) _ _ b.inside).rewind (by rw [b.entry]; simpa using hk₀)] at hk'
    cases hk'
  | jump hr hr₂ he ih _ =>
    exact keep (frame_popJump (hr.frame hs).contexts_ne (hr₂.frame (List.cons_ne_nil _ _)) he) (ih hs hk (popJump_le hr₂ he hk').1)

end CgSql
