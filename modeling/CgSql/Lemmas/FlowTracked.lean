import CgSql.Lemmas.FlowJump

/-!
# The law of jump contexts

What a flow state remembers of an un-set flag, and when that is enough for the flag to be unset after the jump context it was
un-set in.
-/

namespace CgSql

open DeltaLog

namespace Flow

variable {R : Rules} {s s' t t₁ t' : Flow} {k : Key}

/-- The branch group about to be popped keeps the un-sets made inside it: each flag un-set since the group was pushed is
recorded in the nearest jump context, or is not set now, or was set by the group itself, or has a negative sum over the
histories of the branches. -/
def RecordsUnsets (s : Flow) : Prop :=
  ∀ c ps hs n covers u, s.contexts = c :: ps → c.kind = .branchGroup hs n covers → nearestUnsets ps = some u →
    ∀ k, c.entryUnsets k < s.unsets k → k ∈ u ∨ s.flags k = false ∨ (⟨k, true⟩ : Delta Key) ∈ c.history ∨ net k hs < 0

/-- An un-set of `k` is not lost: the flag is unset, or the current context set it again, or the nearest jump context recorded
the un-set. -/
def Tracked (k : Key) (s : Flow) : Prop :=
  s.flags k = false ∨ ∃ c ps, s.contexts = c :: ps ∧ ((⟨k, true⟩ : Delta Key) ∈ c.history ∨ ∃ u, nearestUnsets s.contexts = some u ∧ k ∈ u)

theorem Tracked.step (h : Tracked k s) (hr : Run R s s') (hs : s.contexts ≠ []) : Tracked k s' := by
  have hf := hr.frame hs
  rcases h with h | ⟨c, ps, hc, h⟩
  · by_cases hk : s'.flags k = true
    · obtain ⟨c, ps, hc, hm⟩ := hr.raised hs h hk
      exact .inr ⟨c, ps, hc, .inl hm⟩
    · exact .inl (by simpa using hk)
  · obtain ⟨c', ps', hc', hsuf, -⟩ := hf.top hc
    refine .inr ⟨c', ps', hc', h.imp (fun hm => hsuf.subset hm) ?_⟩
    rintro ⟨u, hu, hk⟩
    obtain ⟨v, hv⟩ := hf.nearest
    exact ⟨v ++ u, by rw [hv, hu]; rfl, List.mem_append_right _ hk⟩

/-- After local calls an un-set among them is tracked, unless the nearest jump context is out of sight. -/
theorem Local.tracked {h : History} (l : Local s s' h) (hk : s.unsets k < s'.unsets k) : Tracked k s' := by
  by_cases hf : s'.flags k = true
  · obtain ⟨c, ps, -, hc'⟩ := l.contexts
    have hm := newest_mem l.valid ⟨_, (l.counted k).mp hk, rfl⟩
    rw [hf] at hm
    exact .inr ⟨_, _, hc', .inl (List.mem_append_left _ hm)⟩
  · exact .inl (by simpa using hf)

/-- A tracked flag stays tracked when local calls follow. -/
theorem Tracked.local {h : History} (ht : Tracked k s) (l : Local s s' h) : Tracked k s' := by
  rcases ht with hf | ⟨c, ps, hc, ht⟩
  · by_cases hk : s'.flags k = true
    · obtain ⟨c, ps, -, hc'⟩ := l.contexts
      exact .inr ⟨_, _, hc', .inl (List.mem_append_left _ (l.raised hf hk))⟩
    · exact .inl (by simpa using hk)
  · obtain ⟨c', ps', hc', hsuf, -⟩ := l.frame.top hc
    refine .inr ⟨c', ps', hc', ht.imp (fun hm => hsuf.subset hm) ?_⟩
    rintro ⟨u, hu, hk⟩
    obtain ⟨v, hv⟩ := l.frame.nearest
    exact ⟨v ++ u, by rw [hv, hu]; rfl, List.mem_append_right _ hk⟩

/-- A tracked flag that the current context does not have to remember stays tracked when the context is left. -/
theorem Tracked.leave {c p : FlowContext} {ps : List FlowContext} (hc : s.contexts = c :: p :: ps)
    (hj : c.kind.isJump = false) (ht : Tracked k s) : Tracked k s.leave := by
  rcases ht with hf | ⟨d, ds, hd, ht⟩
  · exact .inl (by rwa [leave_flags])
  · obtain ⟨rfl, rfl⟩ := List.cons.inj (hd.symm.trans hc)
    refine .inr ⟨_, _, leave_contexts hc, ht.imp (fun hm => List.mem_append_left _ hm) ?_⟩
    rintro ⟨u, hu, hk⟩
    refine ⟨u, ?_, hk⟩
    rw [hc, nearestUnsets_of_not_jump hj] at hu
    rw [leave_contexts hc, ← hu]
    exact nearestUnsets_sameSite (.refl _) _

theorem Inside.cons {kind : ContextKind} {c : FlowContext} (hi : Inside t kind s c) (ht : t.contexts ≠ []) :
    ∃ p ps, s.contexts = c :: p :: ps := by
  obtain ⟨v, hv⟩ := hi.contexts
  obtain ⟨p, ps, hp⟩ := List.exists_cons_of_ne_nil ht
  obtain ⟨q, qs, hq, -⟩ := recordAll_cons_eq v p ps
  exact ⟨q, qs, by rw [hv, hp, hq]⟩

theorem tracked_popNormal (ht : t.contexts ≠ []) (hr : Run R t.pushNormal t₁)
    (he : t₁.popNormal = .ok t') (hin : t.unsets k < t₁.unsets k → Tracked k t₁) (hk : t.unsets k < t'.unsets k) : Tracked k t' := by
  obtain ⟨c, ps, s₁, items, hc, hkind, hl, -, -, rfl⟩ := popNormal_ok he
  obtain ⟨d, hi, -⟩ := inside_of_frame (hr.frame (List.cons_ne_nil _ _))
  obtain ⟨v, hv⟩ := hi.contexts
  obtain ⟨rfl, -⟩ := List.cons.inj (hc.symm.trans hv)
  obtain ⟨p, qs, hs₁⟩ := (hi.local hl).cons ht
  have hj : c.kind.isJump = false := by rw [hkind]; rfl
  rw [leave_unsets] at hk
  refine Tracked.leave hs₁ hj ?_
  by_cases h₁ : t.unsets k < t₁.unsets k
  · exact (hin h₁).local hl
  · exact hl.tracked (by omega)

theorem tracked_popBranchGroup (ht : t.contexts ≠ []) (hr : Run R t.pushBranchGroup t₁)
    (hu : (nearestUnsets t.contexts).isSome) (hg : RecordsUnsets t₁) (he : t₁.popBranchGroup = .ok t')
    (hk : t.unsets k < t'.unsets k) : Tracked k t' := by
  obtain ⟨c, ps, hs, n, covers, s₁, s₂, i₁, i₂, hc, hkind, hl₁, hd₁, hf₁, hl₂, -, hf₂, rfl⟩ := popBranchGroup_ok he
  obtain ⟨d, hi, -⟩ := inside_of_frame (hr.frame (List.cons_ne_nil _ _))
  obtain ⟨v, hv⟩ := hi.contexts
  obtain ⟨rfl, hps⟩ := List.cons.inj (hc.symm.trans hv)
  have hi₁ := (hi.local hl₁).clearHistory
  have hj : c.kind.isJump = false := by rw [hkind]; rfl
  obtain ⟨p, qs, hs₂⟩ := (hi₁.local hl₂).cons ht
  rw [leave_unsets] at hk
  refine Tracked.leave hs₂ hj ?_
  have hunset : s₁.flags k = false → Tracked k s₂ := fun h => Tracked.local (.inl (by rwa [clearHistory_flags])) hl₂
  by_cases h₂ : s₁.unsets k < s₂.unsets k
  · exact hl₂.tracked (by rwa [clearHistory_unsets])
  by_cases h₁ : t₁.unsets k < s₁.unsets k
  · refine hunset ?_
    rw [hf₁]
    simp [(hd₁ _ ((hl₁.counted k).mp h₁)).2]
  have hnear : (nearestUnsets ps).isSome := by
    rw [hps, nearestUnsets_recordAll]
    simpa using hu
  obtain ⟨u, hu⟩ := Option.isSome_iff_exists.mp hnear
  rcases hg c ps hs n covers u hc hkind hu k (by rw [hi.entryUnsets]; omega) with h | h | h | h
  · have htr : Tracked k s₁.clearHistory := by
      obtain ⟨w, hw⟩ := l_nearest hl₁ hc hj hu
      obtain ⟨x, hx⟩ := hi₁.contexts
      exact .inr ⟨_, _, hx, .inr ⟨w ++ u, hw, List.mem_append_right _ h⟩⟩
    exact htr.local hl₂
  · exact hunset (by rw [hf₁, h, Bool.false_and])
  · exact hunset (by rw [hf₁]; simp [mem_setKeys.mpr h])
  · refine .inl ?_
    have hmem : ∃ d ∈ hs, d.key = k := by
      by_contra hno
      rw [net_eq_zero_of_not_mem fun d hd he => hno ⟨d, hd, he⟩] at h
      exact absurd h (lt_irrefl 0)
    rw [hf₂, if_pos hmem, mergedFlag, if_neg, if_pos h]
    rintro ⟨-, hn⟩
    omega
where
  l_nearest {s₀ s₁ : Flow} {h : History} {c : FlowContext} {ps : List FlowContext} {u : List Key} (l : Local s₀ s₁ h)
      (hc : s₀.contexts = c :: ps) (hj : c.kind.isJump = false) (hu : nearestUnsets ps = some u) :
      ∃ w, nearestUnsets s₁.clearHistory.contexts = some (w ++ u) := by
    obtain ⟨d, qs, hd, hd'⟩ := l.contexts
    obtain ⟨rfl, rfl⟩ := List.cons.inj (hd.symm.trans hc)
    refine ⟨unsetKeysOf h, ?_⟩
    rw [clearHistory_contexts hd', nearestUnsets_of_not_jump (by exact hj), below, if_neg (by simp [hj]), nearestUnsets_recordAll, hu]
    rfl

/-- What was un-set inside a jump context and tracked to its end is unset once the context is popped. -/
theorem popJump_unset (he : t₁.popJump = .ok t')
    (hin : t.unsets k < t₁.unsets k → Tracked k t₁) (hk : t.unsets k < t'.unsets k) : t'.flags k = false := by
  obtain ⟨c, ps, u, s₁, items, hc, hkind, hl, hd, hf, rfl⟩ := popJump_ok he
  rw [leave_flags, hf]
  rw [leave_unsets] at hk
  by_cases h₁ : t.unsets k < t₁.unsets k
  · rcases hin h₁ with h | ⟨d, ds, hd, h | ⟨w, hw, h⟩⟩
    · rw [h]; rfl
    · obtain ⟨rfl, -⟩ := List.cons.inj (hd.symm.trans hc)
      simp [mem_setKeys.mpr h]
    · have : u = w := by
        rw [hc] at hw
        simpa [nearestUnsets, hkind] using hw
      simp [this, h]
  · rcases (hd _ ((hl.counted k).mp (by omega))).2 with h | h <;> simp_all

end Flow

open Flow

variable {R : Rules} {s s' : Flow}

/-- Along a run below a jump context, outside the level of a branch group, no un-set is lost. -/
theorem Run.tracked (hR : ∀ s, R.group s → RecordsUnsets s) (h : Run R s s') (hs : s.contexts ≠ [])
    (hu : (nearestUnsets s.contexts).isSome) (hb : s.inBranchGroup = false) {k : Key} (hk : s.unsets k < s'.unsets k) :
    Tracked k s' := by
  have near : ∀ {s t : Flow}, Run R s t → s.contexts ≠ [] → (nearestUnsets s.contexts).isSome → (nearestUnsets t.contexts).isSome := by
    intro s t hr hs hu
    obtain ⟨u, hu'⟩ := (hr.frame hs).nearest
    rw [hu']
    simpa using hu
  -- a step of the run: what was tracked before it stays so, and what it un-sets is tracked
  have step : ∀ {s t t' : Flow} {k : Key}, Run R t t' → t.contexts ≠ [] → (s.unsets k < t.unsets k → Tracked k t) →
      (t.unsets k < t'.unsets k → Tracked k t') → s.unsets k < t'.unsets k → Tracked k t' := by
    intro s t t' k hr ht hbefore hnow hk
    by_cases h₁ : s.unsets k < t.unsets k
    · exact (hbefore h₁).step hr ht
    · exact hnow (by omega)
  induction h with
  | refl => exact absurd hk (lt_irrefl _)
  | set hr ht he ih =>
    exact step (.set .refl ht he) (hr.frame hs).contexts_ne (ih hs hu hb) (fun h => (setFlag_ok he).2.2.2.tracked h) hk
  | unset hr he ih =>
    exact step (.unset .refl he) (hr.frame hs).contexts_ne (ih hs hu hb) (fun h => (unsetFlag_ok he).2.2.2.tracked h) hk
  | coversAllCases hr he ih =>
    refine step (.coversAllCases .refl he) (hr.frame hs).contexts_ne (ih hs hu hb) (fun h => ?_) hk
    obtain ⟨c, ps, gs, n, was, hc, -, rfl⟩ := setCoversAllCases_ok he
    exact absurd h (lt_irrefl _)
  | emptyBranch hr he ih =>
    refine step (.emptyBranch .refl he) (hr.frame hs).contexts_ne (ih hs hu hb) (fun h => ?_) hk
    obtain ⟨c, ps, gs, n, covers, hc, -, rfl⟩ := addEmptyBranch_ok he
    exact absurd h (lt_irrefl _)
  | alwaysJumps hr he ih =>
    refine step (.alwaysJumps .refl he) (hr.frame hs).contexts_ne (ih hs hu hb) (fun h => ?_) hk
    rcases setAlwaysJumps_ok he with rfl | ⟨c, ps, was, hc, -, rfl⟩ <;> exact absurd h (lt_irrefl _)
  | normal hr hr₂ he ih ihb =>
    have ht := (hr.frame hs).contexts_ne
    refine step (.normal .refl hr₂ he) ht (ih hs hu hb) (tracked_popNormal ht hr₂ he fun h => ?_) hk
    exact ihb (List.cons_ne_nil _ _) (by simpa [pushNormal, pushContext, nearestUnsets] using near hr hs hu) rfl h
  | branchGroup hr hr₂ hg he ih _ =>
    have ht := (hr.frame hs).contexts_ne
    exact step (.branchGroup .refl hr₂ hg he) ht (ih hs hu hb) (tracked_popBranchGroup ht hr₂ (near hr hs hu) (hR _ hg) he) hk
  | branch hr hp hr₂ he ih _ =>
    -- a branch is pushed on a branch group only
    obtain ⟨c, ps, gs, n, covers, ht, hg, -⟩ := pushBranch_ok hp
    have htop := (hr.frame hs).inBranchGroup
    rw [hb, Flow.inBranchGroup, ht] at htop
    simp [hg, ContextKind.isBranchGroup] at htop
  | jump hr hr₂ he ih ihb =>
    refine step (.jump .refl hr₂ he) (hr.frame hs).contexts_ne (ih hs hu hb) (fun h => .inl ?_) hk
    exact popJump_unset he (ihb (List.cons_ne_nil _ _) rfl rfl) h

/-- In runs whose branch groups keep their un-sets, what was un-set inside a jump context is unset after it. -/
theorem Run.popJump_unset {t t₁ t' : Flow} (hR : ∀ s, R.group s → RecordsUnsets s) (h : Run R t.pushJump t₁)
    (he : t₁.popJump = .ok t') {k : Key} (hk : t.unsets k < t'.unsets k) : t'.flags k = false :=
  Flow.popJump_unset he (h.tracked hR (List.cons_ne_nil _ _) rfl rfl) hk

end CgSql
