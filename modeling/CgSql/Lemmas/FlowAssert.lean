import CgSql.Lemmas.FlowValid

/-!
# The assertions of flow analysis

Where a run of flow calls can meet a failing assertion, and what keeps it from doing so. `Fails` is the run up to and including
the call that fails, at any depth of contexts.
-/

namespace CgSql

open DeltaLog Flow

variable {t : Flow}

/-- `Fails R a s`: from `s`, a run of flow calls held to the rules reaches a call that fails assertion `a`. -/
inductive Fails (R : Rules) (a : FlowAssertion) : Flow → Prop
  | set {s t : Flow} {k : Key} : Run R s t → R.typed k → t.flags k = false → t.setFlag k = .error a → Fails R a s
  | unset {s t : Flow} {k : Key} : Run R s t → t.flags k = true → t.unsetFlag k = .error a → Fails R a s
  | alwaysJumps {s t : Flow} {jumps : Bool} : Run R s t → t.setAlwaysJumps jumps = .error a → Fails R a s
  | inNormal {s t : Flow} : Run R s t → Fails R a t.pushNormal → Fails R a s
  | popNormal {s t t₁ : Flow} : Run R s t → Run R t.pushNormal t₁ → t₁.popNormal = .error a → Fails R a s
  | inBranchGroup {s t : Flow} : Run R s t → Fails R a t.pushBranchGroup → Fails R a s
  | popBranchGroup {s t t₁ : Flow} :
      Run R s t → Run R t.pushBranchGroup t₁ → R.group t₁ → t₁.popBranchGroup = .error a → Fails R a s
  | inBranch {s t t₀ : Flow} : Run R s t → t.pushBranch = .ok t₀ → Fails R a t₀ → Fails R a s
  | popBranch {s t t₀ t₁ : Flow} :
      Run R s t → t.pushBranch = .ok t₀ → Run R t₀ t₁ → t₁.popBranch = .error a → Fails R a s
  | inJump {s t : Flow} : Run R s t → Fails R a t.pushJump → Fails R a s
  | popJump {s t t₁ : Flow} : Run R s t → Run R t.pushJump t₁ → t₁.popJump = .error a → Fails R a s

/-- What fails after a run fails from its start. -/
theorem Fails.of_run {R : Rules} {a : FlowAssertion} {s : Flow} (h : Run R s t) (hf : Fails R a t) : Fails R a s := by
  cases hf with
  | set hr ht hk he => exact .set (h.trans hr) ht hk he
  | unset hr hk he => exact .unset (h.trans hr) hk he
  | alwaysJumps hr he => exact .alwaysJumps (h.trans hr) he
  | inNormal hr hf => exact .inNormal (h.trans hr) hf
  | popNormal hr hr₂ he => exact .popNormal (h.trans hr) hr₂ he
  | inBranchGroup hr hf => exact .inBranchGroup (h.trans hr) hf
  | popBranchGroup hr hr₂ hg he => exact .popBranchGroup (h.trans hr) hr₂ hg he
  | inBranch hr hp hf => exact .inBranch (h.trans hr) hp hf
  | popBranch hr hp hr₂ he => exact .popBranch (h.trans hr) hp hr₂ he
  | inJump hr hf => exact .inJump (h.trans hr) hf
  | popJump hr hr₂ he => exact .popJump (h.trans hr) hr₂ he

namespace Flow

variable {s : Flow}

/-- The branch group about to be popped does not count improvements of branches that jump: no flag is carried by more jumping
branches than it is missed by others, and if every branch jumps none was entered with a history. -/
def MergeBound (s : Flow) : Prop :=
  ∀ c ps hs n covers, s.contexts = c :: ps → c.kind = .branchGroup hs n covers →
    (∀ d ∈ hs, c.entry d.key = false → jumped c d.key ≤ missed c d.key) ∧ (n = 0 → hs = [])

/-- Every flag that is set, and every flag a history names, is one the type word can have. -/
def Typed (T : Key → Prop) (s : Flow) : Prop :=
  (∀ k, s.flags k = true → T k) ∧
    ∀ c ∈ s.contexts, (∀ d ∈ c.history, T d.key) ∧ ∀ hs n covers, c.kind = .branchGroup hs n covers → ∀ d ∈ hs, T d.key

variable {T : Key → Prop}

/-! ## Typed histories -/

theorem mem_recordAll {u : List Key} {cs : List FlowContext} {d : FlowContext} (h : d ∈ recordAll u cs) :
    ∃ c ∈ cs, d.history = c.history ∧ (d = c ∨ d.kind.isJump = true) := by
  induction cs with
  | nil => cases h
  | cons c ps ih =>
    cases hk : c.kind with
    | jump v =>
      rw [recordAll_cons_of_jump hk] at h
      rcases List.mem_cons.mp h with rfl | h
      · exact ⟨c, List.mem_cons_self, rfl, .inr rfl⟩
      · exact ⟨d, List.mem_cons_of_mem _ h, rfl, .inl rfl⟩
    | _ =>
      rw [recordAll_cons_of_not_jump (by rw [hk]; rfl)] at h
      rcases List.mem_cons.mp h with rfl | h
      · exact ⟨d, List.mem_cons_self, rfl, .inl rfl⟩
      · obtain ⟨c', hc', hh⟩ := ih h
        exact ⟨c', List.mem_cons_of_mem _ hc', hh⟩

/-- The typing of one context. -/
def TypedContext (T : Key → Prop) (c : FlowContext) : Prop :=
  (∀ d ∈ c.history, T d.key) ∧ ∀ hs n covers, c.kind = .branchGroup hs n covers → ∀ d ∈ hs, T d.key

theorem typed_recordAll {u : List Key} {cs : List FlowContext} (h : ∀ c ∈ cs, TypedContext T c) : ∀ c ∈ recordAll u cs, TypedContext T c := by
  intro d hd
  obtain ⟨c, hc, hh, rfl | hj⟩ := mem_recordAll hd
  · exact h d hc
  · refine ⟨hh ▸ (h c hc).1, fun hs n covers hk => ?_⟩
    rw [hk] at hj
    cases hj

/-- The items of local calls name flags that are set before or after them. -/
theorem Local.typed {s' : Flow} {h : History} (l : Local s s' h) (ht : Typed T s) (hT : ∀ d ∈ h, T d.key) : Typed T s' := by
  obtain ⟨c, ps, hc, hc'⟩ := l.contexts
  refine ⟨fun k hk => ?_, fun d hd => ?_⟩
  · by_cases hs : s.flags k = true
    · exact ht.1 k hs
    · exact hT _ (l.raised (by simpa using hs) hk)
  · have hall : ∀ d ∈ c :: ps, TypedContext T d := fun d hd => ht.2 d (hc ▸ hd)
    rw [hc'] at hd
    rcases List.mem_cons.mp hd with rfl | hd
    · obtain ⟨hh, hk⟩ := hall c List.mem_cons_self
      refine ⟨fun e he => ?_, hk⟩
      rcases List.mem_append.mp he with he | he
      · exact hT e he
      · exact hh e he
    · have hps : ∀ d ∈ ps, TypedContext T d := fun d hd => hall d (List.mem_cons_of_mem _ hd)
      unfold below at hd
      split at hd
      · exact hps d hd
      · exact typed_recordAll hps d hd

theorem typed_pushContext {kind : ContextKind} (hk : ∀ hs n covers, kind = .branchGroup hs n covers → hs = [])
    (ht : Typed T s) : Typed T (s.pushContext kind) := by
  refine ⟨ht.1, fun d hd => ?_⟩
  rcases List.mem_cons.mp hd with rfl | hd
  · exact ⟨by simp, fun hs n covers h => by rw [hk hs n covers h]; simp⟩
  · exact ht.2 d hd

theorem typed_leave (ht : Typed T s) : Typed T s.leave := by
  refine ⟨fun k hk => ht.1 k (by rwa [leave_flags] at hk), fun d hd => ?_⟩
  unfold leave at hd
  split at hd
  · next c p ps hc =>
    rw [Typed, hc] at ht
    rcases List.mem_cons.mp hd with rfl | hd
    · refine ⟨fun e he => ?_, (ht.2 p (by simp)).2⟩
      rcases List.mem_append.mp he with he | he
      · exact (ht.2 c (by simp)).1 e he
      · exact (ht.2 p (by simp)).1 e he
    · exact ht.2 d (by simp [hd])
  · cases hd

theorem typed_clearHistory (ht : Typed T s) : Typed T s.clearHistory := by
  refine ⟨fun k hk => ht.1 k (by rwa [clearHistory_flags] at hk), fun d hd => ?_⟩
  unfold clearHistory at hd
  split at hd
  · next c ps hc =>
    rw [Typed, hc] at ht
    rcases List.mem_cons.mp hd with rfl | hd
    · exact ⟨by simp, (ht.2 c (by simp)).2⟩
    · exact ht.2 d (by simp [hd])
  · exact ht.2 d hd

/-- Replacing the members of the current context's kind keeps the typing when they are typed. -/
theorem typed_head {c c' : FlowContext} {ps : List FlowContext} (hc : s.contexts = c :: ps)
    (hh : c'.history = c.history) (hk : ∀ hs n covers, c'.kind = .branchGroup hs n covers → ∀ d ∈ hs, T d.key)
    (ht : Typed T s) : Typed T { s with contexts := c' :: ps } := by
  rw [Typed, hc] at ht
  refine ⟨ht.1, fun d hd => ?_⟩
  rcases List.mem_cons.mp hd with rfl | hd
  · exact ⟨hh ▸ (ht.2 c (by simp)).1, hk⟩
  · exact ht.2 d (by simp [hd])

theorem typed_pushBranch {s' : Flow} (h : s.pushBranch = .ok s') (ht : Typed T s) : Typed T s' := by
  obtain ⟨g, ps, hs, n, covers, hc, hk, rfl⟩ := pushBranch_ok h
  refine typed_pushContext (by simp) (typed_head hc rfl (fun hs' n' covers' h d hd => ?_) ht)
  cases h
  rw [Typed, hc] at ht
  rcases List.mem_append.mp hd with hd | hd
  · exact (ht.2 g (by simp)).1 d hd
  · exact (ht.2 g (by simp)).2 _ _ _ hk d hd

/-- A history of typed flags on a valid stack passes the check of every move to a parent. -/
theorem checkDeltaSums_total (hT : ∀ k k', T k → T k' → k.1 = k'.1 → k.2 = k'.2) {f : Flags} {h : History} (hv : Valid f h)
    (ht : ∀ d ∈ h, T d.key) : checkDeltaSums h = .ok () := by
  unfold checkDeltaSums
  cases hs : deltaSumsOfHistory h with
  | error a =>
    unfold deltaSumsOfHistory at hs
    split at hs
    · cases hs
    · next hno => exact absurd (fun a ha b hb he => hT _ _ (ht a ha) (ht b hb) he) hno
  | ok sums =>
    obtain ⟨-, hmem⟩ := deltaSumsOfHistory_ok hs
    simp only
    rw [if_pos]
    intro p hp
    obtain ⟨-, hn⟩ := (hmem p.1 p.2).mp hp
    rw [hn]
    exact net_mem_of_valid hv _

theorem moveHistoryToParent_total (hT : ∀ k k', T k → T k' → k.1 = k'.1 → k.2 = k'.2) (hs : s.contexts ≠ [])
    (hv : ValidStack s) (ht : Typed T s) : ∃ s', s.moveHistoryToParent = .ok s' := by
  unfold moveHistoryToParent
  split
  · next hc => exact absurd hc hs
  · next c hc =>
    rw [ValidStack, hc] at hv
    rw [Typed, hc] at ht
    rw [checkDeltaSums_total hT hv.1 (ht.2 c (by simp)).1]
    exact ⟨_, rfl⟩
  · next c p ps hc =>
    have hv' := validStack_leave hv
    have ht' := typed_leave ht
    rw [ValidStack, leave_contexts hc] at hv'
    rw [Typed, leave_contexts hc] at ht'
    rw [checkDeltaSums_total hT hv'.1 (ht'.2 _ List.mem_cons_self).1]
    exact ⟨_, rfl⟩

/-! ## Merging does not fail -/

/-- With the flag set at the entry of the group and of its jumping branches, its sum is between minus the count and zero. -/
theorem sum_contribution_of_set {e : Flags} {k : Key} (he : e k = true) (bs : List BranchEnd)
    (hb : ∀ b ∈ bs, b.exit = .jumps → b.entry k = true) :
    -(bs.countP isCounted : Int) ≤ (bs.map (contribution e k)).sum ∧ (bs.map (contribution e k)).sum ≤ 0 := by
  induction bs with
  | nil => simp
  | cons b bs ih =>
    obtain ⟨h₁, h₂⟩ := ih fun b' hb' => hb b' (List.mem_cons_of_mem _ hb')
    have hb := hb b List.mem_cons_self
    rw [List.map_cons, List.sum_cons, List.countP_cons]
    obtain ⟨x, entry, stop⟩ := b
    cases x <;> cases hs : stop k <;> simp_all [contribution, isCounted] <;> omega

theorem sum_contribution_nonneg {e : Flags} {k : Key} (he : e k = false) (bs : List BranchEnd) : 0 ≤ (bs.map (contribution e k)).sum := by
  induction bs with
  | nil => simp
  | cons b bs ih =>
    rw [List.map_cons, List.sum_cons]
    obtain ⟨x, entry, stop⟩ := b
    cases x <;> cases hs : stop k <;> cases hen : entry k <;> simp [contribution, he, hs, hen] <;> omega

theorem mergeAll_total {n : Nat} {covers : Bool} {sums : List (Key × Int)} (hs : s.contexts ≠ []) (hn : (sums.map Prod.fst).Nodup)
    (hsum : ∀ k sum, (k, sum) ∈ sums → n ≠ 0 ∧ (0 < sum → s.flags k = false) ∧ (sum < 0 → s.flags k = true) ∧
      sum.natAbs ≤ n) : ∃ s', mergeAll n covers sums s = .ok s' := by
  induction sums generalizing s with
  | nil => exact ⟨s, rfl⟩
  | cons p sums ih =>
    obtain ⟨k, sum⟩ := p
    obtain ⟨hn₀, hpos, hneg, habs⟩ := hsum k sum List.mem_cons_self
    obtain ⟨hk, hn⟩ := List.nodup_cons.mp hn
    have hok : ∃ s₁, s.mergeEffects n covers k sum = .ok s₁ := by
      rw [mergeEffects, if_neg hn₀, if_neg (by rintro ⟨h, h'⟩; simp [hpos h] at h'),
        if_neg (by rintro ⟨h, h'⟩; simp [hneg h] at h'), if_neg (by omega)]
      split
      · next hset => exact setFlag_of_unset hs (hpos (by omega))
      · split
        · next hlt => exact unsetFlag_of_set hs (hneg hlt)
        · exact ⟨s, rfl⟩
    obtain ⟨s₁, h₁⟩ := hok
    obtain ⟨⟨items, hl, -⟩, hf⟩ := mergeEffects_ok h₁ hs
    obtain ⟨s', h'⟩ := ih hl.contexts_ne hn fun k' sum' hm => by
      have hne : k' ≠ k := fun he => hk (he ▸ List.mem_map.mpr ⟨_, hm, rfl⟩)
      rw [hf, Function.update_of_ne hne]
      exact hsum k' sum' (List.mem_cons_of_mem _ hm)
    exact ⟨s', by rw [mergeAll, h₁]; exact h'⟩

/-- A branch group that keeps its entry and does not count what jumping branches carried is popped without a failing
assertion. -/
theorem popBranchGroup_total (hT : ∀ k k', T k → T k' → k.1 = k'.1 → k.2 = k'.2) (hb : s.inBranchGroup = true)
    (hv : ValidStack s) (hg : GroupTop s) (ho : OwnUnsets s) (hm : MergeBound s) (ht : Typed T s) : ∃ s', s.popBranchGroup = .ok s' := by
  obtain ⟨c, ps, hs, n, covers, hc, hk⟩ : ∃ c ps hs n covers, s.contexts = c :: ps ∧ c.kind = .branchGroup hs n covers := by
    unfold Flow.inBranchGroup at hb
    split at hb
    · next c ps hc =>
      cases hk : c.kind <;> rw [hk] at hb <;> cases hb
      exact ⟨c, ps, _, _, _, hc, hk⟩
    · cases hb
  obtain ⟨s₁, i₁, hu, hl₁, hd₁, hf₁⟩ := unsetAllImprovements_spec hc
  obtain ⟨c', ps', hc', hc₁⟩ := hl₁.contexts
  obtain ⟨rfl, rfl⟩ := List.cons.inj (hc'.symm.trans hc)
  have hcounts := hg c' ps' hs n covers hc hk
  obtain ⟨hbound, hempty⟩ := hm c' ps' hs n covers hc hk
  have hent := flags_eq_entry hc hv ho hf₁
  have htc := ht.2 c' (by simp [hc])
  have ht₁ : Typed T s₁ := hl₁.typed ht fun d hd => ht.1 _ (hl₁.set_of_down (fun e he => (hd₁ e he).1) hd)
  obtain ⟨sums, hsums⟩ : ∃ sums, deltaSumsOfHistory hs = .ok sums := by
    unfold deltaSumsOfHistory
    rw [if_pos fun a ha b hb he => hT _ _ (htc.2 _ _ _ hk a ha) (htc.2 _ _ _ hk b hb) he]
    exact ⟨_, rfl⟩
  obtain ⟨hnd, hmem⟩ := deltaSumsOfHistory_ok hsums
  have hclear := clearHistory_contexts hc₁
  have hmerge : ∃ s₂, mergeAll n covers sums s₁.clearHistory = .ok s₂ := by
    refine mergeAll_total (by rw [hclear]; exact List.cons_ne_nil _ _) hnd fun k sum hks => ?_
    obtain ⟨⟨d, hd, rfl⟩, hsum⟩ := (hmem k sum).mp hks
    subst hsum
    rw [clearHistory_flags, hent, hcounts.sum]
    refine ⟨fun h => List.not_mem_nil (hempty h ▸ hd), ?_⟩
    have hcount := hcounts.count
    cases hek : c'.entry d.key with
    | true =>
      obtain ⟨h₁, h₂⟩ := sum_contribution_of_set hek c'.branches fun b hb _ => by
        by_contra hbk
        have := ho c' ps' hc _ (hcounts.entered b hb _ hek (by simpa using hbk)) rfl
        rw [hek] at this
        cases this
      refine ⟨fun h => absurd h (by omega), fun _ => rfl, by omega⟩
    | false =>
      have h₁ := sum_contribution_of_unset hek c'.branches
      have h₂ := sum_contribution_nonneg hek c'.branches
      have h₃ := hbound d hd hek
      unfold jumped missed at h₃
      exact ⟨fun _ => rfl, fun h => absurd h (by omega), by omega⟩
  obtain ⟨s₂, h₂⟩ := hmerge
  obtain ⟨⟨i₂, hl₂, hi₂⟩, -⟩ := mergeAll_ok h₂ (by rw [hclear]; exact List.cons_ne_nil _ _) hnd
  have hvc : ValidStack s₁.clearHistory := by
    have hv₁ := hl₁.validStack hv
    rw [ValidStack, hc₁] at hv₁
    rw [ValidStack, hclear, clearHistory_flags]
    exact ⟨trivial, hent, hv₁.2.2⟩
  have ht₂ : Typed T s₂ := hl₂.typed (typed_clearHistory ht₁) fun d hd => by
    obtain ⟨⟨k, sum⟩, hks, hkd⟩ := List.mem_map.mp (hi₂ d hd)
    obtain ⟨⟨e, he, hek⟩, -⟩ := (hmem k sum).mp hks
    rw [← hkd, ← hek]
    exact htc.2 _ _ _ hk e he
  obtain ⟨s₃, h₃⟩ := moveHistoryToParent_total hT hl₂.contexts_ne (hl₂.validStack hvc) ht₂
  refine ⟨s₃, ?_⟩
  obtain ⟨kind, hist, entry, eu, bs⟩ := c'
  simp only at hk
  subst hk
  unfold popBranchGroup
  rw [hc]
  simp only [hu, Except.bind, hsums, h₂, h₃]

end Flow

/-! ## Along runs -/

variable {R : Rules} {s s' : Flow}

/-- Along a run of typed sets, everything stays typed. -/
theorem Run.typed (h : Run R s s') (hs : s.contexts ≠ []) (ht : Typed R.typed s) : Typed R.typed s' := by
  induction h with
  | refl => exact ht
  | set _ hk he ih => exact (setFlag_ok he).2.2.2.typed (ih hs ht) (by simpa using hk)
  | unset _ he ih =>
    exact (unsetFlag_ok he).2.2.2.typed (ih hs ht) (by simpa using (ih hs ht).1 _ (unsetFlag_ok he).1)
  | coversAllCases _ he ih =>
    have ht := ih hs ht
    obtain ⟨c, ps, gs, n, was, hc, hk, rfl⟩ := setCoversAllCases_ok he
    refine typed_head hc rfl (fun hs' n' covers' h d hd => ?_) ht
    cases h
    exact (ht.2 c (by simp [hc])).2 _ _ _ hk d hd
  | emptyBranch _ he ih =>
    have ht := ih hs ht
    obtain ⟨c, ps, gs, n, covers, hc, hk, rfl⟩ := addEmptyBranch_ok he
    refine typed_head hc rfl (fun hs' n' covers' h d hd => ?_) ht
    cases h
    exact (ht.2 c (by simp [hc])).2 _ _ _ hk d hd
  | alwaysJumps _ he ih =>
    have ht := ih hs ht
    rcases setAlwaysJumps_ok he with rfl | ⟨c, ps, was, hc, hk, rfl⟩
    · exact ht
    · exact typed_head hc rfl (fun hs' n' covers' h => by cases h) ht
  | normal _ _ he ih ihb =>
    obtain ⟨c, ps, s₁, items, -, -, hl, hd, -, rfl⟩ := popNormal_ok he
    have ht := ihb (List.cons_ne_nil _ _) (typed_pushContext (by simp) (ih hs ht))
    exact typed_leave (hl.typed ht fun d hmem => ht.1 _ (hl.set_of_down (fun e he => (hd e he).1) hmem))
  | branchGroup _ _ _ he ih ihb =>
    obtain ⟨c, ps, hs', n, covers, s₁, s₂, i₁, i₂, hc, hk, hl₁, hd₁, -, hl₂, hi₂, -, rfl⟩ := popBranchGroup_ok he
    have ht := ihb (List.cons_ne_nil _ _) (typed_pushContext (by simp) (ih hs ht))
    have ht₁ := typed_clearHistory (hl₁.typed ht fun d hmem => ht.1 _ (hl₁.set_of_down (fun e he => (hd₁ e he).1) hmem))
    refine typed_leave (hl₂.typed ht₁ fun d hmem => ?_)
    obtain ⟨e, he, hek⟩ := hi₂ d hmem
    exact hek ▸ (ht.2 c (by simp [hc])).2 _ _ _ hk e he
  | branch hr hp hr₂ he ih ihb =>
    have ht := ih hs ht
    have ht₁ := ihb (pushBranch_ne hp) (typed_pushBranch hp ht)
    obtain ⟨g, ps, gs, n, covers, c, jumps, v, b⟩ := branch_block hp (hr₂.frame (pushBranch_ne hp)) he
    rw [Typed, b.inside] at ht₁
    refine ⟨fun k hk => ?_, fun d hd => ?_⟩
    · rw [b.flags, rewind_apply] at hk
      cases hf : first k c.history with
      | none => exact ht₁.1 k (by simpa [hf] using hk)
      | some x => exact (ht₁.2 c (by simp)).1 _ (mem_of_first hf)
    · rw [b.after] at hd
      rcases List.mem_cons.mp hd with rfl | hd
      · have htg := ht₁.2 _ (List.mem_cons_of_mem _ List.mem_cons_self)
        refine ⟨htg.1, fun hs' n' covers' h e he => ?_⟩
        have hg := htg.2 _ _ _ rfl
        cases h
        split at he
        · exact hg e he
        · rcases List.mem_append.mp he with he | he
          · exact (ht₁.2 c (by simp)).1 e he
          · exact hg e he
      · exact ht₁.2 d (by simp [hd])
  | jump _ _ he ih ihb =>
    obtain ⟨c, ps, u, s₁, items, -, -, hl, hd, -, rfl⟩ := popJump_ok he
    have ht := ihb (List.cons_ne_nil _ _) (typed_pushContext (by simp) (ih hs ht))
    exact typed_leave (hl.typed ht fun d hmem => ht.1 _ (hl.set_of_down (fun e he => (hd e he).1) hmem))

/-- What a run must keep for no assertion to fail: its branch groups keep their entry, count no improvement of a branch that
jumps, and each type word has one kind of improvement. -/
structure Rules.Sound (R : Rules) : Prop where
  ownUnsets : ∀ s, R.group s → OwnUnsets s
  mergeBound : ∀ s, R.group s → MergeBound s
  typed : ∀ k k', R.typed k → R.typed k' → k.1 = k'.1 → k.2 = k'.2

/-- The state in which flow calls meet no failing assertion. -/
structure Flow.Ready (R : Rules) (s : Flow) : Prop where
  contexts : s.contexts ≠ []
  valid : ValidStack s
  group : GroupTop s
  typed : Typed R.typed s

theorem Run.ready (hR : R.Sound) (h : Run R s s') (hs : Ready R s) : Ready R s' :=
  have ⟨hv, hg⟩ := h.valid hR.ownUnsets hs.contexts hs.valid hs.group
  ⟨(h.frame hs.contexts).contexts_ne, hv, hg, h.typed hs.contexts hs.typed⟩

theorem Flow.Ready.push (hs : Ready R s) {kind : ContextKind}
    (hk : kind = .branchGroup [] 0 false ∨ kind.isBranchGroup = false) : Ready R (s.pushContext kind) := by
  refine ⟨List.cons_ne_nil _ _, validStack_pushContext hs.valid, groupTop_pushContext hk s, typed_pushContext ?_ hs.typed⟩
  rintro gs n covers rfl
  rcases hk with hk | hk
  · cases hk
    rfl
  · cases hk

theorem Flow.Ready.pushBranch (hs : Ready R s) (h : s.pushBranch = .ok s') : Ready R s' :=
  ⟨pushBranch_ne h, validStack_pushBranch h hs.valid, Run.valid.groupTop_pushBranch h, typed_pushBranch h hs.typed⟩

/-- A pushed context is still of its kind when it is popped. -/
theorem Frame.sameKind {s : Flow} {kind : ContextKind} (h : Frame (t.pushContext kind) s) :
    ∃ c ps, s.contexts = c :: ps ∧ (kind.isJump = true → c.kind.isJump = true) ∧ (kind.isJump = false → kind.Same c.kind) := by
  obtain ⟨c, hi, hk⟩ := inside_of_frame h
  obtain ⟨v, hv⟩ := hi.contexts
  exact ⟨c, _, hv, fun hj => hi.kind.trans hj, hk⟩

/-- A branch is popped in the branch it was pushed as. -/
theorem popBranch_total {t₀ t₁ : Flow} (hp : t.pushBranch = .ok t₀) (hf : Frame t₀ t₁) : ∃ t', t₁.popBranch = .ok t' := by
  obtain ⟨g, ps, hs, n, covers, ht, hg, rfl⟩ := pushBranch_ok hp
  obtain ⟨c, hi, hk⟩ := inside_of_frame hf
  obtain ⟨v, hv⟩ := hi.contexts
  rw [recordAll_cons_of_not_jump rfl] at hv
  have hk := hk rfl
  cases hck : c.kind with
  | branch jumps =>
    unfold Flow.popBranch
    rw [hv]
    cases jumps <;> simp only [hck] <;> exact ⟨_, rfl⟩
  | _ =>
    rw [hck] at hk
    exact hk.elim

/-- Held to sound rules, no run of flow calls fails an assertion. -/
theorem Fails.false {a : FlowAssertion} (hR : R.Sound) (h : Fails R a s) (hs : Ready R s) : False := by
  induction h with
  | set hr hk hkf he =>
    obtain ⟨s', h'⟩ := setFlag_of_unset (hr.ready hR hs).contexts hkf
    rw [h'] at he
    cases he
  | unset hr hkf he =>
    obtain ⟨s', h'⟩ := unsetFlag_of_set (hr.ready hR hs).contexts hkf
    rw [h'] at he
    cases he
  | alwaysJumps hr he =>
    obtain ⟨c, ps, hc⟩ := List.exists_cons_of_ne_nil (hr.ready hR hs).contexts
    unfold setAlwaysJumps at he
    rw [hc] at he
    simp only at he
    split at he <;> cases he
  | inNormal hr _ ih => exact ih ((hr.ready hR hs).push (.inr rfl))
  | popNormal hr hr₂ he =>
    have hs₁ := hr₂.ready hR ((hr.ready hR hs).push (.inr rfl))
    unfold Flow.popNormal at he
    split at he
    · next c ps hc =>
      obtain ⟨s₁, items, hu, hl, hd, -⟩ := unsetAllImprovements_spec hc
      obtain ⟨s₂, h₂⟩ := moveHistoryToParent_total hR.typed hl.contexts_ne (hl.validStack hs₁.valid)
        (hl.typed hs₁.typed fun d hm => hs₁.typed.1 _ (hl.set_of_down (fun e he => (hd e he).1) hm))
      rw [hu, Except.bind, h₂] at he
      cases he
    · next hno =>
      obtain ⟨c, ps, hc, -, hk⟩ := Frame.sameKind (hr₂.frame (List.cons_ne_nil _ _))
      obtain ⟨kind, hist, entry, eu, bs⟩ := c
      cases kind <;> first | exact hno _ _ _ _ _ hc | exact (hk rfl).elim
  | inBranchGroup hr _ ih => exact ih ((hr.ready hR hs).push (.inl rfl))
  | popBranchGroup hr hr₂ hg he =>
    have hs₁ := hr₂.ready hR ((hr.ready hR hs).push (.inl rfl))
    have hb := (hr₂.frame (List.cons_ne_nil _ _)).inBranchGroup
    obtain ⟨s', h'⟩ := popBranchGroup_total hR.typed hb hs₁.valid hs₁.group (hR.ownUnsets _ hg) (hR.mergeBound _ hg) hs₁.typed
    rw [h'] at he
    cases he
  | inBranch hr hp _ ih => exact ih ((hr.ready hR hs).pushBranch hp)
  | popBranch hr hp hr₂ he =>
    obtain ⟨t', h'⟩ := popBranch_total hp (hr₂.frame (pushBranch_ne hp))
    rw [h'] at he
    cases he
  | inJump hr _ ih => exact ih ((hr.ready hR hs).push (.inr rfl))
  | popJump hr hr₂ he =>
    have hs₁ := hr₂.ready hR ((hr.ready hR hs).push (.inr rfl))
    unfold Flow.popJump at he
    split at he
    · next u _ _ _ _ _ hc =>
      obtain ⟨s₁, i₁, hu₁, hl₁, hd₁, -⟩ := unsetKeys_spec u hs₁.contexts
      have ht₁ := hl₁.typed hs₁.typed fun d hm => hs₁.typed.1 _ (hl₁.set_of_down (fun e he => (hd₁ e he).1) hm)
      obtain ⟨c, ps, -, hc₁⟩ := hl₁.contexts
      obtain ⟨s₂, i₂, hu₂, hl₂, hd₂, -⟩ := unsetAllImprovements_spec hc₁
      obtain ⟨s₃, h₃⟩ := moveHistoryToParent_total hR.typed hl₂.contexts_ne (hl₂.validStack (hl₁.validStack hs₁.valid))
        (hl₂.typed ht₁ fun d hm => ht₁.1 _ (hl₂.set_of_down (fun e he => (hd₂ e he).1) hm))
      rw [hu₁, Except.bind, hu₂, Except.bind, h₃] at he
      cases he
    · next hno =>
      obtain ⟨c, ps, hc, hj, -⟩ := Frame.sameKind (hr₂.frame (List.cons_ne_nil _ _))
      have hj := hj rfl
      obtain ⟨kind, hist, entry, eu, bs⟩ := c
      cases kind <;> first | exact hno _ _ _ _ _ _ hc | cases hj

end CgSql
