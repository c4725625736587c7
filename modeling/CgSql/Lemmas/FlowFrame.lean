import CgSql.FlowRun
import CgSql.Lemmas.FlowLocal

/-!
# What a run leaves in place

A run stays within its context: it adds to the history of the current context, records un-sets in the nearest jump context, and
touches no other context of the stack.
-/

namespace CgSql

open DeltaLog

variable {a b : ContextKind}

/-- Two states of one context: its kind is the same, and an un-set history changes only through the contexts above. -/
def ContextKind.Same : ContextKind → ContextKind → Prop
  | .normal, .normal => True
  | .branchGroup .., .branchGroup .. => True
  | .branch _, .branch _ => True
  | .jump u, .jump v => u = v
  | _, _ => False

theorem ContextKind.Same.refl (k : ContextKind) : k.Same k := by
  cases k <;> trivial

theorem ContextKind.Same.trans {c : ContextKind} (h₁ : a.Same b) (h₂ : b.Same c) : a.Same c := by
  cases a <;> cases b <;> cases c <;> first | trivial | exact False.elim h₁ | exact False.elim h₂ | exact Eq.trans h₁ h₂

theorem ContextKind.Same.isJump (h : a.Same b) : a.isJump = b.isJump := by
  cases a <;> cases b <;> first | rfl | exact False.elim h

/-- Is the context a branch group. -/
def ContextKind.isBranchGroup : ContextKind → Bool
  | .branchGroup .. => true
  | _ => false

theorem ContextKind.Same.isBranchGroup (h : a.Same b) : b.isBranchGroup = a.isBranchGroup := by
  cases a <;> cases b <;> first | rfl | exact False.elim h

namespace Flow

variable {s s' t : Flow} {c : FlowContext} {ps : List FlowContext} {h : History} {kind : ContextKind}

/-! ## Popping -/

/-- `move_history_to_parent` without its assertion. -/
def leave (s : Flow) : Flow :=
  match s.contexts with
  | c :: p :: ps => { s with contexts := { p with history := c.history ++ p.history } :: ps }
  | _ => { s with contexts := [] }

@[simp] theorem leave_flags (s : Flow) : s.leave.flags = s.flags := by
  obtain ⟨flags, _ | ⟨c, _ | ⟨p, ps⟩⟩, unsets⟩ := s <;> rfl

@[simp] theorem leave_unsets (s : Flow) : s.leave.unsets = s.unsets := by
  obtain ⟨flags, _ | ⟨c, _ | ⟨p, ps⟩⟩, unsets⟩ := s <;> rfl

/-- The history moves to the parent. -/
theorem leave_contexts {p : FlowContext} (h : s.contexts = c :: p :: ps) :
    s.leave.contexts = { p with history := c.history ++ p.history } :: ps := by
  obtain ⟨flags, contexts, unsets⟩ := s
  cases h
  rfl

/-- Without its assertion it is the same. -/
theorem moveHistoryToParent_ok (h : s.moveHistoryToParent = .ok s') : s' = s.leave := by
  unfold moveHistoryToParent at h
  unfold leave
  split at h
  · cases h
  · next c hc =>
    rw [hc]
    cases hd : checkDeltaSums c.history <;> simp_all [Except.map]
  · next c p ps hc =>
    rw [hc]
    cases hd : checkDeltaSums (c.history ++ p.history) <;> simp_all [Except.map]

/-- The first step of every pop but a branch's: un-set what the history of the current context set. -/
theorem unsetAllImprovements_spec (hc : s.contexts = c :: ps) :
    ∃ s₁ h, s.unsetAllImprovements = .ok s₁ ∧ Local s s₁ h ∧ (∀ d ∈ h, d.up = false ∧ d.key ∈ setKeys c.history) ∧
      ∀ k, s₁.flags k = (s.flags k && decide (k ∉ setKeys c.history)) := by
  unfold unsetAllImprovements
  rw [hc]
  exact unsetKeys_spec _ (by simp [hc])

/-- What popping a normal context does. -/
theorem popNormal_ok (h : s.popNormal = .ok s') : ∃ c ps s₁ items, s.contexts = c :: ps ∧ c.kind = .normal ∧ Local s s₁ items ∧
      (∀ d ∈ items, d.up = false ∧ d.key ∈ setKeys c.history) ∧
      (∀ k, s₁.flags k = (s.flags k && decide (k ∉ setKeys c.history))) ∧ s' = s₁.leave := by
  unfold popNormal at h
  split at h
  · next c ps hc =>
    obtain ⟨s₁, items, hu, hl, hd, hf⟩ := unsetAllImprovements_spec hc
    rw [hu] at h
    exact ⟨_, _, s₁, items, hc, rfl, hl, hd, hf, moveHistoryToParent_ok h⟩
  · cases h

/-- What popping a jump context does. -/
theorem popJump_ok (h : s.popJump = .ok s') : ∃ c ps u s₁ items, s.contexts = c :: ps ∧ c.kind = .jump u ∧ Local s s₁ items ∧
      (∀ d ∈ items, d.up = false ∧ (d.key ∈ u ∨ d.key ∈ setKeys c.history)) ∧
      (∀ k, s₁.flags k = (s.flags k && decide (k ∉ u) && decide (k ∉ setKeys c.history))) ∧ s' = s₁.leave := by
  unfold popJump at h
  split at h
  · next u hist entry eu bs ps hc =>
    obtain ⟨s₁, i₁, hu, hl₁, hd₁, hf₁⟩ := unsetKeys_spec u (s := s) (by simp [hc])
    obtain ⟨c', ps', hc', hc₁⟩ := hl₁.contexts
    obtain ⟨rfl, rfl⟩ := List.cons.inj (hc'.symm.trans hc)
    have hset : ∀ k, k ∈ setKeys (i₁ ++ hist) ↔ k ∈ setKeys hist := by
      intro k
      simp only [mem_setKeys, List.mem_append]
      exact or_iff_right fun hm => absurd (hd₁ _ hm).1 (by simp)
    obtain ⟨s₂, i₂, hu₂, hl₂, hd₂, hf₂⟩ := unsetAllImprovements_spec hc₁
    rw [hu, Except.bind, hu₂] at h
    refine ⟨_, _, u, s₂, i₂ ++ i₁, hc, rfl, hl₁.trans hl₂, fun d hd => ?_, fun k => ?_, moveHistoryToParent_ok h⟩
    · rcases List.mem_append.mp hd with hd | hd
      · exact ⟨(hd₂ d hd).1, .inr ((hset _).mp (hd₂ d hd).2)⟩
      · exact ⟨(hd₁ d hd).1, .inl (hd₁ d hd).2⟩
    · rw [hf₂, hf₁]
      simp only [hset]
  · cases h

/-- The sums have each key of the history once. -/
theorem deltaSumsOfHistory_ok {sums : List (Key × Int)} (hs : deltaSumsOfHistory h = .ok sums) :
    (sums.map Prod.fst).Nodup ∧ ∀ k n, (k, n) ∈ sums ↔ (∃ d ∈ h, d.key = k) ∧ n = net k h := by
  unfold deltaSumsOfHistory at hs
  split at hs
  · next hk =>
    cases hs
    have hg := grouped_insertionSort (fun k : Key => k.1) fun a ha b hb he => Prod.ext he (hk a ha b hb he)
    refine ⟨nodup_deltaSums hg, fun k n => ?_⟩
    rw [mem_deltaSums hg, net_perm (List.perm_insertionSort _ _)]
    simp only [List.mem_insertionSort]
  · cases hs

/-- The flags after a branch group is popped: what the group itself set is gone, and every flag is merged by its sum. -/
theorem popBranchGroup_ok (h : s.popBranchGroup = .ok s') :
    ∃ c ps hs n covers s₁ s₂ i₁ i₂, s.contexts = c :: ps ∧ c.kind = .branchGroup hs n covers ∧ Local s s₁ i₁ ∧
      (∀ d ∈ i₁, d.up = false ∧ d.key ∈ setKeys c.history) ∧ (∀ k, s₁.flags k = (s.flags k && decide (k ∉ setKeys c.history))) ∧
      Local s₁.clearHistory s₂ i₂ ∧ (∀ d ∈ i₂, ∃ e ∈ hs, e.key = d.key) ∧
      (∀ k, s₂.flags k = if ∃ d ∈ hs, d.key = k then mergedFlag n covers (net k hs) (s₁.flags k) else s₁.flags k) ∧ s' = s₂.leave := by
  unfold popBranchGroup at h
  split at h
  · next hs n covers hist entry eu bs ps hc =>
    obtain ⟨s₁, i₁, hu, hl₁, hd₁, hf₁⟩ := unsetAllImprovements_spec hc
    obtain ⟨c', ps', hc', hc₁⟩ := hl₁.contexts
    rw [hu, Except.bind] at h
    cases hsum : deltaSumsOfHistory hs with
    | error a => simp [hsum, Except.bind] at h
    | ok sums =>
      rw [hsum, Except.bind] at h
      obtain ⟨hnd, hmem⟩ := deltaSumsOfHistory_ok hsum
      cases hm : mergeAll n covers sums s₁.clearHistory with
      | error a => simp [hm, Except.bind] at h
      | ok s₂ =>
        rw [hm, Except.bind] at h
        have hne : s₁.clearHistory.contexts ≠ [] := by simp [clearHistory, hc₁]
        have hcf : s₁.clearHistory.flags = s₁.flags := by unfold clearHistory; split <;> rfl
        obtain ⟨⟨i₂, hl₂, hi₂⟩, hf₂, hf₂'⟩ := mergeAll_ok hm hne hnd
        refine ⟨_, _, hs, n, covers, s₁, s₂, i₁, i₂, hc, rfl, hl₁, hd₁, hf₁, hl₂, fun d hd => ?_, fun k => ?_, moveHistoryToParent_ok h⟩
        · obtain ⟨⟨k, m⟩, hkm, hk⟩ := List.mem_map.mp (hi₂ d hd)
          exact hk ▸ ((hmem _ _).mp hkm).1
        split
        · next hk => rw [hf₂ k _ ((hmem k _).mpr ⟨hk, rfl⟩), hcf]
        · next hk =>
          rw [hf₂' k, hcf]
          intro hin
          obtain ⟨⟨k', m⟩, hkm, rfl⟩ := List.mem_map.mp hin
          exact hk ((hmem _ _).mp hkm).1
  · cases h

@[simp] theorem clearHistory_flags (s : Flow) : s.clearHistory.flags = s.flags := by unfold clearHistory; split <;> rfl

@[simp] theorem clearHistory_unsets (s : Flow) : s.clearHistory.unsets = s.unsets := by unfold clearHistory; split <;> rfl

/-- Only the history of the top is cleared. -/
theorem clearHistory_contexts (h : s.contexts = c :: ps) : s.clearHistory.contexts = { c with history := [] } :: ps := by
  unfold clearHistory
  rw [h]

/-- A branch is pushed on a branch group. -/
theorem pushBranch_ok (h : s.pushBranch = .ok s') : ∃ c ps hs n covers, s.contexts = c :: ps ∧ c.kind = .branchGroup hs n covers ∧
      s' = pushContext (.branch false) { s with contexts := { c with kind := .branchGroup (c.history ++ hs) (n + 1) covers } :: ps } := by
  unfold pushBranch at h
  split at h
  · next c ps hc =>
    split at h
    · next hs n covers hk =>
      cases h
      exact ⟨c, ps, hs, n, covers, hc, hk, rfl⟩
    · cases h
  · cases h

/-- Popping a branch takes the flags back; the group counts the branch unless it always jumps. -/
theorem popBranch_ok (h : s.popBranch = .ok s') :
    ∃ c p ps jumps hs n covers, s.contexts = c :: p :: ps ∧ c.kind = .branch jumps ∧ p.kind = .branchGroup hs n covers ∧ s' = { s with
        flags := rewind s.flags c.history
        contexts := { p with
          kind := .branchGroup (if jumps then hs else c.history ++ hs) (if jumps then n - 1 else n) covers
          branches := ⟨if jumps then .jumps else .falls, c.entry, s.flags⟩ :: p.branches } :: ps } := by
  unfold popBranch at h
  split at h
  · next c p ps hc =>
    split at h
    · next hs n covers hk hp =>
      cases h
      exact ⟨c, p, ps, true, hs, n, covers, hc, hk, hp, rfl⟩
    · next hs n covers hk hp =>
      cases h
      exact ⟨c, p, ps, false, hs, n, covers, hc, hk, hp, rfl⟩
    · cases h
  · cases h

/-- It is set on a branch group. -/
theorem setCoversAllCases_ok {covers : Bool} (h : s.setCoversAllCases covers = .ok s') :
    ∃ c ps hs n was, s.contexts = c :: ps ∧ c.kind = .branchGroup hs n was ∧
      s' = { s with contexts := { c with kind := .branchGroup hs n covers } :: ps } := by
  unfold setCoversAllCases at h
  split at h
  · next c ps hc =>
    split at h
    · next hs n was hk =>
      cases h
      exact ⟨c, ps, hs, n, was, hc, hk, rfl⟩
    · cases h
  · cases h

/-- A branch group gets one branch more. -/
theorem addEmptyBranch_ok (h : s.addEmptyBranch = .ok s') : ∃ c ps hs n covers, s.contexts = c :: ps ∧ c.kind = .branchGroup hs n covers ∧
      s' = { s with contexts := { c with
          kind := .branchGroup hs (n + 1) covers
          branches := ⟨.empty, s.flags, s.flags⟩ :: c.branches } :: ps } := by
  unfold addEmptyBranch at h
  split at h
  · next c ps hc =>
    split at h
    · next hs n covers hk =>
      cases h
      exact ⟨c, ps, hs, n, covers, hc, hk, rfl⟩
    · cases h
  · cases h

/-- It is set on a branch. -/
theorem setAlwaysJumps_ok {jumps : Bool} (h : s.setAlwaysJumps jumps = .ok s') :
    s' = s ∨ ∃ c ps was, s.contexts = c :: ps ∧ c.kind = .branch was ∧ s' = { s with contexts := { c with kind := .branch jumps } :: ps } := by
  unfold setAlwaysJumps at h
  split at h
  · next c ps hc =>
    split at h
    · next was hk =>
      cases h
      exact .inr ⟨c, ps, was, hc, hk, rfl⟩
    · cases h
      exact .inl rfl
  · cases h

/-! ## The frame of a run -/

/-- Two states of the current context, the second later. -/
structure SameSite (c c' : FlowContext) : Prop where
  kind : c.kind.Same c'.kind
  history : c.history <:+ c'.history
  entry : c'.entry = c.entry
  entryUnsets : c'.entryUnsets = c.entryUnsets

theorem SameSite.refl (c : FlowContext) : SameSite c c := ⟨.refl _, List.suffix_refl _, rfl, rfl⟩

theorem SameSite.trans {a b : FlowContext} (h₁ : SameSite a b) (h₂ : SameSite b c) : SameSite a c :=
  ⟨h₁.kind.trans h₂.kind, h₁.history.trans h₂.history, h₂.entry.trans h₁.entry, h₂.entryUnsets.trans h₁.entryUnsets⟩

/-- `s'` is reached from `s` within the same context: apart from that context, the stack changes only by the un-sets `u`
recorded in its nearest jump context. -/
def Frame (s s' : Flow) : Prop :=
  ∃ u c ps c', recordAll u s.contexts = c :: ps ∧ s'.contexts = c' :: ps ∧ SameSite c c'

theorem Frame.refl (hs : s.contexts ≠ []) : Frame s s := by
  obtain ⟨c, ps, hc⟩ := List.exists_cons_of_ne_nil hs
  exact ⟨[], c, ps, c, by rw [recordAll_nil, hc], hc, .refl c⟩

theorem Frame.contexts_ne (h : Frame s s') : s'.contexts ≠ [] := by
  obtain ⟨u, c, ps, c', -, hc', -⟩ := h
  simp [hc']

/-- Records keep the site of a context. -/
theorem recordAll_sameSite {u : List Key} {c' d : FlowContext} {qs : List FlowContext} (hs : SameSite c c')
    (hr : recordAll u (c' :: ps) = d :: qs) : ∃ d₀, recordAll u (c :: ps) = d₀ :: qs ∧ SameSite d₀ d := by
  cases hk : c'.kind with
  | jump v =>
    have hc : c.kind = .jump v := by
      have hkind := hs.kind
      rw [hk] at hkind
      cases hck : c.kind <;> simp_all [ContextKind.Same]
    rw [recordAll_cons_of_jump hk] at hr
    obtain ⟨rfl, rfl⟩ := List.cons.inj hr
    exact ⟨_, recordAll_cons_of_jump hc u ps, rfl, hs.history, hs.entry, hs.entryUnsets⟩
  | _ =>
    have hj' : c'.kind.isJump = false := by rw [hk]; rfl
    rw [recordAll_cons_of_not_jump hj'] at hr
    obtain ⟨rfl, rfl⟩ := List.cons.inj hr
    exact ⟨c, recordAll_cons_of_not_jump (hs.kind.isJump.trans hj') u ps, hs⟩

theorem Frame.trans {u : Flow} (h₁ : Frame s t) (h₂ : Frame t u) : Frame s u := by
  obtain ⟨u₁, c, ps, c', hr₁, ht, hs₁⟩ := h₁
  obtain ⟨u₂, d, qs, d', hr₂, hu, hs₂⟩ := h₂
  rw [ht] at hr₂
  obtain ⟨d₀, hd₀, hsd⟩ := recordAll_sameSite hs₁ hr₂
  exact ⟨u₂ ++ u₁, d₀, qs, d', by rw [recordAll_append, hr₁, hd₀], hu, hsd.trans hs₂⟩

/-- Local steps stay in their frame. -/
theorem Local.frame (l : Local s s' h) : Frame s s' := by
  obtain ⟨c, ps, hc, hc'⟩ := l.contexts
  have hsame : SameSite c { c with history := h ++ c.history } := ⟨.refl _, List.suffix_append _ _, rfl, rfl⟩
  cases hj : c.kind.isJump with
  | true =>
    refine ⟨[], c, ps, _, by rw [recordAll_nil, hc], ?_, hsame⟩
    rw [hc', below, if_pos hj]
  | false =>
    refine ⟨unsetKeysOf h, c, recordAll (unsetKeysOf h) ps, _, by rw [hc, recordAll_cons_of_not_jump hj], ?_, hsame⟩
    rw [hc', below, if_neg (by simp [hj])]

/-- A call that changes only the members of the current context's kind keeps the frame. -/
theorem frame_of_head {c' : FlowContext} (hc : s.contexts = c :: ps) (hc' : s'.contexts = c' :: ps) (hs : SameSite c c') : Frame s s' :=
  ⟨[], c, ps, c', by rw [recordAll_nil, hc], hc', hs⟩

/-- `s` is in a context pushed on the stack of `t`, which is as it was but for un-sets recorded in it. -/
structure Inside (t : Flow) (kind : ContextKind) (s : Flow) (c : FlowContext) : Prop where
  contexts : ∃ v, s.contexts = c :: recordAll v t.contexts
  kind : c.kind.isJump = kind.isJump
  entry : c.entry = t.flags
  entryUnsets : c.entryUnsets = t.unsets

/-- A frame of a pushed context is inside of it. -/
theorem inside_of_frame (h : Frame (t.pushContext kind) s) : ∃ c, Inside t kind s c ∧ (kind.isJump = false → kind.Same c.kind) := by
  obtain ⟨u, c, ps, c', hr, hc', hs⟩ := h
  rw [pushContext] at hr
  cases hk : kind with
  | jump v =>
    rw [recordAll_cons_of_jump (v := v) (by simpa using hk)] at hr
    obtain ⟨rfl, rfl⟩ := List.cons.inj hr
    refine ⟨c', ⟨⟨[], by rw [recordAll_nil, hc']⟩, ?_, hs.entry, hs.entryUnsets⟩, by simp [ContextKind.isJump]⟩
    rw [← hs.kind.isJump]
    rfl
  | _ =>
    rw [recordAll_cons_of_not_jump (by simp [hk, ContextKind.isJump])] at hr
    obtain ⟨rfl, rfl⟩ := List.cons.inj hr
    refine ⟨c', ⟨⟨u, hc'⟩, ?_, hs.entry, hs.entryUnsets⟩, fun _ => by simpa [hk] using hs.kind⟩
    rw [← hs.kind.isJump, ← hk]

/-- Local steps stay inside. -/
theorem Inside.local (hi : Inside t kind s c) (l : Local s s' h) : Inside t kind s' { c with history := h ++ c.history } := by
  obtain ⟨v, hc⟩ := hi.contexts
  obtain ⟨d, ps, hd, hd'⟩ := l.contexts
  obtain ⟨rfl, rfl⟩ := List.cons.inj (hd.symm.trans hc)
  refine ⟨?_, hi.kind, hi.entry, hi.entryUnsets⟩
  rw [hd', below]
  split
  · exact ⟨v, rfl⟩
  · exact ⟨unsetKeysOf h ++ v, by rw [recordAll_append]⟩

theorem Inside.clearHistory (hi : Inside t kind s c) : Inside t kind s.clearHistory { c with history := [] } := by
  obtain ⟨v, hc⟩ := hi.contexts
  exact ⟨⟨v, clearHistory_contexts hc⟩, hi.kind, hi.entry, hi.entryUnsets⟩

/-- Records change nothing else of a context. -/
theorem recordAll_cons_eq (u : List Key) (c : FlowContext) (ps : List FlowContext) :
    ∃ d qs, recordAll u (c :: ps) = d :: qs ∧ d.history = c.history ∧ d.entry = c.entry ∧ d.entryUnsets = c.entryUnsets ∧
      d.branches = c.branches ∧ (c.kind.isJump = false → d = c) ∧ d.kind.isJump = c.kind.isJump := by
  cases hk : c.kind with
  | jump v => exact ⟨_, _, recordAll_cons_of_jump hk u ps, rfl, rfl, rfl, rfl, by simp [ContextKind.isJump], rfl⟩
  | _ => exact ⟨_, _, recordAll_cons_of_not_jump (by rw [hk]; rfl) u ps, rfl, rfl, rfl, rfl, fun _ => rfl, by rw [hk]⟩

/-- Leaving a pushed context returns to the context it was pushed on. -/
theorem Inside.leave (hi : Inside t kind s c) (ht : t.contexts ≠ []) : Frame t s.leave := by
  obtain ⟨v, hc⟩ := hi.contexts
  obtain ⟨p, ps, hp⟩ := List.exists_cons_of_ne_nil ht
  obtain ⟨q, qs, hq, -⟩ := recordAll_cons_eq v p ps
  rw [hp, hq] at hc
  exact ⟨v, q, qs, _, by rw [hp, hq], leave_contexts hc, .refl _, List.suffix_append _ _, rfl, rfl⟩

/-- A normal block keeps the frame. -/
theorem frame_popNormal (ht : t.contexts ≠ []) (h : Frame t.pushNormal s) (he : s.popNormal = .ok s') : Frame t s' := by
  obtain ⟨c, ps, s₁, items, -, -, hl, -, -, rfl⟩ := popNormal_ok he
  obtain ⟨c, hi, -⟩ := inside_of_frame h
  exact (hi.local hl).leave ht

/-- A jump block does. -/
theorem frame_popJump (ht : t.contexts ≠ []) (h : Frame t.pushJump s) (he : s.popJump = .ok s') : Frame t s' := by
  obtain ⟨c, ps, u, s₁, items, -, -, hl, -, -, rfl⟩ := popJump_ok he
  obtain ⟨c, hi, -⟩ := inside_of_frame h
  exact (hi.local hl).leave ht

/-- A branch group does. -/
theorem frame_popBranchGroup (ht : t.contexts ≠ []) (h : Frame t.pushBranchGroup s) (he : s.popBranchGroup = .ok s') : Frame t s' := by
  obtain ⟨c, ps, hs, n, covers, s₁, s₂, i₁, i₂, -, -, hl₁, -, -, hl₂, -, -, rfl⟩ := popBranchGroup_ok he
  obtain ⟨c, hi, -⟩ := inside_of_frame h
  exact ((hi.local hl₁).clearHistory.local hl₂).leave ht

/-- A branch pushed on the group `g`, run and popped: `c` is the branch at its end, `v` the un-sets it recorded below. -/
structure BranchBlock (t t₁ t' : Flow) (g : FlowContext) (ps : List FlowContext) (hs : History) (n : Nat) (covers : Bool)
    (c : FlowContext) (jumps : Bool) (v : List Key) : Prop where
  group : t.contexts = g :: ps
  groupKind : g.kind = .branchGroup hs n covers
  inside : t₁.contexts = c :: { g with kind := .branchGroup (g.history ++ hs) (n + 1) covers } :: recordAll v ps
  branchKind : c.kind = .branch jumps
  entry : c.entry = t.flags
  entryUnsets : c.entryUnsets = t.unsets
  flags : t'.flags = rewind t₁.flags c.history
  unsets : t'.unsets = t₁.unsets
  after : t'.contexts = { g with
    kind := .branchGroup (if jumps then g.history ++ hs else c.history ++ (g.history ++ hs)) (if jumps then n else n + 1) covers
    branches := ⟨if jumps then .jumps else .falls, c.entry, t₁.flags⟩ :: g.branches } :: recordAll v ps

theorem pushBranch_ne {t₀ : Flow} (hp : t.pushBranch = .ok t₀) : t₀.contexts ≠ [] := by
  obtain ⟨g, ps, hs, n, covers, -, -, rfl⟩ := pushBranch_ok hp
  exact List.cons_ne_nil _ _

/-- A branch that is pushed, run and popped. -/
theorem branch_block {t₀ t₁ t' : Flow} (hp : t.pushBranch = .ok t₀) (hf : Frame t₀ t₁) (he : t₁.popBranch = .ok t') :
    ∃ g ps hs n covers c jumps v, BranchBlock t t₁ t' g ps hs n covers c jumps v := by
  obtain ⟨g, ps, hs, n, covers, ht, hg, rfl⟩ := pushBranch_ok hp
  obtain ⟨c, p, qs, jumps, hs', n', covers', hc, hck, hpk, rfl⟩ := popBranch_ok he
  obtain ⟨d, hi, -⟩ := inside_of_frame hf
  obtain ⟨v, hv⟩ := hi.contexts
  rw [recordAll_cons_of_not_jump rfl] at hv
  obtain ⟨rfl, hv'⟩ := List.cons.inj (hc.symm.trans hv)
  obtain ⟨rfl, rfl⟩ := List.cons.inj hv'
  obtain ⟨rfl, rfl, rfl⟩ : g.history ++ hs = hs' ∧ n + 1 = n' ∧ covers = covers' := by
    simpa using hpk
  refine ⟨g, ps, hs, n, covers, c, jumps, v, ht, hg, hv, hck, hi.entry, hi.entryUnsets, rfl, rfl, ?_⟩
  cases jumps <;> rfl

/-- It keeps the frame. -/
theorem BranchBlock.frame {t₁ t' : Flow} {g : FlowContext} {hs : History} {n : Nat} {covers : Bool}
    {jumps : Bool} {v : List Key} (b : BranchBlock t t₁ t' g ps hs n covers c jumps v) : Frame t t' := by
  refine ⟨v, g, recordAll v ps, _, ?_, b.after, ?_, List.suffix_refl _, rfl, rfl⟩
  · rw [b.group, recordAll_cons_of_not_jump (by rw [b.groupKind]; rfl)]
  · rw [b.groupKind]
    trivial

/-- Is the current context a branch group. -/
def inBranchGroup (s : Flow) : Bool :=
  match s.contexts with
  | c :: _ => c.kind.isBranchGroup
  | [] => false

/-- A frame keeps being, or not being, in a branch group. -/
theorem Frame.inBranchGroup (h : Frame s s') : s'.inBranchGroup = s.inBranchGroup := by
  obtain ⟨u, c, ps, c', hr, hc', hs⟩ := h
  have hsame := hs.kind.isBranchGroup
  cases hcs : s.contexts with
  | nil => rw [hcs] at hr; cases hr
  | cons d ds =>
    obtain ⟨d', qs, hr', -, -, -, -, hk, hj⟩ := recordAll_cons_eq u d ds
    rw [hcs, hr'] at hr
    obtain ⟨rfl, rfl⟩ := List.cons.inj hr
    have hd : d'.kind.isBranchGroup = d.kind.isBranchGroup := by
      cases hdk : d.kind with
      | jump v =>
        cases hdk' : d'.kind <;> simp_all [ContextKind.isJump, ContextKind.isBranchGroup]
      | _ => rw [hk (by rw [hdk]; rfl), hdk]
    simp only [Flow.inBranchGroup, hc', hcs, hsame, hd]

end Flow

open Flow

/-- A run stays within its context. -/
theorem Run.frame {R : Rules} {s s' : Flow} (h : Run R s s') (hs : s.contexts ≠ []) : Frame s s' := by
  induction h with
  | refl => exact .refl hs
  | set _ _ he ih => exact (ih hs).trans (setFlag_ok he).2.2.2.frame
  | unset _ he ih => exact (ih hs).trans (unsetFlag_ok he).2.2.2.frame
  | coversAllCases _ he ih =>
    obtain ⟨c, ps, gs, n, was, hc, hk, rfl⟩ := setCoversAllCases_ok he
    exact (ih hs).trans (frame_of_head hc rfl ⟨by rw [hk]; trivial, List.suffix_refl _, rfl, rfl⟩)
  | emptyBranch _ he ih =>
    obtain ⟨c, ps, gs, n, covers, hc, hk, rfl⟩ := addEmptyBranch_ok he
    exact (ih hs).trans (frame_of_head hc rfl ⟨by rw [hk]; trivial, List.suffix_refl _, rfl, rfl⟩)
  | alwaysJumps _ he ih =>
    rcases setAlwaysJumps_ok he with rfl | ⟨c, ps, was, hc, hk, rfl⟩
    · exact ih hs
    · exact (ih hs).trans (frame_of_head hc rfl ⟨by rw [hk]; trivial, List.suffix_refl _, rfl, rfl⟩)
  | normal _ _ he ih ihb =>
    exact (ih hs).trans (frame_popNormal (ih hs).contexts_ne (ihb (List.cons_ne_nil _ _)) he)
  | branchGroup _ _ _ he ih ihb =>
    exact (ih hs).trans (frame_popBranchGroup (ih hs).contexts_ne (ihb (List.cons_ne_nil _ _)) he)
  | branch _ hp _ he ih ihb =>
    obtain ⟨g, ps, gs, n, covers, c, jumps, v, b⟩ := branch_block hp (ihb (pushBranch_ne hp)) he
    exact (ih hs).trans b.frame
  | jump _ _ he ih ihb =>
    exact (ih hs).trans (frame_popJump (ih hs).contexts_ne (ihb (List.cons_ne_nil _ _)) he)

/-! ## Calm runs

What a calm run leaves alone: the kind of the current context, unless it is a jump context, and the branches it gathered. With
what a branch adds to its group when it is popped, this says what a branch group knows of its branches. -/

open Flow

namespace Flow

variable {s : Flow}

end Flow

variable {R : Rules} {s s' : Flow}

end CgSql
