import CgSql.Lemmas.FlowJump

/-!
# Valid histories and the sums of a branch group

As long as no branch group un-sets, in its own context, a flag that was set when it was pushed, every history of the stack is a
valid log back to the flags its context was pushed with, and the histories a branch group gathers sum, flag by flag, to what its
branches did. This is what the merging of a branch group rests on.
-/

namespace CgSql

open DeltaLog

namespace Flow

variable {s s' : Flow} {kind : ContextKind} {c : FlowContext} {ps : List FlowContext} {hs : History} {n : Nat} {k : Key}

/-- Every context's history is a valid log from the flags in force above it back to the flags it was pushed with. -/
def StackValid : Flags → List FlowContext → Prop
  | _, [] => True
  | f, c :: ps => Valid f c.history ∧ rewind f c.history = c.entry ∧ StackValid c.entry ps

/-- `StackValid` for a flow state. -/
def ValidStack (s : Flow) : Prop := StackValid s.flags s.contexts

/-- The current context has un-set no flag that was set when it was pushed. -/
def OwnUnsets (s : Flow) : Prop :=
  ∀ c ps, s.contexts = c :: ps → ∀ d ∈ c.history, d.up = false → c.entry d.key = false

/-! ## What a branch counts for -/

/-- What a branch adds to the sum of a flag, in a group pushed with flags `e`. -/
def contribution (e : Flags) (k : Key) (b : BranchEnd) : Int :=
  match b.exit with
  | .falls => (b.stop k).toInt - (e k).toInt
  | .jumps => (b.entry k).toInt - (e k).toInt
  | .empty => 0

/-- Is the branch counted by its group: it does not always jump. -/
def isCounted (b : BranchEnd) : Bool :=
  match b.exit with
  | .jumps => false
  | _ => true

/-- Does the branch always jump, having been entered with the flag set. -/
def jumpsWith (k : Key) (b : BranchEnd) : Bool :=
  match b.exit with
  | .jumps => b.entry k
  | _ => false

/-- The number of always-jumping branches entered with the flag set. -/
def jumped (c : FlowContext) (k : Key) : Nat := c.branches.countP (jumpsWith k)

/-- Does a branch that can fall through leave the flag unestablished. An empty branch establishes nothing. -/
def misses (k : Key) (b : BranchEnd) : Bool :=
  match b.exit with
  | .falls => !b.stop k
  | .jumps => false
  | .empty => true

/-- The number of branches that can fall through and do not establish the flag. -/
def missed (c : FlowContext) (k : Key) : Nat := c.branches.countP (misses k)

/-- What a branch group gathers from its branches. -/
structure GroupCounts (c : FlowContext) (hs : History) (n : Nat) : Prop where
  sum : ∀ k, net k hs = (c.branches.map (contribution c.entry k)).sum
  count : n = c.branches.countP isCounted
  entered : ∀ b ∈ c.branches, ∀ k, c.entry k = true → b.entry k = false → (⟨k, false⟩ : Delta Key) ∈ c.history
  empties : ∀ b ∈ c.branches, b.exit = .empty → b.stop = b.entry

/-- `GroupCounts` for the current context, if it is a branch group. -/
def GroupTop (s : Flow) : Prop :=
  ∀ c ps hs n covers, s.contexts = c :: ps → c.kind = .branchGroup hs n covers → GroupCounts c hs n

/-! ## Stacks of valid histories -/

theorem stackValid_recordAll (u : List Key) {f : Flags} {cs : List FlowContext} (h : StackValid f cs) : StackValid f (recordAll u cs) := by
  induction cs generalizing f with
  | nil => exact trivial
  | cons c ps ih =>
    obtain ⟨hv, hr, hps⟩ := h
    cases hk : c.kind with
    | jump v => rw [recordAll_cons_of_jump hk]; exact ⟨hv, hr, hps⟩
    | _ => rw [recordAll_cons_of_not_jump (by rw [hk]; rfl)]; exact ⟨hv, hr, ih hps⟩

theorem Local.validStack {h : History} (l : Local s s' h) (hv : ValidStack s) : ValidStack s' := by
  obtain ⟨c, ps, hc, hc'⟩ := l.contexts
  rw [ValidStack, hc] at hv
  rw [ValidStack, hc']
  obtain ⟨hv, hr, hps⟩ := hv
  refine ⟨valid_append.mpr ⟨l.valid, l.rewind ▸ hv⟩, by rw [rewind_append, l.rewind, hr], ?_⟩
  rw [below]
  split
  · exact hps
  · exact stackValid_recordAll _ hps

theorem validStack_pushContext (hv : ValidStack s) : ValidStack (s.pushContext kind) :=
  ⟨trivial, rfl, hv⟩

theorem validStack_pushBranch (h : s.pushBranch = .ok s') (hv : ValidStack s) : ValidStack s' := by
  obtain ⟨g, ps, hs, n, covers, hc, -, rfl⟩ := pushBranch_ok h
  rw [ValidStack, hc] at hv
  exact ⟨trivial, rfl, hv⟩

theorem validStack_leave (hv : ValidStack s) : ValidStack s.leave := by
  unfold ValidStack leave at *
  split
  · next c p ps hc =>
    rw [hc] at hv
    obtain ⟨hv₁, hr₁, hv₂, hr₂, hps⟩ := hv
    exact ⟨valid_append.mpr ⟨hv₁, hr₁ ▸ hv₂⟩, by rw [rewind_append, hr₁, hr₂], hps⟩
  · exact trivial

/-- When a branch group has un-set no flag of its entry, un-setting what it set takes the flags back to the entry. -/
theorem flags_eq_entry {s₁ : Flow} (hc : s.contexts = c :: ps)
    (hv : ValidStack s) (ho : OwnUnsets s) (hf : ∀ k, s₁.flags k = (s.flags k && decide (k ∉ setKeys c.history))) : s₁.flags = c.entry := by
  rw [ValidStack, hc] at hv
  obtain ⟨-, hr, -⟩ := hv
  funext k
  have hk := congrFun hr k
  rw [rewind_apply] at hk
  rw [hf, ← hk]
  cases hfirst : first k c.history with
  | none =>
    have : k ∉ setKeys c.history := fun hm => first_eq_none.mp hfirst _ (mem_setKeys.mp hm) rfl
    simp [this]
  | some b =>
    cases b with
    | true => simp [mem_setKeys.mpr (mem_of_first hfirst)]
    | false =>
      rw [hfirst] at hk
      have := ho c ps hc _ (mem_of_first hfirst) rfl
      rw [← hk] at this
      cases this

/-! ## Groups -/

theorem GroupCounts.history (h : GroupCounts c hs n) (items : History) : GroupCounts { c with history := items ++ c.history } hs n :=
  ⟨h.sum, h.count, fun b hb k he hk => List.mem_append_right _ (h.entered b hb k he hk), h.empties⟩

theorem Local.groupTop {h : History} (l : Local s s' h) (hg : GroupTop s) : GroupTop s' := by
  obtain ⟨c, ps, hc, hc'⟩ := l.contexts
  intro d ds hs n covers hd hk
  obtain ⟨rfl, -⟩ := List.cons.inj (hd.symm.trans hc')
  exact (hg c ps hs n covers hc hk).history h

theorem groupTop_pushContext (hk : kind = .branchGroup [] 0 false ∨ kind.isBranchGroup = false) (s : Flow) : GroupTop (s.pushContext kind) := by
  intro d ds hs n covers hd hdk
  obtain ⟨rfl, -⟩ := List.cons.inj hd
  simp only at hdk
  rcases hk with rfl | hk
  · cases hdk
    exact ⟨fun _ => rfl, rfl, by simp, by simp⟩
  · rw [hdk] at hk
    cases hk

/-- A context pushed on a branch group and left adds to the group's history only. -/
theorem Inside.groupTop_leave {t : Flow} (hi : Inside t kind s c) (ht : t.contexts ≠ []) (hg : GroupTop t) : GroupTop s.leave := by
  obtain ⟨v, hv⟩ := hi.contexts
  obtain ⟨p, ps, hp⟩ := List.exists_cons_of_ne_nil ht
  obtain ⟨q, qs, hq, hh, he, -, hb, hpq, hj⟩ := recordAll_cons_eq v p ps
  rw [hp, hq] at hv
  intro d ds hs n covers hd hk
  rw [leave_contexts hv] at hd
  obtain ⟨rfl, -⟩ := List.cons.inj hd
  simp only at hk
  have hpj : p.kind.isJump = false := by
    rw [← hj, hk]
    rfl
  obtain rfl := hpq hpj
  exact (hg q ps hs n covers hp hk).history _

/-- A branch that is popped counts for what it did to each flag since the group was pushed. -/
theorem BranchBlock.groupCounts {t t₁ t' : Flow} {g : FlowContext}
    {covers : Bool} {jumps : Bool} {v : List Key} (b : BranchBlock t t₁ t' g ps hs n covers c jumps v)
    (hv : ValidStack t) (hv₁ : ValidStack t₁) (hg : GroupCounts g hs n) : GroupCounts
      { g with branches := ⟨if jumps then .jumps else .falls, c.entry, t₁.flags⟩ :: g.branches }
      (if jumps then g.history ++ hs else c.history ++ (g.history ++ hs)) (if jumps then n else n + 1) := by
  rw [ValidStack, b.group] at hv
  rw [ValidStack, b.inside] at hv₁
  obtain ⟨hvg, hrg, -⟩ := hv
  obtain ⟨hvc, hrc, -⟩ := hv₁
  have hnet : ∀ k, net k g.history = (c.entry k).toInt - (g.entry k).toInt := fun k => by
    rw [net_of_valid hvg, hrg, b.entry]
  refine ⟨fun k => ?_, ?_, ?_, ?_⟩
  · cases jumps with
    | true =>
      rw [if_pos rfl, net_append, hnet, hg.sum]
      rfl
    | false =>
      have hnc : net k c.history = (t₁.flags k).toInt - (c.entry k).toInt := by rw [net_of_valid hvc, hrc]
      rw [if_neg (by decide), net_append, net_append, hnet, hnc, hg.sum, List.map_cons, List.sum_cons]
      simp only [contribution, Bool.false_eq_true, if_false]
      ring
  · rw [hg.count]
    cases jumps <;> simp [List.countP_cons, isCounted]
  · intro e he k hgk hek
    rcases List.mem_cons.mp he with rfl | he
    · exact down_mem_of_fall hvg (by rw [hrg, hgk]) (by rw [← b.entry]; exact hek)
    · exact hg.entered e he k hgk hek
  · intro e he hx
    rcases List.mem_cons.mp he with rfl | he
    · cases jumps <;> simp at hx
    · exact hg.empties e he hx

/-! ## Sums of branch contributions -/

/-- With the flag unset at the entry of the group, its sum is the count of the branches, less those that miss it, plus those
that jump with it. -/
theorem sum_contribution_of_unset {e : Flags} (he : e k = false) (bs : List BranchEnd) :
    (bs.map (contribution e k)).sum + (bs.countP (misses k) : Int) = bs.countP isCounted + bs.countP (jumpsWith k) := by
  induction bs with
  | nil => rfl
  | cons b bs ih =>
    rw [List.map_cons, List.sum_cons, List.countP_cons, List.countP_cons, List.countP_cons]
    obtain ⟨x, entry, stop⟩ := b
    cases x <;> cases hs : stop k <;> cases hen : entry k <;> simp [contribution, misses, isCounted, jumpsWith, he, hs, hen] <;> omega

end Flow

open Flow

variable {R : Rules} {s s' : Flow}

/-- Along a run whose branch groups un-set no flag of their entry, histories stay valid and branch groups count right. -/
theorem Run.valid (hR : ∀ s, R.group s → OwnUnsets s) (h : Run R s s') (hs : s.contexts ≠ []) (hv : ValidStack s)
    (hg : GroupTop s) : ValidStack s' ∧ GroupTop s' := by
  induction h with
  | refl => exact ⟨hv, hg⟩
  | set _ _ he ih =>
    obtain ⟨hv, hg⟩ := ih hs hv hg
    exact ⟨(setFlag_ok he).2.2.2.validStack hv, (setFlag_ok he).2.2.2.groupTop hg⟩
  | unset _ he ih =>
    obtain ⟨hv, hg⟩ := ih hs hv hg
    exact ⟨(unsetFlag_ok he).2.2.2.validStack hv, (unsetFlag_ok he).2.2.2.groupTop hg⟩
  | coversAllCases _ he ih =>
    obtain ⟨hv, hg⟩ := ih hs hv hg
    obtain ⟨c, ps, gs, n, was, hc, hk, rfl⟩ := setCoversAllCases_ok he
    rw [ValidStack, hc] at hv
    refine ⟨hv, fun d ds hs' n' covers' hd hdk => ?_⟩
    obtain ⟨rfl, -⟩ := List.cons.inj hd
    cases hdk
    exact ⟨(hg c ps _ _ _ hc hk).sum, (hg c ps _ _ _ hc hk).count, (hg c ps _ _ _ hc hk).entered, (hg c ps _ _ _ hc hk).empties⟩
  | emptyBranch _ he ih =>
    obtain ⟨hv, hg⟩ := ih hs hv hg
    obtain ⟨c, ps, gs, n, covers, hc, hk, rfl⟩ := addEmptyBranch_ok he
    have hcounts := hg c ps _ _ _ hc hk
    have hvs := hv
    rw [ValidStack, hc] at hv
    refine ⟨hv, fun d ds hs' n' covers' hd hdk => ?_⟩
    obtain ⟨rfl, -⟩ := List.cons.inj hd
    cases hdk
    refine ⟨fun k => ?_, ?_, fun b hb k hek hbk => ?_, fun b hb hx => ?_⟩
    · rw [hcounts.sum, List.map_cons, List.sum_cons]
      simp [contribution]
    · rw [hcounts.count]
      simp [List.countP_cons, isCounted]
    · rcases List.mem_cons.mp hb with rfl | hb
      · exact down_mem_of_fall hv.1 (by rw [hv.2.1]; exact hek) hbk
      · exact hcounts.entered b hb k hek hbk
    · rcases List.mem_cons.mp hb with rfl | hb
      · rfl
      · exact hcounts.empties b hb hx
  | alwaysJumps _ he ih =>
    obtain ⟨hv, hg⟩ := ih hs hv hg
    rcases setAlwaysJumps_ok he with rfl | ⟨c, ps, was, hc, hk, rfl⟩
    · exact ⟨hv, hg⟩
    · rw [ValidStack, hc] at hv
      refine ⟨hv, fun d ds hs' n' covers' hd hdk => ?_⟩
      obtain ⟨rfl, -⟩ := List.cons.inj hd
      cases hdk
  | normal hr hr₂ he ih ihb =>
    obtain ⟨hv, hg⟩ := ih hs hv hg
    obtain ⟨hv₂, -⟩ := ihb (List.cons_ne_nil _ _) (validStack_pushContext hv) (groupTop_pushContext (.inr rfl) _)
    obtain ⟨c, ps, s₁, items, -, -, hl, -, -, rfl⟩ := popNormal_ok he
    obtain ⟨d, hi, -⟩ := inside_of_frame (hr₂.frame (List.cons_ne_nil _ _))
    exact ⟨validStack_leave (hl.validStack hv₂), (hi.local hl).groupTop_leave (hr.frame hs).contexts_ne hg⟩
  | branchGroup hr hr₂ hgr he ih ihb =>
    obtain ⟨hv, hg⟩ := ih hs hv hg
    obtain ⟨hv₂, -⟩ := ihb (List.cons_ne_nil _ _) (validStack_pushContext hv) (groupTop_pushContext (.inl rfl) _)
    obtain ⟨c, ps, hs', n, covers, s₁, s₂, i₁, i₂, hc, hk, hl₁, -, hf₁, hl₂, -, -, rfl⟩ := popBranchGroup_ok he
    obtain ⟨d, hi, -⟩ := inside_of_frame (hr₂.frame (List.cons_ne_nil _ _))
    have hent := flags_eq_entry hc hv₂ (hR _ hgr) hf₁
    have hclear : ValidStack s₁.clearHistory := by
      have hv₁ := hl₁.validStack hv₂
      obtain ⟨c', ps', hc', hc₁⟩ := hl₁.contexts
      obtain ⟨rfl, rfl⟩ := List.cons.inj (hc'.symm.trans hc)
      rw [ValidStack, hc₁] at hv₁
      rw [ValidStack, clearHistory_contexts hc₁, clearHistory_flags]
      exact ⟨trivial, hent, hv₁.2.2⟩
    exact ⟨validStack_leave (hl₂.validStack hclear), ((hi.local hl₁).clearHistory.local hl₂).groupTop_leave (hr.frame hs).contexts_ne hg⟩
  | branch hr hp hr₂ he ih ihb =>
    obtain ⟨hv, hg⟩ := ih hs hv hg
    have hne := pushBranch_ne hp
    have htop := groupTop_pushBranch hp
    obtain ⟨hv₂, -⟩ := ihb hne (validStack_pushBranch hp hv) htop
    obtain ⟨g, ps, gs, n, covers, c, jumps, v, b⟩ := branch_block hp (hr₂.frame hne) he
    have hcounts := b.groupCounts hv hv₂ (hg g ps gs n covers b.group b.groupKind)
    rw [ValidStack, b.inside] at hv₂
    rw [ValidStack, b.group] at hv
    refine ⟨?_, fun d ds hs' n' covers' hd hdk => ?_⟩
    · rw [ValidStack, b.after, b.flags, hv₂.2.1, b.entry]
      exact ⟨hv.1, hv.2.1, stackValid_recordAll v hv.2.2⟩
    · obtain ⟨rfl, -⟩ := List.cons.inj (hd.symm.trans b.after)
      cases hdk
      exact ⟨hcounts.sum, hcounts.count, hcounts.entered, hcounts.empties⟩
  | jump hr hr₂ he ih ihb =>
    obtain ⟨hv, hg⟩ := ih hs hv hg
    obtain ⟨hv₂, -⟩ := ihb (List.cons_ne_nil _ _) (validStack_pushContext hv) (groupTop_pushContext (.inr rfl) _)
    obtain ⟨c, ps, u, s₁, items, -, -, hl, -, -, rfl⟩ := popJump_ok he
    obtain ⟨d, hi, -⟩ := inside_of_frame (hr₂.frame (List.cons_ne_nil _ _))
    exact ⟨validStack_leave (hl.validStack hv₂), (hi.local hl).groupTop_leave (hr.frame hs).contexts_ne hg⟩
where
  groupTop_pushBranch {t t₀ : Flow} (hp : t.pushBranch = .ok t₀) : GroupTop t₀ := by
    obtain ⟨g, ps, hs, n, covers, -, -, rfl⟩ := pushBranch_ok hp
    exact groupTop_pushContext (.inr rfl) _

end CgSql
