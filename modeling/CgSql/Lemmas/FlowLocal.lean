import CgSql.Flow

/-!
# Sets and un-sets in the current context

Whatever a pop does before it leaves its context is a sequence of sets and un-sets made in that context. `Local` says what such
a sequence does to the flow state; `unset_all_improvements`, the re-un-sets of a jump context and the merging of a branch group
are all `Local`.
-/

namespace CgSql

open DeltaLog

namespace Flow

variable {h : History} {k : Key} {s s' : Flow}

/-- The keys a history un-sets. -/
def unsetKeysOf (h : History) : List Key := (h.filter (!·.up)).map (·.key)

/-- Record un-sets in the topmost jump context, the newest first. -/
def recordAll (u : List Key) : List FlowContext → List FlowContext
  | [] => []
  | c :: ps =>
    match c.kind with
    | .jump v => { c with kind := .jump (u ++ v) } :: ps
    | _ => c :: recordAll u ps

/-- The innermost jump context takes the records. -/
theorem recordAll_cons_of_jump {c : FlowContext} {v : List Key} (hc : c.kind = .jump v) (u : List Key) (ps : List FlowContext) :
    recordAll u (c :: ps) = { c with kind := .jump (u ++ v) } :: ps := by
  simp only [recordAll, hc]

/-- Other contexts pass them on. -/
theorem recordAll_cons_of_not_jump {c : FlowContext} (hc : c.kind.isJump = false) (u : List Key) (ps : List FlowContext) :
    recordAll u (c :: ps) = c :: recordAll u ps := by
  cases hk : c.kind <;> simp_all [recordAll, ContextKind.isJump]

theorem recordAll_nil (cs : List FlowContext) : recordAll [] cs = cs := by
  induction cs with
  | nil => rfl
  | cons c ps ih =>
    cases hk : c.kind with
    | jump v =>
      rw [recordAll_cons_of_jump hk, List.nil_append, ← hk]
    | _ => rw [recordAll_cons_of_not_jump (by rw [hk]; rfl), ih]

/-- Records in two steps. -/
theorem recordAll_append (u₂ u₁ : List Key) (cs : List FlowContext) : recordAll (u₂ ++ u₁) cs = recordAll u₂ (recordAll u₁ cs) := by
  induction cs with
  | nil => rfl
  | cons c ps ih =>
    cases hk : c.kind with
    | jump v =>
      rw [recordAll_cons_of_jump hk, recordAll_cons_of_jump hk, recordAll_cons_of_jump (v := u₁ ++ v) rfl, List.append_assoc]
    | _ =>
      have hj : c.kind.isJump = false := by rw [hk]; rfl
      rw [recordAll_cons_of_not_jump hj, recordAll_cons_of_not_jump hj, recordAll_cons_of_not_jump hj, ih]

/-- One record. -/
theorem recordUnset_eq (k : Key) (cs : List FlowContext) : recordUnset k cs = recordAll [k] cs := by
  induction cs with
  | nil => rfl
  | cons c ps ih =>
    cases hk : c.kind with
    | jump v => simp only [recordUnset, recordAll, hk, List.singleton_append]
    | _ => simp only [recordUnset, recordAll, hk, ih]

/-- The contexts below the current one, after the un-sets `u` were made in it. -/
def below (c : FlowContext) (u : List Key) (ps : List FlowContext) : List FlowContext :=
  if c.kind.isJump then ps else recordAll u ps

theorem below_append (c : FlowContext) (u₂ u₁ : List Key) (ps : List FlowContext) : below c (u₂ ++ u₁) ps = below c u₂ (below c u₁ ps) := by
  unfold below
  split <;> simp [recordAll_append]

theorem below_nil (c : FlowContext) (ps : List FlowContext) : below c [] ps = ps := by
  unfold below
  split <;> simp [recordAll_nil]

/-- `s'` is `s` after sets and un-sets in the current context that added the items `h` to its history. -/
structure Local (s s' : Flow) (h : History) : Prop where
  contexts : ∃ c ps, s.contexts = c :: ps ∧ s'.contexts = { c with history := h ++ c.history } :: below c (unsetKeysOf h) ps
  valid : Valid s'.flags h
  rewind : rewind s'.flags h = s.flags
  mono : ∀ k, s.unsets k ≤ s'.unsets k
  counted : ∀ k, s.unsets k < s'.unsets k ↔ (⟨k, false⟩ : Delta Key) ∈ h

/-- The un-sets of two histories. -/
theorem unsetKeysOf_append (h₂ h₁ : History) : unsetKeysOf (h₂ ++ h₁) = unsetKeysOf h₂ ++ unsetKeysOf h₁ := by
  simp [unsetKeysOf]

/-- The sets of a history. -/
theorem mem_setKeys : k ∈ setKeys h ↔ (⟨k, true⟩ : Delta Key) ∈ h := by
  constructor
  · intro hk
    obtain ⟨⟨key, up⟩, hd, rfl⟩ := List.mem_map.mp hk
    obtain ⟨hd, hup⟩ := List.mem_filter.mp hd
    cases up
    · exact absurd hup (by simp)
    · exact hd
  · intro hk
    exact List.mem_map.mpr ⟨_, List.mem_filter.mpr ⟨hk, rfl⟩, rfl⟩

theorem Local.refl (hs : s.contexts ≠ []) : Local s s [] := by
  obtain ⟨c, ps, hc⟩ := List.exists_cons_of_ne_nil hs
  exact ⟨⟨c, ps, hc, by rw [hc]; simp [unsetKeysOf, below_nil]⟩, trivial, rfl, fun _ => le_refl _, by simp⟩

theorem Local.trans {s₁ s₂ : Flow} {h₁ h₂ : History} (l₁ : Local s s₁ h₁) (l₂ : Local s₁ s₂ h₂) : Local s s₂ (h₂ ++ h₁) := by
  obtain ⟨c, ps, hc, hc₁⟩ := l₁.contexts
  obtain ⟨c', ps', hc', hc₂⟩ := l₂.contexts
  obtain ⟨rfl, rfl⟩ := List.cons.inj (hc'.symm.trans hc₁)
  refine ⟨⟨c, ps, hc, ?_⟩, valid_append.mpr ⟨l₂.valid, ?_⟩, ?_, fun k => (l₁.mono k).trans (l₂.mono k), fun k => ?_⟩
  · rw [hc₂, unsetKeysOf_append, below_append, List.append_assoc]
    rfl
  · rw [l₂.rewind]
    exact l₁.valid
  · rw [rewind_append, l₂.rewind, l₁.rewind]
  · rw [List.mem_append, ← l₁.counted, ← l₂.counted]
    have := l₁.mono k
    have := l₂.mono k
    omega

/-- What a set does. -/
theorem setFlag_ok (h : s.setFlag k = .ok s') :
    s.flags k = false ∧ s'.flags = Function.update s.flags k true ∧ s'.unsets = s.unsets ∧ Local s s' [⟨k, true⟩] := by
  unfold setFlag at h
  split at h
  · cases h
  · next c ps hc =>
    split at h
    · cases h
    · next hk =>
      cases h
      have hk : s.flags k = false := by simpa using hk
      refine ⟨hk, rfl, rfl, ⟨c, ps, hc, ?_⟩, by simp [Valid], ?_, fun _ => le_refl _, by simp⟩
      · simp [unsetKeysOf, below_nil]
      · simp [DeltaLog.rewind, ← hk]

/-- What an un-set does. -/
theorem unsetFlag_ok (h : s.unsetFlag k = .ok s') :
    s.flags k = true ∧ s'.flags = Function.update s.flags k false ∧ s'.unsets = Function.update s.unsets k (s.unsets k + 1) ∧
      Local s s' [⟨k, false⟩] := by
  unfold unsetFlag at h
  split at h
  · cases h
  · next c ps hc =>
    split at h
    · next hk =>
      cases h
      refine ⟨hk, rfl, rfl, ⟨c, ps, hc, ?_⟩, by simp [Valid], by simp [DeltaLog.rewind, ← hk], fun k' => ?_, fun k' => ?_⟩
      · simp [unsetKeysOf, below, recordUnset_eq]
      all_goals
        by_cases hkk : k' = k
        · subst hkk
          simp
        · simp [hkk]
    · cases h

/-- A flag that is not set can be. -/
theorem setFlag_of_unset (hs : s.contexts ≠ []) (hk : s.flags k = false) : ∃ s', s.setFlag k = .ok s' := by
  obtain ⟨c, ps, hc⟩ := List.exists_cons_of_ne_nil hs
  simp [setFlag, hc, hk]

/-- A flag that is set can be un-set. -/
theorem unsetFlag_of_set (hs : s.contexts ≠ []) (hk : s.flags k = true) : ∃ s', s.unsetFlag k = .ok s' := by
  obtain ⟨c, ps, hc⟩ := List.exists_cons_of_ne_nil hs
  simp [unsetFlag, hc, hk]

theorem Local.contexts_ne (l : Local s s' h) : s'.contexts ≠ [] := by
  obtain ⟨c, ps, -, hc'⟩ := l.contexts
  simp [hc']

/-- Un-setting the keys that are set never fails, leaves exactly them unset and records nothing but un-sets. -/
theorem unsetKeys_spec (ks : List Key) (hs : s.contexts ≠ []) :
    ∃ s' h, unsetKeys ks s = .ok s' ∧ Local s s' h ∧ (∀ d ∈ h, d.up = false ∧ d.key ∈ ks) ∧ ∀ k, s'.flags k = (s.flags k && decide (k ∉ ks)) := by
  induction ks generalizing s with
  | nil => exact ⟨s, [], rfl, .refl hs, by simp, by simp⟩
  | cons k ks ih =>
    by_cases hk : s.flags k = true
    · obtain ⟨s₁, h₁⟩ := unsetFlag_of_set hs hk
      obtain ⟨-, hf, -, hl⟩ := unsetFlag_ok h₁
      obtain ⟨s', h, hu, hl', hd, hf'⟩ := ih hl.contexts_ne
      refine ⟨s', h ++ [⟨k, false⟩], by simp [unsetKeys, hk, h₁, Except.bind, hu], hl.trans hl', ?_, fun k' => ?_⟩
      · intro d hmem
        rcases List.mem_append.mp hmem with hmem | hmem
        · exact ⟨(hd d hmem).1, List.mem_cons_of_mem _ (hd d hmem).2⟩
        · obtain rfl := List.mem_singleton.mp hmem
          exact ⟨rfl, List.mem_cons_self⟩
      · rw [hf', hf]
        by_cases hkk : k' = k
        · subst hkk
          simp
        · simp [hkk]
    · obtain ⟨s', h, hu, hl, hd, hf⟩ := ih hs
      refine ⟨s', h, by simp [unsetKeys, hk, hu], hl, fun d hmem => ⟨(hd d hmem).1, List.mem_cons_of_mem _ (hd d hmem).2⟩, fun k' => ?_⟩
      rw [hf]
      by_cases hkk : k' = k
      · subst hkk
        simp [hk]
      · simp [hkk]

/-- Local calls that only un-set found every key they un-set to be set. -/
theorem Local.set_of_down (l : Local s s' h) (hd : ∀ d ∈ h, d.up = false) {d : Delta Key} (hmem : d ∈ h) : s.flags d.key = true := by
  rw [← l.rewind, rewind_apply]
  cases hf : first d.key h with
  | none => exact absurd rfl (first_eq_none.mp hf d hmem)
  | some b =>
    have hb : b = false := hd _ (mem_of_first hf)
    simp [hb]

/-! ## Merging -/

/-- What merging does to a flag of the given sum. -/
def mergedFlag (n : Nat) (covers : Bool) (sum : Int) (flag : Bool) : Bool :=
  if covers = true ∧ sum = n then true else if sum < 0 then false else flag

/-- What merging a key does. -/
theorem mergeEffects_ok {n : Nat} {covers : Bool} {sum : Int} (h : s.mergeEffects n covers k sum = .ok s') (hs : s.contexts ≠ []) :
    (∃ items, Local s s' items ∧ ∀ d ∈ items, d.key = k) ∧ s'.flags = Function.update s.flags k (mergedFlag n covers sum (s.flags k)) := by
  unfold mergeEffects at h
  split at h
  · cases h
  split at h
  · cases h
  split at h
  · cases h
  split at h
  · cases h
  split at h
  · next hset =>
    obtain ⟨-, hf, -, hl⟩ := setFlag_ok h
    exact ⟨⟨_, hl, by simp⟩, by rw [hf, mergedFlag, if_pos hset]⟩
  · next hset =>
    split at h
    · next hneg =>
      obtain ⟨-, hf, -, hl⟩ := unsetFlag_ok h
      exact ⟨⟨_, hl, by simp⟩, by rw [hf, mergedFlag, if_neg hset, if_pos hneg]⟩
    · next hneg =>
      cases h
      exact ⟨⟨_, .refl hs, by simp⟩, by rw [mergedFlag, if_neg hset, if_neg hneg, Function.update_eq_self]⟩

/-- Merging a list of sums that names every key once treats the keys one by one. -/
theorem mergeAll_ok {n : Nat} {covers : Bool} {sums : List (Key × Int)}
    (h : mergeAll n covers sums s = .ok s') (hs : s.contexts ≠ []) (hn : (sums.map Prod.fst).Nodup) :
    (∃ items, Local s s' items ∧ ∀ d ∈ items, d.key ∈ sums.map Prod.fst) ∧
      (∀ k sum, (k, sum) ∈ sums → s'.flags k = mergedFlag n covers sum (s.flags k)) ∧ ∀ k, k ∉ sums.map Prod.fst → s'.flags k = s.flags k := by
  induction sums generalizing s with
  | nil =>
    cases h
    exact ⟨⟨[], .refl hs, by simp⟩, by simp, by simp⟩
  | cons p sums ih =>
    obtain ⟨k, sum⟩ := p
    rw [mergeAll] at h
    cases hm : s.mergeEffects n covers k sum with
    | error a => simp [hm, Except.bind] at h
    | ok s₁ =>
      rw [hm] at h
      obtain ⟨⟨i₁, hl₁, hi₁⟩, hf₁⟩ := mergeEffects_ok hm hs
      obtain ⟨hk, hn⟩ := List.nodup_cons.mp hn
      obtain ⟨⟨i₂, hl₂, hi₂⟩, hf₂, hf₂'⟩ := ih h hl₁.contexts_ne hn
      refine ⟨⟨i₂ ++ i₁, hl₁.trans hl₂, ?_⟩, fun k' sum' hmem => ?_, fun k' hk' => ?_⟩
      · intro d hd
        rcases List.mem_append.mp hd with hd | hd
        · exact List.mem_cons_of_mem _ (hi₂ d hd)
        · rw [hi₁ d hd]
          exact List.mem_cons_self
      · rcases List.mem_cons.mp hmem with heq | hmem
        · obtain ⟨rfl, rfl⟩ := Prod.mk.inj heq
          rw [hf₂' k' hk, hf₁, Function.update_self]
        · have hne : k' ≠ k := fun he => hk (he ▸ List.mem_map.mpr ⟨_, hmem, rfl⟩)
          rw [hf₂ k' sum' hmem, hf₁, Function.update_of_ne hne]
      · have hne : k' ≠ k := fun he => hk' (by simp [he])
        rw [hf₂' k' fun hm => hk' (List.mem_cons_of_mem _ hm), hf₁, Function.update_of_ne hne]

end Flow

end CgSql
