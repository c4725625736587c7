import CgSql.Lemmas.SemTracks

/-!
# What is improved

The flags after each function that sets or un-sets improvements, where analysis ends without an error.
-/

namespace CgSql

open Flow M

section

variable {α β : Type}

/-! ## Results -/

@[simp] theorem bind_ok_iff {m : M α} {f : α → M β} {s u : Sem} {b : β} :
    (m >>= f) s = (.ok b, u) ↔ ∃ a t, m s = (.ok a, t) ∧ f a t = (.ok b, u) := by
  refine ⟨bind_ok, ?_⟩
  rintro ⟨a, t, hm, hf⟩
  change andThen m f s = _
  unfold andThen
  rw [hm]
  exact hf

@[simp] theorem pure_ok_iff {a b : α} {s u : Sem} : (pure a : M α) s = (.ok b, u) ↔ a = b ∧ s = u := by
  change ((.ok a, s) : Except Stop α × Sem) = (.ok b, u) ↔ _
  simp

@[simp] theorem get_ok_iff {s t u : Sem} : M.get s = (.ok t, u) ↔ s = t ∧ s = u := by
  change ((.ok s, s) : Except Stop Sem × Sem) = (.ok t, u) ↔ _
  simp

@[simp] theorem flow_ok_iff {f : Flow → Except FlowAssertion Flow} {x : Unit} {s u : Sem} :
    M.flow f s = (.ok x, u) ↔ ∃ t, f s.flow = .ok t ∧ u = { s with flow := t } := by
  constructor
  · intro h
    rcases flow_eq h with ⟨t, ht, -, rfl⟩ | ⟨a, -, hr, -⟩
    · exact ⟨t, ht, rfl⟩
    · cases hr
  · rintro ⟨t, ht, rfl⟩
    unfold M.flow
    rw [ht]

end

variable {Γ : Env} {s u : Sem} {x : Unit}

/-! ## Setting and un-setting -/

theorem raise_ok {k : Key} (h : raise k s = (.ok x, u)) :
    ∃ f, u = { s with flow := f } ∧ ∀ k', f.flags k' = (s.flow.flags k' || decide (k' = k)) := by
  unfold raise at h
  simp only [bind_ok_iff, get_ok_iff] at h
  obtain ⟨_, _, ⟨rfl, rfl⟩, h⟩ := h
  split at h
  · next hk =>
    obtain ⟨-, rfl⟩ := pure_ok_iff.mp h
    refine ⟨_, rfl, fun k' => ?_⟩
    by_cases hkk : k' = k
    · simp_all
    · simp [hkk]
  · obtain ⟨f, hf, rfl⟩ := flow_ok_iff.mp h
    refine ⟨f, rfl, fun k' => ?_⟩
    rw [(setFlag_ok hf).2.1]
    by_cases hk : k' = k <;> simp [hk]

theorem semSetNotnullImproved_ok {l : Loc} (h : semSetNotnullImproved Γ l s = (.ok x, u)) :
    Γ.resolves l = true ∧ ∃ f gs, u = { s with flow := f, globals := gs } ∧
      ∀ k, f.flags k = (s.flow.flags k || (decide (k = Γ.notnullKey l) && !Γ.notNull s.loop l)) := by
  rw [Tracks.semSetNotnullImproved_eq] at h
  split at h
  · cases h
  · next hres =>
    refine ⟨by simpa using hres, ?_⟩
    split at h
    · next hset =>
      cases h
      refine ⟨_, _, rfl, fun k => ?_⟩
      by_cases hk : k = Γ.notnullKey l
      · subst hk
        rcases Bool.or_eq_true_iff.mp hset with hn | hf <;> simp_all
      · simp [hk]
    · next hset =>
      obtain ⟨f, hf, rfl⟩ := flow_ok_iff.mp h
      refine ⟨f, _, rfl, fun k => ?_⟩
      rw [(setFlag_ok hf).2.1]
      by_cases hk : k = Γ.notnullKey l <;> simp_all [Tracks.listed, Function.update_apply]

/-- The flags after an improvement by a condition: what was set is set, and what was not is one of the names the condition
improves. -/
structure Improved (Γ : Env) (ls : List Loc) (s u : Sem) : Prop where
  loop : u.loop = s.loop
  keeps : ∀ k, s.flow.flags k = true → u.flow.flags k = true
  new : ∀ k, u.flow.flags k = true → s.flow.flags k = true ∨ ∃ l ∈ ls, k = Γ.improvedKey l ∧ Γ.notNull s.loop l = false

namespace Improved

variable {ls : List Loc}

theorem trans {ls' : List Loc} {s t u : Sem} (h₁ : Improved Γ ls s t) (h₂ : Improved Γ ls' t u) : Improved Γ (ls ++ ls') s u := by
  refine ⟨h₂.loop.trans h₁.loop, fun k hk => h₂.keeps k (h₁.keeps k hk), fun k hk => ?_⟩
  rcases h₂.new k hk with hk | ⟨l, hl, hkl, hn⟩
  · exact (h₁.new k hk).imp_right fun ⟨l, hl, h⟩ => ⟨l, List.mem_append_left _ hl, h⟩
  · exact .inr ⟨l, List.mem_append_right _ hl, hkl, h₁.loop ▸ hn⟩

theorem name {l : Loc} (h : semSetNotnullImproved Γ l s = (.ok x, u)) : Improved Γ [l] s u := by
  obtain ⟨hres, f, gs, rfl, hf⟩ := semSetNotnullImproved_ok h
  have hkey : Γ.improvedKey l = Γ.notnullKey l := by
    cases l <;> first | rfl | cases hres
  refine ⟨rfl, fun k hk => by simp [hf, hk], fun k hk => ?_⟩
  simp only [hf, Bool.or_eq_true, Bool.and_eq_true, decide_eq_true_eq, Bool.not_eq_true'] at hk
  exact hk.imp_right fun ⟨hk, hn⟩ => ⟨l, List.mem_singleton_self l, by rw [hkey, hk], hn⟩

theorem row {c : Nat} (hc : Γ.isCursor c = true) (h : semSetHasRowImproved Γ c s = (.ok x, u)) : Improved Γ [.cursor c] s u := by
  obtain ⟨f, rfl, hf⟩ := raise_ok h
  refine ⟨rfl, fun k hk => by simp [hf, hk], fun k hk => ?_⟩
  simp only [hf, Bool.or_eq_true, decide_eq_true_eq] at hk
  refine hk.imp_right fun hk => ⟨_, List.mem_singleton_self _, hk, ?_⟩
  simp only [Env.isCursor, beq_iff_eq] at hc
  simp [Env.notNull, hc]

theorem ofTrue {e : Expr} {x : Unit} (h : semSetImprovementsForTrueCondition Γ e s = (.ok x, u)) : Improved Γ e.improvedIfTrue s u := by
  fun_induction semSetImprovementsForTrueCondition Γ e generalizing s u x with
  | case1 l r ihl ihr =>
    obtain ⟨_, t, h₁, h₂⟩ := bind_ok h
    exact (ihl h₁).trans (ihr h₂)
  | case2 c hc => exact row hc h
  | case3 c hc =>
    obtain ⟨-, rfl⟩ := pure_ok_iff.mp h
    exact ⟨rfl, fun _ => id, fun _ => .inl⟩
  | case4 l ty => exact name h
  | case5 e h₁ h₂ h₃ =>
    obtain ⟨-, rfl⟩ := pure_ok_iff.mp h
    exact ⟨rfl, fun _ => id, fun _ => .inl⟩

theorem ofFalse {e : Expr} {x : Unit} (h : semSetImprovementsForFalseCondition Γ e s = (.ok x, u)) : Improved Γ e.improvedIfFalse s u := by
  fun_induction semSetImprovementsForFalseCondition Γ e generalizing s u x with
  | case1 l r ihl ihr =>
    obtain ⟨_, t, h₁, h₂⟩ := bind_ok h
    exact (ihl h₁).trans (ihr h₂)
  | case2 c hc => exact row hc h
  | case3 c hc =>
    obtain ⟨-, rfl⟩ := pure_ok_iff.mp h
    exact ⟨rfl, fun _ => id, fun _ => .inl⟩
  | case4 l ty => exact name h
  | case5 e h₁ h₂ h₃ =>
    obtain ⟨-, rfl⟩ := pure_ok_iff.mp h
    exact ⟨rfl, fun _ => id, fun _ => .inl⟩

end Improved

end CgSql
