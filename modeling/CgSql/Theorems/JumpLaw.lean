import CgSql.Lemmas.FlowTracked

/-!
# Jump contexts

What was un-set inside a jump context must be unset after it, since the rest of the context may not have been executed. The
statements are about every run inside a jump context: every nesting of contexts and every order of sets and un-sets.
-/

namespace CgSql

open DeltaLog Flow

/-- The jump-context law, for the runs held to `R`: a flag that was unset when the jump context was pushed, or was un-set inside
it or in any context nested in it, is not set once it is popped. -/
def JumpLaw (R : Rules) : Prop :=
  ∀ t t₁ t' : Flow, Run R t.pushJump t₁ → t₁.popJump = .ok t' → ∀ k, t.flags k = false ∨ t.unsets k < t'.unsets k → t'.flags k = false

/-- Runs whose branch groups, when popped, keep the un-sets made inside them. -/
def Rules.recording : Rules := ⟨fun _ => True, RecordsUnsets⟩

/-- The law holds of every run whose branch groups keep their un-sets. -/
theorem jump_law_of_recording (R : Rules) (hR : ∀ s, R.group s → RecordsUnsets s) : JumpLaw R := by
  intro t t₁ t' hr he k hk
  rcases hk with hk | hk
  · by_contra h
    rw [(popJump_le hr he (by simpa using h)).1] at hk
    cases hk
  · exact hr.popJump_unset hR he hk

namespace JumpLawAux

/-- The nullability flag of a variable. -/
def x : Key := (0, .inferredNotnull)

/-- The state before a loop or TRY, with the variable improved. -/
def improved : Flow := { flags := Function.update (fun _ => false) x true, contexts := [], unsets := fun _ => 0 }

end JumpLawAux

open JumpLawAux in
/-- The law fails of some runs. In a branch inside the outer jump context the variable is un-set in a nested jump context, which
records the un-set in its own history only, and is set again before the branch ends: the branch is neutral, and the outer context
never hears of the un-set. -/
theorem jump_law_false : ¬ JumpLaw .free := by
  intro h
  have hrun : Run .free improved.pushJump _ :=
    .branchGroup .refl (.branch .refl rfl (.set (k := x) (.jump .refl (.unset (k := x) .refl rfl) rfl) trivial rfl) rfl) trivial rfl
  exact absurd (h improved _ _ hrun rfl x (.inr (by decide))) (by decide)

open JumpLawAux in
/-- The law at work: in a branch the variable is un-set and set again, so that it is set at the end of the jump context; the
un-set was recorded, and the variable is unset after it. -/
theorem jump_law_of_recording_branch : ∃ t₁ t' : Flow, Run .recording improved.pushJump t₁ ∧ t₁.popJump = .ok t' ∧
    t₁.flags x = true ∧ t'.flags x = false := by
  have hrun : Run .recording improved.pushJump _ :=
    .branchGroup .refl (.branch .refl rfl (.set (k := x) (.unset (k := x) .refl rfl) trivial rfl) rfl) (by
        intro c ps hs n covers u hc hk hu k hlt
        obtain ⟨rfl, rfl⟩ := List.cons.inj hc
        obtain rfl := Option.some.inj hu
        by_cases hkx : k = x
        · exact .inl (by simp [hkx])
        · exact absurd hlt (by simp [pushContext, pushBranchGroup, pushJump, Function.update_of_ne hkx]))
      rfl
  exact ⟨_, _, hrun, rfl, rfl, jump_law_of_recording .recording (fun _ h => h) improved _ _ hrun rfl x (.inr (by decide))⟩

end CgSql
