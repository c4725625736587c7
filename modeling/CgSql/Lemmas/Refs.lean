import CgSql.Dictionary

/-!
# Retaining and releasing

What `cql_retain` and `cql_release` do to the counts of a table's or a list's references, for one reference and for a value that may be
one.
-/

namespace CgSql.Hashing

variable {s : Refs} {r : Ref}
variable {o : Option Ref}

theorem retain_spec (h : s.Alive r) : ∃ s', s.retain r = some s' ∧ s'.given = s.given ∧ ∀ q, s'.held q = s.held q + if r = q then 1 else 0 := by
  refine ⟨_, if_pos h, rfl, fun q => ?_⟩
  by_cases hq : r = q
  · subst hq
    simp
  · simp [Function.update_of_ne (Ne.symm hq), hq]

theorem release_spec (h : 0 < s.held r) :
    ∃ s', s.release r = some s' ∧ s'.given = s.given ∧ ∀ q, s.held q = s'.held q + if r = q then 1 else 0 := by
  refine ⟨_, if_pos h, rfl, fun q => ?_⟩
  by_cases hq : r = q
  · subst hq
    simp only [Function.update_self, if_true]
    omega
  · simp [Function.update_of_ne (Ne.symm hq), hq]

/-- What a value counts for a reference. -/
def weight (o : Option Ref) (r : Ref) : Nat := if o = some r then 1 else 0

theorem weight_self (h : r ∈ o) : weight o r = 1 := if_pos h

theorem retainOption_spec (h : ∀ r ∈ o, s.Alive r) :
    ∃ s', o.elim (some s) (fun r => s.retain r) = some s' ∧ s'.given = s.given ∧ ∀ q, s'.held q = s.held q + weight o q := by
  cases o with
  | none => exact ⟨s, rfl, rfl, fun q => by simp [weight]⟩
  | some r =>
    obtain ⟨s', hretain, hgiven, hheld⟩ := retain_spec (h r rfl)
    exact ⟨s', hretain, hgiven, fun q => by simp [weight, hheld q]⟩

theorem releaseOption_spec (h : ∀ r ∈ o, 0 < s.held r) :
    ∃ s', o.elim (some s) (fun r => s.release r) = some s' ∧ s'.given = s.given ∧ ∀ q, s.held q = s'.held q + weight o q := by
  cases o with
  | none => exact ⟨s, rfl, rfl, fun q => by simp [weight]⟩
  | some r =>
    obtain ⟨s', hrelease, hgiven, hheld⟩ := release_spec (h r rfl)
    exact ⟨s', hrelease, hgiven, fun q => by simp [weight, hheld q]⟩

end CgSql.Hashing
