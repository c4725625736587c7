import Mathlib.Data.List.Sort
import Mathlib.Tactic.Ring
import Mathlib.Tactic.Linarith

/-!
# Delta logs

An undo log over a table of boolean flags. Every entry names a key and says whether the key went up (was set) or down (was
unset); a log is kept newest entry first. `rewind` takes a table back through a log, `Valid` says that every entry changed its
key when it was made, and `net` is the signed sum of one key's entries.
-/

namespace DeltaLog

variable {K : Type*} [DecidableEq K]
variable {f : K → Bool} {k : K}

/-- One entry of a log: a key and the direction it went. -/
structure Delta (K : Type*) where
  key : K
  up : Bool
  deriving DecidableEq

/-- The signed amount of an entry, as summed by `net`. -/
def Delta.amount (d : Delta K) : Int := if d.up then 1 else -1

/-- The table before the log was made, when `f` is the table after. -/
def rewind (f : K → Bool) : List (Delta K) → K → Bool
  | [] => f
  | d :: h => rewind (Function.update f d.key (!d.up)) h

/-- Every entry of the log changed its key: read from the newest entry, each leaves its key as it says, and the table before
it held the opposite. -/
def Valid (f : K → Bool) : List (Delta K) → Prop
  | [] => True
  | d :: h => f d.key = d.up ∧ Valid (Function.update f d.key (!d.up)) h

/-- The signed sum of the entries of `k`. -/
def net (k : K) : List (Delta K) → Int
  | [] => 0
  | d :: h => (if d.key = k then d.amount else 0) + net k h

/-- The direction of the oldest entry of `k`, if the log has one. -/
def first (k : K) : List (Delta K) → Option Bool
  | [] => none
  | d :: h => (first k h).or (if d.key = k then some d.up else none)

/-! ## Appending -/

@[simp] theorem rewind_nil (f : K → Bool) : rewind f [] = f := rfl

@[simp] theorem net_nil (k : K) : net k ([] : List (Delta K)) = 0 := rfl

theorem rewind_append (f : K → Bool) (h₁ h₂ : List (Delta K)) : rewind f (h₁ ++ h₂) = rewind (rewind f h₁) h₂ := by
  induction h₁ generalizing f with
  | nil => rfl
  | cons d h ih => exact ih _

theorem valid_append {h₁ h₂ : List (Delta K)} : Valid f (h₁ ++ h₂) ↔ Valid f h₁ ∧ Valid (rewind f h₁) h₂ := by
  induction h₁ generalizing f with
  | nil => simp [Valid]
  | cons d h ih =>
    simp only [List.cons_append, Valid, rewind, ih]
    tauto

theorem net_append (k : K) (h₁ h₂ : List (Delta K)) : net k (h₁ ++ h₂) = net k h₁ + net k h₂ := by
  induction h₁ with
  | nil => simp
  | cons d h ih =>
    simp only [List.cons_append, net, ih]
    ring

theorem first_append (k : K) (h₁ h₂ : List (Delta K)) : first k (h₁ ++ h₂) = (first k h₂).or (first k h₁) := by
  induction h₁ with
  | nil => simp [first]
  | cons d h ih => simp only [List.cons_append, first, ih, Option.or_assoc]

/-! ## What a log says about one key -/

theorem first_eq_none {h : List (Delta K)} : first k h = none ↔ ∀ d ∈ h, d.key ≠ k := by
  induction h with
  | nil => simp [first]
  | cons d h ih =>
    simp only [first, Option.or_eq_none_iff, ih, List.mem_cons, forall_eq_or_imp]
    by_cases hk : d.key = k <;> simp [hk]

theorem mem_of_first {b : Bool} {h : List (Delta K)} (hf : first k h = some b) : (⟨k, b⟩ : Delta K) ∈ h := by
  induction h with
  | nil => simp [first] at hf
  | cons d h ih =>
    simp only [first, Option.or_eq_some_iff] at hf
    rcases hf with hf | ⟨-, hf⟩
    · exact List.mem_cons_of_mem _ (ih hf)
    · by_cases hk : d.key = k
      · obtain ⟨key, up⟩ := d
        simp_all
      · simp [hk] at hf

/-- Rewinding a log leaves a key as it was before the key's oldest entry, whatever the later ones say. -/
theorem rewind_apply (f : K → Bool) (h : List (Delta K)) (k : K) : rewind f h k = ((first k h).map not).getD (f k) := by
  induction h generalizing f with
  | nil => rfl
  | cons d h ih =>
    rw [rewind, ih, first]
    cases hf : first k h with
    | some b => simp
    | none =>
      by_cases hk : d.key = k
      · subst hk
        simp
      · simp [hk, Function.update_of_ne (Ne.symm hk)]

theorem rewind_of_not_mem {h : List (Delta K)} (hk : ∀ d ∈ h, d.key ≠ k) : rewind f h k = f k := by
  rw [rewind_apply, first_eq_none.mpr hk]
  rfl

/-- In a valid log the entries of a key alternate, so their sum is the difference between the key's ends. -/
theorem net_of_valid {h : List (Delta K)} (hv : Valid f h) (k : K) : net k h = (f k).toInt - (rewind f h k).toInt := by
  induction h generalizing f with
  | nil => simp [net]
  | cons d h ih =>
    obtain ⟨hd, hv⟩ := hv
    rw [net, ih hv, rewind]
    by_cases hk : d.key = k
    · subst hk
      rw [Function.update_self, hd, if_pos rfl]
      cases hu : d.up <;> simp [Delta.amount, hu] <;> ring
    · rw [Function.update_of_ne (Ne.symm hk), if_neg hk, zero_add]

theorem net_mem_of_valid {h : List (Delta K)} (hv : Valid f h) (k : K) : -1 ≤ net k h ∧ net k h ≤ 1 := by
  rw [net_of_valid hv]
  cases f k <;> cases rewind f h k <;> simp

/-- The newest entry of a key goes the way the key stands. -/
theorem newest_mem {h : List (Delta K)} (hv : Valid f h) (hk : ∃ d ∈ h, d.key = k) : (⟨k, f k⟩ : Delta K) ∈ h := by
  induction h generalizing f with
  | nil => simp at hk
  | cons d h ih =>
    obtain ⟨hd, hv⟩ := hv
    by_cases hdk : d.key = k
    · obtain ⟨key, up⟩ := d
      simp only at hdk hd
      subst hdk
      rw [hd]
      exact List.mem_cons_self
    · obtain ⟨e, he, hek⟩ := hk
      rcases List.mem_cons.mp he with rfl | he
      · exact absurd hek hdk
      · have := ih hv ⟨e, he, hek⟩
        rw [Function.update_of_ne (Ne.symm hdk)] at this
        exact List.mem_cons_of_mem _ this

/-- A key that was up before a valid log and is down after it has a down entry. -/
theorem down_mem_of_fall {h : List (Delta K)} (hv : Valid f h) (hr : rewind f h k = true) (hf : f k = false) : (⟨k, false⟩ : Delta K) ∈ h := by
  rw [← hf]
  refine newest_mem hv ?_
  by_contra hno
  rw [rewind_of_not_mem fun d hd he => hno ⟨d, hd, he⟩, hf] at hr
  cases hr

/-! ## Sums over a grouped log -/

/-- The sums of the runs of equal keys, the run of `prev` having summed to `sum` so far. -/
def runSums : Delta K → Int → List (Delta K) → List (K × Int)
  | prev, sum, [] => [(prev.key, sum)]
  | prev, sum, cur :: rest =>
    if prev.key ≠ cur.key then (prev.key, sum) :: runSums cur cur.amount rest
    else runSums cur (sum + cur.amount) rest

/-- The sum of every run of equal keys in a log. -/
def deltaSums : List (Delta K) → List (K × Int)
  | [] => []
  | d :: rest => runSums d d.amount rest

variable {rank : K → Nat}

/-- The log is grouped by `rank`, which tells its keys apart. -/
def Grouped (rank : K → Nat) (h : List (Delta K)) : Prop :=
  h.Pairwise (fun a b => rank a.key ≤ rank b.key) ∧ ∀ a ∈ h, ∀ b ∈ h, rank a.key = rank b.key → a.key = b.key

omit [DecidableEq K] in
theorem Grouped.tail {d : Delta K} {h : List (Delta K)} (hg : Grouped rank (d :: h)) : Grouped rank h :=
  ⟨hg.1.tail, fun a ha b hb => hg.2 a (List.mem_cons_of_mem _ ha) b (List.mem_cons_of_mem _ hb)⟩

theorem net_eq_zero_of_not_mem {h : List (Delta K)} (hk : ∀ d ∈ h, d.key ≠ k) : net k h = 0 := by
  induction h with
  | nil => rfl
  | cons d h ih =>
    rw [net, if_neg (hk d List.mem_cons_self), ih fun e he => hk e (List.mem_cons_of_mem _ he), add_zero]

omit [DecidableEq K] in
/-- A key whose run has ended does not come back in a grouped log. -/
theorem Grouped.not_mem_of_ne {prev cur : Delta K} {rest : List (Delta K)} (hg : Grouped rank (prev :: cur :: rest))
    (hne : prev.key ≠ cur.key) : ∀ d ∈ cur :: rest, d.key ≠ prev.key := by
  intro d hd he
  have h₁ : rank prev.key ≤ rank cur.key := (List.pairwise_cons.mp hg.1).1 cur List.mem_cons_self
  have h₂ : rank cur.key ≤ rank d.key := by
    rcases List.mem_cons.mp hd with rfl | hd
    · exact le_refl _
    · exact (List.pairwise_cons.mp hg.tail.1).1 d hd
  exact hne (hg.2 prev List.mem_cons_self cur (by simp) (le_antisymm h₁ (he ▸ h₂)))

theorem mem_runSums {prev : Delta K} {rest : List (Delta K)} (hg : Grouped rank (prev :: rest)) (sum : Int) (k : K) (s : Int) :
    (k, s) ∈ runSums prev sum rest ↔ (k = prev.key ∧ s = sum + net k rest) ∨ (k ≠ prev.key ∧ (∃ d ∈ rest, d.key = k) ∧ s = net k rest) := by
  induction rest generalizing prev sum with
  | nil => simp [runSums]
  | cons cur rest ih =>
    rw [runSums]
    split
    · next hne =>
      have hnot := hg.not_mem_of_ne hne
      rw [List.mem_cons, ih hg.tail]
      constructor
      · rintro (heq | ⟨rfl, rfl⟩ | ⟨hk, ⟨d, hd, rfl⟩, rfl⟩)
        · obtain ⟨rfl, rfl⟩ := Prod.mk.inj heq
          exact .inl ⟨rfl, by rw [net_eq_zero_of_not_mem hnot, add_zero]⟩
        · exact .inr ⟨Ne.symm hne, ⟨cur, List.mem_cons_self, rfl⟩, by simp [net]⟩
        · refine .inr ⟨hnot d (List.mem_cons_of_mem _ hd), ⟨d, List.mem_cons_of_mem _ hd, rfl⟩, ?_⟩
          rw [net, if_neg (Ne.symm hk), zero_add]
      · rintro (⟨rfl, rfl⟩ | ⟨hk, ⟨d, hd, rfl⟩, rfl⟩)
        · exact .inl (by rw [net_eq_zero_of_not_mem hnot, add_zero])
        · refine .inr ?_
          by_cases hc : d.key = cur.key
          · exact .inl ⟨hc, by rw [net, if_pos hc.symm]⟩
          · refine .inr ⟨hc, ?_, by rw [net, if_neg (Ne.symm hc), zero_add]⟩
            rcases List.mem_cons.mp hd with rfl | hd
            · exact absurd rfl hc
            · exact ⟨d, hd, rfl⟩
    · next heq =>
      have heq : prev.key = cur.key := not_not.mp heq
      rw [ih hg.tail, ← heq]
      constructor
      · rintro (⟨rfl, rfl⟩ | ⟨hk, ⟨d, hd, rfl⟩, rfl⟩)
        · refine .inl ⟨rfl, ?_⟩
          rw [net, if_pos heq.symm]
          ring
        · refine .inr ⟨hk, ⟨d, List.mem_cons_of_mem _ hd, rfl⟩, ?_⟩
          rw [net, if_neg fun h => hk (h.symm.trans heq.symm), zero_add]
      · rintro (⟨rfl, rfl⟩ | ⟨hk, ⟨d, hd, rfl⟩, rfl⟩)
        · refine .inl ⟨rfl, ?_⟩
          rw [net, if_pos heq.symm]
          ring
        · rcases List.mem_cons.mp hd with rfl | hd
          · exact absurd heq.symm hk
          · refine .inr ⟨hk, ⟨d, hd, rfl⟩, ?_⟩
            rw [net, if_neg fun h => hk (h.symm.trans heq.symm), zero_add]

/-- Over a grouped log, the run sums are the net sums of its keys. -/
theorem mem_deltaSums {h : List (Delta K)} (hg : Grouped rank h) (k : K) (s : Int) :
    (k, s) ∈ deltaSums h ↔ (∃ d ∈ h, d.key = k) ∧ s = net k h := by
  cases h with
  | nil => simp [deltaSums]
  | cons d rest =>
    rw [deltaSums, mem_runSums hg, net]
    by_cases hk : k = d.key
    · subst hk
      simp
    · simp [hk, Ne.symm hk]

/-- The run sums of a grouped log name every key once. -/
theorem nodup_deltaSums {h : List (Delta K)} (hg : Grouped rank h) : ((deltaSums h).map Prod.fst).Nodup := by
  have aux : ∀ (rest : List (Delta K)) (prev : Delta K) (sum : Int), Grouped rank (prev :: rest) →
      ((runSums prev sum rest).map Prod.fst).Nodup := by
    intro rest
    induction rest with
    | nil => simp [runSums]
    | cons cur rest ih =>
      intro prev sum hg
      rw [runSums]
      split
      · next hne =>
        rw [List.map_cons, List.nodup_cons]
        refine ⟨?_, ih _ _ hg.tail⟩
        rintro hmem
        obtain ⟨⟨k, s⟩, hks, rfl⟩ := List.mem_map.mp hmem
        rcases (mem_runSums hg.tail _ _ _).mp hks with ⟨hk, -⟩ | ⟨-, ⟨d, hd, hk⟩, -⟩
        · exact hne hk
        · exact hg.not_mem_of_ne hne d (List.mem_cons_of_mem _ hd) hk
      · exact ih _ _ hg.tail
  cases h with
  | nil => simp [deltaSums]
  | cons d rest => exact aux rest d _ hg

omit [DecidableEq K] in
/-- Sorting a log by a rank that tells its keys apart groups it. -/
theorem grouped_insertionSort (rank : K → Nat) {h : List (Delta K)} (hr : ∀ a ∈ h, ∀ b ∈ h, rank a.key = rank b.key → a.key = b.key) :
    Grouped rank (h.insertionSort fun a b => rank a.key ≤ rank b.key) := by
  refine ⟨?_, fun a ha b hb => hr a ((List.mem_insertionSort _).mp ha) b ((List.mem_insertionSort _).mp hb)⟩
  have : Std.Total (fun a b : Delta K => rank a.key ≤ rank b.key) := ⟨fun a b => le_total _ _⟩
  have : IsTrans (Delta K) (fun a b : Delta K => rank a.key ≤ rank b.key) := ⟨fun _ _ _ => le_trans⟩
  exact List.pairwise_insertionSort _ h

theorem net_perm {h₁ h₂ : List (Delta K)} (hp : h₁.Perm h₂) (k : K) : net k h₁ = net k h₂ := by
  induction hp with
  | nil => rfl
  | cons d _ ih => rw [net, net, ih]
  | swap a b l =>
    simp only [net]
    ring
  | trans _ _ ih₁ ih₂ => exact ih₁.trans ih₂

end DeltaLog
