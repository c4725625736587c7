import Mathlib.Algebra.Order.Ring.Int
import Mathlib.Data.BitVec

/-!
# Hash tables with linear probing

A table is a list of slots, each free or with a key and its value. A key is looked for from the slot of its hash on, wrapping around at
the end, up to the first slot that is free or has the key. Nothing is ever removed.
-/

namespace Probing

variable {κ α : Type} [DecidableEq κ] (hash : κ → Nat)
variable {n h i : Nat}

/-- The slots of a table. -/
abbrev Slots (κ α : Type) := List (Option (κ × α))

/-- The offsets a probe visits in a table with `n` slots, from `h` on, each of them once. -/
def order (n h : Nat) : List Nat := List.range' h (n - h) ++ List.range h

/-- A probe for a key stops at a slot: it is free, or has the key. -/
def stops (slots : Slots κ α) (k : κ) (i : Nat) : Bool :=
  match slots[i]? with
  | some (some (k', _)) => k' = k
  | _ => true

/-- The offset where a probe for a key stops. -/
def probe (slots : Slots κ α) (k : κ) : Option Nat :=
  (order slots.length (hash k % slots.length)).find? (stops slots k)

/-- The value of a key. -/
def find (slots : Slots κ α) (k : κ) : Option α :=
  match probe hash slots k with
  | some i =>
    match slots[i]? with
    | some (some (_, v)) => some v
    | _ => none
  | none => none

/-- Put a key and its value into the free slot where the probe stops; `none` if the key is there. -/
def place (slots : Slots κ α) (p : κ × α) : Option (Slots κ α) :=
  match probe hash slots p.1 with
  | some i =>
    match slots[i]? with
    | some none => some (slots.set i (some p))
    | _ => none
  | none => none

/-- Every key is where a probe for it stops. -/
def Found (slots : Slots κ α) : Prop := ∀ i k v, slots[i]? = some (some (k, v)) → probe hash slots k = some i

/-- The slots in use. -/
def used (slots : Slots κ α) : Nat := slots.countP Option.isSome

variable {hash} {slots slots' : Slots κ α} {k : κ} {v : α} {i : Nat} {p : κ × α}

theorem mem_order (hh : h < n) (hi : i < n) : i ∈ order n h := by
  rw [order, List.mem_append, List.mem_range'_1, List.mem_range]
  omega

theorem lt_of_mem_order (hh : h < n) (hi : i ∈ order n h) : i < n := by
  rw [order, List.mem_append, List.mem_range'_1, List.mem_range] at hi
  omega

/-- A probe stops at a slot of the table that is free or has the key. -/
theorem probe_some (hn : slots ≠ []) (h : probe hash slots k = some i) : slots[i]? = some none ∨ ∃ v, slots[i]? = some (some (k, v)) := by
  have hpos := List.length_pos_iff.mpr hn
  have hlt := lt_of_mem_order (Nat.mod_lt _ hpos) (List.mem_of_find?_eq_some h)
  have hst := List.find?_some h
  unfold stops at hst
  rw [List.getElem?_eq_getElem hlt] at *
  cases hs : slots[i] with
  | none => exact .inl rfl
  | some q =>
    obtain ⟨k', v⟩ := q
    rw [hs] at hst
    obtain rfl : k' = k := by simpa using hst
    exact .inr ⟨v, rfl⟩

/-- A probe of a table with a free slot stops. -/
theorem probe_isSome (hash : κ → Nat) (h : used slots < slots.length) (k : κ) : (probe hash slots k).isSome := by
  obtain ⟨o, ho, hfree⟩ : ∃ o ∈ slots, ¬o.isSome = true := by
    by_contra hno
    simp only [not_exists, not_and, not_not] at hno
    exact absurd (List.countP_eq_length.mpr hno) (by unfold used at h; omega)
  obtain ⟨i, hi, rfl⟩ := List.getElem_of_mem ho
  refine List.find?_isSome.mpr ⟨i, mem_order (Nat.mod_lt _ (by omega)) hi, ?_⟩
  unfold stops
  rw [List.getElem?_eq_getElem hi]
  cases hs : slots[i] with
  | none => rfl
  | some q => rw [hs] at hfree; exact absurd rfl hfree

/-- A key has the value it is stored with. -/
theorem find_iff (hf : Found hash slots) (hn : slots ≠ []) : find hash slots k = some v ↔ some (k, v) ∈ slots := by
  constructor
  · intro h
    unfold find at h
    cases hp : probe hash slots k with
    | none => rw [hp] at h; cases h
    | some i =>
      rw [hp] at h
      rcases probe_some hn hp with hs | ⟨v', hs⟩ <;> simp only [hs] at h
      · cases h
      · obtain rfl := Option.some.inj h
        exact List.mem_of_getElem? hs
  · intro h
    obtain ⟨i, hi⟩ := List.mem_iff_getElem?.mp h
    simp only [find, hf i k v hi, hi]

omit [DecidableEq κ] in
/-- What is in a table once a free slot was filled. -/
theorem mem_set (hi : slots[i]? = some none) {q : κ × α} : some q ∈ slots.set i (some p) ↔ q = p ∨ some q ∈ slots := by
  obtain ⟨hlt, hnone⟩ := List.getElem?_eq_some_iff.mp hi
  constructor
  · intro h
    rcases List.mem_or_eq_of_mem_set h with h | h
    · exact .inr h
    · exact .inl (Option.some.inj h)
  · rintro (rfl | h)
    · exact List.mem_iff_getElem?.mpr ⟨i, by rw [List.getElem?_set_self hlt]⟩
    · obtain ⟨j, hj⟩ := List.mem_iff_getElem?.mp h
      have hne : i ≠ j := by
        rintro rfl
        rw [hi] at hj
        cases hj
      exact List.mem_iff_getElem?.mpr ⟨j, by rw [List.getElem?_set_ne hne, hj]⟩

/-- A probe is not changed by filling a free slot where it does not stop. -/
theorem probe_set {k' : κ} (hi : slots[i]? = some none) {j : Nat} (hp : probe hash slots k' = some j)
    (hj : j ≠ i ∨ p.1 = k') : probe hash (slots.set i (some p)) k' = some j := by
  obtain ⟨hlt, -⟩ := List.getElem?_eq_some_iff.mp hi
  unfold probe at *
  rw [List.length_set]
  obtain ⟨hstop, as, bs, hsplit, hpre⟩ := List.find?_eq_some_iff_append.mp hp
  refine List.find?_eq_some_iff_append.mpr ⟨?_, as, bs, hsplit, fun a ha => ?_⟩
  · unfold stops at *
    by_cases hji : j = i
    · subst hji
      rw [List.getElem?_set_self hlt]
      simpa using hj.resolve_left fun h => h rfl
    · rwa [List.getElem?_set_ne (Ne.symm hji)]
  · have hno := hpre a ha
    have hai : i ≠ a := by
      rintro rfl
      simp [stops, hi] at hno
    unfold stops at *
    rwa [List.getElem?_set_ne hai]

theorem place_eq (h : place hash slots p = some slots') :
    ∃ i, probe hash slots p.1 = some i ∧ slots[i]? = some none ∧ slots' = slots.set i (some p) := by
  unfold place at h
  cases hp : probe hash slots p.1 with
  | none => rw [hp] at h; cases h
  | some i =>
    simp only [hp] at h
    split at h
    · next hfree => exact ⟨i, rfl, hfree, (Option.some.inj h).symm⟩
    · cases h

/-- What was placed is found, and what was found before still is. -/
theorem Found.place (hf : Found hash slots) (h : place hash slots p = some slots') : Found hash slots' := by
  obtain ⟨i, hp, hi, rfl⟩ := place_eq h
  obtain ⟨hlt, -⟩ := List.getElem?_eq_some_iff.mp hi
  intro j k v hj
  by_cases hji : j = i
  · subst hji
    rw [List.getElem?_set_self hlt] at hj
    obtain rfl := Option.some.inj (Option.some.inj hj)
    exact probe_set hi hp (.inr rfl)
  · rw [List.getElem?_set_ne (Ne.symm hji)] at hj
    exact probe_set hi (hf j k v hj) (.inl hji)

theorem mem_place (h : place hash slots p = some slots') {q : κ × α} : some q ∈ slots' ↔ q = p ∨ some q ∈ slots := by
  obtain ⟨i, -, hi, rfl⟩ := place_eq h
  exact mem_set hi

theorem length_place (h : place hash slots p = some slots') : slots'.length = slots.length := by
  obtain ⟨i, -, -, rfl⟩ := place_eq h
  exact List.length_set

theorem used_place (h : place hash slots p = some slots') : used slots' = used slots + 1 := by
  obtain ⟨i, -, hi, rfl⟩ := place_eq h
  obtain ⟨hlt, hnone⟩ := List.getElem?_eq_some_iff.mp hi
  rw [used, List.countP_set hlt, hnone]
  simp [used]

/-- A new key has a place in a table with a free slot. -/
theorem place_isSome (hash : κ → Nat) (h : used slots < slots.length) (hnew : ∀ v, some (p.1, v) ∉ slots) : (place hash slots p).isSome := by
  obtain ⟨i, hp⟩ := Option.isSome_iff_exists.mp (probe_isSome hash h p.1)
  unfold place
  simp only [hp]
  rcases probe_some (List.ne_nil_of_length_pos (by omega)) hp with hs | ⟨v, hs⟩
  · simp only [hs, Option.isSome_some]
  · exact absurd (List.mem_of_getElem? hs) (hnew v)

theorem found_replicate (n : Nat) : Found hash (List.replicate n (none : Option (κ × α))) := by
  intro i k v hi
  rw [List.getElem?_replicate] at hi
  split at hi <;> cases hi

omit [DecidableEq κ] in
theorem used_replicate (n : Nat) : used (List.replicate n (none : Option (κ × α))) = 0 := by
  simp [used, List.countP_replicate]

/-- Place entries one after another. -/
def placeAll (hash : κ → Nat) (slots : Slots κ α) (ps : List (κ × α)) : Slots κ α :=
  ps.foldl (fun slots p => (place hash slots p).getD slots) slots

/-- Entries with different new keys are all placed when there are slots for them. -/
theorem placeAll_spec (ps : List (κ × α)) (hf : Found hash slots) (hd : (ps.map Prod.fst).Nodup)
    (hnew : ∀ p ∈ ps, ∀ v, some (p.1, v) ∉ slots) (hn : used slots + ps.length < slots.length) :
    Found hash (placeAll hash slots ps) ∧ (placeAll hash slots ps).length = slots.length ∧
      used (placeAll hash slots ps) = used slots + ps.length ∧ ∀ q, some q ∈ placeAll hash slots ps ↔ q ∈ ps ∨ some q ∈ slots := by
  induction ps generalizing slots with
  | nil => exact ⟨hf, rfl, rfl, fun q => by simp [placeAll]⟩
  | cons p ps ih =>
    rw [List.length_cons] at hn
    obtain ⟨slots', hp⟩ := Option.isSome_iff_exists.mp (place_isSome hash (p := p) (by omega) (hnew p List.mem_cons_self))
    have hstep : placeAll hash slots (p :: ps) = placeAll hash slots' ps := by simp [placeAll, hp]
    rw [List.map_cons, List.nodup_cons] at hd
    have hnew' : ∀ q ∈ ps, ∀ v, some (q.1, v) ∉ slots' := by
      intro q hq v hmem
      rcases (mem_place hp).mp hmem with heq | hmem
      · exact hd.1 (List.mem_map.mpr ⟨q, hq, by rw [← heq]⟩)
      · exact hnew q (List.mem_cons_of_mem _ hq) v hmem
    obtain ⟨h₁, h₂, h₃, h₄⟩ := ih (hf.place hp) hd.2 hnew' (by rw [used_place hp, length_place hp]; omega)
    rw [hstep]
    refine ⟨h₁, h₂.trans (length_place hp), by rw [h₃, used_place hp, List.length_cons]; omega, fun q => ?_⟩
    rw [h₄, mem_place hp, List.mem_cons]
    tauto

/-! ## Walks -/

/-- The offsets of a loop that goes around a table with `n` slots, from `i` on. -/
def walk (n : Nat) : (steps i : Nat) → List Nat
  | 0, _ => []
  | steps + 1, i => i :: walk n steps (if i + 1 ≥ n then 0 else i + 1)

theorem walk_eq_range' (steps i : Nat) (h : i + steps ≤ n) : walk n steps i = List.range' i steps := by
  induction steps generalizing i with
  | zero => rfl
  | succ steps ih =>
    rw [walk, List.range'_succ]
    cases steps with
    | zero => rfl
    | succ steps => rw [if_neg (by omega), ih (i + 1) (by omega)]

/-- A walk that wraps around once. -/
theorem walk_wrap (steps : Nat) (h : i < n) : walk n (n - i + steps) i = List.range' i (n - i) ++ walk n steps 0 := by
  induction hd : n - i generalizing i with
  | zero => omega
  | succ d ih =>
    rw [Nat.succ_add, walk, List.range'_succ, List.cons_append]
    by_cases hlast : i + 1 ≥ n
    · obtain rfl : d = 0 := by omega
      rw [if_pos hlast, Nat.zero_add]
      rfl
    · have hrest := ih (i := i + 1) (by omega) (by omega)
      rw [if_neg hlast, hrest]

/-- A loop that goes around a table once visits the offsets of a probe in their order. -/
theorem walk_eq_order (hh : h < n) : walk n n h = order n h := by
  have hsplit : n = n - h + h := by omega
  conv_lhs => rw [hsplit, ← hsplit]
  have hwrap := walk_wrap h hh
  rw [← hsplit] at hwrap
  rw [hwrap, walk_eq_range' h 0 (by omega), order, List.range_eq_range']

/-! ## Values -/

/-- A probe does not look at the values. -/
theorem probe_replace (h : slots[i]? = some (some (k, v))) (v' : α) (k' : κ) :
    probe hash (slots.set i (some (k, v'))) k' = probe hash slots k' := by
  obtain ⟨hlt, -⟩ := List.getElem?_eq_some_iff.mp h
  unfold probe
  rw [List.length_set]
  congr 1
  funext j
  unfold stops
  by_cases hji : i = j
  · subst hji
    rw [List.getElem?_set_self hlt, h]
  · rw [List.getElem?_set_ne hji]

/-- A key that is found is also found with another value. -/
theorem Found.replace (hf : Found hash slots) (h : slots[i]? = some (some (k, v))) (v' : α) : Found hash (slots.set i (some (k, v'))) := by
  obtain ⟨hlt, -⟩ := List.getElem?_eq_some_iff.mp h
  intro j k' w hj
  rw [probe_replace h]
  by_cases hji : i = j
  · subst hji
    rw [List.getElem?_set_self hlt] at hj
    obtain ⟨rfl, -⟩ := Prod.mk.inj (Option.some.inj (Option.some.inj hj))
    exact hf i k v h
  · rw [List.getElem?_set_ne hji] at hj
    exact hf j k' w hj

omit [DecidableEq κ] in
theorem used_replace (h : slots[i]? = some (some (k, v))) (v' : α) : used (slots.set i (some (k, v'))) = used slots := by
  obtain ⟨hlt, hslot⟩ := List.getElem?_eq_some_iff.mp h
  have hpos : 0 < slots.countP Option.isSome := List.countP_pos_iff.mpr ⟨slots[i], List.getElem_mem _, by rw [hslot]; rfl⟩
  rw [used, List.countP_set hlt, hslot]
  simp only [used, Option.isSome_some, if_true]
  omega

end Probing
