import CgSql.Dictionary
import CgSql.Lemmas.HashTab
import CgSql.Lemmas.Refs
import Mathlib.Data.Finset.Option

/-!
# Dictionaries are finite maps

A dictionary answers as a finite map from texts does, and retains each of its keys and values once, as long as the table under it can
double.
-/

namespace CgSql

namespace Hashing

variable {ν : Type} {text : Ref → Text} {refOf : ν → Option Ref} {s : Counted} {r : Ref}

namespace DictAux

/-! ## References -/

/-- How many references are retained for entries. -/
def total (refOf : ν → Option Ref) (es : List (Ref × ν)) : Nat := (es.map fun e => retained refOf e.2).sum

/-- Each key and each value of the entries is retained once, beside `n` references of the rest of the process. -/
structure Held (refOf : ν → Option Ref) (n : Nat) (es : List (Ref × ν)) (s : Counted) : Prop where
  held : ∀ r, s.held r = occurrences refOf r es
  own : s.own = total refOf es
  elsewhere : s.elsewhere = n

/-- An entry can be retained beside others. -/
def HasRoom (refOf : ν → Option Ref) (n : Nat) (es : List (Ref × ν)) (e : Ref × ν) : Prop :=
  total refOf es + n + retained refOf e.2 < 2 ^ 31

theorem occurrences_cons (r : Ref) (key : Ref) (val : ν) (es : List (Ref × ν)) :
    occurrences refOf r ((key, val) :: es) = occurrences refOf r es + (if key = r then 1 else 0) + weight (refOf val) r := by
  simp only [occurrences, weight, List.countP_cons, decide_eq_true_eq]
  omega

theorem total_cons (key : Ref) (val : ν) (es : List (Ref × ν)) : total refOf ((key, val) :: es) = retained refOf val + total refOf es := rfl

/-- The order of the entries does not matter. -/
theorem Held.perm {n : Nat} {es es' : List (Ref × ν)} (hperm : es.Perm es') (h : Held refOf n es s) : Held refOf n es' s := by
  refine ⟨fun r => ?_, ?_, h.elsewhere⟩
  · rw [h.held r, occurrences, occurrences, hperm.countP_eq, hperm.countP_eq]
  · rw [h.own, total, total]
    exact (hperm.map _).sum_eq

/-- What is held of an entry is alive. -/
theorem Held.alive {n : Nat} {es : List (Ref × ν)} (h : Held refOf n es s) {key : Ref} {val : ν} (hmem : (key, val) ∈ es)
    (hr : key = r ∨ refOf val = some r) : s.Alive r := by
  have hoccurs : 0 < occurrences refOf r es := by
    rcases hr with rfl | hr
    · have hkey : 0 < es.countP (·.1 = key) := List.countP_pos_iff.mpr ⟨(key, val), hmem, by simp⟩
      exact Nat.add_pos_left hkey _
    · have hval : 0 < es.countP (refOf ·.2 = some r) := List.countP_pos_iff.mpr ⟨(key, val), hmem, by simpa using hr⟩
      exact Nat.add_pos_right _ hval
  exact .inl (by rw [h.held r]; exact hoccurs)

theorem counted_retain (h : s.Alive r) (hroom : s.own + s.elsewhere + 1 < 2 ^ 31) :
    ∃ s', s.retain r = some s' ∧ s'.given = s.given ∧ s'.own = s.own + 1 ∧ s'.elsewhere = s.elsewhere ∧
      ∀ q, s'.held q = s.held q + if r = q then 1 else 0 := by
  obtain ⟨refs, hretain, hgiven, hheld⟩ := retain_spec h
  refine ⟨{ s with toRefs := refs, own := s.own + 1 }, ?_, hgiven, rfl, rfl, hheld⟩
  rw [Counted.retain, if_pos hroom, hretain]
  rfl

theorem counted_release (h : 0 < s.held r) (hown : 0 < s.own) :
    ∃ s', s.release r = some s' ∧ s'.own = s.own - 1 ∧ s'.elsewhere = s.elsewhere ∧ ∀ q, s.held q = s'.held q + if r = q then 1 else 0 := by
  obtain ⟨refs, hrelease, -, hheld⟩ := release_spec h
  refine ⟨{ s with toRefs := refs, own := s.own - 1 }, ?_, rfl, rfl, hheld⟩
  rw [Counted.release, if_pos (by omega), hrelease]
  rfl

/-- Nothing is retained at the limit of the count. -/
theorem counted_retain_full (hfull : 2 ^ 31 ≤ s.own + s.elsewhere + 1) : s.retain r = none := if_neg (by omega)

variable {val : ν}

theorem retainVal_spec (text : Ref → Text) (h : ∀ r ∈ refOf val, s.Alive r) (hroom : (refOf val).isSome → s.own + s.elsewhere + 1 < 2 ^ 31) :
    ∃ s', (dictionaryCallbacks text refOf).retainVal val s = some s' ∧ s'.own + 1 = s.own + retained refOf val ∧
      s'.elsewhere = s.elsewhere ∧ ∀ q, s'.held q = s.held q + weight (refOf val) q := by
  cases hval : refOf val with
  | none =>
    refine ⟨s, ?_, by simp [retained, hval], rfl, fun q => by simp [weight]⟩
    simp [dictionaryCallbacks, hval, noOp]
  | some r =>
    rw [hval] at hroom
    obtain ⟨s', hretain, -, hown, helse, hheld⟩ := counted_retain (h r hval) (hroom rfl)
    refine ⟨s', ?_, by simp [retained, hval, hown], helse, fun q => by simp [weight, hheld q]⟩
    simp [dictionaryCallbacks, hval, hretain]

theorem releaseVal_spec (text : Ref → Text) (h : ∀ r ∈ refOf val, 0 < s.held r ∧ 0 < s.own) :
    ∃ s', (dictionaryCallbacks text refOf).releaseVal val s = some s' ∧ s'.own + retained refOf val = s.own + 1 ∧
      s'.elsewhere = s.elsewhere ∧ ∀ q, s.held q = s'.held q + weight (refOf val) q := by
  cases hval : refOf val with
  | none =>
    refine ⟨s, ?_, by simp [retained, hval], rfl, fun q => by simp [weight]⟩
    simp [dictionaryCallbacks, hval, noOp]
  | some r =>
    obtain ⟨hr, hpos⟩ := h r hval
    obtain ⟨s', hrelease, hown, helse, hheld⟩ := counted_release hr hpos
    refine ⟨s', ?_, ?_, helse, fun q => by simp [weight, hheld q]⟩
    · simp [dictionaryCallbacks, hval, hrelease]
    · simp only [retained, hval, Option.toList_some, List.length_singleton, hown]
      omega

/-- A table of strings does with its functions what it relies on. -/
theorem lawful (text : Ref → Text) (refOf : ν → Option Ref) (n : Nat) :
    Lawful (dictionaryCallbacks text refOf) text (fun t => (djb2 t).toUInt32.toNat) (fun s k => s.Alive k)
      (fun s val => ∀ r ∈ refOf val, s.Alive r) (Held refOf n) (HasRoom refOf n) where
  hashKey h := ⟨_, if_pos h, rfl⟩
  compareKeys := by
    intro k k' s h h'
    show (if s.Alive k ∧ s.Alive k' then _ else _) = _
    rw [if_pos ⟨h, h'⟩]
    by_cases heq : k = k'
    · simp [heq]
    · simp [heq]
  ready hheld hmem := ⟨hheld.alive hmem (.inl rfl), fun r hr => hheld.alive hmem (.inr hr)⟩
  perm hperm hheld := hheld.perm hperm
  room := by
    intro es es' e hperm hroom
    have htotal : total refOf es' = total refOf es := (hperm.symm.map _).sum_eq
    rwa [HasRoom, htotal]
  retain := by
    intro es s k v hkey hval hheld hroom
    unfold HasRoom retained at hroom
    have hown := hheld.own
    have helse := hheld.elsewhere
    obtain ⟨s₁, hretain, hgiven, hown₁, helse₁, hheld₁⟩ := counted_retain hkey (by omega)
    have hval₁ : ∀ r ∈ refOf v, s₁.Alive r := by
      intro r hr
      rcases hval r hr with hpos | hin
      · exact .inl (by rw [hheld₁ r]; omega)
      · exact .inr (hgiven ▸ hin)
    obtain ⟨s₂, hretain', hown₂, helse₂, hheld₂⟩ := retainVal_spec text hval₁ fun hsome => by
      obtain ⟨r, hr⟩ := Option.isSome_iff_exists.mp hsome
      simp only [hr, Option.toList_some, List.length_singleton] at hroom
      omega
    refine ⟨s₁, s₂, hretain, hretain', fun q => ?_, ?_, by omega⟩
    · rw [hheld₂ q, hheld₁ q, hheld.held q, occurrences_cons]
    · rw [total_cons]
      omega
  full := by
    intro es s k v hheld hfull
    unfold HasRoom at hfull
    have hown := hheld.own
    have helse := hheld.elsewhere
    show (s.retain k).bind _ = none
    rw [Counted.retain]
    split
    · next hroom =>
      cases hrefs : s.toRefs.retain k with
      | none => rfl
      | some refs =>
        show (dictionaryCallbacks text refOf).retainVal v { s with toRefs := refs, own := s.own + 1 } = none
        cases hval : refOf v with
        | none =>
          simp only [retained, hval, Option.toList_none, List.length_nil] at hfull
          omega
        | some r =>
          simp only [retained, hval, Option.toList_some, List.length_singleton] at hfull
          simp only [dictionaryCallbacks, hval, Option.elim_some]
          exact counted_retain_full (by simp only; omega)
    · rfl
  release := by
    intro es s k v hheld
    have hown := hheld.own
    rw [total_cons] at hown
    have hpos : 0 < retained refOf v := Nat.lt_of_lt_of_le Nat.one_pos (Nat.le_add_right 1 _)
    obtain ⟨s₁, hrelease, hown₁, helse₁, hheld₁⟩ := counted_release (s := s) (r := k) (by
      rw [hheld.held k, occurrences_cons, if_pos rfl]
      omega) (by omega)
    have hval₁ : ∀ r ∈ refOf v, 0 < s₁.held r ∧ 0 < s₁.own := by
      intro r hr
      have h := hheld₁ r
      rw [hheld.held r, occurrences_cons, weight_self hr] at h
      simp only [retained, Option.mem_def.mp hr, Option.toList_some, List.length_singleton] at hown
      exact ⟨by omega, by omega⟩
    obtain ⟨s₂, hrelease', hown₂, helse₂, hheld₂⟩ := releaseVal_spec text hval₁
    refine ⟨s₁, s₂, hrelease, hrelease', fun q => ?_, by omega, helse₂.trans (helse₁.trans hheld.elsewhere)⟩
    have h₁ := hheld₁ q
    have h₂ := hheld₂ q
    rw [hheld.held q, occurrences_cons] at h₁
    omega

/-! ## Operations -/

open HashTab

/-- A table, the references it holds, and the finite map that it is. -/
structure Refines (text : Ref → Text) (refOf : ν → Option Ref) (ht : HashTab Ref ν) (s : Counted) (m : Model ν) : Prop where
  good : Good text (fun t => (djb2 t).toUInt32.toNat) ht
  /-- Keys and values are retained once. -/
  held : Held refOf s.elsewhere ht.entries s
  /-- The entries are those of the map. -/
  map : ∀ t e, m t = some e ↔ e ∈ ht.entries ∧ text e.1 = t

variable {ht : HashTab Ref ν} {m : Model ν} {given : List Ref} {n : Nat} {key : Ref}

/-- What a call begins with: other references of the caller, and of the rest of the process. -/
theorem Refines.called (h : Refines text refOf ht s m) (given : List Ref) (n : Nat) :
    Held refOf n ht.entries { s with given := given, elsewhere := n } := ⟨h.held.held, h.held.own, rfl⟩

/-- What the caller or the map has is alive in the table's state. -/
theorem Refines.alive (h : Refines text refOf ht s m) (hr : m.Alive refOf given r) (n : Nat) :
    ({ s with given := given, elsewhere := n } : Counted).Alive r := by
  rcases hr with hin | ⟨t, ⟨k, v⟩, hm, hr⟩
  · exact .inr hin
  · exact (h.called given n).alive ((h.map t _).mp hm).1 hr

/-- Nothing is there where the map has nothing. -/
theorem Refines.absent (h : Refines text refOf ht s m) {t : Text} (hm : m t = none) : ht.Absent text t := by
  intro e he htext
  rw [(h.map t e).mpr ⟨he, htext⟩] at hm
  cases hm

/-- What `cql_hashtab_find` finds is what the map has. -/
theorem Refines.find (h : Refines text refOf ht s m) (hkey : m.Alive refOf given key) (n : Nat) :
    (∀ e, m (text key) = some e → ∃ i, ht.payload[i]? = some (some e) ∧
      ht.find (dictionaryCallbacks text refOf) key { s with given := given, elsewhere := n } = some (some (i, e))) ∧
    (m (text key) = none → ht.find (dictionaryCallbacks text refOf) key { s with given := given, elsewhere := n } = some none) := by
  obtain ⟨hsome, hnone⟩ := find_spec (lawful text refOf n) h.good (h.alive hkey n) (h.called given n)
  refine ⟨fun e he => ?_, fun hm => hnone (h.absent hm)⟩
  obtain ⟨hmem, htext⟩ := (h.map _ _).mp he
  obtain ⟨i, hfind, hslot⟩ := hsome e hmem htext
  exact ⟨i, hslot, hfind⟩

/-- An add with a key that is there replaces the value, if that can be retained. -/
theorem Refines.replace (h : Refines text refOf ht s m) {key' : Ref} {old : ν}
    (hkey : m.Alive refOf given key) (hval : ∀ r ∈ refOf val, m.Alive refOf given r) (hm : m (text key) = some (key', old)) (depth n : Nat) :
    (((refOf val).isSome → s.own + n + 1 < 2 ^ 31) → ∃ ht' s',
      dictionaryAdd text refOf depth ht key val { s with given := given, elsewhere := n } = some (false, ht', s') ∧
      Refines text refOf ht' s' (Function.update m (text key) (some (key', val)))) ∧
    (¬((refOf val).isSome → s.own + n + 1 < 2 ^ 31) →
      dictionaryAdd text refOf depth ht key val { s with given := given, elsewhere := n } = none) := by
  obtain ⟨i, hslot, hfind⟩ := (h.find hkey n).1 _ hm
  constructor
  swap
  · intro hfull
    push Not at hfull
    obtain ⟨hsome, hfull⟩ := hfull
    obtain ⟨r, hr⟩ := Option.isSome_iff_exists.mp hsome
    have hnone : (dictionaryCallbacks text refOf).retainVal val { s with given := given, elsewhere := n } = none := by
      simp only [dictionaryCallbacks, hr, Option.elim_some]
      exact counted_retain_full hfull
    simp only [dictionaryAdd, hfind, hnone, Option.bind_eq_bind, Option.bind_some, Option.bind_none]
  intro hroom
  obtain ⟨hgood, rest, hold, hnew⟩ := good_replace h.good hslot val
  have halive : ∀ r ∈ refOf val, ({ s with given := given, elsewhere := n } : Counted).Alive r := fun r hr => h.alive (hval r hr) n
  obtain ⟨s₁, hretain, hown₁, helse₁, hheld₁⟩ := retainVal_spec text halive hroom
  have hheld : Held refOf n ((key', old) :: rest) { s with given := given, elsewhere := n } := (h.called given n).perm hold
  have hown := hheld.own
  rw [total_cons] at hown
  simp only at hown hown₁
  have hpos : ∀ r ∈ refOf old, 0 < s₁.held r ∧ 0 < s₁.own := by
    intro r hr
    have hs := hheld.held r
    rw [occurrences_cons, weight_self hr] at hs
    have hs₁ := hheld₁ r
    simp only at hs hs₁
    have hone : 1 ≤ retained refOf val := Nat.le_add_right 1 _
    simp only [retained, Option.mem_def.mp hr, Option.toList_some, List.length_singleton] at hown
    exact ⟨by omega, by omega⟩
  obtain ⟨s₂, hrelease, hown₂, helse₂, hheld₂⟩ := releaseVal_spec text hpos
  have helse : s₂.elsewhere = n := helse₂.trans helse₁
  refine ⟨_, s₂, ?_, hgood, ?_, fun t e => ?_⟩
  · simp only [dictionaryAdd, hfind, hretain, hrelease, Option.bind_eq_bind, Option.bind_some]
    rfl
  · refine Held.perm hnew.symm ⟨fun q => ?_, ?_, rfl⟩
    · have hs := hheld.held q
      have hs₁ := hheld₁ q
      have hs₂ := hheld₂ q
      simp only at hs hs₁
      rw [occurrences_cons] at hs ⊢
      omega
    · rw [total_cons]
      omega
  · have htext : text key' = text key := ((h.map _ _).mp hm).2
    -- no other entry has this text
    have hother : ∀ e ∈ rest, text e.1 ≠ text key := by
      have hnodup := (hold.map fun e => text e.1).nodup_iff.mp (nodup_texts h.good.shape)
      rw [List.map_cons, List.nodup_cons] at hnodup
      intro e he heq
      exact hnodup.1 (List.mem_map.mpr ⟨e, he, heq.trans htext.symm⟩)
    rw [hnew.mem_iff, List.mem_cons]
    by_cases ht : t = text key
    · subst ht
      rw [Function.update_self, Option.some.injEq]
      constructor
      · rintro rfl
        exact ⟨.inl rfl, htext⟩
      · rintro ⟨rfl | hin, heq⟩
        · rfl
        · exact absurd heq (hother e hin)
    · rw [Function.update_of_ne ht, h.map, hold.mem_iff, List.mem_cons]
      constructor
      · rintro ⟨rfl | hin, heq⟩
        · exact absurd (heq.symm.trans htext) ht
        · exact ⟨.inr hin, heq⟩
      · rintro ⟨rfl | hin, heq⟩
        · exact absurd (heq.symm.trans htext) ht
        · exact ⟨.inr hin, heq⟩

/-- An add with a new key. -/
theorem Refines.add (h : Refines text refOf ht s m)
    (hkey : m.Alive refOf given key) (hval : ∀ r ∈ refOf val, m.Alive refOf given r) (hm : m (text key) = none) (depth n : Nat) :
    (Fits (HasRoom refOf n) ht (key, val) → ∃ ht' s',
      dictionaryAdd text refOf (depth + 2) ht key val { s with given := given, elsewhere := n } = some (true, ht', s') ∧
      Refines text refOf ht' s' (Function.update m (text key) (some (key, val)))) ∧
    (¬Fits (HasRoom refOf n) ht (key, val) →
      dictionaryAdd text refOf (depth + 2) ht key val { s with given := given, elsewhere := n } = none) := by
  have hfind := (h.find hkey n).2 hm
  have hrun : dictionaryAdd text refOf (depth + 2) ht key val { s with given := given, elsewhere := n } =
      ht.add (dictionaryCallbacks text refOf) (depth + 2) key val { s with given := given, elsewhere := n } := by
    rw [dictionaryAdd, hfind]
    rfl
  obtain ⟨hroom, hfull⟩ :=
    add_spec (lawful text refOf n) h.good (h.alive hkey n) (fun r hr => h.alive (hval r hr) n) (h.called given n) (h.absent hm) depth
  rw [hrun]
  refine ⟨fun hfits => ?_, hfull⟩
  obtain ⟨ht', s', hadd, hgood, -, hperm, hheld'⟩ := hroom hfits
  refine ⟨ht', s', hadd, hgood, hheld'.elsewhere ▸ hheld', fun t e => ?_⟩
  rw [hperm.mem_iff, List.mem_cons]
  by_cases ht : t = text key
  · subst ht
    rw [Function.update_self, Option.some.injEq]
    constructor
    · rintro rfl
      exact ⟨.inl rfl, rfl⟩
    · rintro ⟨rfl | hin, heq⟩
      · rfl
      · exact absurd heq (h.absent hm e hin)
  · rw [Function.update_of_ne ht, h.map]
    constructor
    · rintro ⟨hin, heq⟩
      exact ⟨.inr hin, heq⟩
    · rintro ⟨rfl | hin, heq⟩
      · exact absurd heq.symm ht
      · exact ⟨hin, heq⟩

/-- The room for a new key is that of the table. -/
theorem Refines.room_iff (h : Refines text refOf ht s m) (hm : m (text key) = none) (val : ν) :
    (DictOp.add given n key val).Room text refOf ht s ↔ Fits (HasRoom refOf n) ht (key, val) := by
  have hno : ¬∃ e ∈ ht.entries, text e.1 = text key := by
    rintro ⟨e, he, htext⟩
    exact h.absent hm e he htext
  have hown := h.held.own
  unfold Fits HasRoom maxCount
  rw [DictOp.Room, if_neg hno, total_cons, hown, Nat.add_comm (retained refOf val) (total refOf ht.entries)]
  simp only [Nat.add_right_comm]

/-- An operation answers as the map does, where there is room for it, and elsewhere it has no defined behaviour. -/
theorem Refines.step (h : Refines text refOf ht s m) {op : DictOp ν} (hlegal : op.Legal refOf m) (depth : Nat) :
    (op.Room text refOf ht s →
      ∃ ht' s', op.step text refOf (depth + 2) ht s = some (op.answer text m, ht', s') ∧ Refines text refOf ht' s' (op.after text m)) ∧
    (¬op.Room text refOf ht s → op.step text refOf (depth + 2) ht s = none) := by
  cases op with
  | find given key =>
    refine ⟨fun _ => ⟨ht, { s with given := given }, ?_, h.good, h.called given s.elsewhere, h.map⟩, fun hno => absurd trivial hno⟩
    cases key with
    | none => rfl
    | some key =>
      obtain ⟨hsome, hnone⟩ := h.find (hlegal key rfl) s.elsewhere
      cases hm : m (text key) with
      | none => simp [DictOp.step, dictionaryFind, hnone hm, DictOp.answer, hm]
      | some e =>
        obtain ⟨i, -, hfind⟩ := hsome e hm
        simp [DictOp.step, dictionaryFind, hfind, DictOp.answer, hm]
  | add given n key val =>
    obtain ⟨hkey, hval⟩ := hlegal
    cases hm : m (text key) with
    | some e =>
      obtain ⟨hroom, hfull⟩ := h.replace hkey hval hm (depth + 2) n
      have hiff : (DictOp.add given n key val).Room text refOf ht s ↔ ((refOf val).isSome → s.own + n + 1 < 2 ^ 31) := by
        rw [DictOp.Room, if_pos ⟨e, (h.map _ _).mp hm⟩]
      rw [hiff]
      refine ⟨fun hyes => ?_, fun hno => by simp [DictOp.step, hfull hno]⟩
      obtain ⟨ht', s', hrun, hrefines⟩ := hroom hyes
      exact ⟨ht', s', by simp [DictOp.step, hrun, DictOp.answer, hm], by simpa [DictOp.after, hm] using hrefines⟩
    | none =>
      obtain ⟨hroom, hfull⟩ := h.add hkey hval hm depth n
      rw [h.room_iff hm]
      refine ⟨fun hyes => ?_, fun hno => by simp [DictOp.step, hfull hno]⟩
      obtain ⟨ht', s', hrun, hrefines⟩ := hroom hyes
      exact ⟨ht', s', by simp [DictOp.step, hrun, DictOp.answer, hm], by simpa [DictOp.after, hm] using hrefines⟩

/-! ## Runs -/

/-- A run answers as the map does, if and only if there is room for its operations. -/
theorem run_spec {ops : List (DictOp ν)} (depth : Nat) (h : Refines text refOf ht s m) (hlegal : DictOp.LegalRun text refOf m ops) :
    (DictOp.RoomRun text refOf (depth + 2) ht s ops →
      ∃ ht' s', DictOp.run text refOf (depth + 2) ht s ops = some (DictOp.answers text m ops, ht', s') ∧
        Refines text refOf ht' s' (DictOp.final text m ops)) ∧
    (¬DictOp.RoomRun text refOf (depth + 2) ht s ops → DictOp.run text refOf (depth + 2) ht s ops = none) := by
  induction ops generalizing ht s m with
  | nil => exact ⟨fun _ => ⟨ht, s, rfl, h⟩, fun hno => absurd trivial hno⟩
  | cons op ops ih =>
    obtain ⟨hop, hops⟩ := hlegal
    obtain ⟨hstep, hfull⟩ := h.step hop depth
    by_cases hroom : op.Room text refOf ht s
    · obtain ⟨ht₁, s₁, hrun, h₁⟩ := hstep hroom
      obtain ⟨hsome, hnone⟩ := ih h₁ hops
      have hiff : DictOp.RoomRun text refOf (depth + 2) ht s (op :: ops) ↔ DictOp.RoomRun text refOf (depth + 2) ht₁ s₁ ops := by
        simp [DictOp.RoomRun, hroom, hrun]
      rw [hiff]
      constructor
      · intro hyes
        obtain ⟨ht₂, s₂, hrest, h₂⟩ := hsome hyes
        exact ⟨ht₂, s₂, by simp [DictOp.run, hrun, hrest, DictOp.answers], h₂⟩
      · intro hno
        simp [DictOp.run, hrun, hnone hno]
    · refine ⟨fun hyes => absurd hyes.1 hroom, fun _ => ?_⟩
      rw [DictOp.run, hfull hroom]
      rfl

theorem refines_new (text : Ref → Text) (refOf : ν → Option Ref) : Refines text refOf HashTab.new Counted.none fun _ => none := by
  refine ⟨good_new, ⟨fun r => ?_, ?_, rfl⟩, fun t e => ?_⟩
  · rw [entries_new]
    rfl
  · rw [entries_new]
    rfl
  · rw [entries_new]
    constructor
    · rintro h
      cases h
    · rintro ⟨h, -⟩
      cases h

/-- A run is legal if its caller holds on to all arguments. -/
theorem legal_of_given {ops : List (DictOp ν)} (h : ∀ op ∈ ops, match op with
    | .add given _ key val => key ∈ given ∧ ∀ r ∈ refOf val, r ∈ given
    | .find given key => ∀ r ∈ key, r ∈ given) (m : Model ν) : DictOp.LegalRun text refOf m ops := by
  induction ops generalizing m with
  | nil => trivial
  | cons op ops ih =>
    refine ⟨?_, ih (fun op' hop' => h op' (List.mem_cons_of_mem _ hop')) _⟩
    have hop := h op List.mem_cons_self
    cases op with
    | add given _ key val => exact ⟨.inl hop.1, fun r hr => .inl (hop.2 r hr)⟩
    | find given key => exact fun r hr => .inl (hop r hr)

/-- What is added is in the map behind the operations. -/
theorem final_added (text : Ref → Text) (ops : List (DictOp ν)) (m : Model ν) (t : Text)
    (h : (m t).isSome ∨ ∃ given n key val, DictOp.add given n key val ∈ ops ∧ text key = t) : (DictOp.final text m ops t).isSome := by
  induction ops generalizing m with
  | nil =>
    rcases h with h | ⟨given, n, key, val, hmem, -⟩
    · exact h
    · cases hmem
  | cons op ops ih =>
    refine ih _ ?_
    rcases h with h | ⟨given, n, key, val, hmem, htext⟩
    · left
      cases op with
      | find given key => exact h
      | add given n key val =>
        by_cases ht : t = text key
        · simp [DictOp.after, ht]
        · simpa [DictOp.after, ht] using h
    · rcases List.mem_cons.mp hmem with rfl | hmem
      · left
        simp [DictOp.after, htext]
      · exact .inr ⟨given, n, key, val, hmem, htext⟩

/-- Adds of as many different keys, each of which its caller has. -/
def fill (n : Nat) : List (DictOp Int64) := (List.range n).map fun r => .add [r] 1 r 0

/-- A table has no room for more than `maxCount` keys. -/
theorem exists_full : ∃ (text : Ref → Text) (ops : List (DictOp Int64)), DictOp.LegalRun text (fun _ => none) (fun _ => none) ops ∧
    ∀ depth, DictOp.run text (fun _ => none) (depth + 2) HashTab.new Counted.none ops = none := by
  have hn : maxCount < maxCount + 1 := Nat.lt_succ_self _
  generalize maxCount + 1 = n at hn
  have hlegal : DictOp.LegalRun (List.replicate · 1) (fun _ => none) (fun _ => none) (fill n) := by
    refine legal_of_given (fun op hop => ?_) _
    obtain ⟨r, -, rfl⟩ := List.mem_map.mp hop
    refine ⟨List.mem_singleton_self r, fun q hq => ?_⟩
    cases hq
  refine ⟨_, _, hlegal, fun depth => (run_spec depth (refines_new _ _) hlegal).2 fun hroom => ?_⟩
  obtain ⟨ht, s, -, h⟩ := (run_spec depth (refines_new _ _) hlegal).1 hroom
  -- every key is in the table, which has no slots for that many
  have hsub : (Finset.range n).image (List.replicate · 1) ⊆ (ht.entries.map fun e => List.replicate e.1 (1 : UInt8)).toFinset := by
    intro t ht'
    obtain ⟨r, hr, rfl⟩ := Finset.mem_image.mp ht'
    have hadd : DictOp.add [r] 1 r 0 ∈ fill n := List.mem_map.mpr ⟨r, List.mem_range.mpr (Finset.mem_range.mp hr), rfl⟩
    obtain ⟨e, he⟩ := Option.isSome_iff_exists.mp
      (final_added (List.replicate · 1) (fill n) (fun _ => none) _ (.inr ⟨_, _, _, _, hadd, rfl⟩))
    obtain ⟨hmem, htext⟩ := (h.map _ e).mp he
    exact List.mem_toFinset.mpr (List.mem_map.mpr ⟨e, hmem, htext⟩)
  have hcard := (Finset.card_le_card hsub).trans (List.toFinset_card_le _)
  rw [Finset.card_image_of_injective _ (List.replicate_left_injective 1), Finset.card_range, List.length_map] at hcard
  have hcount : ht.count = ht.entries.length := by rw [h.good.shape.count, used_slots]
  have hload := h.good.load
  have hbound := h.good.shape.bound
  unfold maxCount at hn
  omega

end DictAux

/-! ## Dictionaries are finite maps -/

open HashTab DictAux

/-- Operations on a new dictionary, with references that have not been freed, answer as a finite map does, with every key and every
value retained once and a free slot for the loops to stop at, and its deletion releases what was retained: if and only if there is room
for each of them, in the table (the capacity doubles to zero with more than `3 * 2 ^ 29` keys) and in the count of all references. -/
theorem dictionary_iff {ops : List (DictOp ν)} (hlegal : DictOp.LegalRun text refOf (fun _ => none) ops) (depth : Nat) :
    (∃ ht s, DictOp.run text refOf (depth + 2) HashTab.new Counted.none ops = some (DictOp.answers text (fun _ => none) ops, ht, s) ∧
      none ∈ ht.payload ∧
      (∀ t e, DictOp.final text (fun _ => none) ops t = some e ↔ e ∈ ht.entries ∧ text e.1 = t) ∧
      (ht.entries.map fun e => text e.1).Nodup ∧
      (∀ r, s.held r = occurrences refOf r ht.entries) ∧
      ∃ s', ht.delete (dictionaryCallbacks text refOf) s = some s' ∧ ∀ r, s'.held r = 0) ↔
    DictOp.RoomRun text refOf (depth + 2) HashTab.new Counted.none ops := by
  obtain ⟨hroom, hfull⟩ := run_spec depth (refines_new text refOf) hlegal
  constructor
  · rintro ⟨ht, s, hrun, -⟩
    by_contra hno
    rw [hfull hno] at hrun
    cases hrun
  · intro hyes
    obtain ⟨ht, s, hrun, h⟩ := hroom hyes
    refine ⟨ht, s, hrun, free_mem h.good, h.map, nodup_texts h.good.shape, h.held.held, ?_⟩
    obtain ⟨s', hdelete, hheld⟩ := delete_spec (lawful text refOf s.elsewhere) h.held
    exact ⟨s', hdelete, hheld.held⟩

/-- Two adds with equal keys, then finds with the dictionary's own string, with null and with another string. -/
theorem dictionary_two : ∃ ht s, DictOp.run (fun r => [r.toUInt8]) some 2 HashTab.new Counted.none
      [.add [1, 5] 2 1 5, .add [257, 6] 2 257 6, .find [] (some 1), .find [] none, .find [2] (some 2)] =
        some ([.added true, .added false, .found (some 6), .found none, .found none], ht, s) := by
  have hlegal : DictOp.LegalRun (fun r => [r.toUInt8]) (some : Ref → Option Ref) (fun _ => none)
      [.add [1, 5] 2 1 5, .add [257, 6] 2 257 6, .find [] (some 1), .find [] none, .find [2] (some 2)] := by
    refine ⟨⟨.inl (by decide), by simp [Model.Alive]⟩, ⟨.inl (by decide), by simp [Model.Alive]⟩, ?_, nofun, ?_, trivial⟩
    · rintro r hr
      obtain rfl := Option.some.inj hr
      exact .inr ⟨[1], (1, 6), by decide, .inl rfl⟩
    · rintro r hr
      obtain rfl := Option.some.inj hr
      exact .inl (by decide)
  have hroom : DictOp.RoomRun (fun r => [r.toUInt8]) (some : Ref → Option Ref) 2 HashTab.new Counted.none
      [.add [1, 5] 2 1 5, .add [257, 6] 2 257 6, .find [] (some 1), .find [] none, .find [2] (some 2)] := by
    refine ⟨by decide, ?_⟩
    rintro r hr
    obtain rfl := Option.some.inj hr
    refine ⟨by decide, ?_⟩
    rintro r hr
    obtain rfl := Option.some.inj hr
    exact ⟨trivial, fun _ _ => ⟨trivial, fun _ _ => ⟨trivial, fun _ _ => trivial⟩⟩⟩
  obtain ⟨ht, s, hrun, -⟩ := (dictionary_iff hlegal 0).mpr hroom
  exact ⟨ht, s, hrun⟩

/-- One key more than the table has room for, in a dictionary of longs. -/
theorem dictionary_false : ¬∀ (text : Ref → Text) (ops : List (DictOp Int64)), DictOp.LegalRun text (fun _ => none) (fun _ => none) ops →
    ∃ depth ht s, DictOp.run text (fun _ => none) (depth + 2) HashTab.new Counted.none ops =
      some (DictOp.answers text (fun _ => none) ops, ht, s) := by
  intro h
  obtain ⟨text, ops, hlegal, hnone⟩ := exists_full
  obtain ⟨depth, ht, s, hrun⟩ := h text ops hlegal
  rw [hnone depth] at hrun
  cases hrun

end Hashing

end CgSql
