import CgSql.HashTab
import CgSql.Lib.Probing

/-!
# What the hash table does

A table whose functions are lawful is a table of `Probing`: its loops stop where a probe stops, adding places an entry, and a rehash
places all of them. What is retained is what is in the table.
-/

namespace CgSql

namespace Hashing

variable {κ ν σ τ : Type} [DecidableEq τ]

/-! ## What a table's functions do -/

/-- The functions of a table do what it relies on. Keys are compared and hashed by what they stand for; `Holds es s` is that the table
has retained the keys and values of `es` and nothing else, and `Room es e` that `e` can be retained then. -/
structure Lawful (cb : Callbacks κ ν σ) (text : κ → τ) (hash : τ → Nat) (KeyReady : σ → κ → Prop) (ValReady : σ → ν → Prop)
    (Holds : List (κ × ν) → σ → Prop) (Room : List (κ × ν) → κ × ν → Prop) : Prop where
  /-- Equal keys have equal hashes. -/
  hashKey : ∀ {k s}, KeyReady s k → ∃ h, cb.hashKey k s = some h ∧ h.toUInt32.toNat = hash (text k)
  /-- Keys are equal when they stand for the same. -/
  compareKeys : ∀ {k k' s}, KeyReady s k → KeyReady s k' → cb.compareKeys k k' s = some (decide (text k = text k'))
  /-- What is held can be used. -/
  ready : ∀ {es s k v}, Holds es s → (k, v) ∈ es → KeyReady s k ∧ ValReady s v
  /-- The order does not matter. -/
  perm : ∀ {es es' s}, es.Perm es' → Holds es s → Holds es' s
  /-- Nor does it for what can be retained. -/
  room : ∀ {es es' e}, es.Perm es' → Room es e → Room es' e
  /-- An entry is retained. -/
  retain : ∀ {es s k v}, KeyReady s k → ValReady s v → Holds es s → Room es (k, v) →
    ∃ s₁ s₂, cb.retainKey k s = some s₁ ∧ cb.retainVal v s₁ = some s₂ ∧ Holds ((k, v) :: es) s₂
  /-- An entry is not retained where there is no room. -/
  full : ∀ {es s k v}, Holds es s → ¬Room es (k, v) → (cb.retainKey k s).bind (cb.retainVal v) = none
  /-- An entry is released. -/
  release : ∀ {es s k v}, Holds ((k, v) :: es) s → ∃ s₁ s₂, cb.releaseKey k s = some s₁ ∧ cb.releaseVal v s₁ = some s₂ ∧ Holds es s₂

namespace HashTab

variable (text : κ → τ) (hash : τ → Nat)

/-- The slots of a table, each with what its key stands for. -/
def slots (ht : HashTab κ ν) : Probing.Slots τ (κ × ν) := ht.payload.map (Option.map fun e => (text e.1, e))

/-- No key of a table stands for this. -/
def Absent (ht : HashTab κ ν) (t : τ) : Prop := ∀ e ∈ ht.entries, text e.1 ≠ t

/-- The parts of a table fit together. -/
structure Shape (ht : HashTab κ ν) : Prop where
  /-- The payload has a slot for each offset. -/
  length : ht.payload.length = ht.capacity
  /-- The count is that of the entries. -/
  count : ht.count = Probing.used (ht.slots text)
  /-- The entries are where the loops look for them. -/
  found : Probing.Found hash (ht.slots text)
  /-- There is a slot. -/
  pos : 0 < ht.capacity
  /-- The capacity is one of those that the table doubles through. -/
  bound : ht.capacity ≤ 2 ^ 31

/-- A table between two operations. -/
structure Good (ht : HashTab κ ν) : Prop where
  shape : Shape text hash ht
  /-- The capacity is a power of two. -/
  size : ∃ j, j ≤ 29 ∧ ht.capacity = 4 * 2 ^ j
  /-- At most three quarters of the slots are in use. -/
  load : 4 * ht.count ≤ 3 * ht.capacity

variable {text hash} {ht : HashTab κ ν} {cb : Callbacks κ ν σ}

/-! ## Slots -/

omit [DecidableEq τ] in
theorem slots_get (text : κ → τ) (ht : HashTab κ ν) (i : Nat) :
    (ht.slots text)[i]? = ht.payload[i]?.map (Option.map fun e => (text e.1, e)) := List.getElem?_map

omit [DecidableEq τ] in
theorem mem_slots {t : τ} {e : κ × ν} : some (t, e) ∈ ht.slots text ↔ e ∈ ht.entries ∧ text e.1 = t := by
  unfold slots entries
  simp only [List.mem_map, List.mem_filterMap, id, Option.map_eq_some_iff, Prod.mk.injEq]
  constructor
  · rintro ⟨o, ho, e', rfl, ht, rfl⟩
    exact ⟨⟨_, ho, rfl⟩, ht⟩
  · rintro ⟨⟨o, ho, rfl⟩, ht⟩
    exact ⟨_, ho, e, rfl, ht, rfl⟩

omit [DecidableEq τ] in
theorem used_slots (ht : HashTab κ ν) : Probing.used (ht.slots text) = ht.entries.length := by
  unfold Probing.used slots entries
  rw [List.countP_map]
  induction ht.payload with
  | nil => rfl
  | cons o os ih => cases o <;> simp [ih]

/-- The entries, with those of one slot in front, whatever that slot has. -/
theorem entries_set {payload : List (Option (κ × ν))} {i : Nat} {o : Option (κ × ν)} (h : payload[i]? = some o) :
    ∃ rest, (payload.filterMap id).Perm (o.toList ++ rest) ∧ ∀ o', ((payload.set i o').filterMap id).Perm (o'.toList ++ rest) := by
  induction payload generalizing i with
  | nil => cases h
  | cons p ps ih =>
    cases i with
    | zero =>
      obtain rfl := Option.some.inj h
      refine ⟨ps.filterMap id, ?_, fun o' => ?_⟩
      · cases p <;> exact .refl _
      · cases o' <;> exact .refl _
    | succ i =>
      obtain ⟨rest, hps, hset⟩ := ih h
      refine ⟨p.toList ++ rest, ?_, fun o' => ?_⟩
      · have hcons : ((p :: ps).filterMap id) = p.toList ++ ps.filterMap id := by cases p <;> rfl
        rw [hcons]
        exact (hps.append_left _).trans (List.perm_append_comm_assoc _ _ _)
      · have hcons : (((p :: ps).set (i + 1) o').filterMap id) = p.toList ++ (ps.set i o').filterMap id := by cases p <;> rfl
        rw [hcons]
        exact ((hset o').append_left _).trans (List.perm_append_comm_assoc _ _ _)

omit [DecidableEq τ] in
theorem replicate_entries (n : Nat) : (List.replicate n (none : Option (κ × ν))).filterMap id = [] := by
  rw [List.filterMap_eq_nil_iff]
  intro o ho
  rw [List.eq_of_mem_replicate ho]
  rfl

/-- No two keys of a table stand for the same. -/
theorem nodup_texts (hs : Shape text hash ht) : (ht.entries.map fun e => text e.1).Nodup := by
  have hslots : ht.payload.Pairwise fun o o' => ∀ e ∈ o, ∀ e' ∈ o', text e.1 ≠ text e'.1 := by
    rw [List.pairwise_iff_getElem]
    intro i j hi hj hij e he e' he' heq
    have hget : (ht.slots text)[i]? = some (some (text e.1, e)) := by
      rw [slots_get, List.getElem?_eq_getElem hi, Option.mem_def.mp he]
      rfl
    have hget' : (ht.slots text)[j]? = some (some (text e'.1, e')) := by
      rw [slots_get, List.getElem?_eq_getElem hj, Option.mem_def.mp he']
      rfl
    have hprobe := hs.found i _ _ hget
    rw [heq, hs.found j _ _ hget'] at hprobe
    exact absurd (Option.some.inj hprobe) (Nat.ne_of_gt hij)
  rw [List.Nodup, List.pairwise_map, entries, List.pairwise_filterMap]
  exact hslots.imp fun h e he e' he' => h e he e' he'

/-- The count of a table is the number of what its keys stand for. -/
theorem count_eq_card (hs : Shape text hash ht) {texts : Finset τ} (htexts : ∀ t, t ∈ texts ↔ ∃ e, e ∈ ht.entries ∧ text e.1 = t) :
    ht.count = texts.card := by
  have heq : texts = (ht.entries.map fun e => text e.1).toFinset := by
    ext t
    rw [htexts, List.mem_toFinset, List.mem_map]
  rw [heq, List.toFinset_card_of_nodup (nodup_texts hs), List.length_map, hs.count, used_slots]

/-- A new payload, at the start or in a rehash. -/
theorem shape_setPayload {capacity : Nat} (hpos : 0 < capacity) (hbound : capacity ≤ 2 ^ 31) (payload : List (Option (κ × ν))) :
    Shape text hash (setPayload { count := 0, capacity := capacity, payload := payload } : HashTab κ ν) := by
  have hslots : (setPayload { count := 0, capacity := capacity, payload := payload } : HashTab κ ν).slots text =
      List.replicate capacity none := by
    simp only [slots, setPayload, List.map_replicate, Option.map_none]
  refine ⟨List.length_replicate, ?_, ?_, hpos, hbound⟩
  · rw [hslots, Probing.used_replicate]
    rfl
  · rw [hslots]
    exact Probing.found_replicate capacity

theorem good_new : Good text hash (new : HashTab κ ν) :=
  ⟨shape_setPayload (by decide) (by decide) [], ⟨0, by omega, rfl⟩, Nat.zero_le _⟩

omit [DecidableEq τ] in
theorem entries_new : (new : HashTab κ ν).entries = [] := replicate_entries _

/-- There is a free slot. -/
theorem free_mem (hg : Good text hash ht) : none ∈ ht.payload := by
  have hpos := hg.shape.pos
  have hload := hg.load
  have hcount := hg.shape.count
  have hlen := hg.shape.length
  by_contra hno
  have hall : Probing.used (ht.slots text) = (ht.slots text).length := by
    refine List.countP_eq_length.mpr fun o ho => ?_
    obtain ⟨o', ho', rfl⟩ := List.mem_map.mp ho
    cases o' with
    | none => exact absurd ho' hno
    | some e => rfl
  rw [slots, List.length_map] at hall
  rw [← slots, ← hcount] at hall
  omega

/-! ## Probing -/

section Probe

variable {KeyReady : σ → κ → Prop} {ValReady : σ → ν → Prop} {Holds : List (κ × ν) → σ → Prop} {Room : List (κ × ν) → κ × ν → Prop}
variable {key : κ} {s : σ} {val : ν}

  (L : Lawful cb text hash KeyReady ValReady Holds Room)

include L

/-- The loop stops where a probe does. -/
theorem seekFrom_eq (hlen : ht.payload.length = ht.capacity) (hkey : KeyReady s key)
    (hready : ∀ e ∈ ht.entries, KeyReady s e.1) (fuel : Nat) {offset : Nat} (hoffset : offset < ht.capacity) : seekFrom cb ht key s fuel offset =
      ((Probing.walk ht.capacity fuel offset).find? (Probing.stops (ht.slots text) (text key))).map fun i => (i, ht.payload[i]?.join) := by
  induction fuel generalizing offset with
  | zero => rfl
  | succ fuel ih =>
    have hget := slots_get text ht offset
    rw [seekFrom, Probing.walk, List.find?_cons]
    unfold Probing.stops
    rw [hget]
    rw [List.getElem?_eq_getElem (hlen ▸ hoffset)]
    cases hslot : ht.payload[offset] with
    | none => simp [List.getElem?_eq_getElem (hlen ▸ hoffset), hslot]
    | some e =>
      obtain ⟨k, v⟩ := e
      have hmem : (k, v) ∈ ht.entries := List.mem_filterMap.mpr ⟨_, hslot ▸ List.getElem_mem _, rfl⟩
      have hnext : (if offset + 1 ≥ ht.capacity then 0 else offset + 1) < ht.capacity := by split <;> omega
      have hcompare := L.compareKeys (hready _ hmem) hkey
      by_cases heq : text k = text key
      · simp [hcompare, heq, List.getElem?_eq_getElem (hlen ▸ hoffset), hslot]
      · simp only [Option.bind_eq_bind, Option.bind_some, Option.map_some, hcompare, heq, decide_false, Bool.false_eq_true, if_false]
        exact ih hnext

theorem seek_eq (hs : Shape text hash ht) (hkey : KeyReady s key) (hready : ∀ e ∈ ht.entries, KeyReady s e.1) :
    seek cb ht key s = (Probing.probe hash (ht.slots text) (text key)).map fun i => (i, ht.payload[i]?.join) := by
  obtain ⟨h, hhash, hval⟩ := L.hashKey hkey
  have hpos := hs.pos
  have hmod := Nat.mod_lt (hash (text key)) hpos
  have hlen : (ht.slots text).length = ht.capacity := by rw [slots, List.length_map, hs.length]
  simp only [seek, hhash, Option.bind_eq_bind, Option.bind_some, if_neg (Nat.ne_of_gt hpos), hval]
  rw [seekFrom_eq L hs.length hkey hready _ hmod, Probing.walk_eq_order hmod, Probing.probe, hlen]

theorem seek_absent (hs : Shape text hash ht) (hroom : ht.count < ht.capacity) (hkey : KeyReady s key)
    (hready : ∀ e ∈ ht.entries, KeyReady s e.1) (habsent : ht.Absent text (text key)) :
    ∃ i, seek cb ht key s = some (i, none) ∧ ht.payload[i]? = some none ∧ Probing.probe hash (ht.slots text) (text key) = some i := by
  have hlen : (ht.slots text).length = ht.capacity := by rw [slots, List.length_map, hs.length]
  have hused : Probing.used (ht.slots text) < (ht.slots text).length := by rw [hlen, ← hs.count]; exact hroom
  obtain ⟨i, hprobe⟩ := Option.isSome_iff_exists.mp (Probing.probe_isSome hash hused (text key))
  have hne : ht.slots text ≠ [] := List.ne_nil_of_length_pos (by rw [hlen]; exact hs.pos)
  rcases Probing.probe_some hne hprobe with hfree | ⟨e, hmem⟩
  · have hslot : ht.payload[i]? = some none := by
      rw [slots_get, Option.map_eq_some_iff] at hfree
      obtain ⟨o, ho, hnone⟩ := hfree
      rw [ho, Option.map_eq_none_iff.mp hnone]
    refine ⟨i, ?_, hslot, hprobe⟩
    rw [seek_eq L hs hkey hready, hprobe, Option.map_some, hslot]
    rfl
  · obtain ⟨hentry, htext⟩ := mem_slots.mp (List.mem_of_getElem? hmem)
    exact absurd htext (habsent e hentry)

theorem seek_present (hs : Shape text hash ht) (hkey : KeyReady s key)
    (hready : ∀ e ∈ ht.entries, KeyReady s e.1) {e : κ × ν} (hmem : e ∈ ht.entries) (htext : text e.1 = text key) :
    ∃ i, seek cb ht key s = some (i, some e) ∧ ht.payload[i]? = some (some e) ∧ Probing.probe hash (ht.slots text) (text key) = some i := by
  obtain ⟨i, hi⟩ := List.mem_iff_getElem?.mp (mem_slots.mpr ⟨hmem, htext⟩)
  have hprobe := hs.found i _ _ hi
  have hslot : ht.payload[i]? = some (some e) := by
    rw [slots_get, Option.map_eq_some_iff] at hi
    obtain ⟨o, ho, hsome⟩ := hi
    obtain ⟨e', rfl, heq⟩ := Option.map_eq_some_iff.mp hsome
    rw [ho, (Prod.mk.inj heq).2]
  refine ⟨i, ?_, hslot, hprobe⟩
  rw [seek_eq L hs hkey hready, hprobe, Option.map_some, hslot]
  rfl

/-! ## Adding -/

/-- A new entry is put into a slot, and the table is rehashed if it is loaded then. Others may hold `frame`. -/
theorem add_eq (hs : Shape text hash ht) {frame : List (κ × ν)} (hkey : KeyReady s key)
    (hval : ValReady s val) (hheld : Holds (ht.entries ++ frame) s) (habsent : ht.Absent text (text key)) (hroom : ht.count < ht.capacity)
    (hfits : Room (ht.entries ++ frame) (key, val)) :
    ∃ ht' s', Shape text hash ht' ∧ ht'.capacity = ht.capacity ∧ ht'.count = ht.count + 1 ∧
      ht'.entries.Perm ((key, val) :: ht.entries) ∧ Holds ((key, val) :: (ht.entries ++ frame)) s' ∧ ∀ depth, add cb (depth + 1) ht key val s =
          (if 4 * ht'.count > 3 * ht'.capacity then rehash cb (add cb depth) ht' s' else some (ht', s')).map (true, ·) := by
  have hready : ∀ e ∈ ht.entries, KeyReady s e.1 := fun e he => (L.ready hheld (List.mem_append_left _ he)).1
  obtain ⟨i, hseek, hslot, hprobe⟩ := seek_absent L hs hroom hkey hready habsent
  obtain ⟨s₁, s₂, hretain, hretain', hheld'⟩ := L.retain hkey hval hheld hfits
  have hbound := hs.bound
  have hcount : (ht.count + 1) % 2 ^ 32 = ht.count + 1 := Nat.mod_eq_of_lt (by omega)
  refine ⟨{ ht with payload := ht.payload.set i (some (key, val)), count := ht.count + 1 }, s₂, ?_, rfl, rfl, ?_, hheld', ?_⟩
  · have hplace : Probing.place hash (ht.slots text) (text key, (key, val)) =
        some (({ ht with payload := ht.payload.set i (some (key, val)), count := ht.count + 1 } : HashTab κ ν).slots text) := by
      have hfree : (ht.slots text)[i]? = some none := by rw [slots_get, hslot]; rfl
      have hslots : ({ ht with payload := ht.payload.set i (some (key, val)), count := ht.count + 1 } : HashTab κ ν).slots text =
          (ht.slots text).set i (some (text key, (key, val))) := List.map_set
      unfold Probing.place
      simp only [hprobe, hfree, hslots]
    refine ⟨?_, ?_, hs.found.place hplace, hs.pos, hs.bound⟩
    · rw [List.length_set, hs.length]
    · rw [Probing.used_place hplace, hs.count]
  · obtain ⟨rest, hold, hnew⟩ := entries_set hslot
    have hrest : ht.entries.Perm rest := hold
    exact (hnew (some (key, val))).trans (hrest.symm.cons _)
  · intro depth
    simp only [add, hseek, insertAt, hretain, hretain', hcount, Option.bind_eq_bind, Option.bind_some]
    split
    · cases rehash cb (add cb depth) _ s₂ <;> rfl
    · rfl

/-- A new entry that cannot be retained. -/
theorem add_full (hs : Shape text hash ht) {frame : List (κ × ν)} (hkey : KeyReady s key) (hheld : Holds (ht.entries ++ frame) s)
    (habsent : ht.Absent text (text key)) (hroom : ht.count < ht.capacity) (hfull : ¬Room (ht.entries ++ frame) (key, val)) (depth : Nat) :
    add cb depth ht key val s = none := by
  cases depth with
  | zero => rfl
  | succ depth =>
    have hready : ∀ e ∈ ht.entries, KeyReady s e.1 := fun e he => (L.ready hheld (List.mem_append_left _ he)).1
    obtain ⟨i, hseek, -⟩ := seek_absent L hs hroom hkey hready habsent
    have hnone := L.full hheld hfull
    simp only [add, hseek, insertAt, Option.bind_eq_bind, Option.bind_some]
    cases hretain : cb.retainKey key s with
    | none => rfl
    | some s₁ =>
      rw [hretain, Option.bind_some] at hnone
      rw [Option.bind_some, hnone]
      rfl

/-- A new entry in a table with room for it. -/
theorem add_of_room (hs : Shape text hash ht) {frame : List (κ × ν)} (hkey : KeyReady s key)
    (hval : ValReady s val) (hheld : Holds (ht.entries ++ frame) s) (habsent : ht.Absent text (text key))
    (hload : 4 * (ht.count + 1) ≤ 3 * ht.capacity) (hfits : Room (ht.entries ++ frame) (key, val)) (depth : Nat) :
    ∃ ht' s', add cb (depth + 1) ht key val s = some (true, ht', s') ∧ Shape text hash ht' ∧ ht'.capacity = ht.capacity ∧
      ht'.count = ht.count + 1 ∧ ht'.entries.Perm ((key, val) :: ht.entries) ∧ Holds ((key, val) :: (ht.entries ++ frame)) s' := by
  obtain ⟨ht', s', hs', hcap, hcount, hperm, hheld', hadd⟩ := add_eq L hs hkey hval hheld habsent (by omega) hfits
  refine ⟨ht', s', ?_, hs', hcap, hcount, hperm, hheld'⟩
  rw [hadd, if_neg (by omega)]
  rfl

/-- The entries of the old payload are in the new table, retained once, if there was room to retain each of them twice. -/
theorem reinsert_spec (depth : Nat) (old : List (Option (κ × ν))) {ht : HashTab κ ν} (hs : Shape text hash ht)
    (hheld : Holds (ht.entries ++ old.filterMap id) s) (hdistinct : ((old.filterMap id).map fun e => text e.1).Nodup)
    (habsent : ∀ e ∈ old.filterMap id, ht.Absent text (text e.1)) (hload : 4 * (ht.count + (old.filterMap id).length) ≤ 3 * ht.capacity) :
    ((∀ e ∈ old.filterMap id, Room (ht.entries ++ old.filterMap id) e) →
      ∃ ht' s', reinsert cb (add cb (depth + 1)) old ht s = some (ht', s') ∧ Shape text hash ht' ∧ ht'.capacity = ht.capacity ∧
        ht'.count = ht.count + (old.filterMap id).length ∧ ht'.entries.Perm (ht.entries ++ old.filterMap id) ∧ Holds ht'.entries s') ∧
    ((∃ e ∈ old.filterMap id, ¬Room (ht.entries ++ old.filterMap id) e) → reinsert cb (add cb (depth + 1)) old ht s = none) := by
  induction old generalizing ht s with
  | nil =>
    refine ⟨fun _ => ⟨ht, s, rfl, hs, rfl, rfl, by simp, by simpa using hheld⟩, ?_⟩
    rintro ⟨e, he, -⟩
    cases he
  | cons o old ih =>
    cases o with
    | none => exact ih hs hheld hdistinct habsent hload
    | some e =>
      obtain ⟨key, val⟩ := e
      have hcons : ((some (key, val) :: old : List (Option (κ × ν))).filterMap id) = (key, val) :: old.filterMap id := rfl
      rw [hcons] at hheld hdistinct habsent hload ⊢
      rw [List.map_cons, List.nodup_cons] at hdistinct
      rw [List.length_cons] at hload
      obtain ⟨hkey, hval⟩ := L.ready hheld (List.mem_append_right _ List.mem_cons_self)
      by_cases hfits : Room (ht.entries ++ (key, val) :: old.filterMap id) (key, val)
      · obtain ⟨ht₁, s₁, hadd, hs₁, hcap₁, hcount₁, hperm₁, hheld₁⟩ :=
          add_of_room L hs hkey hval hheld (habsent _ List.mem_cons_self) (by omega) hfits depth
        have hall : (ht.entries ++ (key, val) :: old.filterMap id).Perm (ht₁.entries ++ old.filterMap id) := by
          refine List.perm_middle.trans ?_
          rw [← List.cons_append]
          exact hperm₁.symm.append_right _
        -- the entry is held twice now: in the old payload, and in the new one
        obtain ⟨s₂, s₃, hrelease, hrelease', hheld₃⟩ := L.release (L.perm (hall.cons _) hheld₁)
        have habsent₁ : ∀ e ∈ old.filterMap id, ht₁.Absent text (text e.1) := by
          intro e he e' he' heq
          rcases List.mem_cons.mp (hperm₁.mem_iff.mp he') with rfl | hin
          · exact hdistinct.1 (List.mem_map.mpr ⟨e, he, heq.symm⟩)
          · exact habsent e (List.mem_cons_of_mem _ he) e' hin heq
        have hrun : reinsert cb (add cb (depth + 1)) (some (key, val) :: old) ht s = reinsert cb (add cb (depth + 1)) old ht₁ s₃ := by
          simp only [reinsert, hadd, hrelease, hrelease', Option.bind_eq_bind, Option.bind_some]
        obtain ⟨hsome, hnone⟩ := ih hs₁ hheld₃ hdistinct.2 habsent₁ (by rw [hcap₁, hcount₁]; omega)
        rw [hrun]
        constructor
        · intro hroom
          obtain ⟨ht₂, s₄, hrest, hs₂, hcap₂, hcount₂, hperm₂, hheld₂⟩ :=
            hsome fun e he => L.room hall (hroom e (List.mem_cons_of_mem _ he))
          refine ⟨ht₂, s₄, hrest, hs₂, hcap₂.trans hcap₁, ?_, hperm₂.trans hall.symm, hheld₂⟩
          rw [hcount₂, hcount₁, List.length_cons]
          omega
        · rintro ⟨e, he, hno⟩
          rcases List.mem_cons.mp he with rfl | he
          · exact absurd hfits hno
          · exact hnone ⟨e, he, fun hroom => hno (L.room hall.symm hroom)⟩
      · refine ⟨fun hroom => absurd (hroom _ List.mem_cons_self) hfits, fun _ => ?_⟩
        have hadd := add_full L hs hkey hheld (habsent _ List.mem_cons_self) (by omega) hfits (depth + 1)
        simp only [reinsert, hadd, Option.bind_eq_bind, Option.bind_none]

/-- A table that can double does so with its entries, if there is room to retain each of them twice. -/
theorem rehash_spec (hs : Shape text hash ht) (hheld : Holds ht.entries s) (hcap : 2 * ht.capacity ≤ 2 ^ 31)
    (hload : 4 * ht.count ≤ 6 * ht.capacity) (depth : Nat) :
    ((∀ e ∈ ht.entries, Room ht.entries e) →
      ∃ ht' s', rehash cb (add cb (depth + 1)) ht s = some (ht', s') ∧ Shape text hash ht' ∧ ht'.capacity = 2 * ht.capacity ∧
        ht'.count = ht.count ∧ ht'.entries.Perm ht.entries ∧ Holds ht'.entries s') ∧
    ((∃ e ∈ ht.entries, ¬Room ht.entries e) → rehash cb (add cb (depth + 1)) ht s = none) := by
  have hpos := hs.pos
  have hdouble : ht.capacity * 2 % 2 ^ 32 = 2 * ht.capacity := by omega
  have hcount : ht.count = ht.entries.length := by rw [hs.count, used_slots]
  have hempty : (setPayload { ht with count := 0, capacity := 2 * ht.capacity }).entries = [] := replicate_entries _
  have hspec := reinsert_spec L depth ht.payload
    (shape_setPayload (by omega) hcap ht.payload) (s := s) (by rw [hempty]; exact hheld) (nodup_texts hs)
    (fun e _ e' he' => by rw [hempty] at he'; cases he')
    (by
      have hlen : (ht.payload.filterMap id).length = ht.count := hcount.symm
      rw [hlen]
      show 4 * (0 + ht.count) ≤ 3 * (2 * ht.capacity)
      omega)
  rw [hempty, List.nil_append] at hspec
  rw [rehash, hdouble]
  refine ⟨fun hroom => ?_, hspec.2⟩
  obtain ⟨ht', s', hrun, hs', hcap', hcount', hperm, hheld'⟩ := hspec.1 hroom
  refine ⟨ht', s', hrun, hs', hcap', ?_, hperm, hheld'⟩
  rw [hcount', hcount]
  exact Nat.zero_add _

omit L in
/-- Nothing is reinserted into a table without slots. -/
theorem reinsert_zero (depth : Nat) {old : List (Option (κ × ν))} (hold : old.filterMap id ≠ []) {ht : HashTab κ ν}
    (hzero : ht.capacity = 0) (s : σ) : reinsert cb (add cb depth) old ht s = none := by
  induction old with
  | nil => exact absurd rfl hold
  | cons o old ih =>
    cases o with
    | none => exact ih hold
    | some e =>
      have hadd : add cb depth ht e.1 e.2 s = none := by
        cases depth with
        | zero => rfl
        | succ depth =>
          have hseek : seek cb ht e.1 s = none := by
            unfold seek
            cases cb.hashKey e.1 s with
            | none => rfl
            | some h => simp [hzero]
          rw [add, hseek]
          rfl
      simp only [reinsert, hadd, Option.bind_eq_bind, Option.bind_none]

/-- The most entries that a table of a runtime has: three quarters of `2 ^ 31`. -/
def maxCount : Nat := 3 * 2 ^ 29

/-- There is room for a new entry: in the table after it may have doubled, for the entry to be retained, and for each entry to be
retained twice where the table doubles. -/
def Fits (Room : List (κ × ν) → κ × ν → Prop) (ht : HashTab κ ν) (e : κ × ν) : Prop :=
  ht.count < maxCount ∧ Room ht.entries e ∧ (4 * (ht.count + 1) > 3 * ht.capacity → ∀ e' ∈ e :: ht.entries, Room (e :: ht.entries) e')

/-- A new entry, with the table's entries and no others retained: the table has it, where there is room. With `maxCount` entries the
next one finds a table without slots. -/
theorem add_spec (hg : Good text hash ht) (hkey : KeyReady s key) (hval : ValReady s val)
    (hheld : Holds ht.entries s) (habsent : ht.Absent text (text key)) (depth : Nat) :
    (Fits Room ht (key, val) → ∃ ht' s', add cb (depth + 2) ht key val s = some (true, ht', s') ∧ Good text hash ht' ∧
      ht'.count = ht.count + 1 ∧ ht'.entries.Perm ((key, val) :: ht.entries) ∧ Holds ht'.entries s') ∧
    (¬Fits Room ht (key, val) → add cb (depth + 2) ht key val s = none) := by
  obtain ⟨hs, ⟨j, hj, hsize⟩, hload⟩ := hg
  have hpos := hs.pos
  have hbound := hs.bound
  have hframe : Holds (ht.entries ++ []) s := by rw [List.append_nil]; exact hheld
  have hsmall : 4 ≤ ht.capacity := by rw [hsize]; exact Nat.le_mul_of_pos_right 4 (Nat.two_pow_pos j)
  by_cases hfits : Room ht.entries (key, val)
  swap
  · refine ⟨fun hroom => absurd hroom.2.1 hfits, fun _ => ?_⟩
    exact add_full L hs hkey hframe habsent (by omega) (by rw [List.append_nil]; exact hfits) _
  obtain ⟨ht₁, s₁, hs₁, hcap₁, hcount₁, hperm₁, hheld₁, hadd⟩ :=
    add_eq L hs hkey hval hframe habsent (by omega) (by rw [List.append_nil]; exact hfits)
  rw [List.append_nil] at hheld₁
  have hheld₁' := L.perm hperm₁.symm hheld₁
  rw [hadd]
  by_cases hroom : 4 * ht₁.count > 3 * ht₁.capacity
  · rw [if_pos hroom]
    rw [hcount₁, hcap₁] at hroom
    rcases Nat.lt_or_ge j 29 with hlt | hge
    · -- the capacity doubles
      have hpow : 2 ^ j * 2 ≤ 2 ^ 29 := by
        rw [← Nat.pow_succ]
        exact Nat.pow_le_pow_right (by omega) hlt
      obtain ⟨hsome, hnone⟩ := rehash_spec L hs₁ hheld₁' (by omega) (by omega) depth
      constructor
      · rintro ⟨-, -, hall⟩
        obtain ⟨ht₂, s₂, hrehash, hs₂, hcap₂, hcount₂, hperm₂, hheld₂⟩ :=
          hsome fun e he => L.room hperm₁.symm (hall hroom e (hperm₁.mem_iff.mp he))
        refine ⟨ht₂, s₂, by rw [hrehash]; rfl, ⟨hs₂, ⟨j + 1, hlt, ?_⟩, by omega⟩, hcount₂.trans hcount₁, hperm₂.trans hperm₁, hheld₂⟩
        rw [hcap₂, hcap₁, hsize, Nat.pow_succ]
        omega
      · intro hno
        have hsome : ∃ e ∈ ht₁.entries, ¬Room ht₁.entries e := by
          by_contra hall
          push Not at hall
          exact hno ⟨by unfold maxCount; omega, hfits, fun _ e he => L.room hperm₁ (hall e (hperm₁.mem_iff.mpr he))⟩
        rw [hnone hsome]
        rfl
    · -- twice the capacity is zero in 32 bits
      obtain rfl : j = 29 := by omega
      refine ⟨fun hless => by have := hless.1; unfold maxCount at this; omega, fun _ => ?_⟩
      have hzero : ht₁.capacity * 2 % 2 ^ 32 = 0 := by
        have hcap := hcap₁.trans hsize
        omega
      have hne : ht₁.payload.filterMap id ≠ [] := fun hnil => by
        have hcount : ht₁.count = ht₁.entries.length := by rw [hs₁.count, used_slots]
        rw [entries, hnil, List.length_nil] at hcount
        omega
      rw [rehash, reinsert_zero (depth + 1) hne hzero]
      rfl
  · rw [if_neg hroom]
    refine ⟨fun _ => ⟨ht₁, s₁, rfl, ⟨hs₁, ⟨j, hj, hcap₁.trans hsize⟩, by omega⟩, hcount₁, hperm₁, hheld₁'⟩, fun hfull => ?_⟩
    rw [hcount₁, hcap₁] at hroom
    have hpow : 2 ^ j ≤ 2 ^ 29 := Nat.pow_le_pow_right (by omega) hj
    exact absurd ⟨by unfold maxCount; omega, hfits, fun hover => absurd hover hroom⟩ hfull

/-- An entry whose key is in the table is found, and another one is not. -/
theorem find_spec (hg : Good text hash ht) (hkey : KeyReady s key) (hheld : Holds ht.entries s) :
    (∀ e ∈ ht.entries, text e.1 = text key → ∃ i, find cb ht key s = some (some (i, e)) ∧ ht.payload[i]? = some (some e)) ∧
    (ht.Absent text (text key) → find cb ht key s = some none) := by
  have hready : ∀ e ∈ ht.entries, KeyReady s e.1 := fun e he => (L.ready hheld he).1
  have hpos := hg.shape.pos
  have hload := hg.load
  constructor
  · intro e he htext
    obtain ⟨i, hseek, hslot, -⟩ := seek_present L hg.shape hkey hready he htext
    exact ⟨i, by rw [find, hseek]; rfl, hslot⟩
  · intro habsent
    obtain ⟨i, hseek, -⟩ := seek_absent L hg.shape (by omega) hkey hready habsent
    rw [find, hseek]
    rfl

/-- All entries are released. -/
theorem delete_spec (hheld : Holds ht.entries s) : ∃ s', delete cb ht s = some s' ∧ Holds [] s' := by
  unfold delete
  unfold entries at hheld
  generalize ht.payload = payload at hheld ⊢
  induction payload generalizing s with
  | nil => exact ⟨s, rfl, hheld⟩
  | cons o os ih =>
    cases o with
    | none => exact ih hheld
    | some e =>
      have hcons : Holds ((e.1, e.2) :: os.filterMap id) s := hheld
      obtain ⟨s₁, s₂, hkey, hval, hrest⟩ := L.release hcons
      obtain ⟨s', hrun, hnil⟩ := ih hrest
      refine ⟨s', ?_, hnil⟩
      simp only [releaseAll, hkey, hval, Option.bind_eq_bind, Option.bind_some]
      exact hrun

end Probe

/-! ## Replacing -/

/-- The value of an entry is replaced in place. -/
theorem good_replace (hg : Good text hash ht) {i : Nat} {key : κ} {old : ν} (hslot : ht.payload[i]? = some (some (key, old)))
    (val : ν) : Good text hash { ht with payload := ht.payload.set i (some (key, val)) } ∧ ∃ rest, ht.entries.Perm ((key, old) :: rest) ∧
        ({ ht with payload := ht.payload.set i (some (key, val)) } : HashTab κ ν).entries.Perm ((key, val) :: rest) := by
  obtain ⟨hs, hsize, hload⟩ := hg
  have hget : (ht.slots text)[i]? = some (some (text key, (key, old))) := by rw [slots_get, hslot]; rfl
  have hslots : ({ ht with payload := ht.payload.set i (some (key, val)) } : HashTab κ ν).slots text =
      (ht.slots text).set i (some (text key, (key, val))) := List.map_set
  refine ⟨⟨⟨?_, ?_, ?_, hs.pos, hs.bound⟩, hsize, hload⟩, ?_⟩
  · rw [List.length_set, hs.length]
  · rw [hslots, Probing.used_replace hget]
    exact hs.count
  · rw [hslots]
    exact hs.found.replace hget _
  · obtain ⟨rest, hold, hnew⟩ := entries_set hslot
    exact ⟨rest, hold, hnew _⟩

end HashTab

end Hashing

end CgSql
