import Mathlib.Data.List.Induction
import Mathlib.Data.List.Perm.Basic
import CgSql.LuaCursor

/-!
# The integrity of Lua cursors

A run of the generated Lua code keeps its cursors and result sets as long as no row table is changed while something else
holds it, no callee that is captured in a cursor returns without `OUT`, and no failed call leaves counters beyond the result
set it delivered. Two cursors over one result set are enough to break the first.
-/

namespace CgSql.LuaCursor

variable {V R S : Type}

namespace CursorAux

variable {α β : Type} {f : α → α} {frames : List (Frame R)} {c : Var} {cur : Cursor R} {a : R} {h : List (Row V)}
  {s : State V (List (Row V)) Nat}

/-! ## Modified lists -/

/-- An element of a modified list is an old one, or the modified one. -/
theorem mem_modify {l : List α} {i : Nat} {x : α} (h : x ∈ l.modify i f) : x ∈ l ∨ ∃ y, l[i]? = some y ∧ x = f y := by
  induction l generalizing i with
  | nil => simp at h
  | cons y l ih =>
    rcases i with _ | i
    · rw [List.modify_zero_cons, List.mem_cons] at h
      rcases h with rfl | h
      · exact Or.inr ⟨y, rfl, rfl⟩
      · exact Or.inl (List.mem_cons_of_mem y h)
    · rw [List.modify_succ_cons, List.mem_cons] at h
      rcases h with rfl | h
      · exact Or.inl List.mem_cons_self
      · rcases ih h with h | h
        · exact Or.inl (List.mem_cons_of_mem y h)
        · exact Or.inr h

/-- A modification that takes one item out of an element takes it out of the concatenation. -/
theorem flatMap_modify_perm {l : List α} {i : Nat} {x : α} {g : α → List β} {b : β}
    (hx : l[i]? = some x) (h : (g x).Perm (b :: g (f x))) : (l.flatMap g).Perm (b :: (l.modify i f).flatMap g) := by
  induction l generalizing i with
  | nil => simp at hx
  | cons y l ih =>
    rcases i with _ | i
    · have hy : y = x := by simpa using hx
      subst hy
      rw [List.modify_zero_cons, List.flatMap_cons, List.flatMap_cons, ← List.cons_append]
      exact h.append_right _
    · rw [List.modify_succ_cons, List.flatMap_cons, List.flatMap_cons]
      have htail := ih (by simpa using hx)
      exact (htail.append_left (g y)).trans List.perm_middle

/-- A modification that leaves what is collected from each element leaves the concatenation. -/
theorem flatMap_modify_eq (l : List α) (i : Nat) {g : α → List β} (h : ∀ x, g (f x) = g x) : (l.modify i f).flatMap g = l.flatMap g := by
  induction l generalizing i with
  | nil => rw [List.modify_nil]
  | cons y l ih =>
    rcases i with _ | i
    · rw [List.modify_zero_cons, List.flatMap_cons, List.flatMap_cons, h]
    · rw [List.modify_succ_cons, List.flatMap_cons, List.flatMap_cons, ih]

/-- A map commutes with a modification when it does at the element that is modified. -/
theorem map_modify (l : List α) (i : Nat) {g : α → β} {f' : β → β}
    (h : ∀ x, l[i]? = some x → g (f x) = f' (g x)) : (l.modify i f).map g = (l.map g).modify i f' := by
  induction l generalizing i with
  | nil => simp
  | cons y l ih =>
    rcases i with _ | i
    · rw [List.modify_zero_cons, List.map_cons, List.map_cons, List.modify_zero_cons, h y rfl]
    · rw [List.modify_succ_cons, List.map_cons, List.map_cons, List.modify_succ_cons, ih i fun x hx => h x (by simpa using hx)]

/-! ## What a state shows -/

@[simp] theorem map_setRow (f : R → S) (r : Option R) (c : Cursor R) : (c.setRow r).map f = (c.map f).setRow (r.map f) := rfl

@[simp] theorem map_over (f : R → S) (set : List R) (c : Cursor R) : (c.over set).map f = (c.map f).over (set.map f) := by
  simp [Cursor.over, Cursor.map]

@[simp] theorem map_capture (f : R → S) (failed : Bool) (set : List R) (c : Cursor R) :
    (c.capture failed set).map f = (c.map f).capture failed (set.map f) := by
  rcases failed with _ | _
  · exact map_over f set c
  · rfl

@[simp] theorem map_fetch (f : R → S) (fresh : R) (c : Cursor R) : (c.fetch fresh).map f = (c.map f).fetch (f fresh) := by
  unfold Cursor.fetch Cursor.map
  by_cases h : c.rowNum + 1 ≤ c.rowCount
  · simp [h]
  · simp [h]

/-- Showing the rows commutes with the assignments to a cursor. -/
theorem map_modifyCursor (f : R → S) (frames : List (Frame R)) (c : Var) (g : Cursor R → Cursor R) (g' : Cursor S → Cursor S)
    (h : ∀ cur, (g cur).map f = g' (cur.map f)) : (modifyCursor frames c g).map (·.map f) = modifyCursor (frames.map (·.map f)) c g' := by
  refine map_modify frames c.frame fun x _ => ?_
  unfold Frame.map
  simp only [Frame.mk.injEq, and_true]
  exact map_modify x.cursors c.index fun y _ => h y

/-- It commutes with the assignments to an object variable. -/
theorem map_setObject (f : R → S) (frames : List (Frame R)) (o : Var) (set : Option (List R)) :
    (setObject frames o set).map (·.map f) = setObject (frames.map (·.map f)) o (set.map (·.map f)) := by
  refine map_modify frames o.frame fun x _ => ?_
  unfold Frame.map
  simp only [Frame.mk.injEq, and_true, true_and]
  exact map_modify x.objects o.index fun y _ => rfl

/-- It commutes with the assignments to the running procedure's locals. -/
theorem map_modifyLast (f : R → S) (frames : List (Frame R)) (g : Frame R → Frame R) (g' : Frame S → Frame S)
    (h : ∀ x, (g x).map f = g' (x.map f)) : (modifyLast frames g).map (·.map f) = modifyLast (frames.map (·.map f)) g' := by
  unfold modifyLast
  rw [List.length_map]
  exact map_modify frames _ fun x _ => h x

/-- The variables of a cursor in what a state shows. -/
theorem cursor?_map (f : R → S) (frames : List (Frame R)) (c : Var) : cursor? (frames.map (·.map f)) c = (cursor? frames c).map (·.map f) := by
  unfold cursor?
  rw [List.getElem?_map]
  rcases frames[c.frame]? with _ | x
  · rfl
  · exact List.getElem?_map ..

/-- The result set of an object variable in what a state shows. -/
theorem object_map (f : R → S) (frames : List (Frame R)) (o : Var) : object (frames.map (·.map f)) o = (object frames o).map (·.map f) := by
  unfold object
  rw [List.getElem?_map]
  rcases frames[o.frame]? with _ | x
  · rfl
  · simp only [Option.map_some, Option.bind_some, Frame.map, List.getElem?_map]
    rcases x.objects[o.index]? with _ | set
    · rfl
    · rfl

/-- What is shown depends on the rows that are held only. -/
theorem map_congr {f f' : R → S} (h : ∀ a ∈ refs frames, f a = f' a) : frames.map (·.map f) = frames.map (·.map f') := by
  refine List.map_congr_left fun x hx => ?_
  have hxr : ∀ a ∈ x.refs, f a = f' a := fun a ha => h a (List.mem_flatMap.2 ⟨x, hx, ha⟩)
  simp only [Frame.refs, List.mem_append] at hxr
  have hc : x.cursors.map (·.map f) = x.cursors.map (·.map f') := by
    refine List.map_congr_left fun cur hcur => ?_
    have hcr : ∀ a ∈ cur.refs, f a = f' a := fun a ha => hxr a (Or.inl (List.mem_flatMap.2 ⟨cur, hcur, ha⟩))
    simp only [Cursor.refs, List.mem_append, Option.mem_toList] at hcr
    simp only [Cursor.map, Cursor.mk.injEq, and_true]
    exact ⟨Option.map_congr fun a ha => hcr a (Or.inl ha), List.map_congr_left fun a ha => hcr a (Or.inr ha)⟩
  have ho : x.objects.map (·.map (·.map f)) = x.objects.map (·.map (·.map f')) := by
    refine List.map_congr_left fun set hset => Option.map_congr fun rows hrows => List.map_congr_left fun a ha => ?_
    refine hxr a (Or.inr (Or.inl (List.mem_flatMap.2 ⟨set, hset, ?_⟩)))
    rw [Option.mem_def.1 hrows]
    exact ha
  simp only [Frame.map, Frame.mk.injEq, and_true]
  exact ⟨hc, ho, Option.map_congr fun a ha => hxr a (Or.inr (Or.inr (Or.inl (Option.mem_toList.2 ha)))),
    List.map_congr_left fun a ha => hxr a (Or.inr (Or.inr (Or.inr (Or.inl ha)))),
    List.map_congr_left fun a ha => hxr a (Or.inr (Or.inr (Or.inr (Or.inr ha))))⟩

/-! ## What is held after an assignment -/

/-- A cursor that is found is one of the cursors of a frame. -/
theorem mem_of_cursor? (h : cursor? frames c = some cur) : ∃ x ∈ frames, cur ∈ x.cursors := by
  unfold cursor? at h
  obtain ⟨x, hx, hcur⟩ := Option.bind_eq_some_iff.1 h
  exact ⟨x, List.mem_of_getElem? hx, List.mem_of_getElem? hcur⟩

/-- A cursor's rows are held. -/
theorem refs_of_cursor? (h : cursor? frames c = some cur) : cur.refs ⊆ refs frames := by
  intro a ha
  obtain ⟨x, hx, hcur⟩ := mem_of_cursor? h
  exact List.mem_flatMap.2 ⟨x, hx, List.mem_append_left _ (List.mem_flatMap.2 ⟨cur, hcur, ha⟩)⟩

/-- An object's rows are held. -/
theorem object_refs (frames : List (Frame R)) (o : Var) : (object frames o).getD [] ⊆ refs frames := by
  intro a ha
  unfold object at ha
  rcases hx : frames[o.frame]? with _ | x
  · simp [hx] at ha
  rcases hset : x.objects[o.index]? with _ | set
  · simp [hx, hset] at ha
  simp only [hx, Option.bind_some, hset, Option.join_some] at ha
  refine List.mem_flatMap.2 ⟨x, List.mem_of_getElem? hx, List.mem_append_right _ (List.mem_append_left _ ?_)⟩
  exact List.mem_flatMap.2 ⟨set, List.mem_of_getElem? hset, ha⟩

/-- After an assignment to a cursor, what is held was held before, or is held by that cursor now. -/
theorem refs_modifyCursor {g : Cursor R → Cursor R}
    (h : a ∈ refs (modifyCursor frames c g)) : a ∈ refs frames ∨ ∃ cur, cursor? frames c = some cur ∧ a ∈ (g cur).refs := by
  obtain ⟨x, hx, ha⟩ := List.mem_flatMap.1 h
  rcases mem_modify hx with hx | ⟨y, hy, rfl⟩
  · exact Or.inl (List.mem_flatMap.2 ⟨x, hx, ha⟩)
  rcases List.mem_append.1 ha with ha | ha
  · obtain ⟨cur, hcur, ha⟩ := List.mem_flatMap.1 ha
    rcases mem_modify hcur with hcur | ⟨old, hold, rfl⟩
    · exact Or.inl (List.mem_flatMap.2 ⟨y, List.mem_of_getElem? hy, List.mem_append_left _ (List.mem_flatMap.2 ⟨cur, hcur, ha⟩)⟩)
    · refine Or.inr ⟨old, ?_, ha⟩
      rw [cursor?, hy]
      exact hold
  · exact Or.inl (List.mem_flatMap.2 ⟨y, List.mem_of_getElem? hy, List.mem_append_right _ ha⟩)

/-- After an assignment to an object variable, what is held was held before, or is in the result set assigned. -/
theorem refs_setObject {o : Var} {set : Option (List R)} (h : a ∈ refs (setObject frames o set)) : a ∈ refs frames ∨ a ∈ set.getD [] := by
  obtain ⟨x, hx, ha⟩ := List.mem_flatMap.1 h
  rcases mem_modify hx with hx | ⟨y, hy, rfl⟩
  · exact Or.inl (List.mem_flatMap.2 ⟨x, hx, ha⟩)
  have hold : ∀ b ∈ y.refs, b ∈ refs frames := fun b hb => List.mem_flatMap.2 ⟨y, List.mem_of_getElem? hy, hb⟩
  simp only [Frame.refs, List.mem_append] at ha hold
  rcases ha with ha | ha | ha
  · exact Or.inl (hold a (Or.inl ha))
  · obtain ⟨set', hset', ha⟩ := List.mem_flatMap.1 ha
    rcases mem_modify hset' with hset' | ⟨_, _, hnew⟩
    · exact Or.inl (hold a (Or.inr (Or.inl (List.mem_flatMap.2 ⟨set', hset', ha⟩))))
    · rw [hnew] at ha
      exact Or.inr ha
  · exact Or.inl (hold a (Or.inr (Or.inr ha)))

/-- After an assignment to the running procedure's locals, what is held was held before, or is held by them now. -/
theorem refs_modifyLast {g : Frame R → Frame R} {P : Prop}
    (hg : ∀ x, a ∈ (g x).refs → a ∈ x.refs ∨ P) (h : a ∈ refs (modifyLast frames g)) : a ∈ refs frames ∨ P := by
  obtain ⟨x, hx, ha⟩ := List.mem_flatMap.1 h
  rcases mem_modify hx with hx | ⟨y, hy, rfl⟩
  · exact Or.inl (List.mem_flatMap.2 ⟨x, hx, ha⟩)
  rcases hg y ha with ha | hp
  · exact Or.inl (List.mem_flatMap.2 ⟨y, List.mem_of_getElem? hy, ha⟩)
  · exact Or.inr hp

/-! ## Cursors that can be read -/

/-- A cursor holds a row table, and its counters do not go beyond its result set. -/
def Fetchable (c : Cursor R) : Prop := c.row ≠ none ∧ (c.rowNum < c.rowCount → c.rowCount ≤ c.resultSet.length)

/-- Every cursor of the frames has the property. -/
def AllCursors (P : Cursor R → Prop) (frames : List (Frame R)) : Prop := ∀ x ∈ frames, ∀ c ∈ x.cursors, P c

/-- An assignment to a cursor keeps a property of all of them when the new cursor has it. -/
theorem allCursors_modifyCursor {P : Cursor R → Prop} {g : Cursor R → Cursor R}
    (h : AllCursors P frames) (hg : ∀ cur, cursor? frames c = some cur → P cur → P (g cur)) : AllCursors P (modifyCursor frames c g) := by
  intro x hx cur hcur
  rcases mem_modify hx with hx | ⟨y, hy, rfl⟩
  · exact h x hx cur hcur
  rcases mem_modify hcur with hcur | ⟨old, hold, rfl⟩
  · exact h y (List.mem_of_getElem? hy) cur hcur
  · refine hg old ?_ (h y (List.mem_of_getElem? hy) old (List.mem_of_getElem? hold))
    rw [cursor?, hy]
    exact hold

/-- Assignments to other variables of a frame keep it. -/
theorem allCursors_modify {P : Cursor R → Prop} (i : Nat) {g : Frame R → Frame R}
    (h : AllCursors P frames) (hg : ∀ x, (g x).cursors = x.cursors) : AllCursors P (frames.modify i g) := by
  intro x hx cur hcur
  rcases mem_modify hx with hx | ⟨y, hy, rfl⟩
  · exact h x hx cur hcur
  · rw [hg] at hcur
    exact h y (List.mem_of_getElem? hy) cur hcur

/-- A fetch leaves a cursor that can be read. -/
theorem Fetchable.fetch {c : Cursor R} (h : Fetchable c) (fresh : R) : Fetchable (c.fetch fresh) := by
  obtain ⟨_, hcount⟩ := h
  unfold Fetchable Cursor.fetch
  by_cases hn : c.rowNum + 1 ≤ c.rowCount
  · have hlen := hcount (by omega)
    refine ⟨?_, fun _ => hlen⟩
    simp only [hn, if_true]
    rw [List.getElem?_eq_getElem (by omega)]
    simp
  · refine ⟨by simp [hn], fun hlt => ?_⟩
    have : c.rowNum + 1 < c.rowCount := hlt
    omega

/-! ## The heap -/

/-- A table is found where it was after new ones are made. -/
theorem load_append {t : List (Row V)} {a : Nat} (ha : a < h.length) : (luaMemory V).load (h ++ t) a = (luaMemory V).load h a := by
  simp only [luaMemory, List.getD_eq_getElem?_getD, List.getElem?_append_left ha]

/-- The table made last. -/
@[simp] theorem load_new (h : List (Row V)) (r : Row V) : (luaMemory V).load (h ++ [r]) h.length = r := by
  simp [luaMemory]

/-- The other tables are as they were after an assignment. -/
theorem load_set_ne {a b : Nat} (r : Row V) (hne : b ≠ a) : (luaMemory V).load (h.set a r) b = (luaMemory V).load h b := by
  simp only [luaMemory, List.getD_eq_getElem?_getD, List.getElem?_set_ne hne.symm]

/-- The table that is assigned. -/
theorem load_set_self {a : Nat} (r : Row V) (ha : a < h.length) : (luaMemory V).load (h.set a r) a = r := by
  simp [luaMemory, ha]

/-- The declarations of a procedure's cursors make new tables, one after the other. -/
theorem allocs_lua (h : List (Row V)) (n : Nat) : (luaMemory V).allocs h n = (List.range' h.length n, h ++ List.replicate n Row.noRow) := by
  induction n with
  | zero => simp [Memory.allocs]
  | succ n ih =>
    simp only [Memory.allocs, ih]
    simp [luaMemory, List.range'_concat, List.replicate_succ', List.append_assoc]

/-- Copies need no memory. -/
theorem allocs_copy (n : Nat) : (copyMemory V).allocs () n = (List.replicate n Row.noRow, ()) := by
  induction n with
  | zero => rfl
  | succ n ih =>
    simp only [Memory.allocs, ih]
    simp [copyMemory, List.replicate_succ']

/-! ## The invariant -/

/-- Every row that is held is a table of the heap, and every cursor can be read. -/
structure Sound (s : State V (List (Row V)) Nat) : Prop where
  held : ∀ a ∈ refs s.frames, a < s.mem.length
  fetchable : AllCursors Fetchable s.frames

/-- What a statement does: it keeps the invariant and the rows of every result set, and the copying machine follows. -/
structure Follows (s : State V (List (Row V)) Nat) (st : Stmt V) (s' : State V (List (Row V)) Nat) : Prop where
  sound : Sound s'
  sets : ∀ a ∈ setRows s.frames, (luaMemory V).load s'.mem a = (luaMemory V).load s.mem a
  copy : step (copyMemory V) s.view st = some s'.view

/-- The rows of result sets are held. -/
theorem setRows_subset (frames : List (Frame R)) : setRows frames ⊆ refs frames := by
  intro a ha
  obtain ⟨x, hx, ha⟩ := List.mem_flatMap.1 ha
  refine List.mem_flatMap.2 ⟨x, hx, ?_⟩
  simp only [Frame.setRows, Frame.refs, List.mem_append, List.mem_flatMap, Cursor.refs] at ha ⊢
  rcases ha with ⟨c, hc, ha⟩ | ha | ha
  · exact Or.inl ⟨c, hc, Or.inr ha⟩
  · exact Or.inr (Or.inl ha)
  · exact Or.inr (Or.inr (Or.inr ha))

/-- New tables leave the rows of the result sets. -/
theorem Sound.sets_append (hs : Sound s) (t : List (Row V)) :
    ∀ a ∈ setRows s.frames, (luaMemory V).load (s.mem ++ t) a = (luaMemory V).load s.mem a :=
  fun a ha => load_append (hs.held a (setRows_subset _ ha))

/-- New tables leave what is shown. -/
theorem Sound.map_append (hs : Sound s) (t : List (Row V)) :
    s.frames.map (·.map ((luaMemory V).load (s.mem ++ t))) = s.frames.map (·.map ((luaMemory V).load s.mem)) :=
  map_congr fun a ha => load_append (hs.held a ha)

/-- What is shown after an assignment to a cursor, with the tables it needs. -/
theorem Sound.view_modifyCursor (hs : Sound s) (c : Var) (t : List (Row V)) (g : Cursor Nat → Cursor Nat) (g' : Cursor (Row V) → Cursor (Row V))
    (h : ∀ cur, (g cur).map ((luaMemory V).load (s.mem ++ t)) = g' (cur.map ((luaMemory V).load (s.mem ++ t)))) :
    (LuaCursor.modifyCursor s.frames c g).map (·.map ((luaMemory V).load (s.mem ++ t))) = LuaCursor.modifyCursor s.view.frames c g' := by
  rw [map_modifyCursor _ s.frames c g g' h, hs.map_append]
  rfl

/-! ## One statement -/

variable {s : State V (List (Row V)) Nat}

/-- What a cursor that is found holds. -/
theorem Sound.cursor (hs : Sound s) {cur : Cursor Nat} (h : cursor? s.frames c = some cur) :
    Fetchable cur ∧ ∀ a ∈ cur.refs, a < s.mem.length := by
  obtain ⟨x, hx, hcur⟩ := mem_of_cursor? h
  exact ⟨hs.fetchable x hx cur hcur, fun a ha => hs.held a (refs_of_cursor? h ha)⟩

/-- An assignment to a cursor of something that leaves it readable, with the tables it needs, keeps the invariant. -/
theorem Sound.modifyCursor (hs : Sound s) (c : Var) {g : Cursor Nat → Cursor Nat} (t : List (Row V))
    (hg : ∀ cur, cursor? s.frames c = some cur → Fetchable cur →
      Fetchable (g cur) ∧ ∀ a ∈ (g cur).refs, a ∈ refs s.frames ∨ a < s.mem.length + t.length) :
    Sound { s with mem := s.mem ++ t, frames := LuaCursor.modifyCursor s.frames c g } := by
  constructor
  · intro a ha
    show a < (s.mem ++ t).length
    rw [List.length_append]
    rcases refs_modifyCursor ha with ha | ⟨cur, hcur, ha⟩
    · exact Nat.lt_add_right _ (hs.held a ha)
    · rcases (hg cur hcur (hs.cursor hcur).1).2 a ha with ha | ha
      · exact Nat.lt_add_right _ (hs.held a ha)
      · exact ha
  · exact allCursors_modifyCursor hs.fetchable fun cur hcur hf => (hg cur hcur hf).1

/-- `cursor := { _has_row_ = false }`, and the other ways a cursor is given a table of its own. -/
theorem Fetchable.setRow {c : Cursor R} (h : Fetchable c) (r : R) : Fetchable (c.setRow (some r)) :=
  ⟨by simp [Cursor.setRow], h.2⟩

/-- What a cursor holds after a table is assigned to it. -/
theorem refs_setRow {c : Cursor R} {r : R} (h : a ∈ (c.setRow (some r)).refs) : a = r ∨ a ∈ c.refs := by
  simp only [Cursor.setRow, Cursor.refs, Option.toList_some, List.mem_append, List.mem_singleton] at h ⊢
  rcases h with h | h
  · exact Or.inl h
  · exact Or.inr (Or.inr h)

/-- What a cursor holds after a fetch. -/
theorem refs_fetch {c : Cursor R} {fresh : R} (h : a ∈ (c.fetch fresh).refs) : a = fresh ∨ a ∈ c.refs := by
  simp only [Cursor.fetch, Cursor.refs, List.mem_append, Option.mem_toList] at h ⊢
  rcases h with h | h
  · by_cases hn : c.rowNum + 1 ≤ c.rowCount
    · simp only [hn, if_true] at h
      exact Or.inr (Or.inr (List.mem_of_getElem? h))
    · simp only [hn, if_false, Option.some.injEq] at h
      exact Or.inl h.symm
  · exact Or.inr (Or.inr h)

/-- A call reaches the body of the callee. -/
theorem follows_enter (hs : Sound s) (n m : Nat) (b : Bool) :
    ∃ s', step (luaMemory V) s (.enter n m b) = some s' ∧ Follows s (.enter n m b) s' := by
  refine ⟨_, rfl, ?_⟩
  simp only [allocs_lua]
  have hnew : ∀ a ∈ (Frame.start (List.range' s.mem.length n) m b).refs, a < s.mem.length + n := by
    intro a ha
    simp only [Frame.refs, Frame.start, Cursor.refs, Cursor.declare, List.flatMap_map, Option.toList_some, List.append_nil,
      List.flatMap_singleton', Option.toList_none, List.mem_append, List.mem_flatMap,
      List.mem_replicate] at ha
    rcases ha with ha | ⟨set, ⟨_, rfl⟩, ha⟩
    · exact (List.mem_range'_1.1 ha).2
    · simp at ha
  refine ⟨⟨?_, ?_⟩, hs.sets_append _, ?_⟩
  · intro a ha
    show a < (s.mem ++ List.replicate n Row.noRow).length
    rw [List.length_append, List.length_replicate]
    simp only [refs, List.flatMap_append, List.flatMap_cons, List.flatMap_nil, List.append_nil, List.mem_append] at ha
    rcases ha with ha | ha
    · exact Nat.lt_add_right n (hs.held a ha)
    · exact hnew a ha
  · intro x hx cur hcur
    rcases List.mem_append.1 hx with hx | hx
    · exact hs.fetchable x hx cur hcur
    · rw [List.mem_singleton.1 hx] at hcur
      obtain ⟨r, _, rfl⟩ := List.mem_map.1 hcur
      exact ⟨by simp [Cursor.declare], by simp [Cursor.declare]⟩
  · have hrows : (List.range' s.mem.length n).map ((luaMemory V).load (s.mem ++ List.replicate n Row.noRow)) = List.replicate n Row.noRow := by
      refine List.eq_replicate_iff.2 ⟨by simp, ?_⟩
      intro r hr
      obtain ⟨a, ha, rfl⟩ := List.mem_map.1 hr
      obtain ⟨hle, hlt⟩ := List.mem_range'_1.1 ha
      simp only [luaMemory, List.getD_eq_getElem?_getD, List.getElem?_append_right hle]
      rw [List.getElem?_replicate_of_lt (by omega)]
      rfl
    have hframe : (Frame.start (List.range' s.mem.length n) m b).map
        ((luaMemory V).load (s.mem ++ List.replicate n Row.noRow)) = Frame.start (List.replicate n Row.noRow) m b := by
      simp only [Frame.map, Frame.start, List.map_map, List.map_replicate, List.map_nil, Option.map_none, Frame.mk.injEq, and_true]
      have hdecl := congrArg (List.map Cursor.declare) hrows
      rw [List.map_map, List.map_replicate] at hdecl
      exact hdecl
    simp only [step, State.view, allocs_copy, List.map_append, List.map_cons, List.map_nil, hs.map_append, hframe]

/-- `FETCH` of an `OUT UNION` cursor. -/
theorem follows_fetch (hs : Sound s) (c : Var) : ∃ s', step (luaMemory V) s (.fetch c) = some s' ∧ Follows s (.fetch c) s' := by
  refine ⟨_, rfl, ?_, hs.sets_append [Row.noRow], ?_⟩
  · refine hs.modifyCursor c [Row.noRow] fun cur hcur hf => ⟨hf.fetch _, fun a ha => ?_⟩
    rcases refs_fetch ha with rfl | ha
    · exact Or.inr (by simp [luaMemory])
    · exact Or.inl (refs_of_cursor? hcur ha)
  · have hmap := hs.view_modifyCursor c [Row.noRow] (fun cur => cur.fetch s.mem.length) (fun cur => cur.fetch Row.noRow) fun cur => by simp
    exact congrArg some (congrArg (fun fs => State.mk () fs s.reads) hmap.symm)

/-- `CLOSE`. -/
theorem follows_close (hs : Sound s) (c : Var) : ∃ s', step (luaMemory V) s (.close c) = some s' ∧ Follows s (.close c) s' := by
  refine ⟨_, rfl, ?_, hs.sets_append [Row.noRow], ?_⟩
  · refine hs.modifyCursor c [Row.noRow] fun cur hcur hf => ⟨hf.setRow _, fun a ha => ?_⟩
    rcases refs_setRow ha with rfl | ha
    · exact Or.inr (by simp [luaMemory])
    · exact Or.inl (refs_of_cursor? hcur ha)
  · have hmap := hs.view_modifyCursor c [Row.noRow] (fun cur => cur.setRow (some s.mem.length))
      (fun cur => cur.setRow (some Row.noRow)) fun cur => by simp
    exact congrArg some (congrArg (fun fs => State.mk () fs s.reads) hmap.symm)

/-- A cursor is put at the start of a result set that a variable holds. -/
theorem follows_cursorFor (hs : Sound s) (c o : Var) (hholds : object s.frames o ≠ none) :
    ∃ s', step (luaMemory V) s (.cursorFor c o) = some s' ∧ Follows s (.cursorFor c o) s' := by
  obtain ⟨set, hset⟩ := Option.ne_none_iff_exists'.1 hholds
  have hheld : set ⊆ refs s.frames := by
    intro a ha
    refine object_refs s.frames o ?_
    rw [hset]
    exact ha
  refine ⟨{ s with frames := modifyCursor s.frames c (·.over set) }, by simp only [step, hset, Option.map_some], ?_, fun _ _ => rfl, ?_⟩
  · have h := hs.modifyCursor c [] (g := fun cur => cur.over set) fun cur hcur hf =>
      ⟨⟨hf.1, fun _ => Nat.le_refl _⟩, fun a ha => Or.inl ?_⟩
    · simpa using h
    · rcases List.mem_append.1 ha with ha | ha
      · exact refs_of_cursor? hcur (List.mem_append_left _ ha)
      · exact hheld ha
  · have hmap := map_modifyCursor ((luaMemory V).load s.mem) s.frames c (fun cur => cur.over set)
      (fun cur => cur.over (set.map ((luaMemory V).load s.mem))) fun cur => by simp
    simp only [step, State.view, object_map, hset, Option.map_some]
    exact congrArg some (congrArg (fun fs => State.mk () fs s.reads) hmap.symm)

/-- An object variable is assigned a result set that is held. -/
theorem Sound.setObject (hs : Sound s) (o : Var) {set : Option (List Nat)} (h : ∀ a ∈ set.getD [], a < s.mem.length) :
    Sound { s with frames := LuaCursor.setObject s.frames o set } := by
  constructor
  · intro a ha
    rcases refs_setObject ha with ha | ha
    · exact hs.held a ha
    · exact h a ha
  · exact allCursors_modify o.frame hs.fetchable fun _ => rfl

/-- An object variable is assigned another. -/
theorem follows_assign (hs : Sound s) (o o' : Var) : ∃ s', step (luaMemory V) s (.assign o o') = some s' ∧ Follows s (.assign o o') s' := by
  refine ⟨_, rfl, hs.setObject o fun a ha => hs.held a (object_refs s.frames o' ha), fun _ _ => rfl, ?_⟩
  simp only [step, State.view, map_setObject, object_map]

/-! ## Statements that read the row table -/

/-- A statement that indexes a cursor goes on in both machines, when it does so for the row the cursor holds. -/
theorem withRow_follows (hs : Sound s) (c : Var) (k : Nat → State V (List (Row V)) Nat) (k' : Row V → State V Unit (Row V))
    (hk : ∀ cur a, cursor? s.frames c = some cur → cur.row = some a →
      (Sound (k a) ∧ ∀ b ∈ setRows s.frames, (luaMemory V).load (k a).mem b = (luaMemory V).load s.mem b) ∧
        k' ((luaMemory V).load s.mem a) = (k a).view) : ∃ s', s.withRow c k = some s' ∧
      (Sound s' ∧ ∀ b ∈ setRows s.frames, (luaMemory V).load s'.mem b = (luaMemory V).load s.mem b) ∧ s.view.withRow c k' = some s'.view := by
  unfold State.withRow
  simp only [State.view, cursor?_map]
  rcases hcur : cursor? s.frames c with _ | cur
  · exact ⟨s, rfl, ⟨hs, fun _ _ => rfl⟩, rfl⟩
  rcases hrow : cur.row with _ | a
  · exact absurd hrow (hs.cursor hcur).1.1
  obtain ⟨hkept, hview⟩ := hk cur a hcur hrow
  refine ⟨k a, ?_, hkept, ?_⟩
  · simp only [hrow, Option.map_some]
  · simp only [Option.map_some, Cursor.map, hrow]
    exact congrArg some hview

/-- `read`. -/
theorem follows_read (hs : Sound s) (c : Var) : ∃ s', step (luaMemory V) s (.read c) = some s' ∧ Follows s (.read c) s' := by
  obtain ⟨s', hs', ⟨hsound, hsets⟩, hcopy⟩ := withRow_follows hs c (fun a => { s with reads := s.reads ++ [(luaMemory V).load s.mem a] })
    (fun r => { s.view with reads := s.view.reads ++ [r] })
    fun cur a _ _ => ⟨⟨⟨hs.held, hs.fetchable⟩, fun _ _ => rfl⟩, rfl⟩
  exact ⟨s', hs', hsound, hsets, hcopy⟩

/-- An assignment to the running procedure's locals other than its cursors, with the tables it needs. -/
theorem Sound.modifyLast (hs : Sound s) (t : List (Row V)) {g : Frame Nat → Frame Nat} (hc : ∀ x, (g x).cursors = x.cursors)
    (hg : ∀ x a, a ∈ (g x).refs → a ∈ x.refs ∨ (a ∈ refs s.frames ∨ a < s.mem.length + t.length)) :
    Sound { s with mem := s.mem ++ t, frames := LuaCursor.modifyLast s.frames g } := by
  constructor
  · intro a ha
    show a < (s.mem ++ t).length
    rw [List.length_append]
    rcases refs_modifyLast (fun x => hg x a) ha with ha | ha | ha
    · exact Nat.lt_add_right _ (hs.held a ha)
    · exact Nat.lt_add_right _ (hs.held a ha)
    · exact ha
  · exact allCursors_modify _ hs.fetchable hc

/-- A copy of a row is added, and a local other than the cursors refers to it. -/
theorem Sound.pushed (hs : Sound s) (r : Row V) {g : Frame Nat → Frame Nat} {g' : Frame (Row V) → Frame (Row V)}
    (hc : ∀ x, (g x).cursors = x.cursors) (hg : ∀ x a, a ∈ (g x).refs → a ∈ x.refs ∨ a = s.mem.length)
    (hmap : ∀ x, (g x).map ((luaMemory V).load (s.mem ++ [r])) = g' (x.map ((luaMemory V).load (s.mem ++ [r])))) :
    (Sound { s with mem := s.mem ++ [r], frames := LuaCursor.modifyLast s.frames g } ∧
      ∀ b ∈ setRows s.frames, (luaMemory V).load (s.mem ++ [r]) b = (luaMemory V).load s.mem b) ∧
      { s.view with frames := LuaCursor.modifyLast s.view.frames g' } =
        State.view { s with mem := s.mem ++ [r], frames := LuaCursor.modifyLast s.frames g } := by
  refine ⟨⟨hs.modifyLast _ hc fun x b hb => (hg x b hb).imp_right fun h => Or.inr (by simp [h]), hs.sets_append _⟩, ?_⟩
  have hmap := map_modifyLast ((luaMemory V).load (s.mem ++ [r])) s.frames g g' hmap
  rw [hs.map_append] at hmap
  exact congrArg (fun fs => State.mk () fs s.reads) hmap.symm

/-- `OUT`. -/
theorem follows_out (hs : Sound s) (c : Var) : ∃ s', step (luaMemory V) s (.out c) = some s' ∧ Follows s (.out c) s' := by
  obtain ⟨s', hs', ⟨hsound, hsets⟩, hcopy⟩ := withRow_follows hs c (fun a => { s with
      mem := s.mem ++ [(luaMemory V).load s.mem a]
      frames := LuaCursor.modifyLast s.frames fun f => { f with result := some s.mem.length } })
    (fun r => { s.view with frames := LuaCursor.modifyLast s.view.frames fun f => { f with result := some r } })
    fun cur a hcur hrow => by
      refine hs.pushed _ (fun _ => rfl) (fun x b hb => ?_) fun x => by simp [Frame.map]
      simp only [Frame.refs, List.mem_append, Option.mem_toList, Option.some.injEq] at hb ⊢
      rcases hb with hb | hb | hb | hb
      · exact Or.inl (Or.inl hb)
      · exact Or.inl (Or.inr (Or.inl hb))
      · exact Or.inr hb.symm
      · exact Or.inl (Or.inr (Or.inr (Or.inr hb)))
  exact ⟨s', hs', hsound, hsets, hcopy⟩

/-- `OUT UNION`. -/
theorem follows_outUnion (hs : Sound s) (c : Var) : ∃ s', step (luaMemory V) s (.outUnion c) = some s' ∧ Follows s (.outUnion c) s' := by
  obtain ⟨s', hs', ⟨hsound, hsets⟩, hcopy⟩ := withRow_follows hs c (fun a => if ((luaMemory V).load s.mem a).hasRow then
      { s with
        mem := s.mem ++ [(luaMemory V).load s.mem a]
        frames := LuaCursor.modifyLast s.frames fun f => { f with rows := f.rows ++ [s.mem.length] } }
      else s)
    (fun r => if r.hasRow then
      { s.view with frames := LuaCursor.modifyLast s.view.frames fun f => { f with rows := f.rows ++ [r] } } else s.view)
    fun cur a hcur hrow => by
      by_cases hhas : ((luaMemory V).load s.mem a).hasRow = true
      · simp only [hhas, if_true]
        refine hs.pushed _ (fun _ => rfl) (fun x b hb => ?_) fun x => by simp [Frame.map]
        simp only [Frame.refs, List.mem_append, List.mem_singleton] at hb ⊢
        rcases hb with hb | hb | hb | (hb | hb) | hb
        · exact Or.inl (Or.inl hb)
        · exact Or.inl (Or.inr (Or.inl hb))
        · exact Or.inl (Or.inr (Or.inr (Or.inl hb)))
        · exact Or.inl (Or.inr (Or.inr (Or.inr (Or.inl hb))))
        · exact Or.inr hb
        · exact Or.inl (Or.inr (Or.inr (Or.inr (Or.inr hb))))
      · simp only [hhas, if_false, Bool.false_eq_true]
        exact ⟨⟨hs, fun _ _ => trivial⟩, trivial⟩
  exact ⟨s', hs', hsound, hsets, hcopy⟩

/-! ## Assigning a row table -/

/-- The frames with the row of a cursor taken out hold one table less. -/
theorem refs_setRow_none (hcur : cursor? frames c = some cur)
    (hrow : cur.row = some a) : (refs frames).Perm (a :: refs (modifyCursor frames c (·.setRow none))) := by
  unfold cursor? at hcur
  obtain ⟨x, hx, hcur⟩ := Option.bind_eq_some_iff.1 hcur
  refine flatMap_modify_perm hx ?_
  have hperm : (x.cursors.flatMap Cursor.refs).Perm (a :: (x.cursors.modify c.index (·.setRow none)).flatMap Cursor.refs) := by
    refine flatMap_modify_perm hcur ?_
    simp only [Cursor.refs, Cursor.setRow, hrow, Option.toList_some, Option.toList_none, List.nil_append, List.singleton_append]
    exact List.Perm.refl _
  exact hperm.append_right _

/-- Taking it out leaves the result sets. -/
theorem setRows_setRow (frames : List (Frame R)) (c : Var) (r : Option R) : setRows (modifyCursor frames c (·.setRow r)) = setRows frames := by
  refine flatMap_modify_eq frames c.frame fun x => ?_
  simp only [Frame.setRows]
  rw [flatMap_modify_eq x.cursors c.index (g := fun y => y.resultSet) (f := (·.setRow r)) fun _ => rfl]

/-- Two assignments of the row of a cursor are the last one. -/
theorem setRow_setRow (frames : List (Frame R)) (c : Var) (r r' : Option R) :
    modifyCursor (modifyCursor frames c (·.setRow r)) c (·.setRow r') = modifyCursor frames c (·.setRow r') := by
  unfold modifyCursor
  rw [List.modify_modify_eq]
  congr 1
  funext x
  simp only [Function.comp, List.modify_modify_eq]
  rfl

/-- A table with one holder can be assigned: in what is shown, the cursor's row is the new one and nothing else changes. -/
theorem map_store {frames : List (Frame Nat)} {cur : Cursor Nat} {a : Nat} {r : Row V}
    (hcur : cursor? frames c = some cur) (hrow : cur.row = some a) (ha : a < h.length) (hone : (refs frames).count a = 1) :
    (modifyCursor frames c (·.setRow (some a))).map (·.map ((luaMemory V).load (h.set a r))) =
      modifyCursor (frames.map (·.map ((luaMemory V).load h))) c (·.setRow (some r)) := by
  have hnot : a ∉ refs (modifyCursor frames c (·.setRow none)) := by
    have hcount := (refs_setRow_none hcur hrow).count_eq a
    rw [hone, List.count_cons_self] at hcount
    exact List.count_eq_zero.1 (by omega)
  have hout : (modifyCursor frames c (·.setRow none)).map (·.map ((luaMemory V).load (h.set a r))) =
      (modifyCursor frames c (·.setRow none)).map (·.map ((luaMemory V).load h)) :=
    map_congr fun b hb => load_set_ne r fun hba => hnot (hba ▸ hb)
  calc (modifyCursor frames c (·.setRow (some a))).map (·.map ((luaMemory V).load (h.set a r)))
      = modifyCursor (frames.map (·.map ((luaMemory V).load (h.set a r)))) c (·.setRow (some r)) :=
        map_modifyCursor _ frames c _ _ fun cur => by rw [map_setRow, Option.map_some, load_set_self r ha]
    _ = modifyCursor ((modifyCursor frames c (·.setRow none)).map (·.map ((luaMemory V).load (h.set a r)))) c (·.setRow (some r)) := by
        rw [map_modifyCursor _ frames c (·.setRow none) (·.setRow none) fun _ => rfl, setRow_setRow]
    _ = modifyCursor ((modifyCursor frames c (·.setRow none)).map (·.map ((luaMemory V).load h))) c (·.setRow (some r)) := by
        rw [hout]
    _ = modifyCursor (frames.map (·.map ((luaMemory V).load h))) c (·.setRow (some r)) := by
        rw [map_modifyCursor _ frames c (·.setRow none) (·.setRow none) fun _ => rfl, setRow_setRow]

/-- The same table assigned to a cursor again is the same for the cursor. -/
theorem Sound.setRow_self (hs : Sound s) {cur : Cursor Nat} {a : Nat} (hcur : cursor? s.frames c = some cur)
    (hrow : cur.row = some a) (h' : List (Row V)) (hlen : h'.length = s.mem.length) :
    Sound { s with mem := h', frames := LuaCursor.modifyCursor s.frames c (·.setRow (some a)) } := by
  constructor
  · intro b hb
    show b < h'.length
    rw [hlen]
    rcases refs_modifyCursor hb with hb | ⟨old, hold, hb⟩
    · exact hs.held b hb
    · rcases refs_setRow hb with rfl | hb
      · exact (hs.cursor hcur).2 b (List.mem_append_left _ (by simp [hrow]))
      · exact (hs.cursor hold).2 b hb
  · exact allCursors_modifyCursor hs.fetchable fun old _ hf => hf.setRow a

/-- `UPDATE CURSOR`, `FETCH … FROM VALUES` and the fetch of a statement's row, on a row table that has no other holder, or
that they leave as it is. -/
theorem follows_store (hs : Sound s) (c : Var) (w : Write V) (hsafe : Safe s (.store c w)) :
    ∃ s', step (luaMemory V) s (.store c w) = some s' ∧ Follows s (.store c w) s' := by
  obtain ⟨s', hs', ⟨hsound, hsets⟩, hcopy⟩ := withRow_follows hs c (fun a => { s with
      mem := s.mem.set a (w.apply ((luaMemory V).load s.mem a))
      frames := LuaCursor.modifyCursor s.frames c (·.setRow (some a)) })
    (fun r => { s.view with frames := LuaCursor.modifyCursor s.view.frames c (·.setRow (some (w.apply r))) })
    fun cur a hcur hrow => by
      have ha : a < s.mem.length := (hs.cursor hcur).2 a (List.mem_append_left _ (by simp [hrow]))
      refine ⟨⟨hs.setRow_self hcur hrow _ List.length_set, ?_⟩, ?_⟩
      · intro b hb
        by_cases hchange : w.apply ((luaMemory V).load s.mem a) = (luaMemory V).load s.mem a
        · rcases eq_or_ne b a with rfl | hne
          · rw [load_set_self _ ha, hchange]
          · exact load_set_ne _ hne
        · refine load_set_ne _ fun hba => ?_
          subst hba
          have hcount := (refs_setRow_none hcur hrow).count_eq b
          rw [hsafe cur hcur b hrow hchange, List.count_cons_self] at hcount
          have hheld := setRows_subset _ (by rw [setRows_setRow s.frames c none]; exact hb)
          exact List.count_eq_zero.1 (by omega) hheld
      · by_cases hchange : w.apply ((luaMemory V).load s.mem a) = (luaMemory V).load s.mem a
        · have hmem : ∀ b ∈ refs s.frames, (luaMemory V).load (s.mem.set a ((luaMemory V).load s.mem a)) b = (luaMemory V).load s.mem b := by
            intro b _
            rcases eq_or_ne b a with rfl | hne
            · rw [load_set_self _ ha]
            · exact load_set_ne _ hne
          have hmap := map_modifyCursor ((luaMemory V).load (s.mem.set a ((luaMemory V).load s.mem a))) s.frames c
            (·.setRow (some a)) (·.setRow (some ((luaMemory V).load s.mem a))) fun cur => by
              rw [map_setRow, Option.map_some, load_set_self _ ha]
          rw [map_congr hmem] at hmap
          rw [hchange]
          exact congrArg (fun fs => State.mk () fs s.reads) hmap.symm
        · exact congrArg (fun fs => State.mk () fs s.reads) (map_store hcur hrow ha (hsafe cur hcur a hrow hchange)).symm
  exact ⟨s', hs', hsound, hsets, hcopy⟩

/-! ## Returns -/

/-- The callee's frame is dropped. -/
theorem Sound.dropLast (hs : Sound s) : Sound { s with frames := s.frames.dropLast } := by
  constructor
  · intro a ha
    obtain ⟨x, hx, ha⟩ := List.mem_flatMap.1 ha
    exact hs.held a (List.mem_flatMap.2 ⟨x, List.dropLast_subset _ hx, ha⟩)
  · exact fun x hx => hs.fetchable x (List.dropLast_subset _ hx)

/-- What a procedure returns was held by it. -/
theorem returned_subset (f : Frame R) : f.returned ⊆ f.refs := by
  intro a ha
  unfold Frame.returned at ha
  simp only [Frame.refs, List.mem_append]
  split_ifs at ha
  · exact Or.inr (Or.inr (Or.inr (Or.inr ha)))
  · exact Or.inr (Or.inr (Or.inr (Or.inl ha)))

/-- What is shown of the result set a procedure returns. -/
theorem returned_map (f : R → S) (x : Frame R) : (x.map f).returned = x.returned.map f := by
  unfold Frame.returned Frame.map
  by_cases h : x.callsOutUnion = true
  · simp [h]
  · simp [h]

/-- The assignments of a call's return values, in what is shown. -/
theorem captured_map (f : R → S) (frames : List (Frame R)) (callee : Frame R) (failed : Bool) (capture : Capture) :
    (captured frames callee failed capture).map (·.map f) = captured (frames.map (·.map f)) (callee.map f) failed capture := by
  rcases capture with _ | c | c | o | _
  · rfl
  · exact map_modifyCursor f frames c _ _ fun _ => rfl
  · exact map_modifyCursor f frames c _ _ fun cur => by simp [returned_map]
  · cases failed with
    | true => rfl
    | false =>
      simp only [captured, Bool.false_eq_true, if_false, map_setObject, Option.map_some, returned_map]
  · exact map_modifyLast f frames _ _ fun x => by
      rw [returned_map]
      rfl

/-- A captured result set leaves a cursor that can be read, unless a failed call leaves counters beyond it. -/
theorem Fetchable.capture {c : Cursor R} (h : Fetchable c) (failed : Bool) (set : List R)
    (hfail : failed = true → c.rowNum < c.rowCount → c.rowCount ≤ set.length) : Fetchable (c.capture failed set) := by
  rcases failed with _ | _
  · exact ⟨h.1, fun _ => Nat.le_refl _⟩
  · exact ⟨h.1, hfail rfl⟩

/-- What a cursor holds after a capture. -/
theorem refs_capture {c : Cursor R} {failed : Bool} {set : List R} (h : a ∈ (c.capture failed set).refs) : a ∈ c.refs ∨ a ∈ set := by
  have hrow : (c.capture failed set).row = c.row ∧ (c.capture failed set).resultSet = set := by
    rcases failed with _ | _
    · exact ⟨rfl, rfl⟩
    · exact ⟨rfl, rfl⟩
  simp only [Cursor.refs, hrow.1, hrow.2, List.mem_append] at h ⊢
  rcases h with h | h
  · exact Or.inl (Or.inl h)
  · exact Or.inr h

/-- The assignments of a call's return values keep the invariant. -/
theorem Sound.captured (hs : Sound s) {callee : Frame Nat} (hheld : ∀ a ∈ callee.refs, a < s.mem.length) (failed : Bool)
    {capture : Capture} (hrow : ∀ c, capture = .row c → callee.result ≠ none)
    (hset : ∀ c, capture = .set c → failed = true → ∀ cur ∈ cursor? s.frames c,
      cur.rowNum < cur.rowCount → cur.rowCount ≤ callee.returned.length) :
    Sound { s with frames := LuaCursor.captured s.frames callee failed capture } := by
  rcases capture with _ | c | c | o | _
  · exact hs
  · obtain ⟨r, hr⟩ := Option.ne_none_iff_exists'.1 (hrow c rfl)
    have h := hs.modifyCursor c [] (g := (·.setRow callee.result)) fun cur hcur hf => by
      rw [hr]
      refine ⟨hf.setRow r, fun a ha => ?_⟩
      rcases refs_setRow ha with rfl | ha
      · exact Or.inr (hheld a (by simp [Frame.refs, hr]))
      · exact Or.inl (refs_of_cursor? hcur ha)
    simp only [List.append_nil] at h
    exact h
  · have h := hs.modifyCursor c [] (g := (·.capture failed callee.returned)) fun cur hcur hf => by
      refine ⟨hf.capture failed _ fun hfail => hset c rfl hfail cur hcur, fun a ha => ?_⟩
      rcases refs_capture ha with ha | ha
      · exact Or.inl (refs_of_cursor? hcur ha)
      · exact Or.inr (hheld a (returned_subset callee ha))
    simp only [List.append_nil] at h
    exact h
  · cases failed with
    | true => exact hs
    | false => exact hs.setObject o fun a ha => hheld a (returned_subset callee ha)
  · have h := hs.modifyLast [] (g := fun f => { f with resultSet := callee.returned }) (fun _ => rfl) fun x a ha => by
      simp only [Frame.refs, List.mem_append] at ha ⊢
      rcases ha with ha | ha | ha | ha | ha
      · exact Or.inl (Or.inl ha)
      · exact Or.inl (Or.inr (Or.inl ha))
      · exact Or.inl (Or.inr (Or.inr (Or.inl ha)))
      · exact Or.inl (Or.inr (Or.inr (Or.inr (Or.inl ha))))
      · exact Or.inr (Or.inr (hheld a (returned_subset callee ha)))
    simp only [List.append_nil] at h
    exact h

/-- The return of a call. -/
theorem follows_ret (hs : Sound s) (capture : Capture) (failed : Bool) (hsafe : Safe s (.ret capture failed)) :
    ∃ s', step (luaMemory V) s (.ret capture failed) = some s' ∧ Follows s (.ret capture failed) s' := by
  rcases hlast : s.frames.getLast? with _ | callee
  · refine ⟨s, by simp only [step, hlast], hs, fun _ _ => rfl, ?_⟩
    simp only [step, State.view, List.getLast?_map, hlast, Option.map_none]
  have hmem : callee ∈ s.frames := List.mem_of_getLast? hlast
  refine ⟨{ s with frames := captured s.frames.dropLast callee failed capture }, by simp only [step, hlast], ?_, fun _ _ => rfl, ?_⟩
  · refine hs.dropLast.captured (fun a ha => hs.held a (List.mem_flatMap.2 ⟨callee, hmem, ha⟩)) failed ?_ ?_
    · intro c hc
      subst hc
      exact hsafe callee hlast
    · intro c hc hfail
      subst hc
      subst hfail
      exact hsafe callee hlast
  · simp only [step, State.view, List.getLast?_map, hlast, Option.map_some]
    rw [captured_map, List.map_dropLast]

/-! ## Runs -/

/-- A harmless statement is done without an error, and the copying machine follows. -/
theorem follows_step (hs : Sound s) (st : Stmt V) (hsafe : Safe s st) (hholds : Holds s st) :
    ∃ s', step (luaMemory V) s st = some s' ∧ Follows s st s' := by
  cases st with
  | enter n m b => exact follows_enter hs n m b
  | fetch c => exact follows_fetch hs c
  | store c w => exact follows_store hs c w hsafe
  | close c => exact follows_close hs c
  | out c => exact follows_out hs c
  | outUnion c => exact follows_outUnion hs c
  | cursorFor c o => exact follows_cursorFor hs c o hholds
  | assign o o' => exact follows_assign hs o o'
  | read c => exact follows_read hs c
  | ret capture failed => exact follows_ret hs capture failed hsafe

/-- A run of two parts. -/
theorem run_append {M : Type} (K : Memory V M R) (s : State V M R) (before after : List (Stmt V)) :
    run K s (before ++ after) = (run K s before).bind fun s' => run K s' after := by
  induction before generalizing s with
  | nil => rfl
  | cons st before ih =>
    simp only [List.cons_append, run]
    rcases step K s st with _ | s'
    · rfl
    · exact ih s'

/-- What holds along a run holds along its beginning. -/
theorem along_before {P : State V (List (Row V)) Nat → Stmt V → Prop} {stmts before : List (Stmt V)} {st : Stmt V} {after : List (Stmt V)}
    (h : Along P stmts) (hsplit : stmts = before ++ st :: after) : Along P before := by
  intro b st' a hb s hs
  exact h b st' (a ++ st :: after) (by simp [hsplit, hb]) s hs

/-- A run of harmless statements reaches a state with the invariant, and the copying machine one that shows the same. -/
theorem run_sound {stmts : List (Stmt V)} (h : SafeRun stmts) (hholds : Along Holds stmts) :
    ∃ s, luaRun V stmts = some s ∧ Sound s ∧ copyRun V stmts = some s.view := by
  induction stmts using List.reverseRecOn with
  | nil =>
    refine ⟨State.init [], rfl, ⟨?_, ?_⟩, rfl⟩
    · intro a ha
      simp [State.init, refs] at ha
    · intro x hx
      simp [State.init] at hx
  | append_singleton before st ih =>
    obtain ⟨s, hrun, hs, hcopy⟩ := ih (along_before h rfl) (along_before hholds rfl)
    obtain ⟨s', hstep, hfollows⟩ := follows_step hs st (h before st [] rfl s hrun) (hholds before st [] rfl s hrun)
    refine ⟨s', ?_, hfollows.sound, ?_⟩
    · unfold luaRun at hrun ⊢
      rw [run_append, hrun]
      simp only [Option.bind_some, run, hstep]
    · unfold copyRun at hcopy ⊢
      rw [run_append, hcopy]
      simp only [Option.bind_some, run, hfollows.copy]

/-- A property of the statements of a run, checked one after the other. -/
def AlongFrom (P : State V (List (Row V)) Nat → Stmt V → Prop) (s : State V (List (Row V)) Nat) : List (Stmt V) → Prop
  | [] => True
  | st :: stmts => P s st ∧ ∀ s' ∈ step (luaMemory V) s st, AlongFrom P s' stmts

/-- It is the property at every split of the run. -/
theorem along_of_alongFrom {P : State V (List (Row V)) Nat → Stmt V → Prop} {stmts : List (Stmt V)} (h : AlongFrom P s stmts) :
    ∀ before st after, stmts = before ++ st :: after → ∀ s' ∈ run (luaMemory V) s before, P s' st := by
  induction stmts generalizing s with
  | nil =>
    intro before st after hsplit
    simp at hsplit
  | cons st₀ stmts ih =>
    intro before st after hsplit s' hs'
    rcases before with _ | ⟨b, before⟩
    · simp only [List.nil_append, List.cons.injEq] at hsplit
      rw [← hsplit.1]
      simp only [run, Option.mem_def, Option.some.injEq] at hs'
      rw [← hs']
      exact h.1
    · simp only [List.cons_append, List.cons.injEq] at hsplit
      rw [← hsplit.1] at hs'
      obtain ⟨s₁, hs₁, hs'⟩ := Option.bind_eq_some_iff.1 hs'
      exact ih (h.2 s₁ hs₁) before st after hsplit.2 s' hs'

end CursorAux

open CursorAux

/-! ## The results -/

/-- Every run whose statements are harmless keeps the integrity of its cursors and result sets. -/
theorem integrity_of_safe (stmts : List (Stmt V)) (h : SafeRun stmts) : Integrity stmts := by
  intro hholds before st after hsplit
  obtain ⟨s, hrun, hs, hcopy⟩ := run_sound (along_before h hsplit) (along_before hholds hsplit)
  obtain ⟨s', hstep, hfollows⟩ := follows_step hs st (h before st after hsplit s hrun) (hholds before st after hsplit s hrun)
  refine ⟨s, s', hrun, hstep, ⟨fun x hx c hc => (hfollows.sound.fetchable x hx c hc).1, hfollows.sets⟩, ?_⟩
  unfold copyRun at hcopy ⊢
  rw [run_append, hcopy]
  simp only [Option.bind_some, run, hfollows.copy]

/-- A procedure that produces a result set of one row, and a caller that takes it as an object, puts a cursor over it and fetches it. -/
def oneCursor : List (Stmt Int) :=
  [.enter 1 1 false, .enter 1 0 false, .store ⟨1, 0⟩ (.fetchValues [("a", some 1)]), .outUnion ⟨1, 0⟩,
    .ret (.object ⟨0, 0⟩) false, .cursorFor ⟨0, 0⟩ ⟨0, 0⟩, .fetch ⟨0, 0⟩, .read ⟨0, 0⟩]

/-- The one write of the run is to the callee's own cursor. -/
theorem integrity_of_safe_oneCursor : SafeRun oneCursor ∧ Integrity oneCursor := by
  have h : SafeRun oneCursor := by
    refine along_of_alongFrom ?_
    simp only [oneCursor, AlongFrom, Safe, true_and, and_true, implies_true]
    intro s₁ hs₁ s₂ hs₂
    obtain rfl : _ = s₁ := Option.some.inj hs₁
    obtain rfl : _ = s₂ := Option.some.inj hs₂
    intro cur hcur a ha _
    obtain rfl : _ = cur := Option.some.inj hcur
    obtain rfl : _ = a := Option.some.inj ha
    rfl
  exact ⟨h, integrity_of_safe oneCursor h⟩

/-- The caller takes the result set as an object, puts two cursors over it, and updates the first after its fetch. -/
def twoCursors : List (Stmt Int) :=
  [.enter 2 1 false, .enter 1 0 false, .store ⟨1, 0⟩ (.fetchValues [("a", some 1)]), .outUnion ⟨1, 0⟩,
    .ret (.object ⟨0, 0⟩) false, .cursorFor ⟨0, 0⟩ ⟨0, 0⟩, .cursorFor ⟨0, 1⟩ ⟨0, 0⟩, .fetch ⟨0, 0⟩,
    .store ⟨0, 0⟩ (.updateCursor [("a", some 2)]), .fetch ⟨0, 1⟩]

/-- Its object is not null. -/
theorem CursorAux.twoCursors_holds : Along Holds (twoCursors ++ [.read ⟨0, 1⟩]) := by
  refine along_of_alongFrom ?_
  simp only [twoCursors, List.cons_append, List.nil_append, AlongFrom, Holds, true_and, and_true, implies_true]
  intro s₁ hs₁ s₂ hs₂ s₃ hs₃ s₄ hs₄ s₅ hs₅
  obtain rfl : _ = s₁ := Option.some.inj hs₁
  obtain rfl : _ = s₂ := Option.some.inj hs₂
  obtain rfl : _ = s₃ := Option.some.inj hs₃
  obtain rfl : _ = s₄ := Option.some.inj hs₄
  obtain rfl : _ = s₅ := Option.some.inj hs₅
  refine ⟨Option.some_ne_none [3], ?_⟩
  intro s₆ hs₆
  obtain rfl : _ = s₆ := Option.some.inj hs₆
  exact Option.some_ne_none [3]

/-- The second cursor reads the value that was stored through the first; a copied row has the value the callee produced. -/
theorem integrity_false : ¬ ∀ stmts : List (Stmt Int), Integrity stmts := by
  intro h
  obtain ⟨s, s', hrun, hstep, _, hcopy⟩ :=
    h (twoCursors ++ [.read ⟨0, 1⟩]) CursorAux.twoCursors_holds twoCursors (.read ⟨0, 1⟩) [] rfl
  have hlua : luaRun Int (twoCursors ++ [.read ⟨0, 1⟩]) = some s' := by
    unfold luaRun at hrun ⊢
    rw [run_append, hrun]
    simp only [Option.bind_some, run, hstep]
  have hl := congrArg (Option.map fun s => s.reads.map fun r => r.fields "a") hlua
  have hc := congrArg (Option.map fun s => s.reads.map fun r => r.fields "a") hcopy
  have hl' : some [some (2 : Int)] = some (s'.reads.map fun r => r.fields "a") := hl
  have hc' : some [some (1 : Int)] = some (s'.reads.map fun r => r.fields "a") := hc
  exact absurd (hl'.trans hc'.symm) (by decide)

end CgSql.LuaCursor
