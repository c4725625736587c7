import CgSql.Lemmas.BlobStored

/-!
# Updates of key blobs

The first pass of `bupdatekey` marks the type codes of the columns that it updates. The second pass writes the words of numbers, and
leaves the index of the argument where it updates a string or a blob. The third pass appends the variable bytes of all columns in
their order.
-/

namespace CgSql.Blobs

open Serial (littleEndian ofLittleEndian)

namespace BlobAux

variable {cells : List Cell} {i : Nat} {shape : BlobShape} {head b : List Byte} {ws : List (List Byte)} {s : Sqlite}
  {us : List (SqlValue × SqlValue)} {u : SqlValue × SqlValue} {header : Header} {args : List SqlValue} {c : Cell}

/-! ## Updated cells -/

/-- The column that an update names. -/
def target (u : SqlValue × SqlValue) : Nat :=
  match u.1 with
  | .integer icol => icol.toNat
  | _ => 0

/-- The cells after an update. -/
def updateCell (s : Sqlite) (cells : List Cell) (u : SqlValue × SqlValue) : List Cell :=
  cells.modify (target u) fun c => cellOf s c.type.code u.2

/-- The cells after some updates. -/
def updateCells (s : Sqlite) (cells : List Cell) (us : List (SqlValue × SqlValue)) : List Cell := us.foldl (updateCell s) cells

/-- Updates of other columns than those that are done, each of a column that there is and with a value that it can hold. -/
def Updatable (cells : List Cell) : List Nat → List (SqlValue × SqlValue) → Prop
  | _, [] => True
  | done, u :: us => u.1.isInteger = true ∧ target u ∉ done ∧
      (∃ c, cells[target u]? = some c ∧ ∃ n, blobtypeVsArgtypeCompat u.2 c.type.code = some n) ∧
      Updatable cells (target u :: done) us

/-- The type codes, with those of the columns that are done marked. -/
def marked (cells : List Cell) (done : List Nat) : List Byte :=
  cells.mapIdx fun i c => if i ∈ done then c.type.code ||| dirty else c.type.code

theorem length_marked (cells : List Cell) (done : List Nat) : (marked cells done).length = cells.length := List.length_mapIdx

theorem getElem_marked (done : List Nat) (h : i < cells.length) (hmarked : i < (marked cells done).length) : (marked cells done)[i] =
      if i ∈ done then cells[i].type.code ||| dirty else cells[i].type.code := List.getElem_mapIdx

theorem getElem?_marked (h : i ∉ done) : (marked cells done)[i]? = (codes cells)[i]? := by
  rw [marked, codes, List.getElem?_mapIdx, List.getElem?_map]
  simp only [if_neg h]

theorem marked_nil (cells : List Cell) : marked cells [] = codes cells := by
  refine List.ext_getElem (by rw [length_marked, length_codes]) fun i h1 h2 => ?_
  rw [length_marked] at h1
  rw [getElem_marked [] h1]
  simp [codes]

/-- Type codes are not dirty until they are marked. -/
theorem code_and_dirty (t : BlobType) : t.code &&& dirty = 0 ∧ (t.code ||| dirty) &&& dirty ≠ 0 ∧
    (t.code ||| dirty) &&& ~~~dirty = t.code ∧ t.code &&& ~~~dirty = t.code := by
  cases t <;> decide

theorem set_marked (h : i < cells.length) : (marked cells done).set i (cells[i].type.code ||| dirty) = marked cells (i :: done) := by
  refine List.ext_getElem (by rw [List.length_set, length_marked, length_marked]) fun j h1 h2 => ?_
  rw [length_marked] at h2
  rw [List.getElem_set, getElem_marked (i :: done) h2]
  by_cases hij : i = j
  · subst hij
    rw [if_pos rfl, if_pos List.mem_cons_self]
  · rw [if_neg hij, getElem_marked done h2]
    have hiff : j ∈ i :: done ↔ j ∈ done := by
      rw [List.mem_cons]
      exact ⟨fun h => h.resolve_left fun h => hij h.symm, Or.inr⟩
    simp only [hiff]

/-- The stored length of a column that refers to a cell is the length of its variable bytes. -/
theorem storedSize_eq {ids : List (List Byte)} {cs rest : List Byte}
    (hl : Laid shape head ids ws cs) (hi : i < ws.length) (hr : Refers shape rest ws[i] c) :
    storedSize (areas head ids ws cs rest) c.type.code (shape.storageOffset + i * 8) = .ok (c.extra.length : Int) := by
  unfold storedSize
  rw [ofCode?_code, hl.loadU64 rest hi]
  cases c with
  | fixed type word =>
    obtain ⟨_, hs, hb⟩ := hr
    cases type
    case string => exact absurd rfl hs
    case blob => exact absurd rfl hb
    all_goals rfl
  | string bytes =>
    have hlen : (Cell.string bytes).extra.length = bytes.length + 1 := List.length_append
    have := hr.2.1
    simp only [Cell.type, ok_bind, pure_eq_ok, hlen, this]
    rfl
  | blob bytes =>
    have := hr.2.1
    simp only [Cell.type, ok_bind, pure_eq_ok, this]
    rfl

/-- An update changes the variable size by the difference of its column. -/
theorem extras_modify (h : cells[i]? = some c) (f : Cell → Cell) :
    ((extras (cells.modify i f)).length : Int) = (extras cells).length + (f c).extra.length - c.extra.length := by
  induction cells generalizing i with
  | nil => simp at h
  | cons x cells ih =>
    have hsplit : ∀ y l, extras (y :: l) = Cell.extra y ++ extras l := fun _ _ => rfl
    rcases i with _ | i
    · obtain rfl : x = c := by simpa using h
      rw [List.modify_zero_cons, hsplit, hsplit, List.length_append, List.length_append]
      push_cast
      omega
    · have := ih (i := i) (by simpa using h)
      rw [List.modify_succ_cons, hsplit, hsplit, List.length_append, List.length_append]
      push_cast
      omega

theorem getElem?_updateCell (s : Sqlite) (cells : List Cell) (u : SqlValue × SqlValue) (i : Nat) :
    (updateCell s cells u)[i]? = if target u = i then (cells[i]?).map fun c => cellOf s c.type.code u.2 else cells[i]? := by
  rw [updateCell, List.getElem?_modify]
  by_cases h : target u = i
  · simp only [if_pos h]
    rfl
  · simp only [if_neg h]
    exact Option.map_id'

/-- Other columns stay. -/
theorem getElem?_updateCells (h : i ∉ us.map target) : (updateCells s cells us)[i]? = cells[i]? := by
  induction us generalizing cells with
  | nil => rfl
  | cons u us ih =>
    rw [List.map_cons, List.mem_cons, not_or] at h
    show (updateCells s (updateCell s cells u) us)[i]? = _
    rw [ih h.2, getElem?_updateCell, if_neg (Ne.symm h.1)]

/-- Updates of other columns stay possible. -/
theorem Updatable.updateCell (h : Updatable cells done us) (hu : target u ∈ done) : Updatable (updateCell s cells u) done us := by
  induction us generalizing done with
  | nil => trivial
  | cons v us ih =>
    obtain ⟨hint, hnew, hcell, hrest⟩ := h
    refine ⟨hint, hnew, ?_, ih hrest (List.mem_cons_of_mem _ hu)⟩
    have hne : target u ≠ target v := by
      intro heq
      exact hnew (heq ▸ hu)
    rw [getElem?_updateCell, if_neg hne]
    exact hcell

/-- Columns that are done are not updated again. -/
theorem Updatable.notMem (h : Updatable cells done us) (hi : i ∈ done) : i ∉ us.map target := by
  induction us generalizing done with
  | nil => exact List.not_mem_nil
  | cons v us ih =>
    obtain ⟨_, hnew, _, hrest⟩ := h
    rw [List.map_cons, List.mem_cons, not_or]
    exact ⟨fun heq => hnew (heq ▸ hi), ih hrest (List.mem_cons_of_mem _ hi)⟩

/-- Each update names another column. -/
theorem Updatable.nodup (h : Updatable cells done us) : (us.map target).Nodup := by
  induction us generalizing done with
  | nil => exact List.nodup_nil
  | cons v us ih =>
    obtain ⟨_, _, _, hrest⟩ := h
    exact List.nodup_cons.2 ⟨hrest.notMem List.mem_cons_self, ih hrest⟩

theorem Updatable.integers (h : Updatable cells done us) : ∀ u ∈ us, u.1.isInteger = true := by
  induction us generalizing done with
  | nil => exact nofun
  | cons v us ih =>
    obtain ⟨hint, _, _, hrest⟩ := h
    intro u hu
    rcases List.mem_cons.1 hu with rfl | hu
    · exact hint
    · exact ih hrest u hu

theorem Updatable.exists (h : Updatable cells done us) (hu : u ∈ us) :
    ∃ c, cells[target u]? = some c ∧ ∃ n, blobtypeVsArgtypeCompat u.2 c.type.code = some n := by
  induction us generalizing done with
  | nil => nomatch hu
  | cons v us ih =>
    obtain ⟨_, _, hcell, hrest⟩ := h
    rcases List.mem_cons.1 hu with rfl | hu
    · exact hcell
    · exact ih hrest hu

/-- There are no more updates than columns. -/
theorem Updatable.length_le (h : Updatable cells done us) : us.length ≤ cells.length := by
  have hsub : us.map target ⊆ List.range cells.length := by
    intro i hi
    obtain ⟨u, hu, rfl⟩ := List.mem_map.1 hi
    obtain ⟨c, hc, _⟩ := h.exists hu
    exact List.mem_range.2 (List.getElem?_eq_some_iff.1 hc).1
  have := (List.subperm_of_subset h.nodup hsub).length_le
  rwa [List.length_map, List.length_range] at this

/-- The cell of a column that is updated. -/
theorem Updatable.getElem? (h : Updatable cells done us) (hu : u ∈ us) :
    (updateCells s cells us)[target u]? = (cells[target u]?).map fun c => cellOf s c.type.code u.2 := by
  induction us generalizing cells done with
  | nil => nomatch hu
  | cons v us ih =>
    obtain ⟨_, _, _, hrest⟩ := h
    show (updateCells s (BlobAux.updateCell s cells v) us)[target u]? = _
    rcases List.mem_cons.1 hu with rfl | hu
    · rw [getElem?_updateCells (hrest.notMem List.mem_cons_self), getElem?_updateCell, if_pos rfl]
    · have hne : target v ≠ target u := by
        intro heq
        exact hrest.notMem List.mem_cons_self (heq ▸ List.mem_map_of_mem hu)
      rw [ih (hrest.updateCell List.mem_cons_self) hu, getElem?_updateCell, if_neg hne]

theorem length_updateCells (s : Sqlite) (cells : List Cell) (us : List (SqlValue × SqlValue)) :
    (updateCells s cells us).length = cells.length := by
  induction us generalizing cells with
  | nil => rfl
  | cons u us ih =>
    show (updateCells s (updateCell s cells u) us).length = _
    rw [ih, updateCell, List.length_modify]

/-- Updates keep the types, and give well formed cells. -/
theorem updateCells_spec (h : Updatable cells done us) : codes (updateCells s cells us) = codes cells ∧
      ((∀ c ∈ cells, c.WellFormed) → ∀ c ∈ updateCells s cells us, c.WellFormed) := by
  induction us generalizing cells done with
  | nil => exact ⟨rfl, fun h => h⟩
  | cons u us ih =>
    obtain ⟨_, _, ⟨c, hc, n, hn⟩, hrest⟩ := h
    obtain ⟨hcodes, hformed⟩ := ih (hrest.updateCell (s := s) List.mem_cons_self)
    obtain ⟨hwf, _, htype⟩ := cellOf_spec (s := s) hn
    refine ⟨?_, fun hall => hformed fun x hx => ?_⟩
    · show codes (updateCells s (updateCell s cells u) us) = _
      rw [hcodes]
      refine List.ext_getElem? fun i => ?_
      rw [codes, codes, List.getElem?_map, List.getElem?_map, getElem?_updateCell]
      by_cases hi : target u = i
      · subst hi
        rw [if_pos rfl, hc]
        exact congrArg some htype
      · rw [if_neg hi]
    · obtain ⟨i, hi, rfl⟩ := List.mem_iff_getElem.1 hx
      have hget := List.getElem?_eq_getElem hi
      rw [getElem?_updateCell] at hget
      by_cases heq : target u = i
      · subst heq
        rw [if_pos rfl, hc] at hget
        rw [← Option.some.inj hget]
        exact hwf
      · rw [if_neg heq] at hget
        exact hall _ (List.mem_of_getElem? hget)

/-- How much longer an update makes the variable bytes. -/
def growth (s : Sqlite) (cells : List Cell) (u : SqlValue × SqlValue) : Int :=
  ((cells[target u]?).map fun c => ((cellOf s c.type.code u.2).extra.length : Int) - c.extra.length).getD 0

theorem length_extras_updateCells (h : Updatable cells done us) :
    ((extras (updateCells s cells us)).length : Int) = (extras cells).length + (us.map (growth s cells)).sum := by
  induction us generalizing cells done with
  | nil => exact (Int.add_zero _).symm
  | cons u us ih =>
    obtain ⟨_, _, ⟨c, hc, _⟩, hrest⟩ := h
    have hgrowth : growth s cells u = (cellOf s c.type.code u.2).extra.length - c.extra.length := by
      rw [growth, hc]
      rfl
    have hsame : us.map (growth s (updateCell s cells u)) = us.map (growth s cells) := by
      refine List.map_congr_left fun v hv => ?_
      have hne : target u ≠ target v := by
        intro heq
        exact hrest.notMem List.mem_cons_self (heq ▸ List.mem_map_of_mem hv)
      rw [growth, growth, getElem?_updateCell, if_neg hne]
    show ((extras (updateCells s (updateCell s cells u) us)).length : Int) = _
    rw [ih (hrest.updateCell List.mem_cons_self), hsame, updateCell, extras_modify hc, List.map_cons, List.sum_cons, hgrowth]
    omega

/-! ## The first pass -/

section FirstPass

variable {shape : BlobShape} {head rest : List Byte} {ws : List (List Byte)} {cells : List Cell} {done : List Nat}

/-- What the first pass accepts, and what it leaves. -/
theorem checkKeyUpdate_ok (s : Sqlite) (hl : Laid shape head [] ws (marked cells done))
    (hst : Stored shape ws rest cells) {adjustment : Int} {u : SqlValue × SqlValue} {x : List Byte × Int}
    (h : checkKeyUpdate shape cells.length (areas head [] ws (marked cells done) rest, adjustment) u = .ok x) :
    u.1.isInteger = true ∧ target u ∉ done ∧ (∃ c, cells[target u]? = some c ∧ ∃ n, blobtypeVsArgtypeCompat u.2 c.type.code = some n) ∧
      x = (areas head [] ws (marked cells (target u :: done)) rest, adjustment + growth s cells u) := by
  obtain ⟨index, value⟩ := u
  rcases index with _ | icol | _ | _ | _
  case integer =>
    have htarget : target (.integer icol, value) = icol.toNat := rfl
    rw [htarget]
    unfold checkKeyUpdate at h
    dsimp only at h
    by_cases hlt : icol.toNat ≥ cells.length
    · rw [if_pos hlt] at h
      nomatch h
    · have hi : icol.toNat < cells.length := by omega
      have hm : icol.toNat < (marked cells done).length := by rw [length_marked]; exact hi
      have hw : icol.toNat < ws.length := by rw [hst.count]; exact hi
      rw [if_neg hlt, hl.loadCode rest hm, ok_bind, getElem_marked done hi] at h
      by_cases hdone : icol.toNat ∈ done
      · rw [if_pos hdone, if_pos (code_and_dirty _).2.1] at h
        nomatch h
      · rw [if_neg hdone, if_neg (by rw [(code_and_dirty _).1]; simp), hl.storeCode rest hm, ok_bind, set_marked hi] at h
        split at h
        · nomatch h
        · rename_i n hn
          have hl' : Laid shape head [] ws (marked cells (icol.toNat :: done)) := by
            rw [← set_marked hi]
            exact hl.setCode _ _
          have hr := hst.refers icol.toNat cells[icol.toNat] ws[icol.toNat] (List.getElem?_eq_getElem hi) (List.getElem?_eq_getElem hw)
          rw [storedSize_eq hl' hw hr, ok_bind] at h
          refine ⟨rfl, hdone, ⟨_, List.getElem?_eq_getElem hi, n, hn⟩, ?_⟩
          rw [growth, htarget, List.getElem?_eq_getElem hi, ← Except.ok.inj h]
          simp only [Option.map_some, Option.getD_some, (cellOf_spec (s := s) hn).2.1]
          congr 1
          omega
  all_goals nomatch h

/-- The whole first pass. -/
theorem checkKeyUpdates_ok (s : Sqlite) (hl : Laid shape head [] ws (marked cells done))
    (hst : Stored shape ws rest cells) {us : List (SqlValue × SqlValue)} {adjustment : Int} {x : List Byte × Int}
    (h : us.foldlM (checkKeyUpdate shape cells.length) (areas head [] ws (marked cells done) rest, adjustment) = .ok x) :
    Updatable cells done us ∧ x = (areas head [] ws (marked cells ((us.map target).reverse ++ done)) rest,
      adjustment + (us.map (growth s cells)).sum) := by
  induction us generalizing done adjustment with
  | nil =>
    obtain rfl := Except.ok.inj h
    exact ⟨trivial, congrArg (Prod.mk _) (Int.add_zero _).symm⟩
  | cons u us ih =>
    rw [List.foldlM_cons] at h
    obtain ⟨y, hy, h⟩ := bind_eq_ok h
    obtain ⟨hint, hdone, hcell, rfl⟩ := checkKeyUpdate_ok s hl hst hy
    have ⟨c, hc, _⟩ := hcell
    obtain ⟨hi, _⟩ := List.getElem?_eq_some_iff.1 hc
    have hl' : Laid shape head [] ws (marked cells (target u :: done)) := by
      rw [← set_marked hi]
      exact hl.setCode _ _
    obtain ⟨hrest, rfl⟩ := ih hl' h
    refine ⟨⟨hint, hdone, hcell, hrest⟩, ?_⟩
    rw [List.map_cons, List.reverse_cons, List.map_cons, List.sum_cons, List.append_assoc, Int.add_assoc]
    rfl

end FirstPass

/-! ## The second pass -/

/-- The word that the second pass leaves in a column. -/
def updateWord (s : Sqlite) (type : BlobType) (index : Nat) (v : SqlValue) : List Byte :=
  match type with
  | .string | .blob => littleEndian 8 (BitVec.ofNat 64 (index + 1))
  | type => fixedWord s type v

theorem length_updateWord (s : Sqlite) (type : BlobType) (index : Nat) (v : SqlValue) : (updateWord s type index v).length = 8 := by
  cases type
  case string => exact Serial.SerialAux.littleEndian_length 8 _
  case blob => exact Serial.SerialAux.littleEndian_length 8 _
  all_goals simp only [updateWord, length_fixedWord]

section SecondPass

variable {s : Sqlite} {u : KeyUpdate} {head head' rest cs : List Byte} {ws0 ws : List (List Byte)} {cells : List Cell}


/-- One update in the second pass. -/
theorem storeKeyUpdate_eq (hblock : u.block = areas head [] ws0 (marked cells done) rest)
    (hl0 : Laid u.shape head [] ws0 (marked cells done)) (hl : Laid u.shape head' [] ws cs) (hcs : cs.length = cells.length)
    (rest' : List Byte) (index : Nat) {update : SqlValue × SqlValue} (hint : update.1.isInteger = true) (hc : cells[target update]? = some c) :
    storeKeyUpdate s u (areas head' [] ws cs rest') index update = .ok (areas head' []
      (ws.set (target update) (updateWord s c.type index update.2)) (cs.set (target update) c.type.code) rest') := by
  obtain ⟨hi, hci⟩ := List.getElem?_eq_some_iff.1 hc
  have htarget : (update.1.int64 s).toNat = target update := by
    obtain ⟨v, value⟩ := update
    cases v <;> first | rfl | nomatch hint
  have hclean : (if target update ∈ done then c.type.code ||| dirty else c.type.code) &&& ~~~dirty = c.type.code := by
    split
    · exact (code_and_dirty _).2.2.1
    · exact (code_and_dirty _).2.2.2
  have hstore := (hl.setCode (target update) c.type.code).storeWord rest' (by rw [hl.count, hcs]; exact hi)
    (length_updateWord s c.type index update.2)
  unfold storeKeyUpdate
  simp only [htarget]
  rw [hblock, hl0.loadCode rest (by rw [length_marked]; exact hi), ok_bind, getElem_marked done hi, hci, hclean,
    hl.storeCode rest' (by rw [hcs]; exact hi), ok_bind, ofCode?_code]
  generalize c.type = type at *
  cases type <;> exact hstore

/-- The whole second pass, on a result whose other type codes are clean. -/
theorem storeKeyUpdates_eq (hblock : u.block = areas head [] ws0 (marked cells done) rest)
    (hl0 : Laid u.shape head [] ws0 (marked cells done)) {us : List (SqlValue × SqlValue)}
    (hint : ∀ v ∈ us, v.1.isInteger = true) (hcell : ∀ v ∈ us, ∃ c, cells[target v]? = some c) (hnodup : (us.map target).Nodup)
    (hl : Laid u.shape head' [] ws cs) (hcs : cs.length = cells.length)
    (hclean : ∀ j, j ∉ us.map target → cs[j]? = (codes cells)[j]?) (rest' : List Byte) (index : Nat) :
    ∃ ws', storeKeyUpdates s u (areas head' [] ws cs rest') index us = .ok (areas head' [] ws' (codes cells) rest') ∧
      Laid u.shape head' [] ws' (codes cells) ∧ (∀ j, j ∉ us.map target → ws'[j]? = ws[j]?) ∧
      ∀ (k : Nat) (v : SqlValue × SqlValue) (c : Cell), us[k]? = some v → cells[target v]? = some c →
        ws'[target v]? = some (updateWord s c.type (index + 2 * k) v.2) := by
  induction us generalizing ws cs index with
  | nil =>
    obtain rfl : cs = codes cells := List.ext_getElem? fun j => hclean j List.not_mem_nil
    exact ⟨ws, rfl, hl, fun _ _ => rfl, fun k v c h => by simp at h⟩
  | cons v us ih =>
    obtain ⟨hnew, hrest⟩ := List.nodup_cons.1 hnodup
    obtain ⟨c, hc⟩ := hcell v List.mem_cons_self
    have hi := (List.getElem?_eq_some_iff.1 hc).1
    have hclean' : ∀ j, j ∉ us.map target → (cs.set (target v) c.type.code)[j]? = (codes cells)[j]? := by
      intro j hj
      rw [List.getElem?_set]
      by_cases heq : target v = j
      · subst heq
        rw [if_pos rfl, if_pos (by rw [hcs]; exact hi), codes, List.getElem?_map, hc]
        rfl
      · rw [if_neg heq]
        exact hclean j fun hmem => (List.mem_cons.1 hmem).elim (fun h => heq h.symm) hj
    obtain ⟨ws', hrun, hl', hkeep, hset⟩ := ih (fun x hx => hint x (List.mem_cons_of_mem _ hx))
      (fun x hx => hcell x (List.mem_cons_of_mem _ hx)) hrest
      ((hl.setWord (target v) (length_updateWord s c.type index v.2)).setCode (target v) c.type.code)
      (by rw [List.length_set, hcs]) hclean' (index + 2)
    refine ⟨ws', ?_, hl', fun j hj => ?_, fun k x d hk hd => ?_⟩
    · rw [storeKeyUpdates, storeKeyUpdate_eq hblock hl0 hl hcs rest' index (hint v List.mem_cons_self) hc, ok_bind, hrun]
    · rw [List.map_cons, List.mem_cons, not_or] at hj
      rw [hkeep j hj.2, List.getElem?_set, if_neg (Ne.symm hj.1)]
    · rcases k with _ | k
      · obtain rfl : v = x := by simpa using hk
        obtain rfl : c = d := Option.some.inj (hc.symm.trans hd)
        rw [hkeep _ hnew, List.getElem?_set, if_pos rfl, if_pos (by rw [hl.count, hcs]; exact hi), Nat.mul_zero, Nat.add_zero]
      · have hindex : index + 2 * (k + 1) = index + 2 + 2 * k := by omega
        rw [hindex]
        exact hset k x d (by simpa using hk) hd

end SecondPass

/-! ## The third pass -/

/-- The third pass copies a column: its word, and its variable bytes if there is room for them. -/
def Copies (u : KeyUpdate) (argv : List SqlValue) (head : List Byte) (cs : List Byte) (i : Nat) (word : List Byte) (c : Cell) : Prop :=
  ∀ ⦃ws : List (List Byte)⦄ ⦃filled free : List Byte⦄, Laid u.shape head [] ws cs → ws[i]? = some word →
    copyKeyColumn u argv (areas head [] ws cs (filled ++ free), u.shape.variableOffset + filled.length) i = if c.extra.length ≤ free.length then
        .ok (areas head [] (ws.set i (c.word (u.shape.variableOffset + filled.length))) cs
          (filled ++ c.extra ++ free.drop c.extra.length), u.shape.variableOffset + (filled ++ c.extra).length)
      else .error .fault

section ThirdPass

variable {u : KeyUpdate} {argv : List SqlValue} {head cs : List Byte}
variable {ws : List (List Byte)} {i : Nat} {rest : List Byte}

/-- Columns whose bytes are appended. -/
theorem appendKeyBytes_eq (hl : Laid u.shape head [] ws cs) (hi : i < ws.length) (filled free bytes : List Byte) (len : Nat) :
    appendKeyBytes u i (areas head [] ws cs (filled ++ free), u.shape.variableOffset + filled.length) len bytes =
      if bytes.length ≤ free.length then .ok (areas head [] (ws.set i (bigEndian 8 (info (u.shape.variableOffset + filled.length) len))) cs
          (filled ++ bytes ++ free.drop bytes.length), u.shape.variableOffset + (filled ++ bytes).length) else .error .fault := by
  have hword := length_bigEndian 8 (info (u.shape.variableOffset + filled.length) len)
  unfold appendKeyBytes
  dsimp only
  rw [hl.storeWord (filled ++ free) hi hword, ok_bind, (hl.setWord i hword).storeRest filled free bytes rfl]
  by_cases hle : bytes.length ≤ free.length
  · rw [if_pos hle, if_pos hle, ok_bind, List.length_append]
    push_cast
    rw [Int.add_assoc]
    rfl
  · rw [if_neg hle, if_neg hle]
    rfl

/-- The codes of words are not those of strings and blobs, marked or not. -/
theorem codes_of_words {type : BlobType} (hs : type ≠ .string) (hb : type ≠ .blob) {code : Byte}
    (h : code = type.code ∨ code = type.code ||| dirty) : code ≠ BlobType.string.code ∧ code ≠ BlobType.blob.code ∧
      code ≠ BlobType.string.code ||| dirty ∧ code ≠ BlobType.blob.code ||| dirty := by
  cases type
  case string => exact absurd rfl hs
  case blob => exact absurd rfl hb
  all_goals
    rcases h with rfl | rfl
    · decide
    · decide

/-- A column that is not updated, or one with a number, stays as it is in the words. -/
theorem copies_fixed {code : Byte} (hcode : loadByte u.block (u.shape.typeCodesOffset + i) = .ok code)
    (h : code ≠ BlobType.string.code ∧ code ≠ BlobType.blob.code ∧ code ≠ BlobType.string.code ||| dirty ∧
      code ≠ BlobType.blob.code ||| dirty) (type : BlobType) (word : List Byte) : Copies u argv head cs i word (.fixed type word) := by
  intro ws filled free hl hword
  obtain ⟨h1, h2, h3, h4⟩ := h
  have hsame : ws.set i word = ws := by
    obtain ⟨hi, rfl⟩ := List.getElem?_eq_some_iff.1 hword
    exact List.set_getElem_self hi
  unfold copyKeyColumn
  rw [hcode, ok_bind, if_neg h1, if_neg h2, if_neg h3, if_neg h4, if_pos (show (Cell.fixed type word).extra.length ≤ free.length from Nat.zero_le _)]
  simp only [Cell.word, Cell.extra, hsame, List.append_nil, List.length_nil, List.drop_zero]
  rfl

/-- A column that is not updated is copied. -/
theorem copies_stored {head0 : List Byte} {ws0 : List (List Byte)} {cells : List Cell}
    (hblock : u.block = areas head0 [] ws0 (marked cells done) rest) (hl0 : Laid u.shape head0 [] ws0 (marked cells done))
    {word : List Byte} (hc : cells[i]? = some c) (hw : ws0[i]? = some word)
    (hr : Refers u.shape rest word c) (hdone : i ∉ done) : Copies u argv head cs i word c := by
  obtain ⟨hi, hci⟩ := List.getElem?_eq_some_iff.1 hc
  obtain ⟨hiw, hwi⟩ := List.getElem?_eq_some_iff.1 hw
  have hcode : loadByte u.block (u.shape.typeCodesOffset + i) = .ok c.type.code := by
    rw [hblock, hl0.loadCode rest (by rw [length_marked]; exact hi), getElem_marked done hi, if_neg hdone, hci]
  have hval : loadU64 u.block (u.shape.storageOffset + i * 8) = .ok (ofBigEndian word) := by
    rw [hblock, hl0.loadU64 rest hiw, hwi]
  have hload : ∀ n, u.shape.variableOffset ≤ infoOffset (ofBigEndian word) → load u.block (infoOffset (ofBigEndian word)) n =
      load rest (infoOffset (ofBigEndian word) - u.shape.variableOffset) n := by
    intro n hle
    rw [hblock, hl0.loadRest rest hle]
  cases c with
  | fixed type w =>
    obtain ⟨rfl, hs, hb⟩ := hr
    exact copies_fixed hcode (codes_of_words hs hb (Or.inl rfl)) type word
  | string bytes =>
    obtain ⟨hle, hlen, htext⟩ := hr
    replace hcode : loadByte u.block (u.shape.typeCodesOffset + i) = .ok BlobType.string.code := hcode
    intro ws filled free hl hword
    obtain ⟨hiw', _⟩ := List.getElem?_eq_some_iff.1 hword
    unfold copyKeyColumn
    rw [hcode, ok_bind, if_pos rfl, hval, ok_bind, hlen, hload _ hle, htext, ok_bind, appendKeyBytes_eq hl hiw']
    rfl
  | blob bytes =>
    obtain ⟨hle, hlen, hdata⟩ := hr
    replace hcode : loadByte u.block (u.shape.typeCodesOffset + i) = .ok BlobType.blob.code := hcode
    intro ws filled free hl hword
    obtain ⟨hiw', _⟩ := List.getElem?_eq_some_iff.1 hword
    unfold copyKeyColumn
    rw [hcode, ok_bind, if_neg (by decide), if_pos rfl, hval, ok_bind, hlen, hload _ hle, hdata, ok_bind, appendKeyBytes_eq hl hiw']
    rfl

/-- The argument that the second pass has left is found again. -/
theorem stashedArg_eq {index : Nat} {v : SqlValue} (hl : Laid u.shape head [] ws cs)
    (hw : ws[i]? = some (littleEndian 8 (BitVec.ofNat 64 index))) (hindex : index < 2 ^ 64) (hv : argv[index]? = some v) :
    stashedArg u argv (areas head [] ws cs rest) i = .ok v := by
  obtain ⟨hi, hwi⟩ := List.getElem?_eq_some_iff.1 hw
  unfold stashedArg
  rw [hl.loadWord rest hi, ok_bind, hwi, Serial.SerialAux.ofLittleEndian_littleEndian 8 _ (BitVec.isLt _), BitVec.toNat_ofNat,
    Nat.mod_eq_of_lt hindex, hv]
  rfl

/-- A column that is updated is copied from its argument. -/
theorem copies_updated {head0 : List Byte} {ws0 : List (List Byte)} {cells : List Cell}
    (hblock : u.block = areas head0 [] ws0 (marked cells done) rest) (hl0 : Laid u.shape head0 [] ws0 (marked cells done))
    (s : Sqlite) {index n : Nat} {v : SqlValue} (hc : cells[i]? = some c) (hdone : i ∈ done)
    (hcompat : blobtypeVsArgtypeCompat v c.type.code = some n) (hindex : index + 1 < 2 ^ 64) (hv : argv[index + 1]? = some v) :
    Copies u argv head cs i (updateWord s c.type index v) (cellOf s c.type.code v) := by
  obtain ⟨hi, hci⟩ := List.getElem?_eq_some_iff.1 hc
  have hcode : loadByte u.block (u.shape.typeCodesOffset + i) = .ok (c.type.code ||| dirty) := by
    rw [hblock, hl0.loadCode rest (by rw [length_marked]; exact hi), getElem_marked done hi, if_pos hdone, hci]
  rcases compat_cases hcompat with ⟨type, htype, hs, hb, _⟩ | ⟨bytes, htype, rfl, _⟩ | ⟨bytes, htype, rfl, _⟩
  · rw [ofCode?_code] at htype
    obtain rfl := Option.some.inj htype
    rw [cellOf_fixed (ofCode?_code _) hs hb]
    have hword : updateWord s c.type index v = fixedWord s c.type v := by
      generalize c.type = type at *
      cases type
      case string => exact absurd rfl hs
      case blob => exact absurd rfl hb
      all_goals rfl
    rw [hword]
    exact copies_fixed hcode (codes_of_words hs hb (Or.inr rfl)) c.type _
  · rw [ofCode?_code] at htype
    obtain htype := Option.some.inj htype
    rw [htype] at hcode ⊢
    intro ws filled free hl hword
    obtain ⟨hiw, _⟩ := List.getElem?_eq_some_iff.1 hword
    unfold copyKeyColumn
    rw [hcode, ok_bind, if_neg (by decide), if_neg (by decide), if_pos rfl, stashedArg_eq hl hword hindex hv, ok_bind, appendKeyBytes_eq hl hiw]
    rfl
  · rw [ofCode?_code] at htype
    obtain htype := Option.some.inj htype
    rw [htype] at hcode ⊢
    intro ws filled free hl hword
    obtain ⟨hiw, _⟩ := List.getElem?_eq_some_iff.1 hword
    unfold copyKeyColumn
    rw [hcode, ok_bind, if_neg (by decide), if_neg (by decide), if_neg (by decide), if_pos rfl,
      stashedArg_eq hl hword hindex hv, ok_bind, appendKeyBytes_eq hl hiw]
    rfl

/-- The whole third pass: it succeeds exactly if there is room for the variable bytes. -/
theorem copyKeyColumns_eq {pend : List Cell} (done : List (List Byte))
    (hcopies : ∀ (j : Nat) (c : Cell), pend[j]? = some c → ∃ word, ws[j]? = some word ∧ Copies u argv head cs (done.length + j) word c)
    (hlen : ws.length = pend.length) (hwf : ∀ c ∈ pend, c.WellFormed) (filled free : List Byte) (hl : Laid u.shape head [] (done ++ ws) cs) :
    (List.range' done.length pend.length).foldlM (copyKeyColumn u argv)
        (areas head [] (done ++ ws) cs (filled ++ free), u.shape.variableOffset + filled.length) = if (extras pend).length ≤ free.length then
        .ok (areas head [] (done ++ words (u.shape.variableOffset + filled.length) pend) cs
          (filled ++ extras pend ++ free.drop (extras pend).length), u.shape.variableOffset + (filled ++ extras pend).length)
      else .error .fault := by
  induction pend generalizing done ws filled free with
  | nil =>
    obtain rfl := List.length_eq_zero_iff.1 hlen
    rw [if_pos (show (extras []).length ≤ free.length from Nat.zero_le _)]
    have hnil : extras [] = [] := rfl
    simp only [hnil, words, List.append_nil, List.length_nil, List.drop_zero, List.range'_zero, List.foldlM_nil, pure_eq_ok]
  | cons c pend ih =>
    obtain ⟨word, ws, rfl⟩ := List.exists_cons_of_length_eq_add_one hlen
    obtain ⟨word', hword', hcopy⟩ := hcopies 0 c rfl
    obtain rfl : word = word' := by simpa using hword'
    replace hcopy : Copies u argv head cs done.length word c := hcopy
    have hsplit : extras (c :: pend) = c.extra ++ extras pend := rfl
    have hat : (done ++ word :: ws)[done.length]? = some word := by simp
    have hset : (done ++ word :: ws).set done.length (c.word (u.shape.variableOffset + filled.length)) =
        done ++ [c.word (u.shape.variableOffset + filled.length)] ++ ws := by simp
    have hdone : ∀ x : List Byte, (done ++ [x]).length = done.length + 1 := fun _ => List.length_append
    rw [List.length_cons, List.range'_succ, List.foldlM_cons, hcopy hl hat, hset, hsplit]
    by_cases hle : c.extra.length ≤ free.length
    · have hl' : Laid u.shape head [] (done ++ [c.word (u.shape.variableOffset + filled.length)] ++ ws) cs := by
        rw [← hset]
        exact hl.setWord _ (length_word (hwf c List.mem_cons_self) _)
      have hcopies' : ∀ (j : Nat) (d : Cell), pend[j]? = some d → ∃ w, ws[j]? = some w ∧
          Copies u argv head cs ((done ++ [c.word (u.shape.variableOffset + filled.length)]).length + j) w d := by
        intro j d hd
        obtain ⟨w, hw, hcopy⟩ := hcopies (j + 1) d (by simpa using hd)
        refine ⟨w, by simpa using hw, ?_⟩
        rw [hdone, Nat.add_assoc, Nat.add_comm 1 j]
        exact hcopy
      have hrun := ih _ hcopies' (Nat.succ.inj hlen) (fun d hd => hwf d (List.mem_cons_of_mem _ hd)) (filled ++ c.extra)
        (free.drop c.extra.length) hl'
      rw [if_pos hle, ok_bind]
      have hoffset : u.shape.variableOffset + ((filled ++ c.extra).length : Int) = u.shape.variableOffset + filled.length + c.extra.length := by
        rw [List.length_append]
        push_cast
        omega
      rw [hdone] at hrun
      have hextras : (c.extra ++ extras pend).length = c.extra.length + (extras pend).length := List.length_append
      rw [hrun, List.length_drop, hextras, hoffset]
      by_cases hroom : (extras pend).length ≤ free.length - c.extra.length
      · rw [if_pos hroom, if_pos (by omega), List.drop_drop, words]
        simp only [List.append_assoc, List.cons_append, List.nil_append]
      · rw [if_neg hroom, if_neg (by omega)]
    · rw [if_neg hle, if_neg (by rw [List.length_append]; omega)]
      rfl

end ThirdPass

/-! ## The update -/

theorem Laid.codes {ids : List (List Byte)} {cs cs' : List Byte}
    (hl : Laid shape head ids ws cs) (h : cs'.length = cs.length) : Laid shape head ids ws cs' := by
  obtain ⟨h1, h2, h3, h4, h5, h6, h7⟩ := hl
  exact ⟨h1, h2, by rw [h, h3], h4, h5, h6, by rw [h, h7]⟩

/-- A key blob whose update has been sized: its areas and its cells, and what the first pass has left. -/
structure Sized (s : Sqlite) (b : List Byte) (us : List (SqlValue × SqlValue)) (u : KeyUpdate) (head : List Byte)
    (ws : List (List Byte)) (cells : List Cell) (rest : List Byte) : Prop where
  blob : b = areas head [] ws (codes cells) rest
  laid : Laid u.shape head [] ws (codes cells)
  stored : Stored u.shape ws rest cells
  wellFormed : ∀ c ∈ cells, c.WellFormed
  few : cells.length < 2 ^ 32
  updatable : Updatable cells [] us
  block : u.block = areas head [] ws (marked cells (us.map target).reverse) rest
  columnCount : u.columnCount = cells.length
  totalBytes : u.totalBytes = u.shape.variableOffset + rest.length + (extras (updateCells s cells us)).length - (extras cells).length

/-- A blob with the magic number has a header. -/
theorem sixteen_le (h : readBlobHeader b = .ok header) (hmagic : header.magic = magic) : 16 ≤ b.length := by
  by_contra hshort
  unfold readBlobHeader at h
  rw [if_pos (by omega)] at h
  rw [← Except.ok.inj h] at hmagic
  exact absurd hmagic (by decide)

/-- A key blob that is opened has areas and cells. -/
theorem exists_cells (hheader : readBlobHeader b = .ok header)
    (hmagic : header.magic = magic) (hopen : openBlob computeKeyBlobShape b header = .ok shape) :
    ∃ (ws : List (List Byte)) (cells : List Cell) (rest : List Byte), b = areas (b.take 16) [] ws (codes cells) rest ∧
      Laid shape (b.take 16) [] ws (codes cells) ∧ Stored shape ws rest cells ∧ (∀ c ∈ cells, c.WellFormed) ∧
      cells.length = header.columnCount.toNat := by
  have hlong := sixteen_le hheader hmagic
  unfold openBlob at hopen
  obtain ⟨shape', hshape, hopen⟩ := bind_eq_ok hopen
  rw [computeKey_eq] at hshape
  split at hshape
  case isFalse => cases hshape
  obtain rfl := Except.ok.inj hshape
  generalize hn : header.columnCount.toNat = n at *
  split at hopen
  case isTrue => cases hopen
  rename_i hroom
  obtain ⟨valid, hvalid, hopen⟩ := bind_eq_ok hopen
  rcases valid with _ | _
  · cases hopen
  obtain rfl := Except.ok.inj hopen
  obtain ⟨p1, p2, p3, p4, p5, hb, h1, h2, h3, h4, -⟩ := @exists_parts b 16 (8 * n) n (b.length - (16 + 9 * n)) 0 (by
    simp only [keyShape] at hroom
    omega)
  obtain ⟨ws, hws, hlen, h8⟩ := Memory.exists_table p2 8 h2
  subst hlen
  have hhead : b.take 16 = p1 := by
    rw [hb, List.take_left' h1]
  have hareas : b = areas p1 [] ws p3 (p4 ++ p5) := by
    rw [hb, ← hws]
    rfl
  have hl : Laid (keyShape ws.length 0) p1 [] ws p3 := by
    refine ⟨by simp, h8, h3.symm, ?_, ?_, ?_, ?_⟩
    all_goals
      simp only [keyShape, h1, h3, List.length_nil]
      omega
  rw [hareas] at hvalid
  obtain ⟨cells, hstored, hcodes⟩ := stored_of_valid hl hvalid
  subst hcodes
  rw [hhead]
  refine ⟨ws, cells, p4 ++ p5, hareas, hl, hstored, fun c hc => ?_, hstored.count.symm⟩
  obtain ⟨i, hi, rfl⟩ := List.mem_iff_getElem.1 hc
  have hw := List.getElem?_eq_getElem (show i < ws.length by rw [hstored.count]; exact hi)
  have hr := hstored.refers i _ _ (List.getElem?_eq_getElem hi) hw
  generalize cells[i] = c at hr
  cases c with
  | fixed type word =>
    obtain ⟨rfl, hs, hb⟩ := hr
    exact ⟨hs, hb, h8 _ (List.mem_of_getElem? hw)⟩
  | string bytes => trivial
  | blob bytes => trivial

theorem shape_of_open (h : openBlob computeKeyBlobShape b header = .ok shape) :
    computeKeyBlobShape header.columnCount.toNat 0 = .ok shape ∧ shape = keyShape header.columnCount.toNat 0 := by
  unfold openBlob at h
  obtain ⟨shape', hshape, h⟩ := bind_eq_ok h
  split at h
  case isTrue => nomatch h
  obtain ⟨valid, _, h⟩ := bind_eq_ok h
  rcases valid with _ | _
  · nomatch h
  obtain rfl := Except.ok.inj h
  refine ⟨hshape, ?_⟩
  rw [computeKey_eq] at hshape
  split at hshape
  case isFalse => nomatch hshape
  exact (Except.ok.inj hshape).symm

/-- What `bupdatekey` does up to the size of its result. -/
theorem sizeKeyUpdate_ok {u : KeyUpdate} (h : sizeKeyUpdate (.blob b :: args) = .ok u) :
    ∃ header shape x, readBlobHeader b = .ok header ∧ header.magic = magic ∧ openBlob computeKeyBlobShape b header = .ok shape ∧
      (pairs args).foldlM (checkKeyUpdate shape header.columnCount.toNat) (b, 0) = .ok x ∧
      u = { block := x.1, columnCount := header.columnCount.toNat, shape := shape, totalBytes := b.length + x.2 } := by
  unfold sizeKeyUpdate at h
  split at h
  case isTrue => nomatch h
  dsimp only at h
  obtain ⟨header, hheader, h⟩ := bind_eq_ok h
  split at h
  case isTrue => nomatch h
  rename_i hmagic
  obtain ⟨shape, hopen, h⟩ := bind_eq_ok h
  obtain ⟨x, hx, h⟩ := bind_eq_ok h
  exact ⟨header, shape, x, hheader, not_not.1 hmagic, hopen, hx, (Except.ok.inj h).symm⟩

/-- What the first pass has sized, in a blob whose areas and cells are known. -/
theorem sized_of_layout (s : Sqlite) {u : KeyUpdate} {rest : List Byte} (hheader : readBlobHeader b = .ok header)
    (hn : header.columnCount.toNat = cells.length) (hb : b = areas head [] ws (codes cells) rest)
    (hl : Laid (keyShape cells.length 0) head [] ws (codes cells)) (hstored : Stored (keyShape cells.length 0) ws rest cells)
    (hwf : ∀ c ∈ cells, c.WellFormed) (h : sizeKeyUpdate (.blob b :: args) = .ok u) : Sized s b (pairs args) u head ws cells rest := by
  obtain ⟨header', shape, x, hheader', _, hopen, hx, rfl⟩ := sizeKeyUpdate_ok h
  obtain rfl := Except.ok.inj (hheader.symm.trans hheader')
  obtain ⟨_, rfl⟩ := shape_of_open hopen
  have hfew := header.columnCount.isLt
  rw [hn] at hx hfew ⊢
  have hl' := hl
  have hb' := hb
  rw [← marked_nil] at hl' hb'
  rw [hb'] at hx
  obtain ⟨hup, rfl⟩ := checkKeyUpdates_ok s hl' hstored hx
  have hblen : (b.length : Int) = (keyShape cells.length 0).variableOffset + rest.length := by
    conv_lhs => rw [hb]
    exact hl.length_eq rest
  have hgrowth := length_extras_updateCells (s := s) hup
  refine ⟨hb, hl, hstored, hwf, hfew, hup, ?_, rfl, ?_⟩
  · dsimp only
    rw [List.append_nil]
  · dsimp only
    omega

/-- What the first pass has sized. -/
theorem sized_of_ok (s : Sqlite) {u : KeyUpdate} (h : sizeKeyUpdate (.blob b :: args) = .ok u) :
    ∃ header ws cells rest, readBlobHeader b = .ok header ∧ header.columnCount.toNat = cells.length ∧
      computeKeyBlobShape cells.length 0 = .ok u.shape ∧ Sized s b (pairs args) u (b.take 16) ws cells rest := by
  obtain ⟨header, shape, x, hheader, hmagic, hopen, _, hu⟩ := sizeKeyUpdate_ok h
  obtain ⟨ws, cells, rest, hb, hl, hstored, hwf, hlen⟩ := exists_cells hheader hmagic hopen
  obtain ⟨hshape, rfl⟩ := shape_of_open hopen
  rw [← hlen] at hl hstored hshape hu
  refine ⟨header, ws, cells, rest, hheader, hlen.symm, ?_, sized_of_layout s hheader hlen.symm hb hl hstored hwf h⟩
  rw [hu]
  exact hshape

/-- The arguments of updates. -/
theorem getElem?_pairs {k : Nat} {p : SqlValue × SqlValue} (h : (pairs args)[k]? = some p) :
    args[2 * k]? = some p.1 ∧ args[2 * k + 1]? = some p.2 := by
  induction args using pairs.induct generalizing k with
  | case1 a b args ih =>
    rcases k with _ | k
    · obtain rfl : (a, b) = p := by simpa [pairs] using h
      exact ⟨rfl, rfl⟩
    · have := ih (k := k) (by simpa [pairs] using h)
      have hk : 2 * (k + 1) = 2 * k + 1 + 1 := by omega
      rw [hk]
      simpa using this
  | case2 args hne =>
    rw [pairs] at h
    · simp at h
    · exact hne

section Update

variable {s : Sqlite} {b head rest : List Byte} {args : List SqlValue} {u : KeyUpdate} {ws : List (List Byte)} {cells : List Cell}

/-- The third pass finds what the second has left. -/
theorem Sized.copies (h : Sized s b (pairs args) u head ws cells rest) {head' cs : List Byte} {ws' : List (List Byte)}
    (hkeep : ∀ j, j ∉ (pairs args).map target → ws'[j]? = ws[j]?)
    (hset : ∀ (k : Nat) (v : SqlValue × SqlValue) (c : Cell), (pairs args)[k]? = some v → cells[target v]? = some c →
      ws'[target v]? = some (updateWord s c.type (1 + 2 * k) v.2)) :
    ∀ (j : Nat) (c : Cell), (updateCells s cells (pairs args))[j]? = some c →
      ∃ word, ws'[j]? = some word ∧ Copies u (.blob b :: args) head' cs (0 + j) word c := by
  have hl0 : Laid u.shape head [] ws (marked cells ((pairs args).map target).reverse) :=
    h.laid.codes (by rw [length_marked, length_codes])
  intro j c hc
  rw [Nat.zero_add]
  by_cases hj : j ∈ (pairs args).map target
  · obtain ⟨v, hv, rfl⟩ := List.mem_map.1 hj
    obtain ⟨k, hk, rfl⟩ := List.mem_iff_getElem.1 hv
    obtain ⟨d, hd, n, hn⟩ := h.updatable.exists hv
    rw [h.updatable.getElem? hv, hd] at hc
    obtain rfl := Option.some.inj hc
    have hget := List.getElem?_eq_getElem hk
    refine ⟨_, hset k _ d hget hd, ?_⟩
    have hfew := h.few
    have hle := h.updatable.length_le
    refine copies_updated h.block hl0 s hd (List.mem_reverse.2 hj) hn (by omega) ?_
    have := (getElem?_pairs hget).2
    rw [Nat.add_comm 1 (2 * k)]
    simpa using this
  · rw [getElem?_updateCells hj] at hc
    obtain ⟨hi, _⟩ := List.getElem?_eq_some_iff.1 hc
    have hw := List.getElem?_eq_getElem (show j < ws.length by rw [h.stored.count]; exact hi)
    refine ⟨_, (hkeep j hj).trans hw, ?_⟩
    exact copies_stored h.block hl0 hc hw (h.stored.refers j c _ hc hw) fun hmem => hj (List.mem_reverse.1 hmem)

/-- The copy of the areas before the variable bytes. -/
theorem Sized.copyAreas_eq (h : Sized s b (pairs args) u head ws cells rest) (result : List Byte) :
    (do let fixed ← load u.block 0 u.shape.variableOffset.toNat; store result 0 fixed) =
      if u.shape.variableOffset ≤ result.length then
        .ok (areas head [] ws (marked cells ((pairs args).map target).reverse) (result.drop u.shape.variableOffset.toNat))
      else .error .fault := by
  have hl0 : Laid u.shape head [] ws (marked cells ((pairs args).map target).reverse) :=
    h.laid.codes (by rw [length_marked, length_codes])
  generalize hmarked : marked cells ((pairs args).map target).reverse = cs at hl0
  have hblock := h.block
  rw [hmarked] at hblock
  have hparts : ∀ rest, areas head [] ws cs rest = (head ++ (ws.flatten ++ cs)) ++ rest := by
    intro rest
    simp only [areas, List.flatten_nil, List.nil_append, List.append_assoc]
  have hlen : ((head ++ (ws.flatten ++ cs)).length : Int) = u.shape.variableOffset := by
    rw [hl0.variableOffset, List.length_append, List.length_append, Memory.length_flatten_table hl0.wordLength, List.length_nil]
    push_cast
    omega
  have hload : load u.block 0 u.shape.variableOffset.toNat = .ok (head ++ (ws.flatten ++ cs)) := by
    rw [hblock, hparts]
    exact load_part 0 [] _ rest rfl (by omega)
  rw [hload, ok_bind]
  by_cases hroom : u.shape.variableOffset ≤ result.length
  · have hstore := store_part 0 [] (result.take u.shape.variableOffset.toNat) (head ++ (ws.flatten ++ cs))
      (result.drop u.shape.variableOffset.toNat) rfl (by rw [List.length_take]; omega)
    rw [List.nil_append, List.nil_append, List.take_append_drop] at hstore
    rw [if_pos hroom, hstore, hparts]
  · have hnone : Memory.write result 0 (head ++ (ws.flatten ++ cs)) = none := by
      rw [Memory.write_eq_none]
      omega
    rw [if_neg hroom, store, hnone]
    rfl

/-- The second and the third pass: they succeed exactly if there is room for the areas and the variable bytes. -/
theorem Sized.copyKeyUpdate_eq (h : Sized s b (pairs args) u head ws cells rest) {junk : Nat → Byte} {result : List Byte}
    (hmalloc : malloc junk u.totalBytes = .ok result) :
    copyKeyUpdate s junk (.blob b :: args) u = if u.shape.variableOffset + (extras (updateCells s cells (pairs args))).length ≤ u.totalBytes then
        .ok (areas head [] (words u.shape.variableOffset (updateCells s cells (pairs args))) (codes cells)
          (extras (updateCells s cells (pairs args)) ++
            (result.drop u.shape.variableOffset.toNat).drop (extras (updateCells s cells (pairs args))).length),
          u.shape.variableOffset + (extras (updateCells s cells (pairs args))).length)
      else .error .fault := by
  have hlen := length_of_malloc hmalloc
  have hl0 : Laid u.shape head [] ws (marked cells ((pairs args).map target).reverse) :=
    h.laid.codes (by rw [length_marked, length_codes])
  obtain ⟨hcodes, hwf⟩ := updateCells_spec (s := s) h.updatable
  have hareas := h.copyAreas_eq result
  unfold copyKeyUpdate
  rw [hmalloc, ok_bind, ← bind_assoc, hareas]
  by_cases hroom : u.shape.variableOffset ≤ result.length
  · rw [if_pos hroom, ok_bind]
    obtain ⟨ws', hstore, hl', hkeep, hset⟩ := storeKeyUpdates_eq (s := s) h.block hl0 h.updatable.integers
      (fun v hv => (h.updatable.exists hv).imp fun _ hc => hc.1) h.updatable.nodup hl0 (length_marked _ _)
      (fun j hj => getElem?_marked fun hmem => hj (List.mem_reverse.1 hmem)) (result.drop u.shape.variableOffset.toNat) 1
    have hlen' : ws'.length = (updateCells s cells (pairs args)).length := by
      rw [hl'.count, length_codes, length_updateCells]
    have hrun := copyKeyColumns_eq [] (h.copies hkeep hset) hlen' (hwf h.wellFormed) [] (result.drop u.shape.variableOffset.toNat) hl'
    have hzero : u.shape.variableOffset + (([] : List Byte).length : Int) = u.shape.variableOffset := Int.add_zero _
    rw [hzero, List.length_nil, length_updateCells, List.nil_append, List.nil_append, List.nil_append, List.nil_append,
      List.length_drop, ← List.range_eq_range'] at hrun
    rw [List.tail_cons, hstore, ok_bind, h.columnCount, hrun]
    have h0 := h.laid.variableOffset
    by_cases hfit : (extras (updateCells s cells (pairs args))).length ≤ result.length - u.shape.variableOffset.toNat
    · rw [if_pos hfit, if_pos (by omega)]
    · rw [if_neg hfit, if_neg (by omega)]
  · rw [if_neg hroom, if_neg (by omega)]
    rfl

end Update

end BlobAux

end CgSql.Blobs
