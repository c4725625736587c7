import Mathlib.Algebra.Order.Ring.Int
import Mathlib.Data.BitVec

/-!
# Blocks of memory

A block is a list of cells. Reads and writes at an offset are checked against its bounds. Where a block is known as parts one after
the other, a read finds the part that begins at its offset, and a write replaces it; in a table of entries of one length it finds or
replaces an entry.
-/

namespace Memory

variable {α : Type*}
variable {block cells block' pre post : List α} {offset : Int} {n i k : Nat} {table : List (List α)}

/-- The cells from an offset on. -/
def read (block : List α) (offset : Int) (n : Nat) : Option (List α) :=
  if 0 ≤ offset ∧ offset + n ≤ block.length then some ((block.drop offset.toNat).take n) else none

/-- The block with these cells from an offset on. -/
def write (block : List α) (offset : Int) (cells : List α) : Option (List α) :=
  if 0 ≤ offset ∧ offset + cells.length ≤ block.length then
    some (block.take offset.toNat ++ (cells ++ block.drop (offset.toNat + cells.length)))
  else none

/-! ## Bounds -/

theorem read_eq_none : read block offset n = none ↔ offset < 0 ∨ block.length < offset + n := by
  unfold read
  split
  · simp
    omega
  · simp
    omega

theorem isSome_read : (read block offset n).isSome = true ↔ 0 ≤ offset ∧ offset + n ≤ block.length := by
  rw [Option.isSome_iff_ne_none, Ne, read_eq_none]
  omega

theorem length_of_read (h : read block offset n = some cells) : cells.length = n := by
  unfold read at h
  split at h
  · rw [← Option.some.inj h, List.length_take, List.length_drop]
    omega
  · nomatch h

theorem write_isSome (h0 : 0 ≤ offset) (h : offset + cells.length ≤ block.length) : ∃ block', write block offset cells = some block' :=
  ⟨_, if_pos ⟨h0, h⟩⟩

theorem write_eq_none : write block offset cells = none ↔ offset < 0 ∨ block.length < offset + cells.length := by
  unfold write
  split
  · simp
    omega
  · simp
    omega

/-- A write keeps the size. -/
theorem length_of_write (h : write block offset cells = some block') : block'.length = block.length := by
  unfold write at h
  split at h
  · rw [← Option.some.inj h]
    simp only [List.length_append, List.length_take, List.length_drop]
    omega
  · nomatch h

theorem bounds_of_write (h : write block offset cells = some block') : 0 ≤ offset ∧ offset + cells.length ≤ block.length := by
  unfold write at h
  split at h
  · assumption
  · nomatch h

/-- Reads of adjacent cells are one read. -/
theorem read_add {xs ys : List α} {m : Nat} (hx : read block offset m = some xs)
    (hy : read block (offset + m) n = some ys) : read block offset (m + n) = some (xs ++ ys) := by
  unfold read at *
  split at hx
  · split at hy
    · rw [if_pos (by omega), ← Option.some.inj hx, ← Option.some.inj hy, List.take_add, List.drop_drop]
      congr 4
      omega
    · nomatch hy
  · nomatch hx

/-- A read is its first cells, and those behind them. -/
theorem read_split (xs ys : List α) (h : read block offset (xs.length + ys.length) = some (xs ++ ys)) :
    read block offset xs.length = some xs ∧ read block (offset + xs.length) ys.length = some ys := by
  unfold read at *
  split at h
  · have h := Option.some.inj h
    rw [List.take_add, List.drop_drop] at h
    obtain ⟨hx, hy⟩ := List.append_inj h (by rw [List.length_take, List.length_drop]; omega)
    rw [if_pos (by omega), if_pos (by omega), hx]
    refine ⟨rfl, congrArg some ?_⟩
    rw [← hy]
    congr 2
    omega
  · nomatch h

/-! ## Frames -/

/-- A write leaves the cells above it. -/
theorem getElem?_write_above (h : write block offset cells = some block') (hi : offset + cells.length ≤ i) : block'[i]? = block[i]? := by
  obtain ⟨h0, hle⟩ := bounds_of_write h
  unfold write at h
  rw [if_pos ⟨h0, hle⟩] at h
  rw [← Option.some.inj h, List.getElem?_append_right (by simp only [List.length_take]; omega),
    List.getElem?_append_right (by simp only [List.length_take]; omega), List.getElem?_drop]
  congr 1
  simp only [List.length_take]
  omega

/-! ## Parts -/

/-- A read finds the part at its offset. -/
theorem read_part (hoffset : offset = pre.length) (hn : cells.length = n) : read (pre ++ (cells ++ post)) offset n = some cells := by
  subst hoffset hn
  unfold read
  rw [if_pos (by simp only [List.length_append]; omega)]
  simp

/-- A read behind a part is a read of what follows it. -/
theorem read_append_right (h : pre.length ≤ offset) (n : Nat) : read (pre ++ post) offset n = read post (offset - pre.length) n := by
  unfold read
  rw [List.length_append]
  by_cases hb : offset - pre.length + n ≤ post.length
  · rw [if_pos (by push_cast; omega), if_pos (by omega), List.drop_append, List.drop_eq_nil_of_le (by omega), List.nil_append]
    congr 3
    omega
  · rw [if_neg (by push_cast; omega), if_neg (by omega)]

/-- A write replaces the part at its offset. -/
theorem write_part {old : List α} (hoffset : offset = pre.length)
    (hlen : old.length = cells.length) : write (pre ++ (old ++ post)) offset cells = some (pre ++ (cells ++ post)) := by
  subst hoffset
  unfold write
  rw [if_pos (by simp only [List.length_append]; omega)]
  simp [hlen]

/-- A write at the border of a part that is filled from below. -/
theorem write_border {filled free : List α} (hoffset : offset = pre.length + filled.length) (hlen : cells.length ≤ free.length) :
    write (pre ++ (filled ++ free ++ post)) offset cells = some (pre ++ (filled ++ cells ++ free.drop cells.length ++ post)) := by
  have hparts : pre ++ (filled ++ free ++ post) = (pre ++ filled) ++ (free.take cells.length ++ (free.drop cells.length ++ post)) := by
    rw [← List.append_assoc (free.take _), List.take_append_drop]
    simp only [List.append_assoc]
  rw [hparts, write_part (by rw [List.length_append]; omega) (by rw [List.length_take]; omega)]
  simp only [List.append_assoc]

/-! ## Tables -/

/-- The entries of a table of entries of one length. -/
theorem length_flatten_table (hk : ∀ e ∈ table, e.length = k) : table.flatten.length = k * table.length := by
  induction table with
  | nil => rfl
  | cons e table ih =>
    rw [List.flatten_cons, List.length_append, hk e List.mem_cons_self, ih fun e he => hk e (List.mem_cons_of_mem _ he),
      List.length_cons, Nat.mul_succ, Nat.add_comm]

/-- Cells that are as many as those of a table are one. -/
theorem exists_table (cells : List α) (k : Nat) (h : cells.length = k * n) :
    ∃ table : List (List α), table.flatten = cells ∧ table.length = n ∧ ∀ e ∈ table, e.length = k := by
  induction n generalizing cells with
  | zero => exact ⟨[], (List.length_eq_zero_iff.1 h).symm, rfl, nofun⟩
  | succ n ih =>
    rw [Nat.mul_succ] at h
    obtain ⟨table, hflatten, hlen, hk⟩ := ih (cells.drop k) (by rw [List.length_drop]; omega)
    refine ⟨cells.take k :: table, ?_, by rw [List.length_cons, hlen], fun e he => ?_⟩
    · rw [List.flatten_cons, hflatten, List.take_append_drop]
    · rcases List.mem_cons.1 he with rfl | he
      · rw [List.length_take]
        omega
      · exact hk e he

/-- A table before, at and after an entry. -/
theorem flatten_split (hi : i < table.length) : table.flatten = (table.take i).flatten ++ (table[i] ++ (table.drop (i + 1)).flatten) := by
  conv_lhs => rw [← List.take_append_drop i table, List.drop_eq_getElem_cons hi]
  rw [List.flatten_append, List.flatten_cons]

theorem flatten_set_split (hi : i < table.length) (e : List α) :
    (table.set i e).flatten = (table.take i).flatten ++ (e ++ (table.drop (i + 1)).flatten) := by
  rw [List.set_eq_take_append_cons_drop, if_pos hi, List.flatten_append, List.flatten_cons]

theorem length_flatten_take (hk : ∀ e ∈ table, e.length = k) (hi : i ≤ table.length) : (table.take i).flatten.length = k * i := by
  rw [length_flatten_table fun e he => hk e (List.mem_of_mem_take he), List.length_take, Nat.min_eq_left hi]

/-- A read finds the entry at its offset. -/
theorem read_entry (hk : ∀ e ∈ table, e.length = k) (hi : i < table.length) (hoffset : offset = pre.length + k * i) :
    read (pre ++ (table.flatten ++ post)) offset k = some table[i] := by
  have hparts : pre ++ (table.flatten ++ post) = (pre ++ (table.take i).flatten) ++ (table[i] ++ ((table.drop (i + 1)).flatten ++ post)) := by
    rw [flatten_split hi]
    simp only [List.append_assoc]
  rw [hparts]
  refine read_part ?_ (hk _ (List.getElem_mem hi))
  rw [List.length_append, length_flatten_take hk (Nat.le_of_lt hi), hoffset]
  push_cast
  rfl

/-- A write replaces the entry at its offset. -/
theorem write_entry {e : List α} (hk : ∀ e ∈ table, e.length = k)
    (hi : i < table.length) (he : e.length = k) (hoffset : offset = pre.length + k * i) :
    write (pre ++ (table.flatten ++ post)) offset e = some (pre ++ ((table.set i e).flatten ++ post)) := by
  have hparts : pre ++ (table.flatten ++ post) = (pre ++ (table.take i).flatten) ++ (table[i] ++ ((table.drop (i + 1)).flatten ++ post)) := by
    rw [flatten_split hi]
    simp only [List.append_assoc]
  rw [hparts, write_part ?_ (by rw [hk _ (List.getElem_mem hi), he]), flatten_set_split hi]
  · simp only [List.append_assoc]
  · rw [List.length_append, length_flatten_take hk (Nat.le_of_lt hi), hoffset]
    push_cast
    rfl

/-- A read of one cell. -/
theorem read_cell (hi : i < cells.length) (hoffset : offset = pre.length + i) : read (pre ++ (cells ++ post)) offset 1 = some [cells[i]] := by
  have hparts : pre ++ (cells ++ post) = (pre ++ cells.take i) ++ ([cells[i]] ++ (cells.drop (i + 1) ++ post)) := by
    conv_lhs => rw [← List.take_append_drop i cells, List.drop_eq_getElem_cons hi]
    simp only [List.append_assoc, List.cons_append, List.nil_append]
  rw [hparts]
  refine read_part ?_ rfl
  rw [List.length_append, List.length_take, Nat.min_eq_left (Nat.le_of_lt hi), hoffset]
  push_cast
  rfl

/-- A write of one cell. -/
theorem write_cell {a : α} (hi : i < cells.length) (hoffset : offset = pre.length + i) :
    write (pre ++ (cells ++ post)) offset [a] = some (pre ++ (cells.set i a ++ post)) := by
  have hparts : pre ++ (cells ++ post) = (pre ++ cells.take i) ++ ([cells[i]] ++ (cells.drop (i + 1) ++ post)) := by
    conv_lhs => rw [← List.take_append_drop i cells, List.drop_eq_getElem_cons hi]
    simp only [List.append_assoc, List.cons_append, List.nil_append]
  have hoffset' : offset = (pre ++ cells.take i).length := by
    rw [List.length_append, List.length_take, Nat.min_eq_left (Nat.le_of_lt hi), hoffset]
    push_cast
    rfl
  have hone : [cells[i]].length = [a].length := rfl
  rw [hparts, write_part hoffset' hone, List.set_eq_take_append_cons_drop, if_pos hi]
  simp only [List.append_assoc, List.cons_append, List.nil_append]

end Memory
