import CgSql.Lemmas.BlobCreate

/-!
# What is stored

The cells of a blob: what its words and type codes refer to. A blob that passes the validation has cells, and those of a layout are the
ones that it was made of. The type codes of a blob may be marked as dirty in between, and its cells stay where they are.
-/

namespace CgSql.Blobs

namespace BlobAux

/-! ## Cells of a blob -/

/-- A word refers to a cell, in the bytes behind the type codes. -/
def Refers (shape : BlobShape) (rest word : List Byte) : Cell → Prop
  | .fixed type w => word = w ∧ type ≠ .string ∧ type ≠ .blob
  | .string bytes => shape.variableOffset ≤ infoOffset (ofBigEndian word) ∧ infoLen (ofBigEndian word) = bytes.length ∧
      load rest (infoOffset (ofBigEndian word) - shape.variableOffset) (bytes.length + 1) = .ok (bytes ++ [0])
  | .blob bytes => shape.variableOffset ≤ infoOffset (ofBigEndian word) ∧ infoLen (ofBigEndian word) = bytes.length ∧
      load rest (infoOffset (ofBigEndian word) - shape.variableOffset) bytes.length = .ok bytes

/-- The cells of a blob with these words, and these bytes behind its type codes. -/
structure Stored (shape : BlobShape) (ws : List (List Byte)) (rest : List Byte) (cells : List Cell) : Prop where
  count : ws.length = cells.length
  refers : ∀ (i : Nat) (c : Cell) (word : List Byte), cells[i]? = some c → ws[i]? = some word → Refers shape rest word c

/-- A list of what there is for every index. -/
theorem exists_list {α : Type} {n : Nat} {p : Nat → α → Prop} (h : ∀ i < n, ∃ a, p i a) :
    ∃ l : List α, l.length = n ∧ ∀ (i : Nat) (a : α), l[i]? = some a → p i a := by
  induction n with
  | zero => exact ⟨[], rfl, by simp⟩
  | succ n ih =>
    obtain ⟨l, hl, hp⟩ := ih fun i hi => h i (Nat.lt_succ_of_lt hi)
    obtain ⟨a, ha⟩ := h n (Nat.lt_succ_self n)
    refine ⟨l ++ [a], by rw [List.length_append, hl]; rfl, fun i x hx => ?_⟩
    by_cases hi : i < n
    · rw [List.getElem?_append_left (by omega)] at hx
      exact hp i x hx
    · have hi' : i = n := by
        have := (List.getElem?_eq_some_iff.1 hx).1
        rw [List.length_append, hl] at this
        simp at this
        omega
      subst hi'
      rw [List.getElem?_append_right (by omega), hl, Nat.sub_self] at hx
      obtain rfl : a = x := by simpa using hx
      exact ha

/-- Tests that all hold. -/
theorem of_allM {α : Type} {p : α → Udf Bool} {l : List α} (h : l.allM p = .ok true) : ∀ a ∈ l, p a = .ok true := by
  induction l with
  | nil => exact nofun
  | cons a l ih =>
    rw [List.allM] at h
    obtain ⟨x, hx, h⟩ := bind_eq_ok h
    rcases x with _ | _
    · nomatch Except.ok.inj h
    · intro b hb
      rcases List.mem_cons.1 hb with rfl | hb
      · exact hx
      · exact ih h b hb

section Stored

variable {shape : BlobShape} {head cs rest : List Byte} {ids ws : List (List Byte)}

/-- A string with its NUL. -/
theorem load_string (n : Nat) (offset : Int) (h0 : 0 ≤ offset) (hlen : offset + (n + 1) ≤ rest.length)
    (hlast : loadByte rest (offset + n) = .ok 0) : ∃ bytes, bytes.length = n ∧ load rest offset (n + 1) = .ok (bytes ++ [0]) := by
  have hsome : (Memory.read rest offset n).isSome = true := Memory.isSome_read.2 ⟨h0, by omega⟩
  have hsome' : (Memory.read rest (offset + n) 1).isSome = true := Memory.isSome_read.2 ⟨by omega, by push_cast; omega⟩
  obtain ⟨bytes, hbytes⟩ := Option.isSome_iff_exists.1 hsome
  obtain ⟨last, hread⟩ := Option.isSome_iff_exists.1 hsome'
  have hone : last = [0] := by
    have hlen := Memory.length_of_read hread
    obtain ⟨x, rfl⟩ := List.length_eq_one_iff.1 hlen
    rw [loadByte, load, hread] at hlast
    have : x = 0 := Except.ok.inj hlast
    rw [this]
  refine ⟨bytes, Memory.length_of_read hbytes, ?_⟩
  rw [load, Memory.read_add hbytes hread, hone]
  rfl

/-- A column that passes the validation has a cell. -/
theorem refers_of_valid (hl : Laid shape head ids ws cs) {i : Nat} (hi : i < ws.length) (hcs : i < cs.length)
    (h : validateField (areas head ids ws cs rest) shape i = .ok true) :
    ∃ c : Cell, c.type.code = cs[i] ∧ Refers shape rest ws[i] c := by
  unfold validateField at h
  rw [hl.loadCode rest hcs, ok_bind] at h
  have hlen := hl.length_eq rest
  split at h
  · rename_i hcode
    rw [hl.loadU64 rest hi, ok_bind] at h
    split at h
    · nomatch Except.ok.inj h
    · rename_i hbound
      obtain ⟨last, hlast, h⟩ := bind_eq_ok h
      have hzero : last = 0 := of_decide_eq_true (Except.ok.inj h)
      subst hzero
      have hoffset : (infoOffset (ofBigEndian ws[i]) + infoLen (ofBigEndian ws[i]) - shape.variableOffset : Int) =
          infoOffset (ofBigEndian ws[i]) - shape.variableOffset + infoLen (ofBigEndian ws[i]) := by omega
      rw [loadByte, hl.loadRest rest (by omega), hoffset] at hlast
      obtain ⟨bytes, hb, hload⟩ := @load_string rest (infoLen (ofBigEndian ws[i]))
        (infoOffset (ofBigEndian ws[i]) - shape.variableOffset) (by omega) (by omega) hlast
      refine ⟨.string bytes, code_of_ofCode? hcode, by omega, hb.symm, ?_⟩
      rw [hb]
      exact hload
  · rename_i hcode
    rw [hl.loadU64 rest hi, ok_bind] at h
    have hbound := of_decide_eq_true (Except.ok.inj h)
    obtain ⟨bytes, hload, hb⟩ := load_eq (b := rest) (infoOffset (ofBigEndian ws[i]) - shape.variableOffset)
      (infoLen (ofBigEndian ws[i])) (by omega) (by omega)
    refine ⟨.blob bytes, code_of_ofCode? hcode, by omega, hb.symm, ?_⟩
    rw [hb]
    exact hload
  · rename_i type hs hb hcode
    refine ⟨.fixed type ws[i], code_of_ofCode? hcode, rfl, ?_, ?_⟩
    · rintro rfl
      exact hs rfl
    · rintro rfl
      exact hb rfl
  · nomatch Except.ok.inj h

/-- A blob that passes the validation has cells. -/
theorem stored_of_valid (hl : Laid shape head ids ws cs) (h : validateBlobVariableFields (areas head ids ws cs rest) shape ws.length = .ok true) :
    ∃ cells, Stored shape ws rest cells ∧ cs = codes cells := by
  have hall := of_allM h
  have hcell : ∀ i < ws.length, ∃ c : Cell, (∀ code, cs[i]? = some code → c.type.code = code) ∧
      ∀ word, ws[i]? = some word → Refers shape rest word c := by
    intro i hi
    obtain ⟨c, hcode, hrefers⟩ := refers_of_valid hl hi (hl.count ▸ hi) (hall i (List.mem_range.2 hi))
    refine ⟨c, fun code hc => ?_, fun word hw => ?_⟩
    · rw [List.getElem?_eq_getElem (hl.count ▸ hi)] at hc
      rw [hcode, Option.some.inj hc]
    · rw [List.getElem?_eq_getElem hi] at hw
      rw [← Option.some.inj hw]
      exact hrefers
  obtain ⟨cells, hlen, hcells⟩ := exists_list hcell
  refine ⟨cells, ⟨hlen.symm, fun i c word hc hw => (hcells i c hc).2 word hw⟩, ?_⟩
  refine List.ext_getElem (by rw [length_codes, hlen, hl.count]) fun i h1 h2 => ?_
  have hi : i < cells.length := by rw [length_codes] at h2; exact h2
  have := (hcells i cells[i] (List.getElem?_eq_getElem hi)).1 cs[i] (List.getElem?_eq_getElem h1)
  rw [← this]
  simp [codes]

end Stored

/-! ## Cells of a layout -/

/-- Words of cells refer to them in their variable bytes, whatever is before and behind these. -/
theorem refers_words {shape : BlobShape} {cells : List Cell} (hc : ∀ c ∈ cells, c.WellFormed) (before slack : List Byte) {offset : Nat}
    (hoffset : (offset : Int) = shape.variableOffset + before.length) (hsize : offset + (extras cells).length < 2 ^ 32) :
    ∀ (i : Nat) (c : Cell) (word : List Byte), cells[i]? = some c → (words offset cells)[i]? = some word →
      Refers shape (before ++ (extras cells ++ slack)) word c := by
  induction cells generalizing before offset with
  | nil => simp
  | cons c cells ih =>
    have hextras : extras (c :: cells) = c.extra ++ extras cells := rfl
    rw [hextras, List.length_append] at hsize
    intro i x word hx hw
    rcases i with _ | i
    · obtain rfl : c = x := by simpa using hx
      obtain rfl : c.word offset = word := by simpa [words] using hw
      have hload : ∀ n, c.extra.length = n → load (before ++ (extras (c :: cells) ++ slack)) (offset - shape.variableOffset) n = .ok c.extra := by
        intro n hn
        rw [hextras, List.append_assoc]
        exact load_part _ before c.extra _ (by omega) hn
      cases c with
      | fixed type w => exact ⟨rfl, (hc _ List.mem_cons_self).1, (hc _ List.mem_cons_self).2.1⟩
      | string bytes =>
        have hlen : (Cell.string bytes).extra.length = bytes.length + 1 := List.length_append
        have hword : ofBigEndian ((Cell.string bytes).word offset) = info offset bytes.length := ofBigEndian_bigEndian _
        have ho := @infoOffset_info bytes.length offset (by omega) (by omega)
        have hl := @infoLen_info bytes.length offset (by omega) (by omega)
        simp only [Refers, hword, ho, hl]
        exact ⟨by omega, trivial, hload _ hlen⟩
      | blob bytes =>
        have hlen : (Cell.blob bytes).extra.length = bytes.length := rfl
        have hword : ofBigEndian ((Cell.blob bytes).word offset) = info offset bytes.length := ofBigEndian_bigEndian _
        have ho := @infoOffset_info bytes.length offset (by omega) (by omega)
        have hl := @infoLen_info bytes.length offset (by omega) (by omega)
        simp only [Refers, hword, ho, hl]
        exact ⟨by omega, trivial, hload _ hlen⟩
    · have hrest : before ++ (extras (c :: cells) ++ slack) = (before ++ c.extra) ++ (extras cells ++ slack) := by
        rw [hextras]
        simp only [List.append_assoc]
      rw [hrest]
      have hbefore : ((offset + c.extra.length : Nat) : Int) = shape.variableOffset + (before ++ c.extra).length := by
        rw [List.length_append]
        push_cast
        omega
      refine ih (fun c h => hc c (List.mem_cons_of_mem _ h)) (before ++ c.extra) hbefore (by omega) i x word (by simpa using hx) ?_
      simpa [words] using hw

end BlobAux

end CgSql.Blobs
