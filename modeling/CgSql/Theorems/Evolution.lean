import CgSql.Theorems.CursorBytes

/-!
# Cursors of another shape

A row can be read with a cursor whose columns are the first of the row's, or all of them and further ones. What is read depends on the
bits of the common columns alone, and these are right exactly if the columns that set one start within the capacity of the buffer.
-/

namespace CgSql.Serial

/-- One of the two shapes is the other, extended by further columns at the end; a common column can be nullable for the reader where it
is NOT NULL in the row. -/
def Extends (reader stored : Shape) : Prop :=
  ∀ p ∈ reader.columns.zip stored.columns, p.2.type = p.1.type ∧ (p.1.notNull = true → p.2.notNull = true)

/-- The columns of the reader that the row does not have. -/
def extra (reader stored : Shape) : List Column := reader.columns.drop stored.columns.length

/-- What the reader has to get: the common columns and nulls, or an error if it has a further column that is NOT NULL. -/
def evolved (reader : Shape) {stored : Shape} (row : Row stored) : Decode (List (Option Value)) :=
  if (extra reader stored).any (·.notNull) then Decode.error
  else pure (row.values.take reader.columns.length ++ List.replicate (extra reader stored).length none)

/-- The row is written, and the reader gets what it has to get. -/
def Evolves (reader : Shape) {stored : Shape} (row : Row stored) : Prop :=
  ∃ b, cursorToBytebuf row = some b ∧ cursorFromBytes reader b.bytes = evolved reader row

/-- The exact condition: the buffer's size stays in 32 bits, and unless the reader has a further column that is NOT NULL, every common
column that sets a bit starts within the capacity that the buffer has when the pointer to the bits is taken. -/
structure FittingFor (reader : Shape) {stored : Shape} (row : Row stored) : Prop where
  sizes : (ByteBuf.open.appendAll (appends row)).isSome = true
  bits : (extra reader stored).any (·.notNull) = false → KeepsBits stored.capacity (stored.columns.length + 1 + bitBytes stored.columns)
      (stored.columns.take reader.columns.length) (row.values.take reader.columns.length)

namespace SerialAux

variable {reader stored : Shape}

theorem adapt_eq (needed : List Column) (values : List (Option Value)) :
    adapt needed values = values.take needed.length ++ List.replicate (needed.length - values.length) none := by
  induction needed generalizing values with
  | nil => simp [adapt]
  | cons c needed ih =>
    rcases values with _ | ⟨v, values⟩
    · simp [adapt, ih, List.replicate_succ]
    · simp [adapt, ih]

theorem accepts_of_extends (h : Extends reader stored) : (reader.columns.zip stored.columns).all (fun p => p.1.accepts p.2.code) = true :=
  List.all_eq_true.2 fun p hp => (accepts_iff p.1 p.2).2 (h p hp)

/-- The bytes of a row are read as they have to be exactly under the condition on the bits. -/
theorem cursorFromBytes_evolved_iff (h : Extends reader stored) (row : Row stored) :
    cursorFromBytes reader (encoded stored.columns row.values (leftBits row)) = evolved reader row ↔
      ((extra reader stored).any (·.notNull) = false → KeepsBits stored.capacity (stored.columns.length + 1 + bitBytes stored.columns)
          (stored.columns.take reader.columns.length) (row.values.take reader.columns.length)) := by
  have hacc := accepts_of_extends h
  have hvalues : row.values.length = stored.columns.length := row.fits.length_eq.symm
  rw [evolved]
  by_cases hextra : (extra reader stored).any (·.notNull) = true
  · rw [if_pos hextra, cursorFromBytes_bits row reader (length_leftBits row) hacc]
    rw [extra] at hextra
    simp [extra, hextra]
  · have hnone : (extra reader stored).any (·.notNull) = false := by simpa using hextra
    have hread := cursorFromBytes_leftBits_iff row reader hacc hnone
    rw [adapt_eq, hvalues] at hread
    rw [if_neg hextra, extra, List.length_drop, hread]
    exact ⟨fun hkeeps _ => hkeeps, fun hkeeps => hkeeps hnone⟩

theorem evolves_iff (h : Extends reader stored) (row : Row stored) : Evolves reader row ↔ FittingFor reader row := by
  have hbuf : (cursorToBytebuf row).map (·.bytes) = (ByteBuf.open.appendAll (appends row)).map fun _ =>
      encoded stored.columns row.values (leftBits row) := cursorToBytebuf_eq row
  constructor
  · rintro ⟨b, hb, hread⟩
    rw [hb, Option.map_some] at hbuf
    obtain ⟨r, hr, hbytes⟩ := Option.map_eq_some_iff.1 hbuf.symm
    rw [← hbytes] at hread
    exact ⟨Option.isSome_iff_exists.2 ⟨r, hr⟩, (cursorFromBytes_evolved_iff h row).1 hread⟩
  · rintro ⟨hsizes, hbits⟩
    obtain ⟨r, hr⟩ := Option.isSome_iff_exists.1 hsizes
    rw [hr, Option.map_some] at hbuf
    obtain ⟨b, hb, hbytes⟩ := Option.map_eq_some_iff.1 hbuf
    exact ⟨b, hb, by rw [hbytes, (cursorFromBytes_evolved_iff h row).2 hbits]⟩

end SerialAux

/-- A row is read with a cursor of an extended or a cut shape exactly if every common column that sets a bit starts within the
capacity, or the reader has a further column that is NOT NULL. -/
theorem evolves_iff_fitting (reader stored : Shape) (h : Extends reader stored) (row : Row stored) : Evolves reader row ↔ FittingFor reader row :=
  SerialAux.evolves_iff h row

/-- An int, a nullable long and a bool. -/
def storedShape : Shape := ⟨[⟨.int32, true⟩, ⟨.int64, false⟩, ⟨.bool, true⟩], by decide, by decide⟩

/-- The row of 7, 8 and true. -/
def seven : Row storedShape where
  values := [some (.int32 7), some (.int64 8), some (.bool true)]
  fits := .cons ⟨rfl, trivial⟩ (.cons ⟨rfl, trivial⟩ (.cons ⟨rfl, trivial⟩ .nil))

/-- A nullable int, the long and the bool, and a further string. -/
def widerShape : Shape := ⟨[⟨.int32, false⟩, ⟨.int64, false⟩, ⟨.bool, true⟩, ⟨.string, false⟩], by decide, by decide⟩

/-- The row is read with a cursor that has a further string. -/
theorem evolves_seven : Evolves widerShape seven := by
  refine (evolves_iff_fitting widerShape storedShape (by unfold Extends; decide) seven).2 ⟨by decide +kernel, fun _ => ?_⟩
  exact ⟨nofun, fun _ => by decide +kernel, fun _ => by decide +kernel, trivial⟩

/-- The shape of the long row with a further column. -/
def longerShape : Shape := ⟨[⟨.string, true⟩, ⟨.bool, true⟩, ⟨.int32, false⟩], by decide, by decide⟩

/-- The true bool after a long string comes back as false, also with a cursor that has a further column. -/
theorem evolves_false : Extends longerShape ⟨[⟨.string, true⟩, ⟨.bool, true⟩], by decide, by decide⟩ ∧ ¬Evolves longerShape longRow := by
  have hext : Extends longerShape ⟨[⟨.string, true⟩, ⟨.bool, true⟩], by decide, by decide⟩ := by
    unfold Extends
    decide
  refine ⟨hext, fun hevolves => ?_⟩
  obtain ⟨hsizes, hbits⟩ := (SerialAux.evolves_iff hext longRow).1 hevolves
  exact longRow_not_fitting ⟨hsizes, hbits (by decide)⟩

end CgSql.Serial
