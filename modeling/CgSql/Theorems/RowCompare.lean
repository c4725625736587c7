import CgSql.RowCompare

/-!
# Equality, hash and difference of rows

The three go by the same: the bytes in front of the references, and the contents of the references. For the difference this needs
that the bytes are normalized, since it does not look at padding, and not at the value of a null.
-/

namespace CgSql.RowCompare

open Serial (DataType)

namespace CompareAux

variable {heap : Heap}

/-! ## References -/

/-- Two references with objects of one type. -/
def Alike (heap : Heap) (r1 r2 : Option Nat) : Prop := ∃ t, (∀ r, r1 = some r → (heap r).IsA t) ∧ ∀ r, r2 = some r → (heap r).IsA t

theorem isA_string {t : DataType} {o : Object} (h : o.IsA t) (ht : t = .string) : ∃ chars, o = .string chars := by
  cases o with
  | string chars => exact ⟨chars, rfl⟩
  | blob bytes => exact absurd (h.symm.trans ht) (by decide)

theorem isA_blob {t : DataType} {o : Object} (h : o.IsA t) (ht : t = .blob) : ∃ bytes, o = .blob bytes := by
  cases o with
  | string chars => exact absurd (h.symm.trans ht) (by decide)
  | blob bytes => exact ⟨bytes, rfl⟩

/-- Strings are equal if their contents are. -/
theorem stringEqual_eq {s1 s2 : Option Nat} (h1 : ∀ r, s1 = some r → (heap r).IsA .string) (h2 : ∀ r, s2 = some r → (heap r).IsA .string) :
    stringEqual heap s1 s2 = some (decide (s1.map heap = s2.map heap)) := by
  unfold stringEqual
  by_cases heq : s1 = s2
  · simp [heq]
  rw [if_neg heq]
  cases s1 with
  | none => cases s2 <;> simp_all
  | some r1 =>
    cases s2 with
    | none => simp
    | some r2 =>
      obtain ⟨chars1, hchars1⟩ := isA_string (h1 r1 rfl) rfl
      obtain ⟨chars2, hchars2⟩ := isA_string (h2 r2 rfl) rfl
      simp only [hchars1, hchars2, Option.map_some, Option.some.injEq, Object.string.injEq]

/-- Blobs are equal if their contents are. -/
theorem blobEqual_eq {b1 b2 : Option Nat} (h1 : ∀ r, b1 = some r → (heap r).IsA .blob) (h2 : ∀ r, b2 = some r → (heap r).IsA .blob) :
    blobEqual heap b1 b2 = some (decide (b1.map heap = b2.map heap)) := by
  unfold blobEqual
  by_cases heq : b1 = b2
  · simp [heq]
  rw [if_neg heq]
  cases b1 with
  | none => cases b2 <;> simp_all
  | some r1 =>
    cases b2 with
    | none => simp
    | some r2 =>
      obtain ⟨bytes1, hbytes1⟩ := isA_blob (h1 r1 rfl) rfl
      obtain ⟨bytes2, hbytes2⟩ := isA_blob (h2 r2 rfl) rfl
      have hlen : (bytes1.length = bytes2.length ∧ bytes1 = bytes2) ↔ bytes1 = bytes2 := and_iff_right_of_imp (congrArg List.length)
      simp only [hbytes1, hbytes2, hlen, Option.map_some, Option.some.injEq, Object.blob.injEq]

/-- References of one type are equal if their contents are. -/
theorem refEqual_eq {r1 r2 : Option Nat} (h : Alike heap r1 r2) : refEqual heap r1 r2 = some (decide (r1.map heap = r2.map heap)) := by
  obtain ⟨t, h1, h2⟩ := h
  unfold refEqual
  by_cases heq : r1 = r2
  · simp [heq]
  rw [if_neg heq]
  cases r1 with
  | none => cases r2 <;> simp_all
  | some a =>
    cases r2 with
    | none => simp
    | some b =>
      have ha := h1 a rfl
      have hb := h2 b rfl
      cases hobject : heap a with
      | string chars =>
        rw [hobject] at ha
        obtain ⟨chars', hchars'⟩ := isA_string hb ha
        rw [← stringEqual_eq (fun r hr => by cases hr; rw [hobject]; rfl) (fun r hr => by cases hr; rw [hchars']; rfl)]
        simp only [hobject, hchars']
      | blob bytes =>
        rw [hobject] at ha
        obtain ⟨bytes', hbytes'⟩ := isA_blob hb ha
        rw [← blobEqual_eq (fun r hr => by cases hr; rw [hobject]; rfl) (fun r hr => by cases hr; rw [hbytes']; rfl)]
        simp only [hobject, hbytes']

/-- The contents of references. -/
def contents (heap : Heap) (refs : List (Option Nat)) : List (Option Object) := refs.map (Option.map heap)

theorem refsEqual_eq {refs1 refs2 : List (Option Nat)} (h : List.Forall₂ (Alike heap) refs1 refs2) :
    refsEqual heap refs1 refs2 = some (decide (contents heap refs1 = contents heap refs2)) := by
  induction h with
  | nil => rfl
  | @cons r1 r2 refs1 refs2 hr _ ih =>
    have hcons : decide (contents heap (r1 :: refs1) = contents heap (r2 :: refs2)) =
        (decide (r1.map heap = r2.map heap) && decide (contents heap refs1 = contents heap refs2)) := by
      rw [← Bool.decide_and]
      exact decide_eq_decide.mpr List.cons_eq_cons
    rw [refsEqual, refEqual_eq hr, hcons, Option.bind_eq_bind, Option.bind_some]
    cases decide (r1.map heap = r2.map heap) with
    | false => rfl
    | true => exact ih

/-- The hash of a reference depends on its content. -/
theorem refHash_congr {r1 r2 : Option Nat} (h : r1.map heap = r2.map heap) : refHash heap r1 = refHash heap r2 := by
  cases r1 with
  | none => cases r2 <;> simp_all
  | some a =>
    cases r2 with
    | none => simp at h
    | some b =>
      have hab : heap a = heap b := by simpa using h
      simp only [refHash, hab]

theorem foldl_refHash_congr {refs1 refs2 : List (Option Nat)} (h : contents heap refs1 = contents heap refs2) (hash : BitVec 64) :
    refs1.foldl (fun h r => hashStep h (refHash heap r)) hash = refs2.foldl (fun h r => hashStep h (refHash heap r)) hash := by
  induction refs1 generalizing refs2 hash with
  | nil =>
    obtain rfl : refs2 = [] := List.map_eq_nil_iff.mp h.symm
    rfl
  | cons r1 refs1 ih =>
    cases refs2 with
    | nil => simp [contents] at h
    | cons r2 refs2 =>
      simp only [contents, List.map_cons, List.cons.injEq] at h
      rw [List.foldl_cons, List.foldl_cons, refHash_congr h.1]
      exact ih h.2 _

/-! ## Bytes -/

/-- Two parts of bytes are equal if they agree at each place. -/
theorem slice_eq_iff {d1 d2 : List Byte} (_ : d1.length = d2.length) {offset size : Nat} :
    (d1.drop offset).take size = (d2.drop offset).take size ↔ ∀ p, offset ≤ p → p < offset + size → d1[p]? = d2[p]? := by
  constructor
  · intro h p hle hlt
    have hat := congrArg (·[p - offset]?) h
    simp only [List.getElem?_take, List.getElem?_drop] at hat
    rwa [if_pos (by omega), if_pos (by omega), Nat.add_sub_cancel' hle] at hat
  · intro h
    apply List.ext_getElem?
    intro i
    rw [List.getElem?_take, List.getElem?_take, List.getElem?_drop, List.getElem?_drop]
    by_cases hi : i < size
    · rw [if_pos hi, if_pos hi]
      exact h (offset + i) (by omega) (by omega)
    · rw [if_neg hi, if_neg hi]

variable {l : PlainLayout}

/-- The fields of a column agree, as far as the difference looks at them. -/
def SameAt (c1 c2 : Cursor heap l.toLayout) (c : Column) : Prop :=
  if c.isRef then (c1.refAt c.offset).map heap = (c2.refAt c.offset).map heap
  else (c.notNull = false → c1.data[c.offset]? = c2.data[c.offset]?) ∧ ((c.notNull = true ∨ c1.data[c.offset]? = some 0) →
      ∀ p, c.valueOffset ≤ p → p < c.valueOffset + valueSize c.type → c1.data[p]? = c2.data[p]?)

theorem take_one_drop (d : List Byte) (offset : Nat) : (d.drop offset).take 1 = d[offset]?.toList := by
  rw [List.take_one, List.head?_drop]

/-- The reference of a column is null or of its type. -/
theorem refAt_isA (c1 : Cursor heap l.toLayout) {c : Column} (hc : c ∈ l.columns) (href : c.isRef = true) :
    ∀ r, c1.refAt c.offset = some r → (heap r).IsA c.type := by
  intro r hr
  obtain ⟨k, hk, hoffset⟩ := l.refs c hc href
  refine c1.typed c hc k r href hoffset ?_
  rw [Cursor.refAt, hoffset, Nat.add_sub_cancel_left, Nat.mul_div_cancel_left k (by decide)] at hr
  exact Option.join_eq_some_iff.mp hr

/-- The comparison of a column tells whether the fields agree. -/
theorem compareOneCursorColumn_iff (doubleEq : List Byte → List Byte → Bool) (c1 c2 : Cursor heap l.toLayout)
    (hlen : c1.data.length = c2.data.length) {c : Column} (hc : c ∈ l.columns) :
    ∃ b, compareOneCursorColumn doubleEq c1 c2 c c = some b ∧ (b = true ↔ SameAt c1 c2 c) := by
  unfold compareOneCursorColumn
  rw [if_neg (by simp)]
  by_cases hstring : c.type = .string
  · have href : c.isRef = true := by simp [Column.isRef, hstring]
    rw [if_pos hstring, stringEqual_eq (hstring ▸ refAt_isA c1 hc href) (hstring ▸ refAt_isA c2 hc href)]
    exact ⟨_, rfl, by rw [SameAt, if_pos href, decide_eq_true_iff]⟩
  rw [if_neg hstring]
  by_cases hblob : c.type = .blob
  · have href : c.isRef = true := by simp [Column.isRef, hblob]
    rw [if_pos hblob, blobEqual_eq (hblob ▸ refAt_isA c1 hc href) (hblob ▸ refAt_isA c2 hc href)]
    exact ⟨_, rfl, by rw [SameAt, if_pos href, decide_eq_true_iff]⟩
  rw [if_neg hblob]
  have href : ¬c.isRef = true := by simp [Column.isRef, hstring, hblob]
  have hvalues : ∀ v1 v2, valuesEqual doubleEq c.type v1 v2 = decide (v1 = v2) := by
    intro v1 v2
    rw [valuesEqual, if_neg (l.plain c hc)]
  simp only [Cursor.bytesAt, hvalues, take_one_drop]
  rw [SameAt, if_neg href, ← slice_eq_iff hlen]
  have hflag : c1.data[c.offset]?.toList = [0] ↔ c1.data[c.offset]? = some 0 := by
    cases c1.data[c.offset]? <;> simp
  have hflags : c1.data[c.offset]?.toList = c2.data[c.offset]?.toList ↔ c1.data[c.offset]? = c2.data[c.offset]? := by
    cases c1.data[c.offset]? <;> cases c2.data[c.offset]? <;> simp
  by_cases hnotNull : c.notNull = true
  · rw [if_pos hnotNull]
    exact ⟨_, rfl, by simp [hnotNull]⟩
  · simp only [ne_eq, hflags, hflag]
    rw [if_neg hnotNull]
    by_cases heq : c1.data[c.offset]? = c2.data[c.offset]?
    · rw [if_neg (not_not_intro heq)]
      by_cases hzero : c1.data[c.offset]? = some 0
      · rw [if_neg (not_not_intro hzero)]
        exact ⟨_, rfl, by simp [hzero, ← heq]⟩
      · rw [if_pos hzero]
        exact ⟨true, rfl, ⟨fun _ => ⟨fun _ => heq, fun hor => (hor.elim hnotNull hzero).elim⟩, fun _ => rfl⟩⟩
    · rw [if_pos heq]
      exact ⟨false, rfl, by simp [hnotNull, heq]⟩

/-- The loop over the columns ends with -1 exactly if all fields agree. -/
theorem diffColumns_iff (doubleEq : List Byte → List Byte → Bool) (c1 c2 : Cursor heap l.toLayout)
    (hlen : c1.data.length = c2.data.length) {cols : List Column} (hcols : ∀ c ∈ cols, c ∈ l.columns) (i : Nat) :
    ∃ d, diffColumns doubleEq c1 c2 i cols cols = some d ∧ (d = -1 ↔ ∀ c ∈ cols, SameAt c1 c2 c) := by
  induction cols generalizing i with
  | nil => exact ⟨-1, rfl, by simp⟩
  | cons c cols ih =>
    obtain ⟨b, hb, hsame⟩ := compareOneCursorColumn_iff doubleEq c1 c2 hlen (hcols c List.mem_cons_self)
    rw [diffColumns, hb, Option.bind_eq_bind, Option.bind_some, List.forall_mem_cons, ← hsame]
    cases b with
    | true =>
      obtain ⟨d, hd, hrest⟩ := ih (fun c hc => hcols c (List.mem_cons_of_mem _ hc)) (i + 1)
      exact ⟨d, hd, by simp [hrest]⟩
    | false =>
      refine ⟨(i : Int), rfl, ?_⟩
      simp

/-! ## The same rows -/

/-- Rows with normalized bytes have the same bytes if the fields of their scalars agree. -/
theorem data_eq_of_same {c1 c2 : Cursor heap l.toLayout} (h1 : Normalized l.toLayout c1.data) (h2 : Normalized l.toLayout c2.data)
    (hsame : ∀ c ∈ l.columns, SameAt c1 c2 c) : c1.data = c2.data := by
  apply List.ext_getElem?
  intro p
  by_cases hp : p < l.front
  · by_cases hcovered : ∃ c ∈ l.columns, c.isRef = false ∧ c.Covers p
    · obtain ⟨c, hc, href, hle, hlt⟩ := hcovered
      have hfield := hsame c hc
      rw [SameAt, if_neg (by simp [href])] at hfield
      obtain ⟨hflag, hvalue⟩ := hfield
      by_cases hnotNull : c.notNull = true
      · have hoffset : c.valueOffset = c.offset := if_pos hnotNull
        exact hvalue (Or.inl hnotNull) p (hoffset ▸ hle) hlt
      · have hnullable : c.notNull = false := by simpa using hnotNull
        rcases Nat.eq_or_lt_of_le hle with rfl | hgt
        · exact hflag hnullable
        by_cases hpad : p < c.valueOffset
        · rw [h1.padding c hc href p hgt hpad, h2.padding c hc href p hgt hpad]
        · have hge := Nat.le_of_not_lt hpad
          by_cases hzero : c1.data[c.offset]? = some 0
          · exact hvalue (Or.inr hzero) p hge hlt
          · rw [h1.nulls c hc href hnullable hzero p hge hlt, h2.nulls c hc href hnullable (by rw [← hflag hnullable]; exact hzero) p hge hlt]
    · have hnone : ∀ c ∈ l.columns, c.isRef = false → ¬c.Covers p := fun c hc href hcovers => hcovered ⟨c, hc, href, hcovers⟩
      rw [h1.fixed p hp hnone, h2.fixed p hp hnone]
  · have hge := Nat.le_of_not_lt hp
    rw [List.getElem?_eq_none (by rw [h1.length]; exact hge), List.getElem?_eq_none (by rw [h2.length]; exact hge)]

/-- The reference of a column, by its index. -/
theorem refAt_eq (c1 : Cursor heap l.toLayout) {offset k : Nat} (h : offset = l.front + 8 * k) : c1.refAt offset = c1.refs[k]?.join := by
  rw [Cursor.refAt, h, Nat.add_sub_cancel_left, Nat.mul_div_cancel_left k (by decide)]

/-- Rows have the same references if the fields of these agree. -/
theorem contents_eq_iff (c1 c2 : Cursor heap l.toLayout) :
    contents heap c1.refs = contents heap c2.refs ↔ ∀ c ∈ l.columns, c.isRef = true → SameAt c1 c2 c := by
  have hmap : ∀ (c1 : Cursor heap l.toLayout) {k : Nat}, k < l.refsCount → (contents heap c1.refs)[k]? = some (c1.refs[k]?.join.map heap) := by
    intro c1 k hk
    have hlt : k < c1.refs.length := by rw [c1.refsLength]; exact hk
    rw [contents, List.getElem?_map, List.getElem?_eq_getElem hlt]
    rfl
  constructor
  · intro h c hc href
    obtain ⟨k, hk, hoffset⟩ := l.refs c hc href
    have hat := congrArg (·[k]?) h
    simp only [hmap c1 hk, hmap c2 hk, Option.some.injEq] at hat
    rw [SameAt, if_pos href, refAt_eq c1 hoffset, refAt_eq c2 hoffset, hat]
  · intro h
    apply List.ext_getElem?
    intro k
    by_cases hk : k < l.refsCount
    · obtain ⟨c, hc, href, hoffset⟩ := l.covered k hk
      have hsame := h c hc href
      rw [SameAt, if_pos href, refAt_eq c1 hoffset, refAt_eq c2 hoffset] at hsame
      rw [hmap c1 hk, hmap c2 hk, hsame]
    · have hge := Nat.le_of_not_lt hk
      rw [List.getElem?_eq_none (by rw [contents, List.length_map, c1.refsLength]; exact hge),
        List.getElem?_eq_none (by rw [contents, List.length_map, c2.refsLength]; exact hge)]

/-- The references of two rows are of one type, each. -/
theorem refs_alike (c1 c2 : Cursor heap l.toLayout) : List.Forall₂ (Alike heap) c1.refs c2.refs := by
  rw [List.forall₂_iff_get]
  refine ⟨by rw [c1.refsLength, c2.refsLength], fun k h1 h2 => ?_⟩
  obtain ⟨c, hc, href, hoffset⟩ := l.covered k (by rw [← c1.refsLength]; exact h1)
  refine ⟨c.type, fun r hr => c1.typed c hc k r href hoffset ?_, fun r hr => c2.typed c hc k r href hoffset ?_⟩
  · rw [List.getElem?_eq_getElem h1, ← hr]
    rfl
  · rw [List.getElem?_eq_getElem h2, ← hr]
    rfl

/-- The fields agree exactly if the bytes and the contents of the references do. -/
theorem same_iff {c1 c2 : Cursor heap l.toLayout} (h1 : Normalized l.toLayout c1.data) (h2 : Normalized l.toLayout c2.data) :
    (∀ c ∈ l.columns, SameAt c1 c2 c) ↔ c1.data = c2.data ∧ contents heap c1.refs = contents heap c2.refs := by
  constructor
  · intro hsame
    exact ⟨data_eq_of_same h1 h2 hsame, (contents_eq_iff c1 c2).mpr fun c hc _ => hsame c hc⟩
  · rintro ⟨hdata, hrefs⟩ c hc
    by_cases href : c.isRef = true
    · exact (contents_eq_iff c1 c2).mp hrefs c hc href
    · rw [SameAt, if_neg href, hdata]
      exact ⟨fun _ => rfl, fun _ _ _ _ => rfl⟩

end CompareAux

open CompareAux in
/-- Two cursors of one layout are equal exactly if there is no first difference, then their hashes are the same, and both have a row or
neither. -/
theorem equal_iff_no_difference (doubleEq : List Byte → List Byte → Bool) (heap : Heap) (l : PlainLayout) (c1 c2 : Cursor heap l.toLayout) :
    ∃ equal diff, cursorsEqual c1 c2 = some equal ∧ cursorDiffIndex doubleEq c1 c2 = some diff ∧ (equal = true ↔ diff = -1) ∧
      (equal = true → cursorHash c1 = cursorHash c2 ∧ c1.hasRow = c2.hasRow) := by
  unfold cursorsEqual cursorDiffIndex
  by_cases hrows : c1.hasRow = c2.hasRow
  · rw [if_neg (by simp [hrows]), if_neg (not_not_intro hrows)]
    by_cases hrow : c1.hasRow = true
    · have h1 := c1.normalized hrow
      have h2 := c2.normalized (hrows ▸ hrow)
      obtain ⟨d, hd, hsame⟩ := diffColumns_iff doubleEq c1 c2 (h1.length.trans h2.length.symm) (fun _ hc => hc) 0
      rw [same_iff h1 h2] at hsame
      have hno : ¬c1.hasRow = false := by simp [hrow]
      have hno2 : ¬c2.hasRow = false := by rw [← hrows]; exact hno
      rw [if_neg hno, if_neg hno, if_neg (by simp), hd, buffersEqual]
      by_cases hdata : c1.data = c2.data
      · rw [if_neg (not_not_intro hdata), refsEqual_eq (refs_alike c1 c2)]
        refine ⟨_, d, rfl, rfl, ?_, fun heq => ⟨?_, hrows⟩⟩
        · rw [hsame, decide_eq_true_iff]
          exact (and_iff_right hdata).symm
        · rw [cursorHash, cursorHash, if_neg hno, if_neg hno2, hdata]
          exact foldl_refHash_congr (of_decide_eq_true heq) _
      · rw [if_pos hdata]
        exact ⟨false, d, rfl, rfl, by simp [hsame, hdata], nofun⟩
    · have hnone : c1.hasRow = false := by simpa using hrow
      rw [if_pos hnone, if_pos hnone]
      refine ⟨true, -1, rfl, rfl, by simp, fun _ => ⟨?_, hrows⟩⟩
      rw [cursorHash, cursorHash, if_pos hnone, if_pos (hrows ▸ hnone)]
  · rw [if_pos (Or.inr (Or.inr (Or.inr hrows))), if_pos hrows]
    exact ⟨false, -2, rfl, rfl, by simp, nofun⟩

/-! ## Two rows -/

/-- A row of a nullable INT, a BOOL NOT NULL, a TEXT and a BLOB NOT NULL, as C lays it out behind the standard fields. -/
def mixed : PlainLayout where
  columns := [⟨.int32, false, 8⟩, ⟨.bool, true, 16⟩, ⟨.string, false, 24⟩, ⟨.blob, true, 32⟩]
  front := 24
  refsCount := 2
  fixed p := ([1, 0, 2, 0, 24] : List Byte)[p]?.getD 0
  scalars := by decide
  refs := by decide
  covered := by decide
  plain := by decide

/-- Two texts that are the same, and a blob. -/
def twice : Heap := fun r => if r = 2 then .blob [0, 7] else .string [97]

/-- The standard fields, a null and TRUE. -/
def mixedData : List Byte := [1, 0, 2, 0, 24, 0, 0, 0, 1, 0, 0, 0, 0, 0, 0, 0, 1, 0, 0, 0, 0, 0, 0, 0]

/-- These with one of the texts and the blob. -/
def mixedRow (text : Nat) (htext : text < 2) : Cursor twice mixed.toLayout where
  hasRow := true
  data := mixedData
  refs := [some text, some 2]
  normalized _ := by
    have hpadding : ∀ c ∈ mixed.columns, c.isRef = false → ∀ p < 24, c.offset < p → p < c.valueOffset → mixedData[p]? = some 0 := by decide
    have hnulls : ∀ c ∈ mixed.columns, c.isRef = false → c.notNull = false →
        ∀ p < 24, c.valueOffset ≤ p → p < c.valueOffset + valueSize c.type → mixedData[p]? = some 0 := by decide
    refine ⟨rfl, ?_, fun c hc hr p h1 h2 => ?_, fun c hc hr hnull _ p h1 h2 => ?_⟩
    · unfold Column.Covers
      decide
    · exact hpadding c hc hr p (h2.trans_le (Nat.le_of_add_right_le (mixed.scalars c hc hr))) h1 h2
    · exact hnulls c hc hr hnull p (h2.trans_le (mixed.scalars c hc hr)) h1 h2
  refsLength := rfl
  typed := by
    intro c hc k r hr hk hget
    have hk2 : k < 2 := by
      by_contra hle
      rw [List.getElem?_eq_none (Nat.not_lt.mp hle)] at hget
      cases hget
    simp only [mixed, List.mem_cons, List.not_mem_nil, or_false] at hc
    obtain rfl | rfl | rfl | rfl := hc <;> simp [Column.isRef, mixed] at hr hk
    · obtain rfl : k = 0 := by omega
      obtain rfl := Option.some.inj (Option.some.inj hget)
      simp [twice, Object.IsA, show text ≠ 2 by omega]
    · obtain rfl : k = 1 := by omega
      obtain rfl := Option.some.inj (Option.some.inj hget)
      rfl

/-- The rows with one text and with the other. -/
theorem equal_iff_no_difference_mixed :
    cursorDiffIndex (fun _ _ => false) (mixedRow 0 (by decide)) (mixedRow 1 (by decide)) = some (-1) ∧
      cursorHash (mixedRow 0 (by decide)) = cursorHash (mixedRow 1 (by decide)) := by
  obtain ⟨equal, diff, hequal, hdiff, hiff, hhash⟩ :=
    equal_iff_no_difference (fun _ _ => false) twice mixed (mixedRow 0 (by decide)) (mixedRow 1 (by decide))
  have htrue : cursorsEqual (mixedRow 0 (by decide)) (mixedRow 1 (by decide)) = some true := by decide
  obtain rfl := Option.some.inj (hequal.symm.trans htrue)
  exact ⟨hdiff.trans (congrArg some (hiff.mp rfl)), (hhash rfl).1⟩

end CgSql.RowCompare
