import CgSql.LuaPartition
import CgSql.Lib.Separated
import Mathlib.Data.Nat.Digits.Lemmas

/-!
# What the key strings of Lua separate

The string of a key separates the keys of a shape exactly when one of the columns at most has strings, and that column is not nullable: a
colon in a string moves the border between two columns, and the string `nil` looks like a null. Partitions by such strings are those of C,
as long as every key has a row.
-/

namespace CgSql.Partition

open LuaCursor (Row)
open Separated

variable {R ρ : Type} {σ : Shape}

namespace PartitionAux

variable {c : Column} {v : Option (Scalar R)} {k k' : Key R σ} {α : Type}

/-! ## Texts of values -/

theorem ofDigits_digits (n : Nat) : Nat.ofDigits 10 ((digits n).reverse.map fun c => c.val - 48) = n := by
  unfold digits
  split
  next h => simp [h]
  next h =>
    have hd : ∀ d ∈ Nat.digits 10 n, (Fin.ofNat 256 (48 + d)).val - 48 = d := by
      intro d hd
      have : d < 10 := Nat.digits_lt_base (by decide) hd
      simp only [Fin.val_ofNat]
      omega
    have hmap : (Nat.digits 10 n).map ((fun c : Byte => c.val - 48) ∘ fun d => Fin.ofNat 256 (48 + d)) = Nat.digits 10 n := by
      conv_rhs => rw [← List.map_id (Nat.digits 10 n)]
      exact List.map_congr_left hd
    rw [← List.map_reverse, List.reverse_reverse, List.map_map, hmap, Nat.ofDigits_digits]

theorem digits_inj {m n : Nat} (h : digits m = digits n) : m = n := by
  rw [← ofDigits_digits m, h, ofDigits_digits]

/-- The characters of a number. -/
theorem mem_digits {n : Nat} {c : Byte} (h : c ∈ digits n) : 48 ≤ c.val ∧ c.val < 58 := by
  unfold digits at h
  split at h
  · simp only [List.mem_singleton] at h
    subst h
    decide
  · simp only [List.mem_map, List.mem_reverse] at h
    obtain ⟨d, hd, rfl⟩ := h
    have : d < 10 := Nat.digits_lt_base (by decide) hd
    simp only [Fin.val_ofNat]
    omega

theorem mem_decimal {n : Int} {c : Byte} (h : c ∈ decimal n) : c.val < 58 := by
  unfold decimal at h
  split at h
  · rcases List.mem_cons.mp h with rfl | h
    · decide
    · exact (mem_digits h).2
  · exact (mem_digits h).2

theorem minus_notMem_digits (n : Nat) : minus ∉ digits n := by
  intro h
  exact absurd (mem_digits h).1 (by decide)

theorem decimal_inj {m n : Int} (h : decimal m = decimal n) : m = n := by
  unfold decimal at h
  split at h <;> split at h
  · have := digits_inj (List.cons.inj h).2
    omega
  · exact absurd (h ▸ List.mem_cons_self .. : minus ∈ digits _) (minus_notMem_digits _)
  · exact absurd (h ▸ List.mem_cons_self .. : minus ∈ digits _) (minus_notMem_digits _)
  · have := digits_inj h
    omega

theorem decimal_ne_nilText (n : Int) : decimal n ≠ nilText := by
  intro h
  have hmem : (110 : Byte) ∈ decimal n := h ▸ List.mem_cons_self ..
  exact absurd (mem_decimal hmem) (by decide)

/-- There is no colon in the text of a value that is no string. -/
theorem colon_notMem (F : FloatText R) (hc : c.isString = false) (h : c.Holds v) : colon ∉ tostring F v := by
  cases v with
  | none => simp only [tostring]; decide
  | some v =>
    cases v with
    | bool b => cases b <;> (simp only [tostring]; decide)
    | integer n =>
      intro hm
      exact absurd (mem_decimal hm) (by decide)
    | real x => exact F.colon_notMem x
    | string s =>
      have h : c.type.Has (R := R) (.string s) := h
      cases ht : c.type <;> simp_all [Column.isString, KeyType.Has]

/-- Two values of a type are of the same form. -/
theorem has_both {t : KeyType} {v v' : Scalar R} (h : t.Has v) (h' : t.Has v') :
    (∃ b b', v = .bool b ∧ v' = .bool b') ∨ (∃ m n, v = .integer m ∧ v' = .integer n) ∨
      (t = .real ∧ ∃ x y, v = .real x ∧ v' = .real y) ∨ ∃ s s', v = .string s ∧ v' = .string s' := by
  cases t <;> cases v <;> cases v' <;> simp_all [KeyType.Has]

/-- The values of a column have different texts. -/
theorem tostring_inj (F : FloatText R) (hs : c.isString = true → c.notNull = true)
    (hr : c.type = .real → Function.Injective F.text) {v' : Option (Scalar R)} (h : c.Holds v) (h' : c.Holds v')
    (heq : tostring F v = tostring F v') : v = v' := by
  have hnull : ∀ {v : Scalar R}, c.notNull = false → c.type.Has v → tostring F (some v) ≠ nilText := by
    intro v hn hv
    cases v with
    | bool b => cases b <;> simp only [tostring] <;> decide
    | integer n => exact decimal_ne_nilText n
    | real x => exact F.ne_nilText x
    | string s =>
      cases ht : c.type <;> simp_all [Column.isString, KeyType.Has]
  match v, v', h, h' with
  | none, none, _, _ => rfl
  | none, some v', h, h' => exact absurd heq.symm (hnull h h')
  | some v, none, h, h' => exact absurd heq (hnull h' h)
  | some v, some v', h, h' =>
    rcases has_both h h' with ⟨b, b', rfl, rfl⟩ | ⟨m, n, rfl, rfl⟩ | ⟨ht, x, y, rfl, rfl⟩ | ⟨s, s', rfl, rfl⟩
    · cases b <;> cases b' <;> first | rfl | exact absurd heq (by simp only [tostring]; decide)
    · rw [decimal_inj heq]
    · rw [hr ht heq]
    · exact congrArg (fun s => some (Scalar.string s)) heq

/-! ## Keys -/

/-- The text of a key. -/
def text (F : FloatText R) (k : Key R σ) : Bytes := cqlMakeStrKey F k.table σ.fields

theorem text_eq (F : FloatText R) (k : Key R σ) : text F k = joined colon (σ.columns.map fun c => tostring F (k.table.fields c.name)) := by
  unfold text cqlMakeStrKey Shape.fields
  rw [foldl_eq_joined, List.map_map, List.nil_append]
  rfl

theorem values_eq_iff : k.values = k'.values ↔ ∀ c ∈ σ.columns, k.table.fields c.name = k'.table.fields c.name := by
  unfold Key.values Shape.fields
  rw [List.map_map, List.map_map, List.map_inj_left]
  rfl

theorem text_of_values (F : FloatText R) (h : k.values = k'.values) : text F k = text F k' := by
  rw [text_eq, text_eq]
  congr 1
  refine List.map_congr_left fun c hc => ?_
  rw [values_eq_iff.mp h c hc]

/-- A list with one member of a kind at most. -/
theorem split_of_filter_le {p : α → Bool} {l : List α} (h : (l.filter p).length ≤ 1) :
    l = [] ∨ ∃ pre c post, l = pre ++ c :: post ∧ ∀ x ∈ pre ++ post, p x = false := by
  induction l with
  | nil => exact .inl rfl
  | cons a l ih =>
    refine .inr ?_
    by_cases ha : p a = true
    · refine ⟨[], a, l, rfl, fun x hx => ?_⟩
      rw [List.filter_cons_of_pos ha, List.length_cons] at h
      have hnil : l.filter p = [] := List.eq_nil_of_length_eq_zero (by omega)
      simpa using List.filter_eq_nil_iff.mp hnil x (by simpa using hx)
    · rw [List.filter_cons_of_neg ha] at h
      rcases ih h with rfl | ⟨pre, c, post, rfl, hfree⟩
      · exact ⟨[], a, [], rfl, by simp⟩
      · refine ⟨a :: pre, c, post, rfl, fun x hx => ?_⟩
        rcases List.mem_cons.mp hx with rfl | hx
        · simpa using ha
        · exact hfree x hx

/-- In a separable shape the text of a key row determines its columns. -/
theorem values_of_text {F : FloatText R} (hσ : Separable F σ) (hk : k.table.hasRow = true)
    (hk' : k'.table.hasRow = true) (h : text F k = text F k') : k.values = k'.values := by
  have htexts : ∀ c ∈ σ.columns, tostring F (k.table.fields c.name) = tostring F (k'.table.fields c.name) := by
    rcases split_of_filter_le hσ.one with hnil | ⟨pre, c, post, hcols, hfree⟩
    · intro c hc
      rw [hnil] at hc
      cases hc
    · have hcolon : ∀ {k : Key R σ}, k.table.hasRow = true → ∀ x ∈ (pre ++ post).map fun c => tostring F (k.table.fields c.name), colon ∉ x := by
        intro k hk x hx
        obtain ⟨c', hc', rfl⟩ := List.mem_map.mp hx
        have hmem : c' ∈ σ.columns := by
          rw [hcols]
          simp only [List.mem_append, List.mem_cons] at hc' ⊢
          tauto
        exact colon_notMem F (hfree c' hc') (k.holds hk c' hmem)
      rw [text_eq, text_eq, hcols, List.map_append, List.map_append, List.map_cons, List.map_cons] at h
      obtain ⟨hpre, hc, hpost⟩ := joined_inj (by simp) (by simp) (by simpa using hcolon hk) (by simpa using hcolon hk') h
      rw [← List.map_inj_left, hcols, List.map_append, List.map_append, List.map_cons, List.map_cons, hpre, hc, hpost]
  refine values_eq_iff.mpr fun c hc => ?_
  exact tostring_inj F (hσ.notNull c hc) (hσ.real c hc) (k.holds hk c hc) (k'.holds hk' c hc) (htexts c hc)

/-! ## Runs of Lua -/

theorem text_ne_emptyName (F : FloatText R) (k : Key R σ) : text F k ≠ emptyName := by
  rw [text_eq]
  cases σ.columns with
  | nil => exact (by decide : ([] : Bytes) ≠ emptyName)
  | cons c cs =>
    intro h
    exact absurd (List.cons.inj h).1 (by decide)

/-- Nothing for no rows. -/
def entryOf {α : Type} (rows : List α) : Option (List α) := if rows.isEmpty then none else some rows

@[simp] theorem getD_entryOf {α : Type} (rows : List α) : (entryOf rows).getD [] = rows := by
  cases rows <;> rfl

@[simp] theorem entryOf_append {α : Type} (rows : List α) (row : α) : entryOf (rows ++ [row]) = some (rows ++ [row]) := by
  cases rows <;> rfl

theorem map_filter_append {β : Type} (f : α → β) (p : α → Bool) (l : List α) (a : α) :
    ((l ++ [a]).filter p).map f = (l.filter p).map f ++ if p a then [f a] else [] := by
  rw [List.filter_append, List.map_append, List.filter_singleton]
  cases p a <;> rfl

/-- The rows that were added with a key of the text. -/
def rowsWith (F : FloatText R) (calls : List (Call R ρ σ)) (key : Bytes) : List ρ :=
  (calls.filter fun c => c.hasRow && text F c.key = key).map Call.row

theorem rowsWith_append (F : FloatText R) (calls : List (Call R ρ σ)) (c : Call R ρ σ) (key : Bytes) :
    rowsWith F (calls ++ [c]) key = rowsWith F calls key ++ if c.hasRow && text F c.key = key then [c.row] else [] := by
  exact map_filter_append ..

/-- What a call does to an entry. -/
theorem luaPartitionCursor_apply (F : FloatText R) (partition : Table ρ) (c : Call R ρ σ) (key : Bytes) :
    (Lua.cqlPartitionCursor F partition c).2 key =
      if c.hasRow && text F c.key = key then some ((partition key).getD [] ++ [c.row]) else partition key := by
  unfold Lua.cqlPartitionCursor
  cases hrow : c.hasRow
  · simp
  · by_cases hkey : text F c.key = key
    · subst hkey
      cases hp : partition (text F c.key) <;> simp_all [text]
    · have hne : key ≠ cqlMakeStrKey F c.key.table σ.fields := fun h => hkey h.symm
      simp only [Bool.not_true, Bool.false_eq_true, if_false, hkey, decide_false, Bool.and_false]
      split <;> exact Function.update_of_ne hne _ _

/-- The entries of a partition of Lua are the rows by the texts of their keys. -/
theorem luaAdded_apply (F : FloatText R) (calls : List (Call R ρ σ)) (key : Bytes) : Lua.added F calls key = entryOf (rowsWith F calls key) := by
  induction calls using List.reverseRecOn with
  | nil => rfl
  | append_singleton calls c ih =>
    have hstep : Lua.added F (calls ++ [c]) = (Lua.cqlPartitionCursor F (Lua.added F calls) c).2 := by
      simp [Lua.added, List.foldl_append]
    rw [hstep, luaPartitionCursor_apply, rowsWith_append, ih]
    split <;> simp

/-- Extractions leave the entries alone, but for the one of the empty result. -/
theorem luaExtracted_eq (F : FloatText R) (p : Table ρ) {q : Table ρ} (hq : ∀ key, key ≠ emptyName → q key = p key)
    (hempty : q emptyName = none ∨ q emptyName = some []) (ks : List (Key R σ)) :
    Lua.extracted F q ks = ks.map fun k => (p (text F k)).getD [] := by
  induction ks generalizing q with
  | nil => rfl
  | cons k ks ih =>
    have hk : q (cqlMakeStrKey F k.table σ.fields) = p (text F k) := hq _ (text_ne_emptyName F k)
    have hresult : (Lua.cqlExtractPartition F q k).1 = (p (text F k)).getD [] ∧
        (∀ key, key ≠ emptyName → (Lua.cqlExtractPartition F q k).2 key = p key) ∧
        ((Lua.cqlExtractPartition F q k).2 emptyName = none ∨ (Lua.cqlExtractPartition F q k).2 emptyName = some []) := by
      unfold Lua.cqlExtractPartition
      rw [hk]
      cases p (text F k) with
      | some rows => exact ⟨rfl, hq, hempty⟩
      | none =>
        rcases hempty with he | he
        · simp only [he]
          refine ⟨rfl, fun key hkey => ?_, .inr (Function.update_self ..)⟩
          rw [Function.update_of_ne hkey, hq key hkey]
        · simp only [he]
          exact ⟨rfl, hq, .inr trivial⟩
    rw [Lua.extracted, List.map_cons, hresult.1, ih hresult.2.1 hresult.2.2]

/-- Every extraction of Lua returns the rows that were added with a key of the same text, in order. -/
theorem luaExtracted_added (F : FloatText R) (calls : List (Call R ρ σ)) (ks : List (Key R σ)) :
    Lua.extracted F (Lua.added F calls) ks = ks.map fun k => rowsWith F calls (text F k) := by
  have hempty : Lua.added F calls emptyName = none := by
    have hnone : rowsWith F calls emptyName = [] := by
      unfold rowsWith
      simp only [List.map_eq_nil_iff, List.filter_eq_nil_iff, Bool.and_eq_true, decide_eq_true_eq, not_and]
      intro c _ _
      exact text_ne_emptyName F c.key
    rw [luaAdded_apply, hnone]
    rfl
  rw [luaExtracted_eq F (Lua.added F calls) (fun _ _ => rfl) (.inl hempty)]
  simp only [luaAdded_apply, getD_entryOf]

/-! ## Keys that are confused -/

/-- The key with a value in one of its columns. -/
def keyWith (fields : String → Option (Scalar R)) (h : ∀ c ∈ σ.columns, c.Holds (fields c.name)) : Key R σ :=
  ⟨⟨true, fields⟩, fun _ => h⟩

theorem holds_update {fields : String → Option (Scalar R)} (h : ∀ c ∈ σ.columns, c.Holds (fields c.name)) (hc : c ∈ σ.columns) (hv : c.Holds v) :
    ∀ c' ∈ σ.columns, c'.Holds (Function.update fields c.name v c'.name) := by
  intro c' hc'
  by_cases hname : c'.name = c.name
  · rw [hname, Function.update_self, List.inj_on_of_nodup_map σ.nodup hc' hc hname]
    exact hv
  · rw [Function.update_of_ne hname]
    exact h c' hc'

theorem holds_string (h : c.isString = true) (s : Bytes) : c.Holds (R := R) (some (.string s)) := by
  show c.type.Has _
  cases ht : c.type <;> simp_all [Column.isString, KeyType.Has]

/-- Two members of a kind. -/
theorem split_of_lt_filter {p : α → Bool} {l : List α} (h : 1 < (l.filter p).length) :
    ∃ pre a mid b post, l = pre ++ a :: (mid ++ b :: post) ∧ p a = true ∧ p b = true := by
  induction l with
  | nil => simp at h
  | cons x l ih =>
    by_cases hx : p x = true
    · rw [List.filter_cons_of_pos hx, List.length_cons] at h
      obtain ⟨b, hb⟩ := List.exists_mem_of_length_pos (show 0 < (l.filter p).length by omega)
      obtain ⟨hb, hpb⟩ := List.mem_filter.mp hb
      obtain ⟨mid, post, rfl⟩ := List.append_of_mem hb
      exact ⟨[], x, mid, b, post, rfl, hx, hpb⟩
    · rw [List.filter_cons_of_neg hx] at h
      obtain ⟨pre, a, mid, b, post, rfl, ha, hb⟩ := ih h
      exact ⟨x :: pre, a, mid, b, post, rfl, ha, hb⟩

section

variable [Inhabited R]

/-- A value of the type. -/
def someValue : KeyType → Scalar R
  | .bool => .bool false
  | .integer | .longInteger => .integer 0
  | .real => .real default
  | .text | .blob => .string []

theorem holds_someValue (c : Column) : c.Holds (R := R) (some (someValue c.type)) := by
  show c.type.Has _
  cases c.type <;> simp [someValue, KeyType.Has]

/-- A value in every column of the shape. -/
def someFields (σ : Shape) (name : String) : Option (Scalar R) :=
  (σ.columns.find? fun c => c.name = name).map fun c => someValue c.type

theorem someFields_eq {c : Column} (hc : c ∈ σ.columns) : someFields (R := R) σ c.name = some (someValue c.type) := by
  unfold someFields
  cases hfind : σ.columns.find? fun c' => c'.name = c.name with
  | none => simpa using List.find?_eq_none.mp hfind c hc
  | some c' =>
    have hname : c'.name = c.name := by simpa using List.find?_some hfind
    rw [List.inj_on_of_nodup_map σ.nodup (List.mem_of_find?_eq_some hfind) hc hname]
    rfl

theorem holds_someFields : ∀ c ∈ σ.columns, c.Holds (someFields (R := R) σ c.name) := by
  intro c hc
  rw [someFields_eq hc]
  exact holds_someValue c

/-- Two values of a column that have the same text are equal, where keys are separated. -/
theorem value_inj {F : FloatText R} (h : SeparatesKeys F σ) {c : Column} (hc : c ∈ σ.columns) {v v' : Option (Scalar R)}
    (hv : c.Holds v) (hv' : c.Holds v') (heq : tostring F v = tostring F v') : v = v' := by
  let k : Key R σ := keyWith (Function.update (someFields σ) c.name v) (holds_update holds_someFields hc hv)
  let k' : Key R σ := keyWith (Function.update (someFields σ) c.name v') (holds_update holds_someFields hc hv')
  have htext : text F k = text F k' := by
    rw [text_eq, text_eq]
    congr 1
    refine List.map_congr_left fun c' _ => ?_
    show tostring F (Function.update (someFields σ) c.name v c'.name) = tostring F (Function.update (someFields σ) c.name v' c'.name)
    by_cases hname : c'.name = c.name
    · rw [hname, Function.update_self, Function.update_self, heq]
    · rw [Function.update_of_ne hname, Function.update_of_ne hname]
  have hvalue := values_eq_iff.mp ((h k k' rfl rfl).mp htext) c hc
  change Function.update (someFields σ) c.name v c.name = Function.update (someFields σ) c.name v' c.name at hvalue
  rwa [Function.update_self, Function.update_self] at hvalue

/-- With two columns of strings, a string that repeats what stands between them moves from one to the other. -/
theorem filter_le_of_separates {F : FloatText R} (h : SeparatesKeys F σ) : (σ.columns.filter Column.isString).length ≤ 1 := by
  by_contra hlen
  obtain ⟨pre, a, mid, b, post, hcols, ha, hb⟩ := split_of_lt_filter (Nat.lt_of_not_le hlen)
  have hmem : a ∈ σ.columns ∧ b ∈ σ.columns := by simp [hcols]
  have hnodup : ((pre ++ a :: (mid ++ b :: post)).map Column.name).Nodup := hcols ▸ σ.nodup
  have hab : b.name ≠ a.name := by
    intro hname
    rw [List.map_append, List.nodup_append] at hnodup
    have := (List.nodup_cons.mp hnodup.2.1).1
    simp [hname] at this
  let texts (cs : List Column) : List Bytes := cs.map fun c => tostring F (someFields σ c.name)
  let moved : Bytes := joined colon (texts mid) ++ [colon]
  let fields (s t : Bytes) : String → Option (Scalar R) :=
    Function.update (Function.update (someFields σ) a.name (some (.string s))) b.name (some (.string t))
  have hholds (s t : Bytes) : ∀ c ∈ σ.columns, c.Holds (fields s t c.name) :=
    holds_update (holds_update holds_someFields hmem.1 (holds_string ha s)) hmem.2 (holds_string hb t)
  have hother (s t : Bytes) {c : Column} (h₁ : c.name ≠ a.name) (h₂ : c.name ≠ b.name) : fields s t c.name = someFields σ c.name := by
    simp only [fields, Function.update_of_ne h₂, Function.update_of_ne h₁]
  have htexts (s t : Bytes) : σ.columns.map (fun c => tostring F (fields s t c.name)) = texts pre ++ s :: (texts mid ++ t :: texts post) := by
    have hpart {cs : List Column} (hcs : ∀ c ∈ cs, c.name ≠ a.name ∧ c.name ≠ b.name) :
        cs.map (fun c => tostring F (fields s t c.name)) = texts cs :=
      List.map_congr_left fun c hc => by rw [hother s t (hcs c hc).1 (hcs c hc).2]
    have hfree := hnodup
    simp only [List.map_append, List.map_cons, List.nodup_append, List.nodup_cons, List.mem_append, List.mem_cons, List.mem_map,
      not_or, not_exists, not_and] at hfree
    have hs : fields s t a.name = some (.string s) := by
      simp only [fields, Function.update_of_ne hab.symm, Function.update_self]
    have ht : fields s t b.name = some (.string t) := by simp only [fields, Function.update_self]
    rw [hcols, List.map_append, List.map_cons, List.map_append, List.map_cons, hs, ht, hpart, hpart, hpart]
    · rfl
    all_goals
      intro c hc
      constructor <;> intro hname <;> grind
  have heq := (h (keyWith (fields [] moved) (hholds [] moved)) (keyWith (fields moved []) (hholds moved [])) rfl rfl).mp (by
    show text F _ = text F _
    rw [text_eq, text_eq]
    show joined colon (σ.columns.map fun c => tostring F (fields [] moved c.name)) =
      joined colon (σ.columns.map fun c => tostring F (fields moved [] c.name))
    rw [htexts, htexts]
    exact joined_collide ..)
  have hb := values_eq_iff.mp heq b hmem.2
  change fields [] moved b.name = fields moved [] b.name at hb
  simp [fields, moved] at hb

/-- Keys are separated in separable shapes only. -/
theorem separable_of_separates {F : FloatText R} (h : SeparatesKeys F σ) : Separable F σ where
  one := filter_le_of_separates h
  notNull c hc hs := by
    by_contra hn
    have hnull : c.Holds (R := R) none := by simpa [Column.Holds] using hn
    exact absurd (value_inj h hc hnull (holds_string hs nilText) rfl) (by simp)
  real c hc ht x y hxy := by
    have hx (x : R) : c.Holds (some (.real x)) := by
      show c.type.Has _
      simp [ht, KeyType.Has]
    have := value_inj h hc (hx x) (hx y) hxy
    simpa using this

end

/-! ## Runs of C -/

variable [DecidableEq R]

/-- The rows of an entry. -/
def entryRows : Entry ρ → List ρ
  | .buffer rows => rows
  | .resultSet rows => rows

theorem find_append (ht : List (List (Option (Scalar R)) × Entry ρ)) (key key' : List (Option (Scalar R))) (val : Entry ρ) :
    C.find (ht ++ [(key, val)]) key' = (C.find ht key').or (if key = key' then some val else none) := by
  unfold C.find
  rw [List.find?_append]
  cases ht.find? fun e => e.1 = key' with
  | some e => rfl
  | none =>
    by_cases h : key = key' <;> simp [h]

theorem find_assign (ht : List (List (Option (Scalar R)) × Entry ρ)) (key key' : List (Option (Scalar R))) (val : Entry ρ) :
    C.find (C.assign ht key val) key' = if key = key' then (C.find ht key').map fun _ => val else C.find ht key' := by
  unfold C.find C.assign
  induction ht with
  | nil => simp
  | cons e ht ih =>
    rw [List.map_cons, List.find?_cons, List.find?_cons]
    by_cases he : e.1 = key <;> by_cases hkey : key = key' <;> by_cases he' : e.1 = key' <;> simp_all

/-- The rows that were added with a key of the columns, where both cursors have a row. -/
def rowsAt (calls : List (Call R ρ σ)) (key : List (Option (Scalar R))) : List ρ :=
  (calls.filter fun c => c.hasRow && c.key.table.hasRow && c.key.values = key).map Call.row

theorem rowsAt_append (calls : List (Call R ρ σ)) (c : Call R ρ σ) (key : List (Option (Scalar R))) : rowsAt (calls ++ [c]) key =
      rowsAt calls key ++ if c.hasRow && c.key.table.hasRow && c.key.values = key then [c.row] else [] := by
  exact map_filter_append ..

/-- The calls of `cql_partition_cursor` meet their contracts, and the buffers hold the rows by the columns of their keys. -/
theorem cAdded_spec (calls : List (Call R ρ σ)) : ∃ ht, C.added calls = some { ht := ht, didExtract := false } ∧
      ∀ key, C.find ht key = (entryOf (rowsAt calls key)).map Entry.buffer := by
  induction calls using List.reverseRecOn with
  | nil => exact ⟨[], rfl, fun _ => rfl⟩
  | append_singleton calls c ih =>
    obtain ⟨ht, hadded, hfind⟩ := ih
    have hstep : C.added (calls ++ [c]) = (C.cqlPartitionCursor { ht := ht, didExtract := false } c).map Prod.snd := by
      unfold C.added at hadded ⊢
      rw [List.foldlM_append, hadded]
      simp
    rw [hstep]
    unfold C.cqlPartitionCursor
    by_cases hrow : c.key.table.hasRow && c.hasRow
    · obtain ⟨hkeyRow, hrow⟩ := Bool.and_eq_true_iff.mp hrow
      simp only [hrow, hkeyRow, Bool.not_true, Bool.or_self, Bool.false_eq_true, if_false, hfind]
      cases hrows : entryOf (rowsAt calls c.key.values) with
      | none =>
        have hnil : rowsAt calls c.key.values = [] := by simpa [hrows] using (getD_entryOf (rowsAt calls c.key.values)).symm
        refine ⟨_, rfl, fun key => ?_⟩
        rw [find_append, hfind, rowsAt_append]
        by_cases hkey : c.key.values = key
        · subst hkey
          simp [hrow, hkeyRow, hnil, entryOf]
        · simp [hkey]
      | some rows =>
        have hsome : rowsAt calls c.key.values = rows := by simpa [hrows] using (getD_entryOf (rowsAt calls c.key.values)).symm
        refine ⟨_, rfl, fun key => ?_⟩
        rw [find_assign, hfind, rowsAt_append]
        by_cases hkey : c.key.values = key
        · subst hkey
          simp [hrow, hkeyRow, hrows, ← hsome]
        · simp [hkey]
    · refine ⟨ht, by simp_all, fun key => ?_⟩
      have hnot : (c.hasRow && c.key.table.hasRow && decide (c.key.values = key)) = false := by
        rw [Bool.and_comm c.hasRow, Bool.not_eq_true] at *
        rw [hrow, Bool.false_and]
      rw [hfind, rowsAt_append, hnot, if_neg (by simp), List.append_nil]

/-- Every extraction of C returns the rows of the entry, the same each time. -/
theorem cExtracted_eq (ks : List (Key R σ)) (self : State R ρ) :
    C.extracted self ks = ks.map fun k => ((C.find self.ht k.values).map entryRows).getD [] := by
  induction ks generalizing self with
  | nil => rfl
  | cons k ks ih =>
    have hresult : (C.cqlExtractPartition self k).1 = ((C.find self.ht k.values).map entryRows).getD [] ∧
        ∀ key, (C.find (C.cqlExtractPartition self k).2.ht key).map entryRows = (C.find self.ht key).map entryRows := by
      unfold C.cqlExtractPartition
      cases hfind : C.find self.ht k.values with
      | none => exact ⟨rfl, fun _ => rfl⟩
      | some e =>
        cases e with
        | resultSet rs => exact ⟨rfl, fun _ => rfl⟩
        | buffer rs =>
          refine ⟨rfl, fun key => ?_⟩
          simp only [find_assign]
          split
          next hkey =>
            subst hkey
            simp [hfind, entryRows]
          next => rfl
    rw [C.extracted, List.map_cons, hresult.1, ih]
    simp only [hresult.2]

/-- Every extraction of C returns the rows that were added with an equal key, in order. -/
theorem cExtracted_added (calls : List (Call R ρ σ)) (ks : List (Key R σ)) :
    (C.added calls).map (fun self => C.extracted self ks) = some (ks.map (rowsOf calls)) := by
  obtain ⟨ht, hadded, hfind⟩ := cAdded_spec calls
  rw [hadded, Option.map_some, cExtracted_eq]
  congr 1
  refine List.map_congr_left fun k _ => ?_
  rw [hfind, Option.map_map]
  show ((entryOf (rowsAt calls k.values)).map id).getD [] = rowsAt calls k.values
  rw [Option.map_id, id, getD_entryOf]

/-- Where keys are separated and all have rows, the rows with a key of the same text are those with an equal key. -/
theorem rowsWith_eq_rowsOf {F : FloatText R} (hσ : Separable F σ) {calls : List (Call R ρ σ)}
    (hcalls : ∀ c ∈ calls, c.key.table.hasRow = true) (hk : k.table.hasRow = true) : rowsWith F calls (text F k) = rowsOf calls k := by
  unfold rowsWith rowsOf
  congr 1
  refine List.filter_congr fun c hc => ?_
  have hiff : text F c.key = text F k ↔ c.key.values = k.values :=
    ⟨values_of_text hσ (hcalls c hc) hk, text_of_values F⟩
  simp [hcalls c hc, hiff]

/-- A row that is added with a key that has no row is found by a key row with the same columns. -/
theorem not_separatesRows [Inhabited R] [Inhabited ρ] (F : FloatText R) (σ : Shape) : ¬SeparatesRows F σ ρ true := by
  intro h
  let k : Key R σ := keyWith (someFields σ) holds_someFields
  let rowlessKey : Key R σ := ⟨⟨false, someFields σ⟩, fun h => nomatch h⟩
  have hextracted := (h [⟨rowlessKey, true, default⟩] (by simp) [k] (by simp [k, keyWith])).1
  have htext : text F rowlessKey = text F k := rfl
  rw [luaExtracted_added] at hextracted
  simp [rowsWith, rowsOf, htext, rowlessKey] at hextracted

end PartitionAux

open PartitionAux

/-- Keys are separated, and partitions are those of C, exactly for separable shapes and keys that have rows. -/
theorem separates_iff [DecidableEq R] [Inhabited R] [Inhabited ρ] (F : FloatText R) (σ : Shape) (rowless : Bool) :
    SeparatesKeys F σ ∧ SeparatesRows F σ ρ rowless ↔ Separable F σ ∧ rowless = false := by
  constructor
  · rintro ⟨hkeys, hrows⟩
    refine ⟨separable_of_separates hkeys, ?_⟩
    cases rowless with
    | true => exact absurd hrows (not_separatesRows F σ)
    | false => rfl
  · rintro ⟨hσ, rfl⟩
    refine ⟨fun k k' hk hk' => ⟨values_of_text hσ hk hk', text_of_values F⟩, fun calls hcalls ks hks => ?_⟩
    have hlua : Lua.extracted F (Lua.added F calls) ks = ks.map (rowsOf calls) := by
      rw [luaExtracted_added]
      exact List.map_congr_left fun k hk => rowsWith_eq_rowsOf hσ (fun c hc => by simpa using hcalls c hc) (hks k hk)
    exact ⟨hlua, by rw [cExtracted_added, hlua]⟩

/-! ## A collision -/

/-- `tostring` of the floating point numbers below `10^14` that are whole. -/
def wholeNumbers : FloatText Int where
  text n := decimal n ++ [46, 48]
  colon_notMem n := by
    intro h
    rcases List.mem_append.mp h with h | h
    · exact absurd (mem_decimal h) (by decide)
    · exact absurd h (by decide)
  ne_nilText n := by
    intro h
    have hmem : (48 : Byte) ∈ nilText := h ▸ List.mem_append_right _ (by decide)
    exact absurd hmem (by decide)

/-- Two columns of type `TEXT NOT NULL`. -/
def twoTexts : Shape := ⟨[⟨"x", .text, true⟩, ⟨"y", .text, true⟩], by decide⟩

/-- A key with two texts. -/
def textKey (s t : Bytes) : Key Int twoTexts where
  table := { hasRow := true, fields := fun name => some (.string (if name = "x" then s else t)) }
  holds := by
    intro _ c hc
    simp only [twoTexts, List.mem_cons, List.not_mem_nil, or_false] at hc
    rcases hc with rfl | rfl <;> trivial

/-- The keys `a:b`, `c` and `a`, `b:c` have the same string, so that their partitions are one. -/
theorem separates_false : cqlMakeStrKey wholeNumbers (textKey [97, 58, 98] [99]).table twoTexts.fields =
        cqlMakeStrKey wholeNumbers (textKey [97] [98, 58, 99]).table twoTexts.fields ∧
      ¬SeparatesKeys wholeNumbers twoTexts ∧ ¬SeparatesRows wholeNumbers twoTexts Nat false := by
  have heq : cqlMakeStrKey wholeNumbers (textKey [97, 58, 98] [99]).table twoTexts.fields =
      cqlMakeStrKey wholeNumbers (textKey [97] [98, 58, 99]).table twoTexts.fields := by decide
  refine ⟨heq, fun h => ?_, fun h => ?_⟩
  · exact absurd ((h _ _ rfl rfl).mp heq) (by decide)
  · have hextracted := (h [⟨textKey [97, 58, 98] [99], true, 0⟩, ⟨textKey [97] [98, 58, 99], true, 1⟩]
      (by simp [textKey]) [textKey [97] [98, 58, 99]] (by simp [textKey])).1
    exact absurd hextracted (by decide)

end CgSql.Partition
