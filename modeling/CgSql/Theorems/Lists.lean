import CgSql.Lists
import CgSql.Lemmas.Refs

/-!
# Lists are sequences

A list answers as a sequence does and retains each of its references once, as long as no zero is stored with `set_at` in a list of
numbers and the buffer can grow.
-/

namespace CgSql.Lists

open Hashing (Ref Refs weight weight_self retainOption_spec releaseOption_spec)

variable {ν : Type} {k : ListKind ν}

namespace ListAux

variable {b : WordBuf ν} {given : List Ref}

/-! ## The buffer -/

/-- How many elements a buffer can have. -/
def maxElems : Nat := 536857060

/-- The sizes of a buffer: it doubles up to a mebibyte, and then grows by 200 kibibytes. -/
def Sized (b : WordBuf ν) : Prop :=
  8 * b.elems.length ≤ b.max ∧
    (b.max ∈ [1024, 2056, 4120, 8248, 16504, 33016, 66040, 132088, 264184, 528376] ∨ ∃ n ≤ 20965, b.max = 1056760 + 204808 * n)

theorem sized_open : Sized (WordBuf.open : WordBuf ν) := ⟨Nat.zero_le _, .inl List.mem_cons_self⟩

theorem Sized.max_mod (h : Sized b) : b.max % 8 = 0 := by
  rcases h.2 with hsmall | ⟨n, -, hlarge⟩
  · simp only [List.mem_cons, List.not_mem_nil, or_false] at hsmall
    omega
  · omega

/-- A full buffer grows to the next size, but for the last one. -/
theorem Sized.grow (h : Sized b) : (b.max < 8 * maxElems → grownMax b.max < 2 ^ 32 ∧ b.max + 8 ≤ grownMax b.max ∧
      (grownMax b.max ∈ [1024, 2056, 4120, 8248, 16504, 33016, 66040, 132088, 264184, 528376] ∨
        ∃ n ≤ 20965, grownMax b.max = 1056760 + 204808 * n)) ∧ (8 * maxElems ≤ b.max → ¬grownMax b.max < 2 ^ 32) := by
  unfold maxElems
  rcases h.2 with hsmall | ⟨n, hn, hlarge⟩
  · simp only [List.mem_cons, List.not_mem_nil, or_false] at hsmall
    have hgrown : grownMax b.max = 8 + 2 * b.max := if_neg (by omega)
    rw [hgrown]
    refine ⟨fun _ => ⟨by omega, by omega, ?_⟩, fun hmore => by omega⟩
    simp only [List.mem_cons, List.not_mem_nil, or_false]
    rcases hsmall with h | h | h | h | h | h | h | h | h | h
    all_goals first
      | exact .inl (by omega)
      | exact .inr ⟨0, by omega, by omega⟩
  · have hgrown : grownMax b.max = 8 + 200 * 1024 + b.max := if_pos (by omega)
    rw [hgrown]
    exact ⟨fun hless => ⟨by omega, by omega, .inr ⟨n + 1, by omega, by omega⟩⟩, fun hmore => by omega⟩

theorem append_spec (h : Sized b) (val : ν) :
    (b.elems.length < maxElems → ∃ b', b.append val = some b' ∧ Sized b' ∧ b'.elems = b.elems ++ [val]) ∧
      (maxElems ≤ b.elems.length → b.append val = none) := by
  have hmod := h.max_mod
  have hfits := h.1
  obtain ⟨hgrow, hlast⟩ := h.grow
  unfold WordBuf.append
  constructor
  · intro hless
    by_cases hroom : 8 ≤ b.max - 8 * b.elems.length
    · refine ⟨_, if_pos hroom, ⟨?_, h.2⟩, rfl⟩
      simp only [List.length_append, List.length_singleton]
      omega
    · obtain ⟨hfits', hmore, hsize⟩ := hgrow (by omega)
      refine ⟨_, by rw [if_neg hroom, if_pos hfits'], ⟨?_, hsize⟩, rfl⟩
      simp only [List.length_append, List.length_singleton]
      omega
  · intro hmore
    have hmax : b.max ≤ 8 * maxElems := by
      rcases h.2 with hsmall | ⟨n, hn, hlarge⟩
      · simp only [List.mem_cons, List.not_mem_nil, or_false] at hsmall
        unfold maxElems
        omega
      · unfold maxElems
        omega
    rw [if_neg (by omega), if_neg (hlast (by omega))]

/-! ## Operations -/

/-- How often a reference is an element. -/
def occurrences (k : ListKind ν) (r : Ref) (xs : List ν) : Nat := xs.countP (k.refOf · = some r)

theorem occurrences_append (r : Ref) (xs ys : List ν) : occurrences k r (xs ++ ys) = occurrences k r xs + occurrences k r ys :=
  List.countP_append

theorem occurrences_singleton (r : Ref) (x : ν) : occurrences k r [x] = weight (k.refOf x) r := by
  simp [occurrences, weight, List.countP_cons]

/-- A list, the references it holds, and the sequence that it is. -/
structure Refines (k : ListKind ν) (b : WordBuf ν) (s : Refs) (xs : List ν) : Prop where
  sized : Sized b
  elems : b.elems = xs
  held : ∀ r, s.held r = occurrences k r xs

variable {b : WordBuf ν} {s : Refs} {xs : List ν}

theorem Refines.alive (h : Refines k b s xs) {r : Ref} (hr : Alive k xs given r) : ({ s with given := given } : Refs).Alive r := by
  rcases hr with hin | ⟨x, hx, hr⟩
  · exact .inr hin
  · have hpos : 0 < occurrences k r xs := List.countP_pos_iff.mpr ⟨x, hx, by simpa using hr⟩
    exact .inl (by rw [← h.held r] at hpos; exact hpos)

theorem Refines.add (h : Refines k b s xs) {val : ν} (hval : ∀ r ∈ k.refOf val, Alive k xs given r) :
    (xs.length < maxElems → ∃ b' s', listAdd k b val { s with given := given } = some (b', s') ∧ Refines k b' s' (xs ++ [val])) ∧
      (maxElems ≤ xs.length → listAdd k b val { s with given := given } = none) := by
  obtain ⟨hroom, hfull⟩ := append_spec h.sized val
  obtain ⟨s', hretain, -, hheld⟩ := retainOption_spec fun r hr => h.alive (hval r hr)
  rw [h.elems] at hroom hfull
  unfold listAdd retain
  rw [hretain]
  constructor
  · intro hless
    obtain ⟨b', happend, hsized, helems⟩ := hroom hless
    refine ⟨b', s', by rw [Option.bind_eq_bind, Option.bind_some, happend]; rfl, hsized, helems, fun r => ?_⟩
    rw [hheld, occurrences_append, occurrences_singleton, ← h.held r]
  · intro hmore
    rw [Option.bind_eq_bind, Option.bind_some, hfull hmore]
    rfl

theorem Refines.setAt (h : Refines k b s xs) {index : Nat} {val : ν} (hindex : index < xs.length) (hval : ∀ r ∈ k.refOf val, Alive k xs given r) :
    (k.contract val = true → ∃ b' s', listSetAt k b index val { s with given := given } = some (b', s') ∧ Refines k b' s' (xs.set index val)) ∧
    (k.contract val = false → listSetAt k b index val { s with given := given } = none) := by
  obtain ⟨s₁, hretain, -, hheld₁⟩ := retainOption_spec fun r hr => h.alive (hval r hr)
  have hget : b.elems[index]? = some xs[index] := by rw [h.elems]; exact List.getElem?_eq_getElem hindex
  have hcount : index < listCount b := by rw [listCount, h.elems]; exact hindex
  -- the sequence around the element
  have hold : ∀ r, occurrences k r xs = occurrences k r (xs.take index) + (weight (k.refOf xs[index]) r +
      occurrences k r (xs.drop (index + 1))) := by
    intro r
    conv_lhs => rw [← List.take_append_drop index xs, List.drop_eq_getElem_cons hindex]
    rw [occurrences_append, ← List.singleton_append, occurrences_append, occurrences_singleton]
  have hnew : ∀ r, occurrences k r (xs.set index val) = occurrences k r (xs.take index) + (weight (k.refOf val) r +
      occurrences k r (xs.drop (index + 1))) := by
    intro r
    rw [List.set_eq_take_append_cons_drop, if_pos hindex, occurrences_append, ← List.singleton_append, occurrences_append, occurrences_singleton]
  have hpos : ∀ r ∈ k.refOf xs[index], 0 < s₁.held r := by
    intro r hr
    have hs := hheld₁ r
    have hs' := h.held r
    rw [hold r, weight_self hr] at hs'
    simp only at hs
    omega
  obtain ⟨s₂, hrelease, -, hheld₂⟩ := releaseOption_spec hpos
  unfold listSetAt
  constructor
  · intro hcontract
    refine ⟨{ b with elems := b.elems.set index val }, s₂, ?_, ⟨?_, h.sized.2⟩, by rw [h.elems], fun r => ?_⟩
    · rw [if_pos ⟨hcontract, hcount⟩, hget]
      simp only [Option.bind_eq_bind, Option.bind_some, retain, release, hretain, hrelease]
      rfl
    · rw [List.length_set]
      exact h.sized.1
    · have hs := h.held r
      have hs₁ := hheld₁ r
      have hs₂ := hheld₂ r
      simp only at hs₁
      rw [hold r] at hs
      rw [hnew r]
      omega
  · intro hcontract
    rw [if_neg]
    rintro ⟨hno, -⟩
    rw [hcontract] at hno
    cases hno

/-- An operation answers as the sequence does. Only a value that its contract refuses and an element too many are undefined. -/
theorem Refines.step (h : Refines k b s xs) {op : ListOp ν} (hlegal : op.Legal k xs) :
    (op.meetsContract k = true ∧ (op.isAdd = true → xs.length < maxElems) →
      ∃ answer b' s', op.step k b s = some (answer, b', s') ∧ op.answer xs = some answer ∧ Refines k b' s' (op.after xs)) ∧
    (¬(op.meetsContract k = true ∧ (op.isAdd = true → xs.length < maxElems)) → op.step k b s = none) := by
  cases op with
  | add given val =>
    obtain ⟨hroom, hfull⟩ := h.add hlegal
    constructor
    · rintro ⟨-, hless⟩
      obtain ⟨b', s', hrun, hrefines⟩ := hroom (hless rfl)
      exact ⟨.list, b', s', by simp [ListOp.step, hrun], rfl, hrefines⟩
    · intro hno
      have hmore : maxElems ≤ xs.length := by
        by_contra hless
        exact hno ⟨rfl, fun _ => by omega⟩
      simp [ListOp.step, hfull hmore]
  | setAt given index val =>
    obtain ⟨hmeets, hfails⟩ := h.setAt hlegal.1 hlegal.2
    constructor
    · rintro ⟨hcontract, -⟩
      obtain ⟨b', s', hrun, hrefines⟩ := hmeets hcontract
      exact ⟨.list, b', s', by simp [ListOp.step, hrun], rfl, hrefines⟩
    · intro hno
      have hcontract : k.contract val = false := by
        by_contra hyes
        exact hno ⟨by simpa [ListOp.meetsContract] using hyes, nofun⟩
      simp [ListOp.step, hfails hcontract]
  | getAt index =>
    have hindex : index < xs.length := hlegal
    have hget : xs[index]? = some xs[index] := List.getElem?_eq_getElem hindex
    have hread : listGetAt b index = some xs[index] := by rw [listGetAt, listCount, h.elems, if_pos hindex, hget]
    refine ⟨fun _ => ⟨.val xs[index], b, s, by simp [ListOp.step, hread], by simp [ListOp.answer, hget], h⟩, fun hno => ?_⟩
    exact absurd ⟨rfl, nofun⟩ hno
  | count =>
    refine ⟨fun _ => ⟨.count xs.length, b, s, by simp [ListOp.step, listCount, h.elems], rfl, h⟩, fun hno => ?_⟩
    exact absurd ⟨rfl, nofun⟩ hno

theorem length_after (xs : List ν) (op : ListOp ν) : (op.after xs).length = xs.length + if op.isAdd then 1 else 0 := by
  cases op <;> simp [ListOp.after, ListOp.isAdd]

/-- A run answers as the sequence does, if and only if all contracts hold and the buffer has room. -/
theorem run_spec {ops : List (ListOp ν)} (h : Refines k b s xs) (hfits : xs.length ≤ maxElems) (hlegal : ListOp.LegalRun k xs ops) :
    ((∀ op ∈ ops, op.meetsContract k = true) ∧ xs.length + ops.countP ListOp.isAdd ≤ maxElems →
      ∃ answers b' s' xs', ListOp.run k b s ops = some (answers, b', s') ∧ ListOp.answers xs ops = some (answers, xs') ∧ Refines k b' s' xs') ∧
    (¬((∀ op ∈ ops, op.meetsContract k = true) ∧ xs.length + ops.countP ListOp.isAdd ≤ maxElems) → ListOp.run k b s ops = none) := by
  induction ops generalizing b s xs with
  | nil => exact ⟨fun _ => ⟨[], b, s, xs, rfl, rfl, h⟩, fun hno => absurd ⟨by simp, hfits⟩ hno⟩
  | cons op ops ih =>
    obtain ⟨hop, hops⟩ := hlegal
    obtain ⟨hstep, hfails⟩ := h.step hop
    have hlen := length_after xs op
    rw [List.countP_cons]
    by_cases hok : op.meetsContract k = true ∧ (op.isAdd = true → xs.length < maxElems)
    · obtain ⟨answer, b₁, s₁, hrun, hanswer, h₁⟩ := hstep hok
      have hfits₁ : (op.after xs).length ≤ maxElems := by
        rw [hlen]
        by_cases hadd : op.isAdd = true
        · have hless := hok.2 hadd
          rw [if_pos hadd]
          omega
        · rw [if_neg hadd]
          omega
      obtain ⟨hmeets, hno⟩ := ih h₁ hfits₁ hops
      constructor
      · rintro ⟨hall, hroom⟩
        obtain ⟨answers, b₂, s₂, xs₂, hrest, hanswers, h₂⟩ :=
          hmeets ⟨fun op' hop' => hall op' (List.mem_cons_of_mem _ hop'), by rw [hlen]; omega⟩
        refine ⟨answer :: answers, b₂, s₂, xs₂, ?_, ?_, h₂⟩
        · simp [ListOp.run, hrun, hrest]
        · simp [ListOp.answers, hanswer, hanswers]
      · intro hnot
        have hrest := hno fun hrest => hnot ⟨fun op' hop' => by
          rcases List.mem_cons.mp hop' with rfl | hin
          · exact hok.1
          · exact hrest.1 op' hin, by rw [hlen] at hrest; omega⟩
        simp [ListOp.run, hrun, hrest]
    · constructor
      · rintro ⟨hall, hroom⟩
        refine absurd ⟨hall op List.mem_cons_self, fun hadd => ?_⟩ hok
        rw [if_pos hadd] at hroom
        omega
      · intro _
        simp [ListOp.run, hfails hok]

theorem refines_open (k : ListKind ν) : Refines k .open Refs.none [] := ⟨sized_open, rfl, fun _ => rfl⟩

/-- All references are released. -/
theorem finalize_spec (xs : List ν) {s : Refs} (h : ∀ r, s.held r = occurrences k r xs) :
    ∃ s', xs.foldlM (fun s val => release k val s) s = some s' ∧ ∀ r, s'.held r = 0 := by
  induction xs generalizing s with
  | nil => exact ⟨s, rfl, h⟩
  | cons x xs ih =>
    have hcons : ∀ r, s.held r = weight (k.refOf x) r + occurrences k r xs := by
      intro r
      rw [h r, ← List.singleton_append, occurrences_append, occurrences_singleton]
    have hpos : ∀ r ∈ k.refOf x, 0 < s.held r := by
      intro r hr
      rw [hcons r, weight_self hr]
      omega
    obtain ⟨s₁, hrelease, -, hheld⟩ := releaseOption_spec hpos
    have hheld₁ : ∀ r, s₁.held r = occurrences k r xs := by
      intro r
      have hr := hheld r
      have hr' := hcons r
      omega
    obtain ⟨s', hrest, hzero⟩ := ih hheld₁
    refine ⟨s', ?_, hzero⟩
    rw [List.foldlM_cons, release, hrelease]
    exact hrest

end ListAux

open ListAux

/-- Operations on a new list, with indexes in range and references that have not been freed, answer as a sequence does, with every
reference retained once for each element that it is, and finalizing the list releases what was retained: if and only if no value that
its contract refuses is stored with `set_at`, and at most 536857060 elements are added. -/
theorem lists_iff (k : ListKind ν) {ops : List (ListOp ν)} (hlegal : ListOp.LegalRun k [] ops) :
    (∃ answers list s, ListOp.run k .open Refs.none ops = some (answers, list, s) ∧ ListOp.answers [] ops = some (answers, list.elems) ∧
      (∀ r, s.held r = list.elems.countP (k.refOf · = some r)) ∧
      ∃ s', listFinalize k list s = some s' ∧ ∀ r, s'.held r = 0) ↔
    (∀ op ∈ ops, op.meetsContract k = true) ∧ ops.countP ListOp.isAdd ≤ 536857060 := by
  obtain ⟨hmeets, hfails⟩ := run_spec (refines_open k) (Nat.zero_le _) hlegal
  rw [List.length_nil, Nat.zero_add] at hmeets hfails
  constructor
  · rintro ⟨answers, list, s, hrun, -⟩
    by_contra hno
    rw [hfails hno] at hrun
    cases hrun
  · intro hyes
    obtain ⟨answers, list, s, xs, hrun, hanswers, h⟩ := hmeets hyes
    obtain ⟨s', hfinal, hzero⟩ := finalize_spec xs h.held
    refine ⟨answers, list, s, hrun, by rw [h.elems]; exact hanswers, by rw [h.elems]; exact h.held, s', ?_, hzero⟩
    rw [listFinalize, h.elems]
    exact hfinal

/-- Two elements, the second of them replaced by the first, which only the list still holds. -/
theorem lists_two : ∃ answers list s,
    ListOp.run stringList .open Refs.none [.add [7] 7, .add [9] 9, .setAt [] 1 7, .getAt 1, .count] = some (answers, list, s) ∧
      answers = [.list, .list, .list, .val 7, .count 2] := by
  have hlegal : ListOp.LegalRun stringList [] [.add [7] 7, .add [9] 9, .setAt [] 1 7, .getAt 1, .count] := by
    simp [ListOp.LegalRun, ListOp.Legal, ListOp.after, Alive, stringList]
  obtain ⟨answers, list, s, hrun, hanswers, -⟩ := (lists_iff stringList hlegal).mpr (by decide)
  refine ⟨answers, list, s, hrun, ?_⟩
  exact ((Prod.mk.inj (Option.some.inj hanswers)).1).symm

/-- A zero that is stored in a list of longs. -/
theorem lists_false : ¬∀ ops : List (ListOp Int64), ListOp.LegalRun longList [] ops →
    ∃ answers list s, ListOp.run longList .open Refs.none ops = some (answers, list, s) := by
  intro h
  obtain ⟨answers, list, s, hrun⟩ := h [.add [] 5, .setAt [] 0 0] (by simp [ListOp.LegalRun, ListOp.Legal, ListOp.after, longList])
  have hno : ¬∀ op ∈ ([.add [] 5, .setAt [] 0 0] : List (ListOp Int64)), op.meetsContract longList = true := by decide
  rw [(run_spec (refines_open longList) (Nat.zero_le _)
    (by simp [ListOp.LegalRun, ListOp.Legal, ListOp.after, longList])).2 fun hyes => hno hyes.1] at hrun
  cases hrun

end CgSql.Lists
