import CgSql.Cursor

/-!
# Rows of cursors

FETCH FROM VALUES sets `_has_row_` before it stores the columns, and CLOSE tears the row down and leaves the flag as it was. Where no
error is caught between the flag and the stores, no procedure is called there that shares the cursor, and no cursor with references is
closed while it has a row, the flag says that there is a whole row at every statement of every run.
-/

namespace CgSql.Cursor

open Exits Blocks

variable {sh : Shape} {W : World sh} {P : Program sh} {E : Jump → State → Prop}

namespace CursorAux

/-- Both rows are whole where their flags say so. -/
def Inv (sh : Shape) (s : State) : Prop := s.cursor.Sound sh ∧ s.result.Sound sh

theorem empty_sound : Row.empty.Sound sh := nofun

theorem fetched_sound {W : World sh} (t n : Nat) : (Row.fetched (W t).values n).Sound sh :=
  fun _ i _ => ⟨nofun, rfl, fun _ => (W t).notNull i⟩

/-- A row of one column's values after another. -/
theorem setColumn_sound {r : Row} {i : Nat} {v : Option Int} (h : r.Sound sh) (hv : sh.isNotNull i = true → v ≠ none) :
    Row.Sound sh { r with columns := Function.update r.columns i ⟨v, (r.columns i).row⟩ } := by
  intro hr j hj
  have hrow : ∀ k, (Function.update r.columns i ⟨v, (r.columns i).row⟩ k).row = (r.columns k).row := by
    intro k
    by_cases hk : k = i <;> simp [Function.update, hk]
  obtain ⟨h₁, h₂, h₃⟩ := h hr j hj
  refine ⟨by rwa [hrow], by rwa [hrow, hrow], fun href hnn => ?_⟩
  by_cases hji : j = i
  · subst hji
    simpa using hv hnn
  · simpa [hji] using h₃ href hnn

/-- Without a row, whatever the columns are. -/
theorem teardown_sound {r : Row} (h : r.hasRow = false) : (r.teardown sh).Sound sh := by
  intro h'
  rw [Row.teardown, h] at h'
  cases h'

/-! ## Steps -/

theorem ask_keeps {I : State → Prop} (hI : ∀ s, I s → I { s with tick := s.tick + 1 }) : Triple I (ask W) (fun a s => (∃ t, a = W t) ∧ I s) E :=
  .read fun s hs => .bind (.update (Q := fun _ => I) fun _ e => e ▸ hI s hs) fun _ => .pure fun _ h => ⟨⟨_, rfl⟩, h⟩

theorem newRow_keeps {I : State → Prop} (hI : ∀ s, I s → I { s with rows := s.rows + 1 }) : Triple I newRow (fun _ => I) E :=
  .bind (.update (Q := fun _ => I) hI) fun _ => .read fun _ hs => .pure fun _ e => e ▸ hs

/-- The calls of an expression keep the rows whole. -/
theorem evaluate_keeps {call : Nat → Exec Unit} {caught : Bool} (hcall : ∀ p, Triple (Inv sh) (call p) (fun _ => Inv sh) (Escapes (Inv sh) caught))
    (cut : Bool) : ∀ calls, Triple (Inv sh) (evaluate W call cut calls) (fun a s => (∃ t, a = W t) ∧ Inv sh s) (Escapes (Inv sh) caught)
  | [] => ask_keeps fun _ h => h
  | p :: calls => by
    refine .bind (ask_keeps fun _ h => h) fun a => .bind (Q := fun _ => Inv sh) ?_ fun _ => evaluate_keeps hcall cut calls
    unfold makeCall
    split
    · split
      · exact .cutOff
      · exact (hcall p).strengthenPre fun _ h => h.2
    · exact .pure fun s h => h.2

/-- Where no call is made, or none changes the state, nothing is done to it. -/
theorem evaluate_quiet {call : Nat → Exec Unit} {I : State → Prop} (hI : ∀ s, I s → I { s with tick := s.tick + 1 }) {cut : Bool}
    (hcall : cut = true ∨ ∀ p, call p = pure ()) : ∀ calls, Triple I (evaluate W call cut calls) (fun a s => (∃ t, a = W t) ∧ I s) E
  | [] => ask_keeps hI
  | p :: calls => by
    refine .bind (ask_keeps hI) fun a => .bind (Q := fun _ => I) ?_ fun _ => evaluate_quiet hI hcall calls
    unfold makeCall
    split
    · rcases hcall with rfl | hcall
      · exact .cutOff
      · split
        · exact .cutOff
        · rw [hcall p]
          exact .pure fun s h => h.2
    · exact .pure fun s h => h.2

theorem otherCode_keeps {call : Nat → Exec Unit} {caught : Bool} (hcall : ∀ p, Triple (Inv sh) (call p) (fun _ => Inv sh) (Escapes (Inv sh) caught))
    (calls : Calls) : Triple (Inv sh) (otherCode W call calls) (fun _ => Inv sh) (Escapes (Inv sh) caught) := by
  refine .bind (evaluate_keeps hcall false calls) fun a => ?_
  split
  · exact .leave fun s h _ => h.2
  · exact .pure fun s h => h.2

/-- A row that replaces the cursor's. -/
theorem setCursor_keeps {r : Row} (hr : r.Sound sh) : Triple (fun s => s.result.Sound sh) (setCursor fun _ => r) (fun _ => Inv sh) E :=
  .update fun _ h => ⟨hr, h⟩

/-- A fetch: a whole row, or none. -/
theorem setFetched_keeps {a : Answer sh} (ha : ∃ t, a = W t) : Triple (fun s => s.result.Sound sh) (setFetched a) (fun _ => Inv sh) E := by
  obtain ⟨t, rfl⟩ := ha
  refine .bind (newRow_keeps fun _ h => h) fun n => setCursor_keeps ?_
  split
  · exact fetched_sound t n
  · exact empty_sound

/-- The columns that are not among the names were stored. -/
def Stored (sh : Shape) (n : Nat) (names : List Nat) (s : State) : Prop :=
  s.result.Sound sh ∧ ∀ i < sh.count, i ∉ names → (s.cursor.columns i).row = some n ∧ (sh.isNotNull i = true → (s.cursor.columns i).value ≠ none)

theorem inv_of_stored {n : Nat} {s : State} (h : Stored sh n [] s) : Inv sh s := by
  refine ⟨fun _ i hi => ?_, h.1⟩
  have h₀ := h.2 0 (by omega) (by simp)
  have hi := h.2 i hi (by simp)
  exact ⟨by rw [hi.1]; nofun, hi.1.trans h₀.1.symm, fun _ => hi.2⟩

/-- Nothing is stored yet. -/
theorem stored_of_inv {n : Nat} {names : List Nat} {s : State} (hall : ∀ i < sh.count, i ∈ names) (h : Inv sh s) : Stored sh n names s :=
  ⟨h.2, fun i hi hn => absurd (hall i hi) hn⟩

/-- What is called keeps the rows whole, where it shares the cursor, and does nothing to it where it does not see it. -/
structure Calling (P : Program sh) (caught : Bool) (call : Nat → Exec Unit) : Prop where
  keeps : ∀ p, Triple (Inv sh) (call p) (fun _ => Inv sh) (Escapes (Inv sh) caught)
  unseen : P.isGlobal = false → ∀ p, call p = pure ()

theorem storeValues_keeps {call : Nat → Exec Unit} {caught : Bool} (hcall : Calling P caught call) {n : Nat} :
    ∀ (values : List (Nat × Calls)) {same : Bool},
      Triple (fun s => Stored sh n (values.map Prod.fst) s ∧ (same = true → Inv sh s ∧ ∀ i < sh.count, i ∈ values.map Prod.fst))
        (storeValues W P call true caught n same values) (fun _ => Inv sh) (Escapes (Inv sh) caught)
  | [], _ => .pure fun s h => inv_of_stored h.1
  | (i, calls) :: values, same => by
    unfold storeValues
    -- before the first store the calls may do what they like; after it, or behind the flag alone, there are none
    have hvalue : Triple (fun s => Stored sh n (((i, calls) :: values).map Prod.fst) s ∧
        (same = true → Inv sh s ∧ ∀ j < sh.count, j ∈ ((i, calls) :: values).map Prod.fst))
        (evaluate W call (true && P.isGlobal && !same) calls)
        (fun a s => (∃ t, a = W t) ∧ Stored sh n (((i, calls) :: values).map Prod.fst) s ∧ (same = true → Inv sh s)) (Escapes (Inv sh) caught) := by
      cases same with
      | true =>
        intro s hs
        obtain ⟨hinv, hall⟩ := hs.2 rfl
        refine (evaluate_keeps hcall.keeps _ calls).weakenPost (fun a s' h => ?_) s hinv
        exact ⟨h.1, stored_of_inv hall h.2, fun _ => h.2⟩
      | false =>
        refine (evaluate_quiet (fun _ h => h) ?_ calls).weaken (fun s h => h.1) (fun a s h => ⟨h.1, h.2, nofun⟩) fun _ _ => id
        cases hg : P.isGlobal with
        | true => exact .inl rfl
        | false => exact .inr (hcall.unseen hg)
    refine .bind hvalue fun a => ?_
    split
    · split
      · exact .cutOff
      · rename_i hc
        refine .leave fun s hs ht => hs.2.2 ?_
        simpa [ht rfl] using hc
    · refine .bind (.update (Q := fun _ s => Stored sh n (values.map Prod.fst) s ∧
        (false = true → Inv sh s ∧ ∀ i < sh.count, i ∈ values.map Prod.fst)) ?_) fun _ => storeValues_keeps hcall values
      rintro s ⟨⟨t, rfl⟩, hs, -⟩
      refine ⟨⟨hs.1, fun j hj hjn => ?_⟩, nofun⟩
      by_cases hji : j = i
      · subst hji
        simpa using (W t).notNull j
      · simpa [hji] using hs.2 j hj (by rw [List.map_cons, List.mem_cons]; exact not_or.mpr ⟨hji, hjn⟩)

theorem updateValues_keeps {call : Nat → Exec Unit} {caught : Bool}
    (hcall : ∀ p, Triple (Inv sh) (call p) (fun _ => Inv sh) (Escapes (Inv sh) caught)) : ∀ values : List (Nat × Calls),
    Triple (Inv sh) (updateValues W call values) (fun _ => Inv sh) (Escapes (Inv sh) caught)
  | [] => .pure fun _ => id
  | (i, calls) :: values => by
    unfold updateValues
    refine .bind (evaluate_keeps hcall false calls) fun a => ?_
    split
    · exact .leave fun s h _ => h.2
    · refine .read fun s hs => .bind (.update (Q := fun _ => Inv sh) ?_) fun _ => updateValues_keeps hcall values
      rintro _ rfl
      obtain ⟨⟨t, rfl⟩, h⟩ := hs
      exact ⟨setColumn_sound h.1 ((W t).notNull i), h.2⟩

theorem callForRow_keeps {call : Nat → Exec Unit} {caught : Bool} (hcall : Calling P caught call) (p : Nat) :
    Triple (fun s => s.result.Sound sh) (callForRow W P call p) (fun _ => Inv sh) (Escapes (Inv sh) caught) := by
  refine .bind (setCursor_keeps empty_sound) fun _ => ?_
  split
  · exact hcall.keeps p
  · refine .bind (ask_keeps fun _ h => h) fun a s hs => ?_
    refine (Triple.bind (setFetched_keeps hs.1) fun _ => ?_ : Triple (fun s => s.result.Sound sh) _ _ _) s hs.2.2
    split
    · exact .leave fun s h _ => h
    · exact .pure fun _ => id

/-- A row that is there, or none, replaces the cursor's. -/
theorem fetch_keeps {caught : Bool} : Triple (Inv sh) (do setFetched (← ask W)) (fun _ => Inv sh) (Escapes (Inv sh) caught) := by
  refine .bind (ask_keeps fun _ h => h) fun a s hs => ?_
  exact (setFetched_keeps hs.1 : Triple _ _ _ (Escapes (Inv sh) caught)) s hs.2.2

/-- Every statement keeps the rows whole, where none is assumed away. -/
theorem exec_keeps {call : Bool → Nat → Exec Unit} (hcall : ∀ caught, Calling P caught (call caught)) (caught : Bool) (a : Action sh) :
    Triple (Inv sh) (a.exec W P call true caught) (fun _ => Inv sh) (Escapes (Inv sh) caught) := by
  have hother := otherCode_keeps (W := W) (hcall caught).keeps
  cases a with
  | other calls => exact hother calls
  | fetch =>
    refine .bind (ask_keeps fun _ h => h) fun a s hs => ?_
    refine (Triple.bind ((setFetched_keeps hs.1).strengthenPre fun _ => And.right) fun _ => ?_ : Triple (Inv sh) _ _ _) s hs.2
    split
    · exact .leave fun s h _ => h
    · exact .pure fun _ => id
  | fetchRows => exact fetch_keeps
  | fetchValues seed values all =>
    have stores : Triple (Inv sh) (do
        let hadRow := (← Prog.state).cursor.hasRow
        setCursor fun r => { r with hasRow := true }
        storeValues W P (call caught) true caught (← newRow) hadRow values) (fun _ => Inv sh) (Escapes (Inv sh) caught) := by
      refine .read fun s hs => ?_
      -- the flag is set, which changes nothing if there was a row
      refine .bind (.update (Q := fun _ s' => s'.result.Sound sh ∧ (s.cursor.hasRow = true → Inv sh s')) ?_) fun _ => ?_
      · rintro _ rfl
        refine ⟨hs.2, fun hr => ⟨?_, hs.2⟩⟩
        rw [← hr]
        exact hs.1
      · refine .bind (newRow_keeps fun _ h => h) fun n => (storeValues_keeps (hcall caught) values).strengthenPre fun s' h => ?_
        exact ⟨⟨h.1, fun i hi hn => absurd (all i hi) hn⟩, fun hr => ⟨h.2 hr, all⟩⟩
    cases seed with
    | some calls => exact .bind (hother calls) fun _ => stores
    | none => exact stores
  | fetchCall args p =>
    refine .bind (hother args) fun _ => .bind (.update (Q := fun _ s => s.result.Sound sh) fun _ h => h.2) fun _ => ?_
    exact callForRow_keeps (hcall caught) p
  | fromBlob calls =>
    refine .bind (hother calls) fun _ => .bind ((setCursor_keeps empty_sound).strengthenPre fun _ => And.right) fun _ => ?_
    refine .bind (ask_keeps fun _ h => h) fun a s hs => ?_
    refine (?_ : Triple (Inv sh) _ _ _) s hs.2
    split
    · exact (setFetched_keeps hs.1).strengthenPre fun _ => And.right
    · exact .leave fun s h _ => h
  | updateCursor values =>
    refine .read fun s hs => ?_
    split
    · exact (updateValues_keeps (hcall caught).keeps values).point hs
    · exact .pure fun _ e => e ▸ hs
  | close =>
    refine .read fun s hs => ?_
    split
    · exact .cutOff
    · rename_i hc
      split
      · rename_i hr
        refine .update fun s' e => ?_
        rw [e]
        exact ⟨teardown_sound (by simpa [hr] using hc), hs.2⟩
      · exact .pure fun _ e => e ▸ hs
  | out => exact .update fun s h => ⟨h.1, h.1⟩
  | outOther => exact fetch_keeps

theorem testCode_keeps {caught : Bool} : Triple (Inv sh) (testCode W) (fun _ => Inv sh) (Escapes (Inv sh) caught) := by
  refine .bind (ask_keeps fun _ h => h) fun a => ?_
  split
  · exact .bind (Q := fun _ _ => False) (.leave fun s h _ => h.2) fun _ _ h => h.elim
  · exact .pure fun s h => h.2

theorem machine_keeps {call : Bool → Nat → Exec Unit} (hcall : ∀ caught, Calling P caught (call caught)) :
    (machine W P true call).Keeps (Inv sh) :=
  ⟨exec_keeps hcall, fun _ => testCode_keeps, fun _ h => decide_eq_true h⟩

/-- The calls of a run keep the rows whole. -/
theorem calls_keep (fuel depth : Nat) (caught : Bool) : Calling P caught (calls W P true fuel depth caught) := by
  cases hg : P.isGlobal with
  | false =>
    have hpure : ∀ p, calls W P true fuel depth caught p = pure () := fun p => by simp [calls, hg]
    exact ⟨fun p => hpure p ▸ .pure fun _ => id, fun _ => hpure⟩
  | true =>
    refine ⟨fun p => ?_, fun hno => by simp [hg] at hno⟩
    rw [calls, if_pos hg]
    refine callProc_keeps (fun call hcall => machine_keeps fun caught => ⟨hcall caught, fun hno => ?_⟩) P.procs fuel depth caught p
    rw [hg] at hno
    cases hno

/-- Two NOT NULL references. -/
def texts : Shape := ⟨2, fun _ => true, fun _ => true⟩

/-- The second answer is an error. -/
def secondThrows : World texts := fun t => ⟨true, t = 1, fun _ => some 0, fun _ _ => nofun⟩

/-- A program with nothing to call. -/
def alone : Program texts := ⟨false, fun _ => .nil⟩

end CursorAux

open CursorAux

/-- The rows of a cursor are whole wherever its flag is set. -/
def RowsWhole : Prop :=
  ∀ (sh : Shape) (W : World sh) (P : Program sh) (fuel depth : Nat) (body : Block (Action sh)), run W P false fuel depth body .initial ≠ .fault

/-- The second value of a FETCH FROM VALUES throws, and the error is caught. -/
theorem rowsWhole_false : ¬ RowsWhole := by
  intro h
  exact h texts secondThrows alone 0 0 (.cons (.attempt (.cons (.act (.fetchValues none [(0, []), (1, [])] (by decide))) .nil) .nil) .nil) rfl

/-- The rows of a cursor are whole wherever its flag is set, where no error that is caught leaves a FETCH FROM VALUES after the first
store, or before it if there was no row, nor a procedure is called there that shares the cursor, and no cursor with references is closed
while it has a row. -/
theorem rows_whole_of_assumed (sh : Shape) (W : World sh) (P : Program sh) (fuel depth : Nat) (body : Block (Action sh)) :
    run W P true fuel depth body .initial ≠ .fault :=
  body.exec_ne_fault (machine_keeps fun caught => calls_keep fuel depth caught) fuel ⟨empty_sound, empty_sound⟩

end CgSql.Cursor
