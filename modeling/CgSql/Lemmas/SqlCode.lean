import CgSql.SqlCode

/-!
# What the generated code keeps

Two things are followed together through the generated code: which codes an error target is reached with, and, where it is asked
for, which temporary statements are known not to be stepped. The code of a construct uses the statements numbered for it and no
others; in a loop it leaves them as it found them, unless an error takes control out of the loop.
-/

namespace CgSql.SqlCode

open Exits

/-- The codes with which control reaches an error target for a cause. -/
def Cause.leaves : Cause → Code → Bool
  | .failed, rc | .builtin, rc | .thrown, rc => isError rc
  | .noRow, rc => isError rc || rc = sqliteDone
  | .foundNull, rc | .called, rc => rc ≠ sqliteOk

variable {rc : Code}

/-- No cause leaves `SQLITE_OK`. -/
theorem Cause.ne_ok_of_leaves {c : Cause} (h : c.leaves rc = true) : rc ≠ sqliteOk := by
  rintro rfl
  cases c <;> revert h <;> decide

/-- A watch that an execution passes. With `tracked`, it asks for statements that are not stepped and leaves out the jumps that
keep one stepped in a loop. -/
structure Watch.Fits (w : Watch) (tracked : Bool) : Prop where
  jump : tracked = true → w.jump true = false
  code : ∀ c rc, c.leaves rc = true → w.code c rc = true
  handler : ∀ rc, rc ≠ sqliteOk → w.handler rc = true
  temp : ∀ t, (tracked = true → t ≠ .stepped) → w.temp t = true

/-- `_rc_` satisfies `R`, and no statement of `S` is stepped. -/
def Has (tracked : Bool) (R : Code → Prop) (S : Set Nat) (s : State) : Prop :=
  R s.rc ∧ (tracked = true → ∀ k ∈ S, s.temps k ≠ .stepped)

/-- Control went to the error target. -/
def Thrown (tracked : Bool) (p : Place) (busy : Bool) (S : Set Nat) (k : Control) (s : State) : Prop :=
  k = .throw ∧ (tracked = true → (busy && p.caught) = false) ∧ Has tracked (· ≠ sqliteOk) S s

/-- What is left of a set of statements after code that uses `m` of them from `n` on: all of it, or what the code does not use. -/
def kept (all : Bool) (S : Set Nat) (n m : Nat) : Set Nat := if all then S else S \ Set.Ioc n (n + m)

/-- A set of statements that `m` of them from `n` on are among, and the one of index 0 is not. -/
structure Covers (S : Set Nat) (n m : Nat) : Prop where
  mem : ∀ k, n < k → k ≤ n + m → k ∈ S
  zero : 0 ∉ S

variable {W : World} {w : Watch} {t busy busy' all reused : Bool} {p : Place} {R R' : Code → Prop} {S S' : Set Nat} {s : State}
  {k n n' m m' : Nat} {E : Control → State → Prop} {c : Control} {code : Answer → Code}

theorem Has.mono (h : Has t R S s) (hR : R s.rc → R' s.rc) (hS : t = true → ∀ k ∈ S', k ∈ S) : Has t R' S' s :=
  ⟨hR h.1, fun ht k hk => h.2 ht k (hS ht k hk)⟩

theorem Has.any (h : Has t R S s) : Has t (fun _ => True) S s := h.mono (fun _ => trivial) fun _ _ => id

theorem Thrown.mono (h : Thrown t p busy S c s) (hb : busy' = true → busy = true)
    (hS : (busy && p.caught) = false → ∀ k ∈ S', k ∈ S) : Thrown t p busy' S' c s := by
  refine ⟨h.1, fun ht => ?_, h.2.2.mono id fun ht => hS (h.2.1 ht)⟩
  have := h.2.1 ht
  grind

/-- The statements that are kept. -/
theorem mem_kept : k ∈ kept all S n m ↔ k ∈ S ∧ (all = true ∨ k ≤ n ∨ n + m < k) := by
  cases all <;> simp [kept]
  omega

theorem kept_sub : ∀ k ∈ kept all S n m, k ∈ S := fun _ h => (mem_kept.mp h).1

/-- Code with fewer statements leaves more. -/
theorem kept_kept (hn : n ≤ n') (hm : n' + m' ≤ n + m) : ∀ k ∈ kept all S n m, k ∈ kept all S n' m' := by
  intro k hk
  rw [mem_kept] at *
  refine ⟨hk.1, hk.2.imp_right fun h => ?_⟩
  omega

/-- A part of the numbers. -/
theorem Covers.sub (h : Covers S n m) (hn : n ≤ n') (hm : n' + m' ≤ n + m) : Covers S n' m' :=
  ⟨fun k h₁ h₂ => h.mem k (by omega) (by omega), h.zero⟩

/-! ## Steps -/

/-- What SQLite answers is documented. -/
theorem ask_keeps : Triple (Has t R S) (ask W) (fun a s => a.Documented ∧ Has t R S s) E := by
  refine .read fun s hs => .bind (.update (Q := fun _ => Has t R S) fun _ e => e ▸ hs) fun _ => ?_
  exact .pure fun _ h => ⟨W.documented _, h⟩

theorem setRc_keeps : Triple (Has t R S) (setRc rc) (fun _ => Has t (· = rc) S) E :=
  .update fun _ h => ⟨rfl, h.2⟩

/-- A call sets the code. -/
theorem callRc_keeps (h : ∀ a : Answer, a.Documented → R' (code a)) : Triple (Has t R S) (callRc W code) (fun _ => Has t R' S) E := by
  refine .bind ask_keeps fun a s hs => ?_
  exact ⟨h a hs.1, hs.2.2⟩

/-- A throw leaves an error code. -/
theorem throwNow_keeps {α : Type} {Q : α → State → Prop} {c : Cause} (hw : w.Fits t) (h : ∀ rc, R rc → c.leaves rc = true) :
    Triple (Has t R S) (throwNow w p busy c : Exec α) Q (Thrown t p busy S) := by
  unfold throwNow
  split
  · exact .cutOff
  · rename_i hj
    refine .read fun s hs => ?_
    rw [if_pos (hw.code c _ (h _ hs.1))]
    refine .point (.leave fun s hs => ⟨rfl, fun ht => ?_, hs.mono (fun hr => Cause.ne_ok_of_leaves (h _ hr)) fun _ _ => id⟩) hs
    by_contra hb
    rw [Bool.not_eq_false] at hb
    rw [hb, hw.jump ht] at hj
    exact hj rfl

/-- A test throws or goes on. -/
theorem errorOn_keeps {c : Cause} {test : Code → Bool} (hw : w.Fits t) (h : ∀ rc, R rc → test rc = true → c.leaves rc = true) :
    Triple (Has t R S) (errorOn w p busy c test) (fun _ => Has t (fun rc => R rc ∧ test rc = false) S) (Thrown t p busy S) := by
  refine .read fun s hs => ?_
  split
  · rename_i ht
    exact (throwNow_keeps (R := fun rc => R rc ∧ test rc = true) hw fun rc hr => h rc hr.1 hr.2).point ⟨⟨hs.1, ht⟩, hs.2⟩
  · rename_i ht
    exact .pure fun s' e => e ▸ ⟨⟨hs.1, by simpa using ht⟩, hs.2⟩

theorem callStep_keeps : Triple (Has t R S) (callRc W Answer.step) (fun _ => Has t (· ≠ sqliteOk) S) E :=
  callRc_keeps fun _ ha => ha.step_ne

theorem callRc_any : Triple (Has t R S) (callRc W code) (fun _ => Has t (fun _ => True) S) E :=
  callRc_keeps fun _ _ => trivial

/-- A statement that is not stepped afterwards. -/
theorem setTemp_keeps {x : Temp} (hx : x ≠ .stepped) : Triple (Has t R S) (setTemp k x) (fun _ => Has t R (insert k S)) E := by
  refine .update fun s h => ⟨h.1, fun ht j hj => ?_⟩
  by_cases hjk : j = k
  · subst hjk
    simpa using hx
  · simpa [hjk] using h.2 ht j (hj.resolve_left hjk)

/-- A statement that is stepped is not fresh. -/
theorem setTemp_stepped : Triple (Has t R S) (setTemp k .stepped) (fun _ => Has t R (S \ {k})) E := by
  refine .update fun s h => ⟨h.1, fun ht j hj => ?_⟩
  simpa [show j ≠ k from hj.2] using h.2 ht j hj.1

/-- A code that preparing or binding a statement returns. -/
def Status (rc : Code) : Prop := rc = sqliteOk ∨ isError rc = true

theorem callStatus_keeps : Triple (Has t R S) (callRc W Answer.status) (fun _ => Has t Status S) E :=
  callRc_keeps fun _ ha => ha.status_eq

/-- A statement that is prepared is. -/
theorem prepare_keeps : Triple (Has t R S) (prepare W k) (fun _ => Has t Status (insert k S)) E := by
  refine .bind callStatus_keeps fun _ => .read fun s hs => .point (setTemp_keeps ?_) hs
  split <;> decide

theorem prepareTemp_keeps (hk : reused = true → k ∈ S) : Triple (Has t R S) (prepareTemp W reused k) (fun _ => Has t Status (insert k S)) E := by
  unfold prepareTemp
  split
  · rename_i hr
    refine .read fun s hs => ?_
    split
    · exact prepare_keeps.point hs
    · refine (setRc_keeps.weakenPost fun _ s h => h.mono .inl fun _ j hj => ?_).point hs
      exact hj.elim (fun e => e ▸ hk hr) id
  · exact prepare_keeps

/-- Binding keeps it. -/
theorem multibind_keeps (hw : w.Fits t) (hk : k ∈ S) : Triple (Has t Status S) (multibind W w k) (fun _ => Has t Status S) E := by
  refine .read fun s hs => ?_
  split
  · refine .point (.read fun s hs => ?_) hs
    rw [if_pos (hw.temp _ fun ht => hs.2 ht k hk)]
    refine .point (.bind callStatus_keeps fun _ => .read fun s hs => ?_) hs
    split
    · exact ((setTemp_keeps (by decide)).weakenPost fun _ s h => h.mono id fun _ j => Set.mem_insert_of_mem k).point hs
    · exact .pure fun s e => e ▸ hs
  · exact .pure fun s e => e ▸ hs

/-- Stepping uses it up. -/
theorem step_keeps (hw : w.Fits t) (hk : k ∈ S) (hc : ∀ a : Answer, a.Documented → R' (code a)) :
    Triple (Has t R S) (step W w code k) (fun _ => Has t R' (S \ {k})) E := by
  refine .read fun s hs => ?_
  rw [if_pos (hw.temp _ fun ht => hs.2 ht k hk)]
  exact .point (.bind (callRc_keeps hc) fun _ => setTemp_stepped) hs

/-- The cleanup makes it fresh again. -/
theorem cleanup_keeps : Triple (Has t R S) (cleanup reused k) (fun _ => Has t R (insert k S)) E :=
  setTemp_keeps (by split <;> decide)

/-! ## Statements of expressions -/

/-- The number of a temporary statement: one of the `m` from `n` on if it is kept, 0 if not. -/
structure Numbered (reused : Bool) (k n m : Nat) : Prop where
  mem : reused = true → n < k ∧ k ≤ n + m
  zero : reused = false → k = 0

theorem numbered_tempIndex (hn : n ≤ n') (hm : n' + reused.toNat ≤ n + m) : Numbered reused (tempIndex reused n') n m := by
  cases reused with
  | true =>
    rw [Bool.toNat_true] at hm
    exact ⟨fun _ => by change n < n' + 1 ∧ n' + 1 ≤ n + m; omega, nofun⟩
  | false => exact ⟨nofun, fun _ => rfl⟩

namespace Numbered


theorem mem_of_covers (hk : Numbered reused k n m) (hS : Covers S n m) (hr : reused = true) : k ∈ S :=
  hS.mem k (hk.mem hr).1 (hk.mem hr).2

/-- Where the statement is not kept over an error, what the code leaves does not include it. -/
theorem kept_sub (hk : Numbered reused k n m) (hS : Covers S n m) (hb : (reused && p.caught) = false) :
    ∀ j ∈ kept p.caught S n m, j ∈ S \ {k} := by
  intro j hj
  rw [mem_kept] at hj
  refine ⟨hj.1, ?_⟩
  rintro rfl
  cases hr : reused with
  | true =>
    have hb : p.caught = false := by simpa [hr] using hb
    have := hk.mem hr
    rcases hj.2 with hc | hc
    · rw [hb] at hc
      cases hc
    · omega
  | false =>
    rw [hk.zero hr] at hj
    exact hS.zero hj.1

/-- An error while the statement is between its step and its reset. -/
theorem thrown (hk : Numbered reused k n m) (hS : Covers S n m) (h : Thrown t p (busy || reused) (S \ {k}) c s) :
    Thrown t p busy (kept p.caught S n m) c s := by
  refine h.mono (fun hb => by rw [hb]; rfl) fun hb => hk.kept_sub hS ?_
  rw [Bool.and_or_distrib_right, Bool.or_eq_false_iff] at hb
  exact hb.2

/-- An error in an expression that is evaluated between its step and its reset. -/
theorem thrown_default (hk : Numbered reused k n m) (hS : Covers S n m)
    (h : Thrown t p (busy || reused) (kept p.caught (S \ {k}) n' m') c s) (hn : n ≤ n') (hm : n' + m' ≤ n + m) :
    Thrown t p busy (kept p.caught S n m) c s := by
  refine h.mono (fun hb => by rw [hb]; rfl) fun hb j hj => ?_
  rw [Bool.and_or_distrib_right, Bool.or_eq_false_iff] at hb
  exact mem_kept.mpr ⟨hk.kept_sub hS hb.2 j hj, (mem_kept.mp (kept_kept hn hm j hj)).2⟩

end Numbered

theorem Thrown.sub (h : Thrown t p busy (kept p.caught S n' m') c s) (hn : n ≤ n') (hm : n' + m' ≤ n + m) :
    Thrown t p busy (kept p.caught S n m) c s :=
  h.mono id fun _ => kept_kept hn hm

theorem Thrown.kept (h : Thrown t p busy S c s) : Thrown t p busy (kept p.caught S n m) c s := h.mono id fun _ => kept_sub

variable {vars : Bool} {m₁ : Nat}

/-- The check of a code, which a ROLLBACK leaves out. -/
theorem checkStatus_keeps {rollback : Bool} (hw : w.Fits t) :
    Triple (Has t Status S) (do if !rollback then errorOn w p busy .failed (· ≠ sqliteOk)) (fun _ => Has t (fun _ => True) S)
      (Thrown t p busy S) := by
  cases rollback with
  | true => exact .pure fun s h => h.any
  | false =>
    have h : Triple (Has t Status S) (errorOn w p busy .failed (· ≠ sqliteOk))
        (fun _ => Has t (fun rc => Status rc ∧ decide (rc ≠ sqliteOk) = false) S) (Thrown t p busy S) :=
      errorOn_keeps hw fun rc hr ht => hr.resolve_left (by simpa using ht)
    exact h.weakenPost fun _ _ h => h.any

/-- Preparing and binding a temporary. -/
theorem boundTemp_keeps {rollback : Bool} (hw : w.Fits t) (hk : reused = true → k ∈ S) :
    Triple (Has t R S) (boundTemp W w p busy rollback reused vars k) (fun _ => Has t (fun _ => True) (insert k S)) (Thrown t p busy S) := by
  have check : Triple (Has t Status (insert k S)) (do if !rollback then errorOn w p busy .failed (· ≠ sqliteOk))
      (fun _ => Has t (fun _ => True) (insert k S)) (Thrown t p busy S) :=
    (checkStatus_keeps hw).weakenExit fun _ _ h => h.mono id fun _ j => Set.mem_insert_of_mem k
  refine .bind (prepareTemp_keeps hk) fun _ => ?_
  cases vars with
  | true => exact .bind (multibind_keeps hw (Set.mem_insert k S)) fun _ => check
  | false => exact check

/-- Stepping it once. -/
theorem selectStep_keeps (hw : w.Fits t) (hk : reused = true → k ∈ S) :
    Triple (Has t R S) (selectStep W w p busy reused vars k) (fun _ => Has t (· ≠ sqliteOk) (S \ {k})) (Thrown t p busy S) := by
  refine .bind (boundTemp_keeps hw hk) fun _ => ?_
  refine (step_keeps hw (Set.mem_insert k S) fun _ ha => ha.step_ne).weakenPost fun _ s (h : Has t (· ≠ sqliteOk) _ s) => ?_
  exact h.mono id fun _ j hj => ⟨Set.mem_insert_of_mem k hj.1, hj.2⟩

theorem cleanup_restores : Triple (Has t R (S \ {k})) (cleanup reused k) (fun _ => Has t (fun _ => True) S) E := by
  refine cleanup_keeps.weakenPost fun _ s h => h.mono (fun _ => trivial) fun _ j hj => ?_
  by_cases hjk : j = k
  · exact .inl hjk
  · exact .inr ⟨hj, hjk⟩

/-- The number of the statement of a SELECT expression, which comes after those of its fragments. -/
theorem numbered_select (p : Place) (conditional : Bool) (n f d : Nat) :
    Numbered (reuses p.inLoop conditional) (tempIndex (reuses p.inLoop conditional) (n + f)) n (f + ((reuses p.inLoop conditional).toNat + d)) :=
  numbered_tempIndex (Nat.le_add_right ..) (by omega)

/-- The statements of the default of a SELECT expression come after its own. -/
theorem covers_default (p : Place) {conditional : Bool} {f d : Nat} (hS : Covers S n (f + ((reuses p.inLoop conditional).toNat + d))) :
    Covers (S \ {tempIndex (reuses p.inLoop conditional) (n + f)}) (n + f + (reuses p.inLoop conditional).toNat) d := by
  refine ⟨fun j h₁ h₂ => ⟨hS.mem j (by omega) (by omega), ?_⟩, fun h => hS.zero h.1⟩
  rintro rfl
  revert h₁
  cases reuses p.inLoop conditional <;> simp [tempIndex]

/-- A SELECT expression up to its first step, and what follows. -/
theorem select_keeps {f : Nat} {frags rest : Exec Unit} {Q : Unit → State → Prop} (hw : w.Fits t) (hS : Covers S n m)
    (hk : Numbered reused k n m) (hf : f ≤ m)
    (hfrags : Triple (Has t R S) frags (fun _ => Has t (fun _ => True) S) (Thrown t p busy (kept p.caught S n f)))
    (hrest : Triple (Has t (· ≠ sqliteOk) (S \ {k})) rest Q (Thrown t p busy (kept p.caught S n m))) :
    Triple (Has t R S) (do frags; selectStep W w p busy reused vars k; rest) Q (Thrown t p busy (kept p.caught S n m)) := by
  refine .bind (hfrags.weakenExit fun _ _ h => h.sub le_rfl (by omega)) fun _ => ?_
  exact .bind ((selectStep_keeps hw (hk.mem_of_covers hS)).weakenExit fun _ _ h => h.kept) fun _ => hrest

/-- The check of a step. -/
theorem errorOn_used {c : Cause} {test : Code → Bool} (hw : w.Fits t) (hS : Covers S n m) (hk : Numbered reused k n m)
    (h : ∀ rc, R rc → test rc = true → c.leaves rc = true) :
    Triple (Has t R (S \ {k})) (errorOn w p (busy || reused) c test) (fun _ => Has t (fun rc => R rc ∧ test rc = false) (S \ {k}))
      (Thrown t p busy (kept p.caught S n m)) :=
  (errorOn_keeps hw h).weakenExit fun _ _ => hk.thrown hS

/-- A SELECT expression without a row. -/
theorem leaves_noRow (h : rc ≠ sqliteOk) (ht : decide (rc ≠ sqliteRow) = true) : Cause.noRow.leaves rc = true := by
  simp only [Cause.leaves, isError] at *
  grind

/-- A failed statement. -/
theorem leaves_failed (h : rc ≠ sqliteOk) (ht : notStepped rc = true) : Cause.failed.leaves rc = true := by
  simp only [Cause.leaves, isError, notStepped] at *
  grind

/-- IF NOTHING OR NULL THROW. -/
theorem leaves_nothing (h : notStepped rc = false) : (if rc = sqliteDone then Cause.noRow else .foundNull).leaves rc = true := by
  split
  · simp_all [Cause.leaves]
  · simp only [Cause.leaves, notStepped, sqliteOk, sqliteRow, sqliteDone] at *
    grind

theorem setRc_cleanup : Triple (Has t (fun _ => True) (S \ {k})) (do setRc sqliteOk; cleanup reused k)
    (fun _ => Has t (fun _ => True) S) E :=
  .bind setRc_keeps fun _ => cleanup_restores

/-- What an expression keeps: all of the statements, or where an error leaves them, those it does not use. -/
theorem execEx_keeps (hw : w.Fits t) (p : Place) : ∀ (e : Ex) {busy : Bool} {n : Nat} {R : Code → Prop} {S : Set Nat},
    Covers S n (e.temps p.inLoop) → Triple (Has t R S) (execEx W w p busy n e) (fun _ => Has t (fun _ => True) S)
      (Thrown t p busy (kept p.caught S n (e.temps p.inLoop)))
  | .plain, busy, n, R, S, _ => .pure fun _ h => h.any
  | .both l r, busy, n, R, S, hS => by
    unfold Ex.temps at hS ⊢
    refine .bind ((execEx_keeps hw p l (hS.sub le_rfl (by omega))).weakenExit fun _ _ h => h.sub le_rfl (by omega)) fun _ => ?_
    exact (execEx_keeps hw p r (hS.sub (by omega) (by omega))).weakenExit fun _ _ h => h.sub (by omega) (by omega)
  | .maybe l r, busy, n, R, S, hS => by
    unfold Ex.temps at hS ⊢
    refine .bind ((execEx_keeps hw p l (hS.sub le_rfl (by omega))).weakenExit fun _ _ h => h.sub le_rfl (by omega)) fun _ => ?_
    refine .bind ask_keeps fun a => ?_
    split
    · refine ((execEx_keeps hw p r (hS.sub (by omega) (by omega))).weakenExit fun _ _ h => ?_).strengthenPre fun _ h => h.2
      exact h.sub (by omega) (by omega)
    · exact .pure fun _ h => h.2
  | .ifnullThrow e, busy, n, R, S, hS => by
    unfold Ex.temps at hS ⊢
    refine .bind (execEx_keeps hw p e hS) fun _ => .bind ask_keeps fun a => ?_
    split
    · refine .bind (setRc_keeps.strengthenPre fun _ h => h.2) fun _ => ?_
      exact (throwNow_keeps hw (by rintro _ rfl; decide)).weakenExit fun _ _ h => h.kept
    · exact .pure fun _ h => h.2
  | .call args, busy, n, R, S, hS => by
    unfold Ex.temps at hS ⊢
    refine .bind (execEx_keeps hw p args hS) fun _ => .bind callRc_any fun _ => ?_
    exact (errorOn_keeps hw fun _ _ => id).weaken (fun _ => id) (fun _ _ h => h.any) fun _ _ h => h.kept
  | .select conditional vars frags, busy, n, R, S, hS => by
    unfold Ex.temps at hS ⊢
    have hk := numbered_select p conditional n (frags.temps p.inLoop) 0
    refine select_keeps hw hS hk (Nat.le_add_right ..) (execEx_keeps hw p frags (hS.sub le_rfl (by omega))) ?_
    exact .bind (errorOn_used hw hS hk fun _ => leaves_noRow) fun _ => cleanup_restores
  | .selectIfNothing conditional vars frags default, busy, n, R, S, hS => by
    unfold Ex.temps at hS ⊢
    have hk := numbered_select p conditional n (frags.temps p.inLoop) (default.temps p.inLoop)
    refine select_keeps hw hS hk (Nat.le_add_right ..) (execEx_keeps hw p frags (hS.sub le_rfl (by omega))) ?_
    refine .bind (errorOn_used hw hS hk fun _ => leaves_failed) fun _ => .read fun s hs => ?_
    split
    · refine .bind (((execEx_keeps hw p default (covers_default p hS)).weakenExit fun _ _ h => ?_).point hs) fun _ => cleanup_restores
      exact hk.thrown_default hS h (by omega) (by omega)
    · exact cleanup_restores.point hs
  | .selectIfNothingOrNull conditional vars frags default, busy, n, R, S, hS => by
    unfold Ex.temps at hS ⊢
    have hk := numbered_select p conditional n (frags.temps p.inLoop) (default.temps p.inLoop)
    refine select_keeps hw hS hk (Nat.le_add_right ..) (execEx_keeps hw p frags (hS.sub le_rfl (by omega))) ?_
    refine .bind (errorOn_used hw hS hk fun _ => leaves_failed) fun _ => .bind ask_keeps fun a => .read fun s hs => ?_
    split
    · refine .bind (((execEx_keeps hw p default (covers_default p hS)).weakenExit fun _ _ h => ?_).point hs.2) fun _ =>
        setRc_cleanup
      exact hk.thrown_default hS h (by omega) (by omega)
    · exact setRc_cleanup.point hs.2.any
  | .selectIfNothingOrNullThrow conditional vars frags, busy, n, R, S, hS => by
    unfold Ex.temps at hS ⊢
    have hk := numbered_select p conditional n (frags.temps p.inLoop) 0
    refine select_keeps hw hS hk (Nat.le_add_right ..) (execEx_keeps hw p frags (hS.sub le_rfl (by omega))) ?_
    refine .bind (errorOn_used hw hS hk fun _ => leaves_failed) fun _ => .bind ask_keeps fun a => .read fun s hs => ?_
    split
    · refine .bind (((throwNow_keeps (R := (· = s.rc)) hw ?_).point ⟨rfl, hs.2.2⟩).weakenExit fun _ _ h => hk.thrown hS h)
        fun _ => setRc_cleanup
      rintro _ rfl
      exact leaves_nothing hs.2.1.2
    · exact setRc_cleanup.point hs.2.any

/-! ## Statements -/

/-- How a statement leaves: an error target is reached with a code, a RETURN without one. -/
def Exited (tracked : Bool) (p : Place) (S : Set Nat) (n m : Nat) (c : Control) (s : State) : Prop :=
  (c = .return → s.rc = sqliteOk) ∧ Has tracked (fun rc => c = .throw → rc ≠ sqliteOk) (kept (if c = .throw then p.caught else p.inLoop) S n m) s

/-- Code that follows other code leaves at least what is left of all of it. -/
theorem kept_after {first : Bool} (hf : all = true → first = true) (hn : n ≤ n') (hm : n' + m' ≤ n + m)
    (h₁ : m₁ ≤ m) : ∀ k ∈ kept all S n m, k ∈ kept all (kept first S n m₁) n' m' := by
  intro k hk
  simp only [mem_kept] at *
  refine ⟨⟨hk.1, ?_⟩, hk.2.imp_right fun h => ?_⟩
  · exact hk.2.imp hf fun h => by omega
  · omega

theorem Covers.after {first : Bool} (h : Covers S n m) (hn : n + m₁ ≤ n') (hm : n' + m' ≤ n + m) : Covers (kept first S n m₁) n' m' :=
  ⟨fun k h₁ h₂ => mem_kept.mpr ⟨h.mem k (by omega) (by omega), by omega⟩, fun h' => h.zero (kept_sub _ h')⟩

theorem Place.caught_le (p : Place) (c : Control) : (if c = .throw then p.caught else p.inLoop) = true → p.inLoop = true := by
  split
  · exact p.caught_inLoop
  · exact id

theorem Thrown.exited (h : Thrown t p busy (CgSql.SqlCode.kept p.caught S n m) c s) : Exited t p S n m c s := by
  obtain ⟨rfl, -, h⟩ := h
  exact ⟨nofun, h.mono (fun h _ => h) fun _ _ => id⟩

namespace Exited


theorem sub (h : Exited t p S n' m' c s) (hn : n ≤ n') (hm : n' + m' ≤ n + m) : Exited t p S n m c s :=
  ⟨h.1, h.2.mono id fun _ => kept_kept hn hm⟩

theorem after (h : Exited t p (CgSql.SqlCode.kept p.inLoop S n m₁) n' m' c s) (hn : n ≤ n') (hm : n' + m' ≤ n + m)
    (h₁ : m₁ ≤ m) : Exited t p S n m c s :=
  ⟨h.1, h.2.mono id fun _ => kept_after (p.caught_le c) hn hm h₁⟩

theorem ofLoop (h : Exited t p.loop S n' m' c s) (hn : n ≤ n') (hm : n' + m' ≤ n + m) : Exited t p S n m c s := by
  refine ⟨h.1, h.2.mono id fun _ k hk => ?_⟩
  have hk := mem_kept.mp (kept_kept hn hm k hk)
  refine mem_kept.mpr ⟨hk.1, hk.2.imp_left ?_⟩
  split
  · exact id
  · exact fun _ => rfl

end Exited

/-- `cql_best_error` gives an error code. -/
theorem isError_cqlBestError (rc : Code) : isError (cqlBestError rc) = true := by
  unfold cqlBestError
  split
  · assumption
  · decide

/-- A round of a loop keeps the statements. -/
theorem execRound_keeps {test : Exec Bool} {body update : Exec Unit} {n₂ : Nat} (m₁ m₂ : Nat) (h₁ : n ≤ n') (h₂ : n' + m₁ ≤ n + m)
    (h₃ : n ≤ n₂) (h₄ : n₂ + m₂ ≤ n + m)
    (htest : Triple (Has t (fun _ => True) S) test (fun _ => Has t (fun _ => True) S) (Exited t p S n m))
    (hbody : Triple (Has t (fun _ => True) S) body (fun _ => Has t (fun _ => True) S) (Exited t p.loop S n' m₁))
    (hupdate : Triple (Has t (fun _ => True) S) update (fun _ => Has t (fun _ => True) S) (Exited t p.loop S n₂ m₂)) :
    Triple (Has t (fun _ => True) S) (execRound test body update) (fun _ => Has t (fun _ => True) S) (Exited t p S n m) := by
  refine .bind htest fun b => ?_
  split
  · refine .bind (Q := fun _ => Has t (fun _ => True) S) (.handle (.bind hbody fun _ => .pure fun _ => id) ?_ ?_) fun more => ?_
    · rintro c q hq s hs
      have hS : Has t (fun _ => True) S s := by
        refine hs.2.mono (fun _ => trivial) fun _ k hk => mem_kept.mpr ⟨hk, .inl ?_⟩
        cases c <;> first | rfl | cases hq
      cases c <;> cases hq <;> exact hS
    · exact fun c s _ h => h.ofLoop h₁ h₂
    · split
      · exact .bind (hupdate.weakenExit fun _ _ h => h.ofLoop h₃ h₄) fun _ => .pure fun _ => id
      · exact .pure fun _ => id
  · exact .pure fun _ => id

theorem boundOther_keeps {rollback : Bool} (hw : w.Fits t) :
    Triple (Has t R S) (boundOther W w p vars rollback) (fun _ => Has t (fun _ => True) S) (Thrown t p false S) := by
  refine .bind callStatus_keeps fun _ => ?_
  cases vars with
  | true =>
    refine .read fun s hs => ?_
    split
    · exact .point (.bind callStatus_keeps fun _ => checkStatus_keeps hw) hs
    · exact (checkStatus_keeps hw).point hs
  | false => exact checkStatus_keeps hw

/-- A statement that is stepped once. -/
theorem boundStep_keeps {rollback : Bool} (hw : w.Fits t) (hS : Covers S n m) (hk : Numbered reused k n m) : Triple (Has t R S) (do
      boundTemp W w p false rollback reused true k
      step W w Answer.run k
      errorOn w p reused .failed (· ≠ sqliteDone)
      cleanup reused k) (fun _ => Has t (fun _ => True) S) (Thrown t p false (CgSql.SqlCode.kept p.caught S n m)) := by
  refine .bind ((boundTemp_keeps hw (hk.mem_of_covers hS)).weakenExit fun _ _ h => h.kept) fun _ => ?_
  have hstep : Triple (Has t (fun _ => True) (insert k S)) (step W w Answer.run k)
      (fun _ => Has t (fun rc => rc = sqliteDone ∨ isError rc = true) (insert k S \ {k}))
      (Thrown t p false (CgSql.SqlCode.kept p.caught S n m)) :=
    step_keeps hw (Set.mem_insert k S) fun _ ha => ha.run_eq
  refine .bind hstep fun _ => ?_
  have check : Triple (Has t (fun rc => rc = sqliteDone ∨ isError rc = true) (insert k S \ {k}))
      (errorOn w p (false || reused) .failed (· ≠ sqliteDone))
      (fun _ => Has t (fun _ => True) (S \ {k})) (Thrown t p (false || reused) (S \ {k})) := by
    refine (errorOn_keeps hw fun rc hr ht => hr.resolve_left (by simpa using ht)).weaken (fun _ => id) (fun _ s h => ?_) fun _ s h => ?_
    · exact h.mono (fun _ => trivial) fun _ j hj => ⟨.inr hj.1, hj.2⟩
    · exact h.mono id fun _ j hj => ⟨.inr hj.1, hj.2⟩
  exact .bind (check.weakenExit fun _ _ => hk.thrown hS) fun _ => cleanup_restores

/-- The tests of loops and branches. -/
theorem execTest_keeps (hw : w.Fits t) (c : Ex) {m : Nat} (hS : Covers S n (c.temps p.inLoop)) (hm : c.temps p.inLoop ≤ m) :
    Triple (Has t R S) (do execEx W w p false n c; return (← ask W).test) (fun _ => Has t (fun _ => True) S) (Exited t p S n m) := by
  refine .bind ((execEx_keeps hw p c hS).weakenExit fun _ _ h => h.exited.sub le_rfl (by omega)) fun _ => ?_
  exact .bind ask_keeps fun _ => .pure fun _ h => h.2

/-- The test of a LOOP, which fetches. -/
theorem fetchTest_keeps (hw : w.Fits t) : Triple (Has t R S) (do
    callRc W Answer.step
    errorOn w p false .failed notStepped
    return decide ((← Prog.state).rc = sqliteRow)) (fun _ => Has t (fun _ => True) S) (Exited t p S n m) := by
  refine .bind callStep_keeps fun _ => ?_
  refine .bind ((errorOn_keeps hw fun _ => leaves_failed).weakenExit fun _ _ h => h.kept.exited) fun _ => ?_
  exact .read fun s hs => .pure fun _ e => e ▸ hs.any

/-- LEAVE and CONTINUE. -/
theorem leave_keeps {α : Type} {Q : α → State → Prop} (hc : c ≠ .throw) (hc' : c ≠ .return) :
    Triple (Has t R S) (Prog.leave c : Exec α) Q (Exited t p S n m) :=
  .leave fun _ h => ⟨fun e => absurd e hc', h.mono (fun _ e => absurd e hc) fun _ => kept_sub⟩

/-- A loop keeps what its rounds keep. -/
theorem loop_keeps {test : Exec Bool} {body update : Exec Unit} {n₂ : Nat} (m₁ m₂ : Nat) (h₁ : n ≤ n') (h₂ : n' + m₁ ≤ n + m)
    (h₃ : n ≤ n₂) (h₄ : n₂ + m₂ ≤ n + m)
    (htest : Triple (Has t (fun _ => True) S) test (fun _ => Has t (fun _ => True) S) (Exited t p S n m))
    (hbody : Triple (Has t (fun _ => True) S) body (fun _ => Has t (fun _ => True) S) (Exited t p.loop S n' m₁))
    (hupdate : Triple (Has t (fun _ => True) S) update (fun _ => Has t (fun _ => True) S) (Exited t p.loop S n₂ m₂)) (fuel : Nat) :
    Triple (Has t R S) (Prog.loop fuel (execRound test body update)) (fun _ => Has t (fun _ => True) (kept p.inLoop S n m))
      (Exited t p S n m) := by
  refine (Triple.loop (I := Has t (fun _ => True) S) ?_ fuel).strengthenPre fun _ h => h.any
  refine (execRound_keeps m₁ m₂ h₁ h₂ h₃ h₄ htest hbody hupdate).weakenPost fun more s h => ?_
  split
  · exact h
  · exact h.mono id fun _ => kept_sub

mutual

/-- What a statement keeps. -/
theorem execStmt_keeps (hw : w.Fits t) (fuel : Nat) : ∀ (st : Stmt) {p : Place} {n : Nat} {R : Code → Prop} {S : Set Nat},
    Covers S n (st.temps p.inLoop) → Triple (Has t R S) (execStmt W w fuel p n st)
      (fun _ => Has t (fun _ => True) (kept p.inLoop S n (st.temps p.inLoop))) (Exited t p S n (st.temps p.inLoop))
  | .eval e, p, n, R, S, hS =>
    (execEx_keeps hw p e hS).weaken (fun _ => id) (fun _ _ h => h.mono id fun _ => kept_sub) fun _ _ => Thrown.exited
  | .sql conditional vars rollback frags, p, n, R, S, hS => by
    unfold Stmt.temps at hS ⊢
    refine .bind ((execEx_keeps hw p frags (hS.sub le_rfl (by omega))).weakenExit fun _ _ h => h.exited.sub le_rfl (by omega)) fun _ => ?_
    cases vars with
    | true =>
      have hk := numbered_select p conditional n (frags.temps p.inLoop) 0
      exact (boundStep_keeps hw hS hk).weaken (fun _ => id) (fun _ _ h => h.mono id fun _ => kept_sub) fun _ _ => Thrown.exited
    | false =>
      exact (boundOther_keeps hw).weaken (fun _ => id) (fun _ _ h => h.mono id fun _ => kept_sub) fun _ _ h => h.kept.exited
  | .open vars frags, p, n, R, S, hS => by
    refine .bind ((execEx_keeps hw p frags hS).weakenExit fun _ _ => Thrown.exited) fun _ => ?_
    exact (boundOther_keeps hw).weaken (fun _ => id) (fun _ _ h => h.mono id fun _ => kept_sub) fun _ _ h => h.kept.exited
  | .fetch, p, n, R, S, hS => by
    refine .bind callStep_keeps fun _ => ?_
    exact (errorOn_keeps hw fun _ => leaves_failed).weaken (fun _ => id) (fun _ _ h => h.any.mono id fun _ => kept_sub) fun _ _ h => h.kept.exited
  | .call args, p, n, R, S, hS => by
    refine .bind ((execEx_keeps hw p args hS).weakenExit fun _ _ => Thrown.exited) fun _ => .bind callRc_any fun _ => ?_
    exact (errorOn_keeps hw fun _ _ => id).weaken (fun _ => id) (fun _ _ h => h.any.mono id fun _ => kept_sub) fun _ _ h => h.kept.exited
  | .control c, p, n, R, S, hS => by
    cases c with
    | throw =>
      refine .bind setRc_keeps fun _ => (throwNow_keeps hw ?_).weakenExit fun _ _ h => h.kept.exited
      rintro _ rfl
      exact isError_cqlBestError _
    | «return» =>
      refine .bind setRc_keeps fun _ => .leave fun s h => ⟨fun _ => h.1, h.mono (fun _ => nofun) fun _ => kept_sub⟩
    | leave => exact leave_keeps nofun nofun
    | «continue» => exact leave_keeps nofun nofun
  | .ifStmt c l r, p, n, R, S, hS => by
    unfold Stmt.temps at hS ⊢
    refine .bind ((execEx_keeps hw p c (hS.sub le_rfl (by omega))).weakenExit fun _ _ h => h.exited.sub le_rfl (by omega)) fun _ => ?_
    refine .bind ask_keeps fun a => ?_
    split
    · refine ((execStmts_keeps hw fuel l (hS.sub (by omega) (by omega))).weaken (fun _ => And.right) (fun _ _ h => ?_) fun _ _ h => ?_)
      · exact h.mono id fun _ => kept_kept (by omega) (by omega)
      · exact h.sub (by omega) (by omega)
    · refine ((execStmts_keeps hw fuel r (hS.sub (by omega) (by omega))).weaken (fun _ => And.right) (fun _ _ h => ?_) fun _ _ h => ?_)
      · exact h.mono id fun _ => kept_kept (by omega) (by omega)
      · exact h.sub (by omega) (by omega)
  | .switchStmt e cases, p, n, R, S, hS => by
    unfold Stmt.temps at hS ⊢
    refine .bind ((execEx_keeps hw p e (hS.sub le_rfl (by omega))).weakenExit fun _ _ h => h.exited.sub le_rfl (by omega)) fun _ => ?_
    refine .handle ((execCases_keeps hw fuel cases (hS.sub (by omega) (by omega))).weaken (fun _ => id) (fun _ _ h => ?_) fun _ _ => id) ?_ ?_
    · exact h.mono id fun _ => kept_kept (by omega) (by omega)
    · intro c q hq
      cases c <;> cases hq
      exact .pure fun s h => h.2.mono (fun _ => trivial) fun _ => kept_kept (by omega) (by omega)
    · exact fun c s _ h => h.sub (by omega) (by omega)
  | .whileStmt c body, p, n, R, S, hS => by
    unfold Stmt.temps at hS ⊢
    have hbody := execStmts_keeps hw fuel body (p := p.loop) (R := fun _ => True) (hS.sub (Nat.le_add_right ..) (Nat.add_assoc ..).le)
    exact loop_keeps (body.temps true) 0 (Nat.le_add_right ..) (Nat.add_assoc ..).le le_rfl (Nat.le_add_right ..)
      (execTest_keeps hw c (hS.sub le_rfl (by omega)) (by omega)) hbody (.pure fun _ => id) fuel
  | .forStmt c update body, p, n, R, S, hS => by
    unfold Stmt.temps at hS ⊢
    have hbody := execStmts_keeps hw fuel body (p := p.loop) (n := n + c.temps p.inLoop) (R := fun _ => True)
      (hS.sub (Nat.le_add_right ..) (show _ ≤ _ by change _ + body.temps true ≤ _; omega))
    have hupdate := execStmts_keeps hw fuel update (p := p.loop) (n := n + c.temps p.inLoop + body.temps true) (R := fun _ => True)
      (hS.sub (by omega) (show _ ≤ _ by change _ + update.temps true ≤ _; omega))
    exact loop_keeps (body.temps true) (update.temps true) (by omega) (by omega) (by omega) (by omega)
      (execTest_keeps hw c (hS.sub le_rfl (by omega)) (by omega)) hbody hupdate fuel
  | .loopStmt body, p, n, R, S, hS => by
    unfold Stmt.temps at hS ⊢
    have hbody := execStmts_keeps hw fuel body (p := p.loop) (R := fun _ => True) hS
    exact loop_keeps (body.temps true) 0 le_rfl le_rfl le_rfl (Nat.le_add_right ..) (fetchTest_keeps hw) hbody (.pure fun _ => id) fuel
  | .tryCatch body handler, p, n, R, S, hS => by
    unfold Stmt.temps at hS ⊢
    have hbody := execStmts_keeps hw fuel body (p := p.tryBody) (n := n) (R := R) (hS.sub le_rfl (by change n + body.temps p.inLoop ≤ _; omega))
    refine .handle (hbody.weakenPost fun _ _ h => h.mono id fun _ => kept_kept le_rfl (Nat.add_le_add_left (Nat.le_add_right ..) n)) ?_ ?_
    · intro c q hq
      cases c <;> cases hq
      refine .read fun s hs => ?_
      rw [if_pos (hw.handler _ (hs.2.1 rfl))]
      have hcovers : Covers (kept p.inLoop S n (body.temps p.inLoop)) (n + body.temps p.inLoop) (handler.temps p.inLoop) :=
        hS.after le_rfl (Nat.add_assoc ..).le
      have hhandler := execStmts_keeps hw fuel handler (p := p.handler s.rc) (n := n + body.temps p.inLoop)
        (R := fun rc => Control.throw = .throw → rc ≠ sqliteOk) hcovers
      refine (hhandler.weaken (fun _ => id) (fun _ _ h => h.mono id fun _ => ?_) fun c _ h => ?_).point hs.2
      · exact kept_after id (Nat.le_add_right ..) (Nat.add_assoc ..).le (Nat.le_add_right ..)
      · exact Exited.after (p := p) h (Nat.le_add_right ..) (Nat.add_assoc ..).le (Nat.le_add_right ..)
    · intro c s hc h
      refine ⟨h.1, h.2.mono id fun _ k hk => ?_⟩
      have hk := mem_kept.mp (kept_kept le_rfl (Nat.add_le_add_left (Nat.le_add_right ..) n) k hk)
      refine mem_kept.mpr ⟨hk.1, hk.2.imp_left ?_⟩
      rw [if_neg (by rintro rfl; cases hc), if_neg (by rintro rfl; cases hc)]
      exact id

/-- Lists of statements. -/
theorem execStmts_keeps (hw : w.Fits t) (fuel : Nat) : ∀ (l : Stmts) {p : Place} {n : Nat} {R : Code → Prop} {S : Set Nat},
    Covers S n (l.temps p.inLoop) → Triple (Has t R S) (execStmts W w fuel p n l)
      (fun _ => Has t (fun _ => True) (kept p.inLoop S n (l.temps p.inLoop))) (Exited t p S n (l.temps p.inLoop))
  | .nil, p, n, R, S, hS => .pure fun _ h => h.any.mono id fun _ => kept_sub
  | .cons st rest, p, n, R, S, hS => by
    unfold Stmts.temps at hS ⊢
    refine .bind ((execStmt_keeps hw fuel st (hS.sub le_rfl (by omega))).weakenExit fun _ _ h => h.sub le_rfl (by omega)) fun _ => ?_
    refine (execStmts_keeps hw fuel rest (hS.after le_rfl (by omega))).weaken (fun _ => id) (fun _ _ h => ?_) fun _ _ h => ?_
    · exact h.mono id fun _ => kept_after id (by omega) (by omega) (by omega)
    · exact h.after (by omega) (by omega) (by omega)

/-- The cases of a SWITCH. -/
theorem execCases_keeps (hw : w.Fits t) (fuel : Nat) : ∀ (l : Cases) {p : Place} {n : Nat} {R : Code → Prop} {S : Set Nat},
    Covers S n (l.temps p.inLoop) → Triple (Has t R S) (execCases W w fuel p n l)
      (fun _ => Has t (fun _ => True) (kept p.inLoop S n (l.temps p.inLoop))) (Exited t p S n (l.temps p.inLoop))
  | .nil, p, n, R, S, hS => .pure fun _ h => h.any.mono id fun _ => kept_sub
  | .cons body rest, p, n, R, S, hS => by
    unfold Cases.temps at hS ⊢
    refine .bind ask_keeps fun a => ?_
    split
    · refine (execStmts_keeps hw fuel body (hS.sub le_rfl (by omega))).weaken (fun _ => And.right) (fun _ _ h => ?_) fun _ _ h => ?_
      · exact h.mono id fun _ => kept_kept le_rfl (by omega)
      · exact h.sub le_rfl (by omega)
    · refine (execCases_keeps hw fuel rest (hS.sub (by omega) (by omega))).weaken (fun _ => And.right) (fun _ _ h => ?_) fun _ _ h => ?_
      · exact h.mono id fun _ => kept_kept (by omega) (by omega)
      · exact h.sub (by omega) (by omega)

end

end CgSql.SqlCode
