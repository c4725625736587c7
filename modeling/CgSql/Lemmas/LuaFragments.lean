import CgSql.LuaFragments

/-!
# The generator of fragments step by step

What each part of the generator does in a branch that is taken: its items are added to the text, with predicates that are true, and
variables get predicates that are true when they are set.
-/

namespace CgSql.LuaFragments

open Action

/-- Where the generator is in a taken branch: no chunk of the branch was emitted, there is no text to emit, and there are variables
without predicates. -/
structure Point where
  early : Bool
  empty : Bool
  pending : Bool

/-- After an item. -/
def Point.put (a : Point) : Point := { a with empty := false }

/-- After a variable. -/
def Point.var (a : Point) : Point := { a with empty := false, pending := true }

/-- After text is emitted: the predicates of variables are set with all chunks but the first of a branch. -/
def Point.emit (a : Point) : Point :=
  if a.empty then a else { early := false, empty := true, pending := a.early && a.pending }

/-- After a chunk of its own is emitted. -/
def Point.wrap (a : Point) : Point := { a with early := false, pending := a.early && a.pending }

/-- After predicates are set. -/
def Point.flush (a : Point) : Point := { a with pending := false }

/-- Before the first item of a branch. -/
def Point.start (pending : Bool) : Point := { early := true, empty := true, pending := pending }

/-- After a fragment. -/
def Point.done : Point := { early := false, empty := true, pending := false }

namespace FragmentsAux

variable {t : Tables} {source : Option Nat} {pre : Point → Prop} {items : List Item} {g g' : Gen} {preds vpreds : Table} {a : Point}

/-! ## Runs -/

theorem run_append (env : Env) (code code' : List Instr) (t : Tables) : run env (code ++ code') t = (run env code t).bind (run env code') := by
  induction code generalizing t with
  | nil => rfl
  | cons i code ih =>
    rw [List.cons_append, run, run]
    rcases i.run env t with _ | t'
    · rfl
    · exact ih t'

/-- A store into a table that is there. -/
theorem run_setPred (env : Env) (index : Nat) {number : Nat} {table : Table} {b : Bool}
    (htable : t.preds number = some table) (hsource : t.source number source = some b) :
    ∃ t', (Instr.setPred number index source).run env t = some t' ∧
      t'.preds number = some (fun i => if i = index then b else table i) ∧ t'.vpreds = t.vpreds := by
  refine ⟨{ t with preds := fun n => if n = number then some fun i => if i = index then b else table i else t.preds n }, ?_, ?_,
    rfl⟩
  · simp [Instr.run, hsource, store, htable]
  · simp

/-- The predicates of variables are set in order. -/
theorem run_setVpreds (env : Env) {number : Nat} (n a : Nat) {table : Table}
    (htable : 0 < n → t.vpreds number = some table) (hsource : t.source number source = some true) :
    ∃ t', run env ((List.range' a n).map fun i => .setVpred number i source) t = some t' ∧ t'.preds = t.preds ∧
      (t.vpreds number = some table → t'.vpreds number = some fun i => if a ≤ i ∧ i < a + n then true else table i) := by
  induction n generalizing a t table with
  | zero =>
    refine ⟨t, rfl, rfl, fun h => ?_⟩
    rw [h]
    congr 1
    funext i
    rw [if_neg (by omega)]
  | succ n ih =>
    have ht := htable (Nat.succ_pos n)
    have hstep : ∃ t1, (Instr.setVpred number a source).run env t = some t1 ∧ t1.preds = t.preds ∧
        t1.vpreds number = some fun i => if i = a then true else table i := by
      refine ⟨{ t with vpreds := fun n => if n = number then some fun i => if i = a then true else table i else t.vpreds n }, ?_,
        rfl, ?_⟩
      · simp [Instr.run, hsource, store, ht]
      · simp
    obtain ⟨t1, h1, hp1, hv1⟩ := hstep
    have hsource1 : t1.source number source = some true := by
      rw [← hsource]
      rcases source with _ | j
      · rfl
      · simp [Tables.source, hp1]
    obtain ⟨t', h', hp', hv'⟩ := ih (a + 1) (fun _ => hv1) hsource1
    refine ⟨t', ?_, hp'.trans hp1, fun _ => ?_⟩
    · rw [List.range'_succ, List.map_cons, run, h1]
      exact h'
    · rw [hv' hv1]
      congr 1
      funext i
      by_cases hi : i = a
      · subst hi
        rw [if_neg (by omega), if_pos rfl, if_pos (by omega)]
      · by_cases hin : a + 1 ≤ i ∧ i < a + 1 + n
        · rw [if_pos hin, if_pos (by omega)]
        · rw [if_neg hin, if_neg hi, if_neg (by omega)]

/-! ## Invariants -/

/-- The point of a state. -/
def point (g : Gen) : Point :=
  { early := g.strings.length + 1 = g.max, empty := g.buf.isEmpty, pending := decide (g.prev < g.vars) }

/-- The counters of the generator. -/
structure Ok (g : Gen) : Prop where
  cond : g.hasCond = true
  le : g.strings.length ≤ g.max
  ge : g.max ≤ g.strings.length + 1
  prev : g.prev ≤ g.vars
  cur : g.cur = 0 ∨ g.cur < g.max
  noVars : g.hasVars = false → g.vars = 0

/-- The tables in a branch that is taken: what was not set is false, and the branch's predicate is true. -/
structure Live (g : Gen) (t : Tables) (preds vpreds : Table) : Prop where
  predsTable : t.preds g.number = some preds
  vpredsTable : g.hasVars = true → t.vpreds g.number = some vpreds
  freshPred : ∀ k, g.max ≤ k → preds k = false
  freshVpred : ∀ i, g.prev ≤ i → vpreds i = false
  cur : g.cur = 0 ∨ preds g.cur = true
  early : g.strings.length + 1 = g.max → preds g.strings.length = true

/-- The items so far that are included; text that is not yet emitted will be. -/
def incl (g : Gen) (preds : Table) : List Bool :=
  (g.strings.zipIdx.flatMap fun f => f.1.map fun _ => preds f.2) ++ g.buf.map fun _ => true

/-- The predicates of the variables that have one. -/
def flushed (g : Gen) (vpreds : Table) : List Bool := (List.range g.prev).map vpreds

/-- What changes in the state, whether the branch is taken or not. -/
structure Static (g g' : Gen) (items : List Item) (vars : Nat) : Prop where
  ok : Ok g'
  number : g'.number = g.number
  hasVars : g'.hasVars = g.hasVars
  cur : g'.cur = g.cur
  text : ∃ chunks, g'.strings = g.strings ++ chunks ∧ chunks.flatten ++ g'.buf = g.buf ++ items
  vars : g'.vars = g.vars + vars
  prev : g.prev ≤ g'.prev
  max : g.max ≤ g'.max

theorem Static.trans {g g' g'' : Gen} {items items' : List Item} {vars vars' : Nat} (h : Static g g' items vars) (h' : Static g' g'' items' vars') :
    Static g g'' (items ++ items') (vars + vars') where
  ok := h'.ok
  number := h'.number.trans h.number
  hasVars := h'.hasVars.trans h.hasVars
  cur := h'.cur.trans h.cur
  text := by
    obtain ⟨chunks, hstrings, htext⟩ := h.text
    obtain ⟨chunks', hstrings', htext'⟩ := h'.text
    refine ⟨chunks ++ chunks', by rw [hstrings', hstrings, List.append_assoc], ?_⟩
    rw [List.flatten_append, List.append_assoc, htext', ← List.append_assoc, htext, List.append_assoc]
  vars := by rw [h'.vars, h.vars, Nat.add_assoc]
  prev := Nat.le_trans h.prev h'.prev
  max := Nat.le_trans h.max h'.max

/-- What code does where it is run. -/
structure Dynamic (env : Env) (code : List Instr) (g g' : Gen) (mask varMask : List Bool) (kept : Prop) (t : Tables)
    (preds vpreds : Table) : Prop where
  exec : ∃ t' preds' vpreds', run env code t = some t' ∧ Live g' t' preds' vpreds' ∧
    (∀ k, k < g.max → preds' k = preds k) ∧ incl g' preds' = incl g preds ++ mask ∧
    ∀ expected : List Bool, expected.length = g.prev → ∃ expected' : List Bool, expected'.length = g'.prev ∧
      expected' ++ List.replicate (g'.vars - g'.prev) true = expected ++ (List.replicate (g.vars - g.prev) true ++ varMask) ∧
      (flushed g' vpreds' = expected' ↔ flushed g vpreds = expected ∧ kept)

/-- A part of the generator adds items, which are included as the mask says, and variables, which get the predicates that the other
mask says if all are kept. -/
def Sim (env : Env) (pre : Point → Prop) (a : Action) (items : List Item) (mask varMask : List Bool) (after : Point → Point)
    (kept : Point → Prop) : Prop :=
  ∀ g, Ok g → pre (point g) → (g.hasVars = true ∨ varMask = []) →
    ∃ code g', a g = some (code, g') ∧ Static g g' items varMask.length ∧ point g' = after (point g) ∧
      ∀ t preds vpreds, Live g t preds vpreds → Dynamic env code g g' mask varMask (kept (point g)) t preds vpreds

theorem Sim.andThen {env : Env} {pre' : Point → Prop} {a a' : Action} {items' : List Item}
    {mask mask' varMask varMask' : List Bool} {after after' : Point → Point} {kept kept' : Point → Prop}
    (h : Sim env pre a items mask varMask after kept) (h' : Sim env pre' a' items' mask' varMask' after' kept')
    (hpre : ∀ p, pre p → pre' (after p)) :
    Sim env pre (a.andThen a') (items ++ items') (mask ++ mask') (varMask ++ varMask') (fun p => after' (after p))
      (fun p => kept p ∧ kept' (after p)) := by
  intro g hok hp hvars
  obtain ⟨code, g1, hrun, hstatic, hpoint, hdyn⟩ := h g hok hp (hvars.imp_right fun h => (List.append_eq_nil_iff.1 h).1)
  obtain ⟨code', g2, hrun', hstatic', hpoint', hdyn'⟩ := h' g1 hstatic.ok (hpoint ▸ hpre _ hp)
    (by rw [hstatic.hasVars]; exact hvars.imp_right fun h => (List.append_eq_nil_iff.1 h).2)
  refine ⟨code ++ code', g2, ?_, ?_, by rw [hpoint', hpoint], ?_⟩
  · simp [Action.andThen, hrun, hrun']
  · rw [List.length_append]
    exact hstatic.trans hstatic'
  · intro t preds vpreds hlive
    obtain ⟨t1, preds1, vpreds1, hexec, hlive1, hframe, hincl, hbound⟩ := (hdyn t preds vpreds hlive).exec
    obtain ⟨t2, preds2, vpreds2, hexec2, hlive2, hframe2, hincl2, hbound2⟩ := (hdyn' t1 preds1 vpreds1 hlive1).exec
    refine ⟨t2, preds2, vpreds2, ?_, hlive2, fun k hk => ?_, ?_, fun expected hlen => ?_⟩
    · rw [run_append, hexec]
      exact hexec2
    · rw [hframe2 k (Nat.lt_of_lt_of_le hk hstatic.max), hframe k hk]
    · rw [hincl2, hincl, List.append_assoc]
    · obtain ⟨expected1, hlen1, heq1, hiff1⟩ := hbound expected hlen
      obtain ⟨expected2, hlen2, heq2, hiff2⟩ := hbound2 expected1 hlen1
      refine ⟨expected2, hlen2, ?_, ?_⟩
      · rw [heq2, ← List.append_assoc, heq1, List.append_assoc, List.append_assoc]
      · rw [hiff2, hiff1, hpoint, and_assoc]

/-! ## Parts without code -/

theorem sim_skip (env : Env) (pre : Point → Prop) : Sim env pre skip [] [] [] (fun p => p) fun _ => True := by
  intro g hok _ _
  refine ⟨[], g, rfl, ⟨hok, rfl, rfl, rfl, ⟨[], by simp, by simp⟩, rfl, Nat.le_refl _, Nat.le_refl _⟩, rfl, ?_⟩
  intro t preds vpreds hlive
  refine ⟨t, preds, vpreds, rfl, hlive, fun _ _ => rfl, by simp, fun expected hlen => ⟨expected, hlen, by simp, ?_⟩⟩
  simp

theorem sim_put (env : Env) (pre : Point → Prop) (c : Char) : Sim env pre (put (.char c)) [.char c] [true] [] Point.put fun _ => True := by
  intro g hok _ _
  refine ⟨[], { g with buf := g.buf ++ [.char c] }, rfl, ?_, ?_, ?_⟩
  · exact ⟨⟨hok.cond, hok.le, hok.ge, hok.prev, hok.cur, hok.noVars⟩, rfl, rfl, rfl, ⟨[], by simp, by simp⟩, rfl, Nat.le_refl _, Nat.le_refl _⟩
  · simp [point, Point.put]
  · intro t preds vpreds hlive
    refine ⟨t, preds, vpreds, rfl, ?_, fun _ _ => rfl, by simp [incl], fun expected hlen => ⟨expected, hlen, by simp, ?_⟩⟩
    · exact ⟨hlive.predsTable, hlive.vpredsTable, hlive.freshPred, hlive.freshVpred, hlive.cur, hlive.early⟩
    · simp [flushed]

theorem sim_captureVariable (env : Env) (pre : Point → Prop) (name : String) :
    Sim env pre (captureVariable name) [.var name] [true] [true] Point.var fun _ => True := by
  intro g hok _ hvars
  have hvars : g.hasVars = true := hvars.resolve_right (by simp)
  refine ⟨[], { g with buf := g.buf ++ [.var name], vars := g.vars + 1 }, rfl, ?_, ?_, ?_⟩
  · refine ⟨⟨hok.cond, hok.le, hok.ge, Nat.le_succ_of_le hok.prev, hok.cur, fun h => ?_⟩, rfl, rfl, rfl,
      ⟨[], by simp, by simp⟩, rfl, Nat.le_refl _, Nat.le_refl _⟩
    exact absurd hvars (by simp [show g.hasVars = false from h])
  · have := hok.prev
    have hlt : g.prev < g.vars + 1 := by omega
    simp [point, Point.var, hlt]
  · intro t preds vpreds hlive
    refine ⟨t, preds, vpreds, rfl, ?_, fun _ _ => rfl, by simp [incl], fun expected hlen => ⟨expected, hlen, ?_, ?_⟩⟩
    · exact ⟨hlive.predsTable, hlive.vpredsTable, hlive.freshPred, hlive.freshVpred, hlive.cur, hlive.early⟩
    · have hsub : g.vars + 1 - g.prev = (g.vars - g.prev) + 1 := by
        have := hok.prev
        omega
      simp only [hsub, List.replicate_succ']
    · simp [flushed]

/-! ## Predicates -/

/-- The predicate of the current branch is true. -/
theorem source_cur (hlive : Live g t preds vpreds)
    (h : source = none ∨ (g.cur ≠ 0 ∧ source = some g.cur)) : t.source g.number source = some true := by
  rcases h with rfl | ⟨hcur, rfl⟩
  · rfl
  · simp [Tables.source, hlive.predsTable, hlive.cur.resolve_left hcur]

theorem range_map_append {n m : Nat} (h : n ≤ m) (f : Nat → Bool) :
    (List.range m).map f = (List.range n).map f ++ (List.range' n (m - n)).map f := by
  have happ := @List.range'_append_1 0 n (m - n)
  rw [Nat.zero_add, Nat.add_sub_cancel' h] at happ
  rw [← List.map_append, List.range_eq_range', List.range_eq_range', happ]

/-- The code that gives the variables their predicates. -/
def flushCode (g : Gen) : List Instr :=
  (List.range' g.prev (g.vars - g.prev)).map fun i =>
    .setVpred g.number i (if g.cur = 0 ∨ g.cur + 1 = g.max then none else some g.cur)

theorem flush_eq (h : g.hasCond = true) : flushVariablePredicates g = some (flushCode g, { g with prev := g.vars }) := if_pos h

/-- The variables get predicates that are true. -/
theorem run_flushCode (env : Env) (hok : Ok g) (hlive : Live g t preds vpreds) :
    ∃ t' vpreds', run env (flushCode g) t = some t' ∧ Live { g with prev := g.vars } t' preds vpreds' ∧
      ∀ expected : List Bool, expected.length = g.prev →
        (flushed { g with prev := g.vars } vpreds' = expected ++ List.replicate (g.vars - g.prev) true ↔ flushed g vpreds = expected) := by
  have hsource : t.source g.number (if g.cur = 0 ∨ g.cur + 1 = g.max then none else some g.cur) = some true := by
    refine source_cur hlive ?_
    by_cases h : g.cur = 0 ∨ g.cur + 1 = g.max
    · exact Or.inl (if_pos h)
    · exact Or.inr ⟨fun h0 => h (Or.inl h0), if_neg h⟩
  have htable : 0 < g.vars - g.prev → t.vpreds g.number = some vpreds := by
    intro h
    refine hlive.vpredsTable ?_
    rcases hv : g.hasVars with _ | _
    · have := hok.noVars hv
      omega
    · rfl
  obtain ⟨t', hrun, hp', hv'⟩ := run_setVpreds env (g.vars - g.prev) g.prev htable hsource
  have hprev := hok.prev
  refine ⟨t', fun i => if g.prev ≤ i ∧ i < g.prev + (g.vars - g.prev) then true else vpreds i, hrun, ?_, fun expected hlen => ?_⟩
  · exact {
      predsTable := by rw [hp']; exact hlive.predsTable
      vpredsTable := fun h => hv' (hlive.vpredsTable h)
      freshPred := hlive.freshPred
      freshVpred := fun i hi => by
        simp only at hi ⊢
        rw [if_neg (by omega)]
        exact hlive.freshVpred i (by omega)
      cur := hlive.cur
      early := hlive.early }
  · unfold flushed
    simp only
    rw [range_map_append hprev]
    have hold : (List.range g.prev).map (fun i => if g.prev ≤ i ∧ i < g.prev + (g.vars - g.prev) then true else vpreds i) =
        (List.range g.prev).map vpreds := by
      refine List.map_congr_left fun i hi => ?_
      rw [List.mem_range] at hi
      rw [if_neg (by omega)]
    have hnew : (List.range' g.prev (g.vars - g.prev)).map (fun i => if g.prev ≤ i ∧ i < g.prev + (g.vars - g.prev) then true else vpreds i) =
        List.replicate (g.vars - g.prev) true := by
      rw [List.eq_replicate_iff]
      refine ⟨by simp, fun b hb => ?_⟩
      obtain ⟨i, hi, rfl⟩ := List.mem_map.1 hb
      rw [List.mem_range'_1] at hi
      rw [if_pos hi]
    rw [hold, hnew]
    exact List.append_left_inj _

theorem sim_flush (env : Env) (pre : Point → Prop) : Sim env pre flushVariablePredicates [] [] [] Point.flush fun _ => True := by
  intro g hok _ _
  refine ⟨flushCode g, { g with prev := g.vars }, flush_eq hok.cond, ?_, ?_, ?_⟩
  · exact ⟨⟨hok.cond, hok.le, hok.ge, Nat.le_refl _, hok.cur, hok.noVars⟩, rfl, rfl, rfl, ⟨[], by simp, by simp⟩, rfl, hok.prev, Nat.le_refl _⟩
  · simp [point, Point.flush]
  · intro t preds vpreds hlive
    obtain ⟨t', vpreds', hrun, hlive', hiff⟩ := run_flushCode env hok hlive
    refine ⟨t', preds, vpreds', hrun, hlive', fun _ _ => rfl, by simp [incl], fun expected hlen => ?_⟩
    refine ⟨expected ++ List.replicate (g.vars - g.prev) true, ?_, by simp, ?_⟩
    · have := hok.prev
      simp only [List.length_append, List.length_replicate, hlen]
      omega
    · rw [hiff expected hlen, and_true]

/-- Predicates of chunks to come do not matter. -/
theorem incl_frame {preds' : Table} (hstrings : g'.strings = g.strings) (hbuf : g'.buf = g.buf)
    (h : ∀ k, k < g.strings.length → preds' k = preds k) : incl g' preds' = incl g preds := by
  unfold incl
  rw [hstrings, hbuf]
  congr 1
  refine List.flatMap_congr fun f hf => ?_
  have hlt := List.snd_lt_of_mem_zipIdx hf
  rw [h _ hlt]

/-- After the predicate of the next chunk is there. -/
def copied (a : Point) : Point := { a with early := true, pending := a.early && a.pending }

/-- The next chunk gets a predicate that is true. -/
theorem sim_copyPred (env : Env) (pre : Point → Prop) : Sim env pre copyPred [] [] [] copied fun _ => True := by
  intro g hok _ _
  by_cases hearly : g.strings.length + 1 = g.max
  · refine ⟨[], g, by simp [copyPred, hearly], ?_, by simp [point, copied, hearly], ?_⟩
    · exact ⟨hok, rfl, rfl, rfl, ⟨[], by simp, by simp⟩, rfl, Nat.le_refl _, Nat.le_refl _⟩
    · intro t preds vpreds hlive
      exact ⟨t, preds, vpreds, rfl, hlive, fun _ _ => rfl, by simp, fun expected hlen => ⟨expected, hlen, by simp, by simp⟩⟩
  · have hlen : g.strings.length = g.max := by
      have := hok.le
      have := hok.ge
      omega
    have hok1 : Ok { g with max := g.max + 1 } := by
      refine ⟨hok.cond, Nat.le_succ_of_le hok.le, ?_, hok.prev, hok.cur.imp_right Nat.lt_succ_of_lt, hok.noVars⟩
      exact Nat.succ_le_succ (Nat.le_of_eq hlen.symm)
    refine ⟨.setPred g.number g.max (if g.cur = 0 then none else some g.cur) :: flushCode { g with max := g.max + 1 },
      { g with max := g.max + 1, prev := g.vars }, ?_, ?_, ?_, ?_⟩
    · have hcopy : ¬(¬g.hasCond = true ∨ g.strings.length + 1 = g.max) := by simp [hok.cond, hearly]
      rw [copyPred, if_neg hcopy, flush_eq hok1.cond]
      rfl
    · exact ⟨⟨hok1.cond, hok1.le, hok1.ge, Nat.le_refl _, hok1.cur, hok.noVars⟩, rfl, rfl, rfl, ⟨[], by simp, by simp⟩, rfl, hok.prev,
        Nat.le_succ _⟩
    · simp [point, copied, hlen]
    · intro t preds vpreds hlive
      have hsource : t.source g.number (if g.cur = 0 then none else some g.cur) = some true := by
        refine source_cur hlive ?_
        by_cases h : g.cur = 0
        · exact Or.inl (if_pos h)
        · exact Or.inr ⟨h, if_neg h⟩
      obtain ⟨t1, hrun1, hpreds1, hvpreds1⟩ := run_setPred env g.max hlive.predsTable hsource
      have hlive1 : Live { g with max := g.max + 1 } t1 (fun i => if i = g.max then true else preds i) vpreds := by
        refine ⟨hpreds1, fun h => by rw [hvpreds1]; exact hlive.vpredsTable h, fun k hk => ?_, hlive.freshVpred, ?_, fun _ => ?_⟩
        · have hk : g.max + 1 ≤ k := hk
          rw [if_neg (by omega)]
          exact hlive.freshPred k (by omega)
        · refine hlive.cur.imp_right fun h => ?_
          simp only
          by_cases hc : g.cur = g.max
          · rw [if_pos hc]
          · rw [if_neg hc]
            exact h
        · simp [hlen]
      obtain ⟨t', vpreds', hrun, hlive', hiff⟩ := run_flushCode env hok1 hlive1
      refine ⟨t', _, vpreds', ?_, hlive', fun k hk => if_neg (by omega), ?_, fun expected hlength => ?_⟩
      · rw [run, hrun1]
        exact hrun
      · rw [List.append_nil]
        exact incl_frame rfl rfl fun k hk => if_neg (by omega)
      · refine ⟨expected ++ List.replicate (g.vars - g.prev) true, ?_, by simp, ?_⟩
        · have := hok.prev
          simp only [List.length_append, List.length_replicate, hlength]
          omega
        · rw [hiff expected hlength, and_true]
          rfl

theorem flush_buf {code : List Instr} (h : flushVariablePredicates g = some (code, g')) : g'.buf = g.buf := by
  unfold flushVariablePredicates at h
  split at h
  · cases h
    rfl
  · cases h
    rfl

theorem copyPred_buf {code : List Instr} (h : copyPred g = some (code, g')) : g'.buf = g.buf := by
  unfold copyPred at h
  split at h
  · cases h
    rfl
  · rcases hf : flushVariablePredicates { g with max := g.max + 1 } with _ | ⟨code', g''⟩
    · simp [hf] at h
    · have hbuf := flush_buf hf
      simp only [hf, Option.bind_eq_bind, Option.bind_some, Option.pure_def, Option.some.injEq, Prod.mk.injEq] at h
      rw [← h.2, hbuf]

/-! ## Chunks -/

/-- Add a chunk that has its predicate. -/
def addChunk (chunk : List Item → List Item) : Action :=
  fun g => some ([], { g with strings := g.strings ++ [chunk g.buf], buf := [] })

theorem incl_addChunk (g : Gen) (preds : Table) (chunk : List Item) (h : preds g.strings.length = true) :
    incl { g with strings := g.strings ++ [chunk], buf := [] } preds =
      (g.strings.zipIdx.flatMap fun f => f.1.map fun _ => preds f.2) ++ chunk.map fun _ => true := by
  simp [incl, List.zipIdx_append, h]

theorem point_addChunk (hok : Ok g) (chunk : List Item) (h : (point g).early = true) :
    point { g with strings := g.strings ++ [chunk], buf := [] } = { point g with early := false, empty := true } := by
  have hmax : g.strings.length + 1 = g.max := of_decide_eq_true h
  have := hok.ge
  simp only [point, List.length_append, List.length_singleton, List.isEmpty_nil, Point.mk.injEq, and_true]
  exact decide_eq_false (by omega)

theorem ok_addChunk (hok : Ok g) (chunk : List Item) (h : (point g).early = true) : Ok { g with strings := g.strings ++ [chunk], buf := [] } := by
  have hmax : g.strings.length + 1 = g.max := of_decide_eq_true h
  refine ⟨hok.cond, ?_, ?_, hok.prev, hok.cur, hok.noVars⟩
  · simp only [List.length_append, List.length_singleton]
    omega
  · simp only [List.length_append, List.length_singleton]
    omega

theorem live_addChunk (chunk : List Item) (h : (point g).early = true)
    (hlive : Live g t preds vpreds) : Live { g with strings := g.strings ++ [chunk], buf := [] } t preds vpreds := by
  have hmax : g.strings.length + 1 = g.max := of_decide_eq_true h
  refine ⟨hlive.predsTable, hlive.vpredsTable, hlive.freshPred, hlive.freshVpred, hlive.cur, fun hearly => ?_⟩
  simp only [List.length_append, List.length_singleton] at hearly
  omega

/-- The text that is to be emitted becomes a chunk. -/
theorem sim_addBuf (env : Env) : Sim env (fun a => a.early = true) (addChunk id) [] [] []
    (fun a => { a with early := false, empty := true }) fun _ => True := by
  intro g hok hearly _
  have hmax : g.strings.length + 1 = g.max := of_decide_eq_true hearly
  refine ⟨[], _, rfl, ?_, point_addChunk hok _ hearly, ?_⟩
  · exact ⟨ok_addChunk hok _ hearly, rfl, rfl, rfl, ⟨[g.buf], rfl, by simp⟩, rfl, Nat.le_refl _, Nat.le_refl _⟩
  · intro t preds vpreds hlive
    refine ⟨t, preds, vpreds, rfl, live_addChunk _ hearly hlive, fun _ _ => rfl, ?_,
      fun expected hlen => ⟨expected, hlen, by simp, by simp [flushed]⟩⟩
    rw [incl_addChunk _ _ _ (hlive.early hmax), List.append_nil]
    rfl

/-- The text of a wrapper becomes a chunk. -/
theorem sim_addWrapper (env : Env) (c : Char) : Sim env (fun a => a.early = true ∧ a.empty = true) (addChunk fun _ => [.char c])
    [.char c] [true] [] (fun a => { a with early := false, empty := true }) fun _ => True := by
  intro g hok ⟨hearly, hempty⟩ _
  have hmax : g.strings.length + 1 = g.max := of_decide_eq_true hearly
  have hbuf : g.buf = [] := List.isEmpty_iff.1 hempty
  refine ⟨[], _, rfl, ?_, point_addChunk hok _ hearly, ?_⟩
  · exact ⟨ok_addChunk hok _ hearly, rfl, rfl, rfl, ⟨[[.char c]], rfl, by simp [hbuf]⟩, rfl, Nat.le_refl _, Nat.le_refl _⟩
  · intro t preds vpreds hlive
    refine ⟨t, preds, vpreds, rfl, live_addChunk _ hearly hlive, fun _ _ => rfl, ?_,
      fun expected hlen => ⟨expected, hlen, by simp, by simp [flushed]⟩⟩
    rw [incl_addChunk _ _ _ (hlive.early hmax)]
    simp [incl, hbuf]

/-! ## Emission -/

theorem Sim.congr {env : Env} {pre' : Point → Prop} {a a' : Action} {items' : List Item}
    {mask mask' varMask varMask' : List Bool} {after after' : Point → Point} {kept kept' : Point → Prop}
    (h : Sim env pre a items mask varMask after kept) (hpre : ∀ p, pre' p → pre p)
    (hrun : ∀ g, pre' (point g) → a' g = a g) (hitems : items' = items) (hmask : mask' = mask) (hvarMask : varMask' = varMask)
    (hafter : ∀ p, pre' p → after' p = after p) (hkept : ∀ p, pre' p → (kept' p ↔ kept p)) :
    Sim env pre' a' items' mask' varMask' after' kept' := by
  subst hitems hmask hvarMask
  intro g hok hp hvars
  obtain ⟨code, g', heq, hstatic, hpoint, hdyn⟩ := h g hok (hpre _ hp) hvars
  refine ⟨code, g', (hrun g hp).trans heq, hstatic, hpoint.trans (hafter _ hp).symm, ?_⟩
  rw [propext (hkept _ hp)]
  exact hdyn

theorem sim_emitOneFrag (env : Env) (pre : Point → Prop) : Sim env pre emitOneFrag [] [] [] Point.emit fun _ => True := by
  have hskip : Sim env (fun a => a.empty = true) emitOneFrag [] [] [] Point.emit fun _ => True := by
    refine (sim_skip env _).congr (fun _ h => h) (fun g h => ?_) rfl rfl rfl (fun a h => ?_) fun _ _ => Iff.rfl
    · rw [emitOneFrag, if_pos (List.isEmpty_iff.1 h)]
      rfl
    · rw [Point.emit, if_pos h]
  have hadd : Sim env (fun a => a.empty = false) emitOneFrag [] [] [] Point.emit fun _ => True := by
    refine (Sim.andThen (sim_copyPred env _) (sim_addBuf env) fun a _ => rfl).congr (fun _ h => h) (fun g h => ?_) rfl rfl rfl
      (fun a h => ?_) fun _ _ => by simp
    · have hbuf : g.buf ≠ [] := fun hb => by simp [point, hb] at h
      rw [emitOneFrag, if_neg hbuf]
      rcases hc : copyPred g with _ | ⟨code, g'⟩
      · simp [Action.andThen, hc]
      · have hb : g'.buf = g.buf := copyPred_buf hc
        simp [Action.andThen, hc, addChunk, hb]
    · simp [Point.emit, h, copied]
  intro g hok hp hvars
  by_cases h : (point g).empty = true
  · exact hskip g hok h hvars
  · exact hadd g hok (Bool.eq_false_of_not_eq_true h) hvars

theorem sim_emitWrapper (env : Env) (hpre : ∀ p, pre p → p.empty = true) (c : Char) :
    Sim env pre (emitWrapper c) [.char c] [true] [] Point.wrap fun _ => True := by
  refine (Sim.andThen (sim_copyPred env (fun a => a.empty = true)) (sim_addWrapper env c) fun a h => ⟨rfl, h⟩).congr
    hpre (fun g h => ?_) rfl rfl rfl (fun a h => ?_) fun _ _ => by simp
  · have hbuf : g.buf = [] := List.isEmpty_iff.1 (hpre _ h)
    rcases hc : copyPred g with _ | ⟨code, g'⟩
    · simp [emitWrapper, Action.andThen, hc]
    · have hb : g'.buf = [] := (copyPred_buf hc).trans hbuf
      rcases g' with ⟨number, hasCond, hasVars, cur, max, prev, vars, strings, buf⟩
      subst hb
      simp [emitWrapper, Action.andThen, hc, addChunk]
  · simp [Point.wrap, copied, hpre a h]

/-! ## Points -/

/-- The first chunk of a branch has text when its predicate is set. -/
def Sound (a : Point) : Prop := a.early = true → a.empty = false

/-- There is no text, and the next chunk has no predicate. -/
def Clear (a : Point) : Prop := a.early = false ∧ a.empty = true

theorem sound_put (a : Point) : Sound a.put := fun _ => rfl

theorem sound_var (a : Point) : Sound a.var := fun _ => rfl

theorem clear_emit (h : Sound a) : Clear a.emit := by
  unfold Point.emit
  by_cases hempty : a.empty = true
  · rw [if_pos hempty]
    refine ⟨Bool.eq_false_of_not_eq_true fun hearly => ?_, hempty⟩
    rw [h hearly] at hempty
    exact Bool.false_ne_true hempty
  · rw [if_neg hempty]
    exact ⟨rfl, rfl⟩

theorem clear_wrap (h : Clear a) : Clear a.wrap := ⟨rfl, h.2⟩

theorem clear_flush (h : Clear a) : Clear a.flush := h

theorem clear_done : Clear .done := ⟨rfl, rfl⟩

theorem Clear.sound (h : Clear a) : Sound a := fun hearly => absurd (h.1.symm.trans hearly) Bool.false_ne_true

theorem flush_of_clear (h : Clear a) : a.flush = .done := by
  obtain ⟨early, empty, pending⟩ := a
  obtain ⟨hearly, hempty⟩ := h
  simp only at hearly hempty
  rw [hearly, hempty]
  rfl

/-! ## Branches -/

section

variable {env : Env} {stmt : Action} {items : List Item} {mask varMask : List Bool} {after : Point → Point}
  {kept : Point → Prop}

theorem sim_fragmentStmt (first : Char) (h : Sim env Sound stmt items mask varMask after kept) (hsound : ∀ p, Sound p → Sound (after p)) :
    Sim env (fun _ => True) (fragmentStmt first stmt) (.char first :: items) (true :: mask) varMask (fun _ => .done) (fun p => kept p.put) := by
  have hseq := Sim.andThen (sim_put env (fun _ => True) first) (Sim.andThen h (Sim.andThen (sim_emitOneFrag env fun _ => True)
    (Sim.andThen (sim_flush env fun _ => True) (sim_skip env fun _ => True) fun _ _ => trivial) fun _ _ => trivial)
    fun _ _ => trivial) fun p _ => sound_put p
  refine hseq.congr (fun _ h => h) (fun g _ => rfl) (by simp) (by simp) (by simp) (fun p _ => ?_) fun p _ => by simp
  exact (flush_of_clear (clear_emit (hsound _ (sound_put p)))).symm

/-- The block of a condition that is true. -/
theorem sim_block (first : Char) (h : Sim env Sound stmt items mask varMask after kept) (hsound : ∀ p, Sound p → Sound (after p)) :
    Sim env Clear (block first stmt) (.char first :: items) (true :: mask) varMask (fun _ => .done)
      (fun p => kept (Point.start p.pending).put) := by
  intro g hok ⟨hearly, hempty⟩ hvars
  have hlen : g.strings.length = g.max := by
    have := hok.le
    have := hok.ge
    have : ¬g.strings.length + 1 = g.max := of_decide_eq_false hearly
    omega
  have hbuf : g.buf = [] := List.isEmpty_iff.1 hempty
  have hok1 : Ok { g with cur := g.max, max := g.max + 1 } :=
    ⟨hok.cond, Nat.le_succ_of_le hok.le, Nat.succ_le_succ (Nat.le_of_eq hlen.symm), hok.prev, Or.inr (Nat.lt_succ_self _), hok.noVars⟩
  have hpoint1 : point { g with cur := g.max, max := g.max + 1 } = Point.start (point g).pending := by
    simp [point, Point.start, hlen, hbuf]
  obtain ⟨code, g', hrun, hstatic, hpoint, hdyn⟩ := sim_fragmentStmt first h hsound _ hok1 trivial hvars
  have hstatic : Static { g with cur := g.max, max := g.max + 1 } g' (.char first :: items) varMask.length := hstatic
  rw [hpoint1] at hdyn
  have hmax : g.max + 1 ≤ g'.max := hstatic.max
  have hok' := hstatic.ok
  refine ⟨.setPred g.number g.max none :: code, { g' with cur := g.cur }, ?_, ?_, hpoint, ?_⟩
  · have hset : setPred g = some ([.setPred g.number g.max none], { g with cur := g.max, max := g.max + 1 }) := if_pos hok.cond
    simp only [block, Action.andThen, hset, hrun, Option.bind_eq_bind, Option.bind_some, Option.pure_def, List.cons_append, List.nil_append]
  · exact ⟨⟨hok'.cond, hok'.le, hok'.ge, hok'.prev, hok.cur.imp_right fun h => Nat.lt_trans h hmax, hok'.noVars⟩, hstatic.number,
      hstatic.hasVars, rfl, hstatic.text, hstatic.vars, hstatic.prev, Nat.le_trans (Nat.le_succ _) hmax⟩
  · intro t preds vpreds hlive
    have htrue : t.source g.number none = some true := rfl
    obtain ⟨t1, hrun1, hpreds1, hvpreds1⟩ := run_setPred env g.max hlive.predsTable htrue
    have hlive1 : Live { g with cur := g.max, max := g.max + 1 } t1 (fun i => if i = g.max then true else preds i) vpreds := by
      refine ⟨hpreds1, fun h => by rw [hvpreds1]; exact hlive.vpredsTable h, fun k hk => ?_, hlive.freshVpred, Or.inr (if_pos rfl),
        fun _ => if_pos hlen⟩
      have hk : g.max + 1 ≤ k := hk
      rw [if_neg (by omega)]
      exact hlive.freshPred k (by omega)
    obtain ⟨t', preds', vpreds', hexec, hlive', hframe, hincl, hbound⟩ := (hdyn t1 _ vpreds hlive1).exec
    have hold : ∀ k, k < g.max → preds' k = preds k := fun k hk => by
      rw [hframe k (Nat.lt_succ_of_lt hk), if_neg (Nat.ne_of_lt hk)]
    refine ⟨t', preds', vpreds', ?_, ?_, hold, ?_, hbound⟩
    · rw [run, hrun1]
      exact hexec
    · refine ⟨hlive'.predsTable, hlive'.vpredsTable, hlive'.freshPred, hlive'.freshVpred, ?_, hlive'.early⟩
      rcases hlive.cur with h0 | hpred
      · exact Or.inl h0
      · exact hok.cur.imp_right fun hlt => (hold _ hlt).trans hpred
    · refine Eq.trans hincl ?_
      exact congrArg (· ++ true :: mask) (incl_frame (g := g) rfl rfl fun k hk => if_neg (by omega))

end

/-- A chunk list with fresh predicates is left out. -/
theorem incl_fresh (htext : ∃ chunks, g'.strings = g.strings ++ chunks ∧ chunks.flatten ++ g'.buf = g.buf ++ items) (hbuf : g.buf = [])
    (hbuf' : g'.buf = []) (h : ∀ k, g.strings.length ≤ k → preds k = false) : incl g' preds = incl g preds ++ items.map fun _ => false := by
  obtain ⟨chunks, hstrings, hflat⟩ := htext
  rw [hbuf, hbuf', List.append_nil, List.nil_append] at hflat
  subst hflat
  unfold incl
  rw [hstrings, hbuf, hbuf', List.map_nil, List.append_nil, List.append_nil, List.zipIdx_append, List.flatMap_append]
  congr 1
  have hfalse : (chunks.zipIdx (0 + g.strings.length)).flatMap (fun f => f.1.map fun _ => preds f.2) =
      (chunks.zipIdx (0 + g.strings.length)).flatMap fun f => f.1.map fun _ => false := by
    refine List.flatMap_congr fun f hf => ?_
    have hle := List.le_snd_of_mem_zipIdx hf
    rw [h _ (by omega)]
  rw [hfalse, List.map_flatten]
  generalize 0 + g.strings.length = n
  clear hstrings h hfalse hbuf'
  induction chunks generalizing n with
  | nil => rfl
  | cons chunk chunks ih => rw [List.zipIdx_cons, List.flatMap_cons, List.map_cons, List.flatten_cons, ih]

/-- Code that is not run leaves the tables as they are. -/
theorem Live.skipped {n : Nat} (hstatic : Static g g' items n)
    (hdone : g'.strings.length = g'.max) (h : Live g t preds vpreds) : Live g' t preds vpreds := by
  refine ⟨by rw [hstatic.number]; exact h.predsTable, fun hv => ?_, fun k hk => h.freshPred k (Nat.le_trans hstatic.max hk),
    fun i hi => h.freshVpred i (Nat.le_trans hstatic.prev hi), by rw [hstatic.cur]; exact h.cur, fun hearly => ?_⟩
  · rw [hstatic.number]
    rw [hstatic.hasVars] at hv
    exact h.vpredsTable hv
  · omega

theorem flushed_fresh (hprev : g.prev ≤ g'.prev) (h : ∀ i, g.prev ≤ i → vpreds i = false) :
    flushed g' vpreds = flushed g vpreds ++ List.replicate (g'.prev - g.prev) false := by
  unfold flushed
  rw [range_map_append hprev]
  congr 1
  rw [List.eq_replicate_iff]
  refine ⟨by simp, fun b hb => ?_⟩
  obtain ⟨i, hi, rfl⟩ := List.mem_map.1 hb
  rw [List.mem_range'_1] at hi
  exact h i hi.1

theorem of_clear (hok : Ok g) (h : Clear (point g)) : g.buf = [] ∧ g.strings.length = g.max := by
  have hlt : ¬g.strings.length + 1 = g.max := of_decide_eq_false h.1
  have := hok.le
  have := hok.ge
  exact ⟨List.isEmpty_iff.1 h.2, by omega⟩

theorem prev_of_done (hok : Ok g) (h : point g = .done) : g.prev = g.vars := by
  have hlt : ¬g.prev < g.vars := of_decide_eq_false (congrArg Point.pending h)
  have := hok.prev
  omega

theorem map_const_false {α : Type} (l : List α) : (l.map fun _ => false) = List.replicate l.length false := List.map_const' ..

section

variable {env : Env} {pre kept kept' : Point → Prop} {thn els : Action} {items items' : List Item} {mask mask' varMask varMask' : List Bool}

/-- One branch is run; in the other, no predicate is set. -/
theorem sim_ifThenElse {c : Cond} (hc : c.hasSelect = false) (hclear : ∀ p, pre p → Clear p)
    (hthn : Sim env pre thn items mask varMask (fun _ => .done) kept)
    (hels : Sim env (fun p => p = .done) els items' mask' varMask' (fun _ => .done) kept') :
    Sim env pre (ifThenElse c thn els) (items ++ items')
      (if (env c.id).luaTrue then mask ++ items'.map fun _ => false else (items.map fun _ => false) ++ mask')
      (if (env c.id).luaTrue then varMask ++ varMask'.map fun _ => false else (varMask.map fun _ => false) ++ varMask')
      (fun _ => .done) (fun p => if (env c.id).luaTrue then kept p else p.pending = false ∧ kept' .done) := by
  intro g hok hp hvars
  have hlength : (if (env c.id).luaTrue then varMask ++ varMask'.map fun _ => false
      else (varMask.map fun _ => false) ++ varMask').length = varMask.length + varMask'.length := by
    split
    · simp
    · simp
  have hnil : g.hasVars = true ∨ (varMask = [] ∧ varMask' = []) := by
    refine hvars.imp_right fun h => ?_
    rw [← List.length_eq_zero_iff, hlength] at h
    exact ⟨List.length_eq_zero_iff.1 (by omega), List.length_eq_zero_iff.1 (by omega)⟩
  obtain ⟨code, g1, hrun, hstatic, hpoint, hdyn⟩ := hthn g hok hp (hnil.imp_right And.left)
  obtain ⟨code', g2, hrun', hstatic', hpoint', hdyn'⟩ := hels g1 hstatic.ok hpoint (by rw [hstatic.hasVars]; exact hnil.imp_right And.right)
  rw [hpoint] at hdyn'
  obtain ⟨hbuf, hmax⟩ := of_clear hok (hclear _ hp)
  obtain ⟨hbuf1, hmax1⟩ := of_clear hstatic.ok (hpoint ▸ clear_done)
  obtain ⟨hbuf2, hmax2⟩ := of_clear hstatic'.ok (hpoint' ▸ clear_done)
  have hprev := hok.prev
  have hprev1 := prev_of_done hstatic.ok hpoint
  have hprev2 := prev_of_done hstatic'.ok hpoint'
  have hvars1 := hstatic.vars
  have hvars2 := hstatic'.vars
  refine ⟨[.ite c.id code code'], g2, ?_, ?_, hpoint', ?_⟩
  · simp [ifThenElse, hc, hrun, hrun']
  · rw [hlength]
    exact hstatic.trans hstatic'
  · intro t preds vpreds hlive
    by_cases htrue : (env c.id).luaTrue = true
    · simp only [htrue, if_true]
      obtain ⟨t1, preds1, vpreds1, hexec, hlive1, hframe, hincl, hbound⟩ := (hdyn t preds vpreds hlive).exec
      refine ⟨t1, preds1, vpreds1, ?_, hlive1.skipped hstatic' hmax2, hframe, ?_, fun expected hlen => ?_⟩
      · simp [run, Instr.run, htrue, hexec]
      · rw [incl_fresh hstatic'.text hbuf1 hbuf2 fun k hk => hlive1.freshPred k (hmax1 ▸ hk), hincl, List.append_assoc]
      · obtain ⟨expected1, hlen1, heq1, hiff1⟩ := hbound expected hlen
        refine ⟨expected1 ++ List.replicate varMask'.length false, ?_, ?_, ?_⟩
        · simp only [List.length_append, List.length_replicate, hlen1]
          omega
        · rw [hprev1, Nat.sub_self, List.replicate_zero, List.append_nil] at heq1
          rw [hprev2, Nat.sub_self, List.replicate_zero, List.append_nil, heq1, map_const_false]
          simp only [List.append_assoc]
        · rw [flushed_fresh hstatic'.prev hlive1.freshVpred, show g2.prev - g1.prev = varMask'.length by omega, List.append_left_inj, hiff1]
    · have hfalse : (env c.id).luaTrue = false := Bool.eq_false_of_not_eq_true htrue
      simp only [hfalse, Bool.false_eq_true, if_false]
      have hlive1 := hlive.skipped hstatic hmax1
      obtain ⟨t2, preds2, vpreds2, hexec2, hlive2, hframe2, hincl2, hbound2⟩ := (hdyn' t preds vpreds hlive1).exec
      refine ⟨t2, preds2, vpreds2, ?_, hlive2, fun k hk => hframe2 k (Nat.lt_of_lt_of_le hk hstatic.max), ?_, fun expected hlen => ?_⟩
      · simp [run, Instr.run, hfalse, hexec2]
      · rw [hincl2, incl_fresh hstatic.text hbuf hbuf1 fun k hk => hlive.freshPred k (hmax ▸ hk), List.append_assoc]
      · obtain ⟨expected2, hlen2, heq2, hiff2⟩ := hbound2
          (expected ++ (List.replicate (g.vars - g.prev) true ++ List.replicate varMask.length false)) (by
            simp only [List.length_append, List.length_replicate, hlen]
            omega)
        refine ⟨expected2, hlen2, ?_, ?_⟩
        · rw [heq2, hprev1, Nat.sub_self, List.replicate_zero, List.nil_append, map_const_false]
          simp only [List.append_assoc]
        · have hsub : g1.prev - g.prev = g.vars - g.prev + varMask.length := by omega
          rw [hiff2, flushed_fresh hstatic.prev hlive.freshVpred, hsub, List.replicate_add, ← and_assoc]
          refine and_congr_left fun _ => ?_
          have hlens : (flushed g vpreds).length = expected.length := by simp [flushed, hlen]
          rw [List.append_eq_append_iff_of_size_eq_left hlens, List.append_left_inj]
          refine and_congr_right fun _ => ?_
          have hpending : (point g).pending = false ↔ g.vars - g.prev = 0 := by
            simp only [point, decide_eq_false_iff_not]
            omega
          rw [hpending]
          constructor
          · intro h
            rcases hn : g.vars - g.prev with _ | n
            · rfl
            · rw [hn, List.replicate_succ, List.replicate_succ] at h
              exact absurd (List.cons.inj h).1 Bool.false_ne_true
          · intro h
            rw [h]
            rfl

end

end FragmentsAux

end CgSql.LuaFragments
