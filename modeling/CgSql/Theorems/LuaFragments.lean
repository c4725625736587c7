import CgSql.Lemmas.LuaBranches

/-!
# Conditional fragments choose their branches

The text that is prepared and the values that are bound are those of the taken branches, unless a number that is zero is a condition,
or variables are still without predicates when a condition is false: the generator sets those predicates inside of the first branch.
-/

namespace CgSql.LuaFragments

open Action

namespace FragmentsAux

variable {a stmt : Action} {items : List Item} {g : Gen} {p : Prop} {code : List Instr}

/-! ## Points of statements -/

mutual

/-- Pieces keep the point sound. -/
theorem Pieces.after_sound : ∀ (p : Pieces) {a : Point}, Sound a → Sound (p.after a)
  | .nil, _, h => h
  | .char _ rest, _, _ => Pieces.after_sound rest (sound_put _)
  | .var _ rest, _, _ => Pieces.after_sound rest (sound_var _)
  | .inline _ _ rest, _, _ => Pieces.after_sound rest (clear_emit (sound_put _)).sound
  | .call false _ body rest, _, h => Pieces.after_sound rest (Body.after_clear body (clear_emit h)).sound
  | .call true _ body rest, _, h =>
    Pieces.after_sound rest (clear_wrap (Body.after_clear body (clear_wrap (clear_emit h)))).sound

theorem Body.after_clear : ∀ (b : Body) {a : Point}, Clear a → Clear (b.after a)
  | .plain _ stmt, _, _ => clear_flush (clear_emit (Pieces.after_sound stmt (sound_put _)))
  | .cond .., _, _ => clear_done

end

/-! ## Statements -/

section

variable (env : Env)

mutual

/-- What the generator does for the items of a statement. -/
theorem Pieces.sim : ∀ p : Pieces, p.NoSelects → Sim env Sound p.gen p.flat (p.mask fun c => (env c).luaTrue)
    (p.varMask fun c => (env c).luaTrue) p.after (p.Kept env)
  | .nil, _ => (sim_skip env Sound).congr (fun _ h => h) (fun _ _ => rfl) rfl rfl rfl (fun _ _ => rfl) fun _ _ => Iff.rfl
  | .char c rest, h => by
    refine ((sim_put env Sound c).andThen (Pieces.sim rest h) fun a _ => sound_put a).congr (fun _ h => h) (fun _ _ => rfl) rfl rfl
      rfl (fun _ _ => rfl) fun _ _ => ?_
    simp [Pieces.Kept]
  | .var name rest, h => by
    refine ((sim_captureVariable env Sound name).andThen (Pieces.sim rest h) fun a _ => sound_var a).congr (fun _ h => h)
      (fun _ _ => rfl) rfl rfl rfl (fun _ _ => rfl) fun _ _ => ?_
    simp [Pieces.Kept]
  | .inline body tail rest, h => by
    have hrest := Sim.andThen (sim_put env (fun _ => True) ')') (Sim.andThen (sim_emitOneFrag env Sound)
      (Sim.andThen (Pieces.sim rest h.2.2) (sim_skip env fun _ => True) fun _ _ => trivial) fun a h => (clear_emit h).sound)
      fun a _ => sound_put a
    have htail := Sim.andThen (sim_emitOneFrag env Sound) (Sim.andThen (sim_flush env Sound)
      (Sim.andThen (Pieces.sim tail h.2.1) hrest fun _ _ => trivial) fun a h => h) fun a h => (clear_emit h).sound
    have hall := Sim.andThen (sim_emitOneFrag env Sound) (Sim.andThen (sim_put env (fun _ => True) '(')
      (Sim.andThen (Pieces.sim body h.1) htail fun a h => Pieces.after_sound body h) fun a _ => sound_put a) fun _ _ => trivial
    refine hall.congr (fun _ h => h) (fun _ _ => rfl) ?_ ?_ ?_ (fun _ _ => rfl) fun _ _ => ?_
    · simp [Pieces.flat]
    · simp [Pieces.mask]
    · simp [Pieces.varMask]
    · simp [Pieces.Kept]
  | .call inFrom args body rest, h => by
    obtain ⟨rfl, hbody, hrest⟩ := h
    have hbody := Body.sim body hbody
    have hrest := Sim.andThen (Pieces.sim rest hrest) (sim_skip env fun _ => True) fun _ _ => trivial
    rcases inFrom with _ | _
    · have hall := Sim.andThen (sim_skip env Sound) (Sim.andThen (sim_emitOneFrag env Sound) (Sim.andThen (sim_skip env Clear)
        (Sim.andThen hbody (Sim.andThen (sim_skip env Sound) hrest fun _ h => h) fun a h => (Body.after_clear body h).sound)
        fun _ h => h) fun a h => clear_emit h) fun _ h => h
      refine hall.congr (fun _ h => h) (fun _ _ => rfl) ?_ ?_ ?_ (fun _ _ => rfl) fun _ _ => ?_
      · simp [Pieces.flat]
      · simp [Pieces.mask]
      · simp [Pieces.varMask]
      · simp [Pieces.Kept]
    · have hclear : ∀ p, Clear p → p.empty = true := fun _ h => h.2
      have hout := Sim.andThen (sim_emitWrapper env hclear ')') hrest fun a h => (clear_wrap h).sound
      have hin := Sim.andThen (sim_emitWrapper env hclear '(') (Sim.andThen hbody hout fun a h => Body.after_clear body h) fun a h => clear_wrap h
      have hall := Sim.andThen (sim_skip env Sound) (Sim.andThen (sim_emitOneFrag env Sound) hin fun a h => clear_emit h) fun _ h => h
      refine hall.congr (fun _ h => h) (fun _ _ => rfl) ?_ ?_ ?_ (fun _ _ => rfl) fun _ _ => ?_
      · simp [Pieces.flat]
      · simp [Pieces.mask]
      · simp [Pieces.varMask]
      · simp [Pieces.Kept]

/-- Bodies are simulated. -/
theorem Body.sim : ∀ b : Body, b.NoSelects → Sim env Clear b.gen b.flat (b.mask fun c => (env c).luaTrue)
    (b.varMask fun c => (env c).luaTrue) b.after (b.Kept env)
  | .plain first stmt, h => by
    refine (sim_fragmentStmt first (Pieces.sim stmt h) fun _ => Pieces.after_sound stmt).congr (fun _ _ => trivial) (fun _ _ => rfl)
      rfl rfl rfl (fun a _ => ?_) fun _ _ => Iff.rfl
    exact flush_of_clear (clear_emit (Pieces.after_sound stmt (sound_put a)))
  | .cond c first stmt alt, h => by
    obtain ⟨hc, hstmt, halt⟩ := h
    have hthn := sim_block first (Pieces.sim stmt hstmt) fun _ => Pieces.after_sound stmt
    refine (sim_ifThenElse hc (fun _ h => h) hthn (Alt.sim alt halt)).congr (fun _ h => h) (fun _ _ => rfl) rfl ?_ rfl
      (fun _ _ => rfl) fun _ _ => Iff.rfl
    have hlen : (Item.char first :: stmt.flat).length = (true :: stmt.mask fun c => (env c).luaTrue).length := by
      rw [List.length_cons, List.length_cons, Pieces.mask_length]
    rw [← map_false_of_length (Alt.mask_length _ alt), Body.mask, map_false_of_length hlen]
    rfl

/-- So are the alternatives of a condition. -/
theorem Alt.sim : ∀ a : Alt, a.NoSelects → Sim env (fun p => p = .done) a.gen a.flat (a.mask fun c => (env c).luaTrue)
    (a.varMask fun c => (env c).luaTrue) (fun _ => .done) fun _ => a.Kept env
  | .otherwise first stmt, h => by
    refine (sim_block first (Pieces.sim stmt h) fun _ => Pieces.after_sound stmt).congr ?_ (fun _ _ => rfl) rfl rfl rfl (fun _ _ => rfl) ?_
    · rintro _ rfl
      exact clear_done
    · rintro _ rfl
      rfl
  | .elseif c first stmt alt, h => by
    obtain ⟨hc, hstmt, halt⟩ := h
    have hthn := (sim_block first (Pieces.sim stmt hstmt) fun _ => Pieces.after_sound stmt)
    refine (sim_ifThenElse hc (fun _ h => h) hthn (Alt.sim alt halt)).congr ?_ (fun _ _ => rfl) rfl ?_ rfl (fun _ _ => rfl) ?_
    · rintro _ rfl
      exact clear_done
    · have hlen : (Item.char first :: stmt.flat).length = (true :: stmt.mask fun c => (env c).luaTrue).length := by
        rw [List.length_cons, List.length_cons, Pieces.mask_length]
      rw [← map_false_of_length (Alt.mask_length _ alt), Alt.mask, map_false_of_length hlen]
      rfl
    · rintro _ rfl
      simp [Alt.Kept, Point.done]

end

end

/-! ## The end of a statement -/

/-- Outside of branches: variables without predicates are in text that is not yet emitted. -/
def Ready (a : Point) : Prop := a.early = false ∧ (a.pending = true → a.empty = false)

/-- A point that is ready is done. -/
theorem emit_of_ready {a : Point} (h : Ready a) : a.emit = .done := by
  obtain ⟨early, empty, pending⟩ := a
  obtain ⟨hearly, hpending⟩ := h
  simp only at hearly hpending
  rcases empty with _ | _
  · simp [Point.emit, Point.done, hearly]
  · rcases pending with _ | _
    · simp [Point.emit, Point.done, hearly]
    · simp at hpending

mutual

theorem Pieces.after_ready : ∀ (p : Pieces) {a : Point}, Ready a → Ready (p.after a)
  | .nil, _, h => h
  | .char _ rest, _, h => Pieces.after_ready rest ⟨h.1, fun _ => rfl⟩
  | .var _ rest, _, h => Pieces.after_ready rest ⟨h.1, fun _ => rfl⟩
  | .inline body tail rest, a, h => by
    have hbody : Ready (body.after a.emit.put) := by
      refine Pieces.after_ready body ?_
      rw [emit_of_ready h]
      exact ⟨rfl, fun _ => rfl⟩
    have htail : Ready (tail.after (body.after a.emit.put).emit.flush) := by
      refine Pieces.after_ready tail ?_
      rw [emit_of_ready hbody]
      exact ⟨rfl, fun h => absurd h Bool.false_ne_true⟩
    have hput : Ready (tail.after (body.after a.emit.put).emit.flush).put := ⟨htail.1, fun _ => rfl⟩
    refine Pieces.after_ready rest ?_
    rw [emit_of_ready hput]
    exact ⟨rfl, fun h => absurd h Bool.false_ne_true⟩
  | .call inFrom _ body rest, a, h => by
    have hdone : Ready .done := ⟨rfl, fun h => absurd h Bool.false_ne_true⟩
    refine Pieces.after_ready rest ?_
    rcases inFrom with _ | _
    · simp only [Bool.false_eq_true, if_false]
      rw [emit_of_ready h, Body.after_of_ready body hdone]
      exact hdone
    · simp only [if_true]
      rw [emit_of_ready h, Body.after_of_ready body (a := Point.done.wrap) hdone]
      exact hdone

theorem Body.after_of_ready : ∀ (b : Body) {a : Point}, Ready a → b.after a = .done
  | .plain _ stmt, a, h => by
    have hstmt : Ready (stmt.after a.put) := Pieces.after_ready stmt ⟨h.1, fun _ => rfl⟩
    rw [Body.after, emit_of_ready hstmt]
    rfl
  | .cond .., _, _ => rfl

end

/-! ## Statements without conditions -/

/-- Without conditions no code is emitted, and the text is in order; some parts need that there is no text to emit, and some leave
none. -/
def Plain (before : Prop) (a : Action) (items : List Item) (after : Prop) : Prop :=
  ∀ g, g.hasCond = false → (before → g.buf = []) → ∃ g', a g = some ([], g') ∧ g'.hasCond = false ∧
    g'.strings.flatten ++ g'.buf = g.strings.flatten ++ g.buf ++ items ∧ (after → g'.buf = [])

/-- One action after the other. -/
theorem Plain.andThen {before middle after : Prop} {a' : Action} {items' : List Item} (h : Plain before a items middle)
    (h' : Plain middle a' items' after) : Plain before (a.andThen a') (items ++ items') after := by
  intro g hcond hbuf
  obtain ⟨g1, hrun, hcond1, htext, hbuf1⟩ := h g hcond hbuf
  obtain ⟨g2, hrun', hcond2, htext', hbuf2⟩ := h' g1 hcond1 hbuf1
  refine ⟨g2, ?_, hcond2, ?_, hbuf2⟩
  · simp [Action.andThen, hrun, hrun']
  · rw [htext', htext, List.append_assoc]

theorem plain_skip (p : Prop) : Plain p skip [] p := fun g hcond hbuf => ⟨g, rfl, hcond, by simp, hbuf⟩

/-- Other conditions. -/
theorem Plain.imp {before before' after after' : Prop} (h : Plain before a items after)
    (hbefore : before → before') (hafter : after' → after) : Plain before' a items after' := by
  intro g hcond hbuf
  obtain ⟨g', hrun, hcond', htext, hbuf'⟩ := h g hcond (hbuf ∘ hbefore)
  exact ⟨g', hrun, hcond', htext, hbuf' ∘ hafter⟩

theorem plain_put (item : Item) : Plain False (put item) [item] False :=
  fun g hcond _ => ⟨_, rfl, hcond, by simp, False.elim⟩

theorem plain_captureVariable (name : String) : Plain False (captureVariable name) [.var name] False :=
  fun g hcond _ => ⟨_, rfl, hcond, by simp, False.elim⟩

theorem plain_flush (p : Prop) : Plain p flushVariablePredicates [] p :=
  fun g hcond hbuf => ⟨g, by simp [flushVariablePredicates, hcond], hcond, by simp, hbuf⟩

theorem copyPred_of_plain (h : g.hasCond = false) : copyPred g = some ([], g) := by simp [copyPred, h]

/-- The end of a fragment. -/
theorem plain_emitOneFrag : Plain False emitOneFrag [] True := by
  intro g hcond _
  by_cases hbuf : g.buf = []
  · exact ⟨g, if_pos hbuf, hcond, by simp, fun _ => hbuf⟩
  · refine ⟨{ g with strings := g.strings ++ [g.buf], buf := [] }, ?_, hcond, by simp, fun _ => rfl⟩
    rw [emitOneFrag, if_neg hbuf, copyPred_of_plain hcond]
    rfl

theorem plain_emitWrapper (c : Char) : Plain True (emitWrapper c) [.char c] True := by
  intro g hcond hbuf
  refine ⟨{ g with strings := g.strings ++ [[.char c]] }, ?_, hcond, by simp [hbuf trivial], hbuf⟩
  rw [emitWrapper, copyPred_of_plain hcond]
  rfl

/-- A fragment. -/
theorem plain_fragmentStmt (first : Char) (h : Plain False stmt items False) :
    Plain False (fragmentStmt first stmt) (.char first :: items) True := by
  have hseq := (plain_put (.char first)).andThen (h.andThen (plain_emitOneFrag.andThen ((plain_flush True).andThen (plain_skip True))))
  rw [List.append_nil, List.append_nil, List.append_nil] at hseq
  exact hseq

/-- The statement of a SELECT without conditions. -/
theorem boundSqlStatement_plain (h : Plain False stmt items False) (hasVars hasShared : Bool)
    (number : Nat) : ∃ g, boundSqlStatement false hasVars hasShared stmt number = some ([], g) ∧ g.hasCond = false ∧ g.frags.flatten = items := by
  have hend : Plain False (if hasShared then emitOneFrag else skip) [] False := by
    rcases hasShared with _ | _
    · exact plain_skip False
    · exact plain_emitOneFrag.imp id fun _ => trivial
  obtain ⟨g, hrun, hcond, htext, -⟩ := (h.andThen (hend.andThen (plain_skip False)))
    { number := number + 1, hasCond := false, hasVars := hasVars, cur := 0, max := 0, prev := 0, vars := 0, strings := [], buf := [] }
    rfl False.elim
  refine ⟨g, ?_, hcond, ?_⟩
  · simp only [boundSqlStatement, seq, List.foldr_cons, List.foldr_nil, hrun]
    rfl
  · have hfrags : g.frags.flatten = g.strings.flatten ++ g.buf := by
      unfold Gen.frags
      split
      next hbuf => simp [hbuf]
      next => simp
    rw [hfrags, htext]
    simp

/-- A nested select. -/
theorem plain_nestedSelect (h : Plain False stmt items False) (hasVars hasShared : Bool)
    (p : Prop) : Plain p (nestedSelect false hasVars hasShared stmt) [] p := by
  intro g hcond hbuf
  obtain ⟨g', hrun, -, -⟩ := boundSqlStatement_plain h hasVars hasShared g.number
  refine ⟨{ g with number := g'.number }, ?_, hcond, by simp, hbuf⟩
  simp [nestedSelect, hrun]

mutual

/-- Pieces without conditions are plain. -/
theorem Pieces.plain : ∀ p : Pieces, p.hasCond = false → Plain False p.gen p.flat False
  | .nil, _ => plain_skip False
  | .char c rest, h => (plain_put (.char c)).andThen (Pieces.plain rest h)
  | .var name rest, h => (plain_captureVariable name).andThen (Pieces.plain rest h)
  | .inline body tail rest, h => by
    simp only [Pieces.hasCond, Bool.or_eq_false_iff] at h
    have hend := (plain_put (.char ')')).andThen (plain_emitOneFrag.andThen (((Pieces.plain rest h.2).imp False.elim id).andThen
      (plain_skip False)))
    have htail := plain_emitOneFrag.andThen ((plain_flush True).andThen (((Pieces.plain tail h.1.2).imp False.elim id).andThen hend))
    have hall := plain_emitOneFrag.andThen (((plain_put (.char '(')).imp False.elim id).andThen ((Pieces.plain body h.1.1).andThen htail))
    simp only [List.append_nil, List.nil_append] at hall
    exact hall
  | .call inFrom args body rest, h => by
    simp only [Pieces.hasCond, Bool.or_eq_false_iff] at h
    have hrest : Plain True (rest.gen.andThen skip) (rest.flat ++ []) False :=
      ((Pieces.plain rest h.2).imp False.elim id).andThen (plain_skip False)
    have hbody : Plain True body.gen body.flat True := (Body.plain body h.1.2).imp False.elim id
    have hargs := Selects.plain args h.1.1 False
    rcases inFrom with _ | _
    · have hall := hargs.andThen (plain_emitOneFrag.andThen ((plain_skip True).andThen (hbody.andThen ((plain_skip True).andThen hrest))))
      simp only [List.append_nil, List.nil_append] at hall
      exact hall
    · have hall := hargs.andThen (plain_emitOneFrag.andThen ((plain_emitWrapper '(').andThen (hbody.andThen
        ((plain_emitWrapper ')').andThen hrest))))
      simp only [List.append_nil, List.nil_append] at hall
      exact hall

/-- So are bodies. -/
theorem Body.plain : ∀ b : Body, b.hasCond = false → Plain False b.gen b.flat True
  | .plain first stmt, h => plain_fragmentStmt first (Pieces.plain stmt h)
  | .cond .., h => absurd h.symm Bool.false_ne_true

theorem Selects.plain : ∀ s : Selects, s.hasCond = false → ∀ p : Prop, Plain p s.gen [] p
  | .nil, _, p => plain_skip p
  | .cons stmt rest, h, p => by
    simp only [Selects.hasCond, Bool.or_eq_false_iff] at h
    have hstmt := plain_nestedSelect (Pieces.plain stmt h.1) stmt.hasVars stmt.hasShared p
    rw [← h.1] at hstmt
    exact hstmt.andThen (Selects.plain rest h.2 p)

end

section

variable (truth : Nat → Bool)

mutual

/-- Without conditions nothing is masked. -/
theorem Pieces.masks_of_plain : ∀ p : Pieces, p.hasCond = false →
    p.mask truth = p.flat.map (fun _ => true) ∧ p.varMask truth = (boundVariables p.flat).map fun _ => true
  | .nil, _ => ⟨rfl, rfl⟩
  | .char _ rest, h => (Pieces.masks_of_plain rest h).imp_left (congrArg (true :: ·))
  | .var _ rest, h => (Pieces.masks_of_plain rest h).imp (congrArg (true :: ·)) (congrArg (true :: ·))
  | .inline body tail rest, h => by
    simp only [Pieces.hasCond, Bool.or_eq_false_iff] at h
    obtain ⟨hbody, hbody'⟩ := Pieces.masks_of_plain body h.1.1
    obtain ⟨htail, htail'⟩ := Pieces.masks_of_plain tail h.1.2
    obtain ⟨hrest, hrest'⟩ := Pieces.masks_of_plain rest h.2
    refine ⟨?_, ?_⟩
    · simp [Pieces.mask, Pieces.flat, hbody, htail, hrest]
    · simp only [Pieces.varMask, Pieces.flat, hbody', htail', hrest']
      simp [boundVariables]
  | .call inFrom args body rest, h => by
    simp only [Pieces.hasCond, Bool.or_eq_false_iff] at h
    obtain ⟨hbody, hbody'⟩ := Body.masks_of_plain body h.1.2
    obtain ⟨hrest, hrest'⟩ := Pieces.masks_of_plain rest h.2
    rcases inFrom with _ | _
    · refine ⟨by simp [Pieces.mask, Pieces.flat, hbody, hrest], ?_⟩
      simp only [Pieces.varMask, Pieces.flat, hbody', hrest']
      simp [boundVariables]
    · refine ⟨by simp [Pieces.mask, Pieces.flat, hbody, hrest], ?_⟩
      simp only [Pieces.varMask, Pieces.flat, hbody', hrest']
      simp [boundVariables]

theorem Body.masks_of_plain : ∀ b : Body, b.hasCond = false →
    b.mask truth = b.flat.map (fun _ => true) ∧ b.varMask truth = (boundVariables b.flat).map fun _ => true
  | .plain _ stmt, h => (Pieces.masks_of_plain stmt h).imp_left (congrArg (true :: ·))
  | .cond .., h => absurd h.symm Bool.false_ne_true

end

end

/-! ## Numbers of statements -/

/-- The number of the statement grows, unless a property holds. -/
def Numbered (a : Action) (p : Prop) : Prop :=
  ∀ g code g', a g = some (code, g') → g.number ≤ g'.number ∧ (g'.number = g.number → p)

/-- One action after the other. -/
theorem Numbered.andThen {a' : Action} {p' : Prop} (h : Numbered a p) (h' : Numbered a' p') : Numbered (a.andThen a') (p ∧ p') := by
  intro g code g' hrun
  simp only [Action.andThen, Option.bind_eq_bind, Option.bind_eq_some_iff, Option.pure_def, Option.some.injEq, Prod.mk.injEq, Prod.exists] at hrun
  obtain ⟨code1, g1, hrun1, code2, g2, hrun2, -, rfl⟩ := hrun
  obtain ⟨hle, hp⟩ := h g code1 g1 hrun1
  obtain ⟨hle', hp'⟩ := h' g1 code2 g2 hrun2
  exact ⟨Nat.le_trans hle hle', fun heq => ⟨hp (by omega), hp' (by omega)⟩⟩

/-- Parts that do not prepare a statement. -/
theorem Numbered.of_eq (h : ∀ g code g', a g = some (code, g') → g'.number = g.number) : Numbered a True :=
  fun g code g' hrun => ⟨Nat.le_of_eq (h g code g' hrun).symm, fun _ => trivial⟩

theorem numbered_skip : Numbered skip True := Numbered.of_eq fun g code g' h => by cases h; rfl

theorem numbered_put (item : Item) : Numbered (put item) True := Numbered.of_eq fun g code g' h => by cases h; rfl

theorem numbered_captureVariable (name : String) : Numbered (captureVariable name) True :=
  Numbered.of_eq fun g code g' h => by cases h; rfl

theorem flush_number {g' : Gen} (h : flushVariablePredicates g = some (code, g')) : g'.number = g.number := by
  unfold flushVariablePredicates at h
  split at h
  · cases h
    rfl
  · cases h
    rfl

theorem copyPred_number {g' : Gen} (h : copyPred g = some (code, g')) : g'.number = g.number := by
  unfold copyPred at h
  split at h
  · cases h
    rfl
  · obtain ⟨⟨code1, g1⟩, hflush, h⟩ := Option.bind_eq_some_iff.1 h
    cases h
    exact (flush_number hflush).trans rfl

theorem numbered_flush : Numbered flushVariablePredicates True := Numbered.of_eq fun _ _ _ => flush_number

theorem numbered_emitOneFrag : Numbered emitOneFrag True := by
  refine Numbered.of_eq fun g code g' h => ?_
  unfold emitOneFrag at h
  split at h
  · cases h
    rfl
  · obtain ⟨⟨code1, g1⟩, hcopy, h⟩ := Option.bind_eq_some_iff.1 h
    have hnumber := copyPred_number hcopy
    cases h
    exact hnumber

theorem numbered_emitWrapper (c : Char) : Numbered (emitWrapper c) True := by
  refine Numbered.of_eq fun g code g' h => ?_
  obtain ⟨⟨code1, g1⟩, hcopy, h⟩ := Option.bind_eq_some_iff.1 h
  have hnumber := copyPred_number hcopy
  cases h
  exact hnumber

theorem numbered_fragmentStmt (first : Char) (h : Numbered stmt p) : Numbered (fragmentStmt first stmt) p :=
  fun g code g' hrun => ((numbered_put _).andThen (h.andThen (numbered_emitOneFrag.andThen (numbered_flush.andThen numbered_skip)))
    g code g' hrun).imp_right fun hp heq => (hp heq).2.1

theorem numbered_block (first : Char) (h : Numbered stmt p) : Numbered (block first stmt) p := by
  intro g code g' hrun
  obtain ⟨⟨code1, g1⟩, hstmt, hrun⟩ := Option.bind_eq_some_iff.1 hrun
  cases hrun
  have hset : Numbered setPred True := Numbered.of_eq fun g code g' h => by
    unfold setPred at h
    split at h
    · cases h
      rfl
    · cases h
      rfl
  exact (hset.andThen (numbered_fragmentStmt first h) g _ _ hstmt).imp_right fun hp heq => (hp heq).2

/-- A condition. -/
theorem numbered_ifThenElse (c : Cond) {thn els : Action} {p' : Prop} (hthn : Numbered thn p) (hels : Numbered els p') :
    Numbered (ifThenElse c thn els) (c.hasSelect = false ∧ p ∧ p') := by
  intro g code g' hrun
  unfold ifThenElse at hrun
  split at hrun
  · cases hrun
  next hc =>
    obtain ⟨⟨code1, g1⟩, hrun1, hrun⟩ := Option.bind_eq_some_iff.1 hrun
    obtain ⟨⟨code2, g2⟩, hrun2, hrun⟩ := Option.bind_eq_some_iff.1 hrun
    cases hrun
    obtain ⟨hle, hp⟩ := hthn g code1 g1 hrun1
    obtain ⟨hle', hp'⟩ := hels g1 code2 g' hrun2
    exact ⟨Nat.le_trans hle hle', fun heq => ⟨Bool.eq_false_of_not_eq_true hc, hp (by omega), hp' (by omega)⟩⟩

/-- A statement has a number of its own. -/
theorem number_boundSqlStatement {hasCond hasVars hasShared : Bool} (h : Numbered stmt p) {number : Nat}
    (hrun : boundSqlStatement hasCond hasVars hasShared stmt number = some (code, g)) : number + 1 ≤ g.number ∧ (g.number = number + 1 → p) := by
  obtain ⟨⟨code1, g1⟩, hstmt, hrun⟩ := Option.bind_eq_some_iff.1 hrun
  cases hrun
  have hend : Numbered (if hasShared then emitOneFrag else skip) True := by
    rcases hasShared with _ | _
    · exact numbered_skip
    · exact numbered_emitOneFrag
  exact (h.andThen (hend.andThen numbered_skip) _ _ _ hstmt).imp_right fun hp heq => (hp heq).1

mutual

/-- Pieces without selects keep the number. -/
theorem Pieces.numbered : ∀ p : Pieces, Numbered p.gen p.NoSelects
  | .nil => numbered_skip
  | .char c rest => fun g code g' hrun =>
    ((numbered_put (.char c)).andThen (Pieces.numbered rest) g code g' hrun).imp_right fun hp heq => (hp heq).2
  | .var name rest => fun g code g' hrun =>
    ((numbered_captureVariable name).andThen (Pieces.numbered rest) g code g' hrun).imp_right fun hp heq => (hp heq).2
  | .inline body tail rest => by
    intro g code g' hrun
    have hrest := (numbered_put (.char ')')).andThen (numbered_emitOneFrag.andThen ((Pieces.numbered rest).andThen numbered_skip))
    have htail := numbered_emitOneFrag.andThen (numbered_flush.andThen ((Pieces.numbered tail).andThen hrest))
    have hall := numbered_emitOneFrag.andThen ((numbered_put (.char '(')).andThen ((Pieces.numbered body).andThen htail))
    exact (hall g code g' hrun).imp_right fun hp heq =>
      ⟨(hp heq).2.2.1, (hp heq).2.2.2.2.2.1, (hp heq).2.2.2.2.2.2.2.2.1⟩
  | .call inFrom args body rest => by
    intro g code g' hrun
    have hwrapper : ∀ c, Numbered (if inFrom then emitWrapper c else skip) True := by
      intro c
      rcases inFrom with _ | _
      · exact numbered_skip
      · exact numbered_emitWrapper c
    have hall := (Selects.numbered args).andThen (numbered_emitOneFrag.andThen ((hwrapper '(').andThen ((Body.numbered body).andThen
      ((hwrapper ')').andThen ((Pieces.numbered rest).andThen numbered_skip)))))
    exact (hall g code g' hrun).imp_right fun hp heq => ⟨(hp heq).1, (hp heq).2.2.2.1, (hp heq).2.2.2.2.2.1⟩

/-- So do bodies. -/
theorem Body.numbered : ∀ b : Body, Numbered b.gen b.NoSelects
  | .plain first stmt => numbered_fragmentStmt first (Pieces.numbered stmt)
  | .cond c first stmt alt => numbered_ifThenElse c (numbered_block first (Pieces.numbered stmt)) (Alt.numbered alt)

theorem Alt.numbered : ∀ a : Alt, Numbered a.gen a.NoSelects
  | .otherwise first stmt => numbered_block first (Pieces.numbered stmt)
  | .elseif c first stmt alt => numbered_ifThenElse c (numbered_block first (Pieces.numbered stmt)) (Alt.numbered alt)

theorem Selects.numbered : ∀ s : Selects, Numbered s.gen (s = .nil)
  | .nil => fun g code g' hrun => (numbered_skip g code g' hrun).imp_right fun _ _ => rfl
  | .cons stmt rest => by
    intro g code g' hrun
    have hnested : Numbered (nestedSelect stmt.hasCond stmt.hasVars stmt.hasShared stmt.gen) False := by
      intro g code g' hrun
      obtain ⟨⟨code1, g1⟩, hstmt, hrun⟩ := Option.bind_eq_some_iff.1 hrun
      cases hrun
      have hlt : g.number + 1 ≤ g1.number := (number_boundSqlStatement (Pieces.numbered stmt) hstmt).1
      exact ⟨Nat.le_of_succ_le hlt, fun heq => absurd heq (Nat.ne_of_gt hlt)⟩
    exact (hnested.andThen (Selects.numbered rest) g code g' hrun).imp_right fun hp heq => (hp heq).1.elim

end

/-! ## Whole statements -/

/-- The fragments that are prepared. -/
theorem prepareVar_eq (preds : Option Table) (frags : List (List Item)) (n : Nat) :
    ((frags.zipIdx n).filter fun f => preds.elim true (· f.2)).flatMap Prod.fst =
      select frags.flatten ((frags.zipIdx n).flatMap fun f => f.1.map fun _ => preds.elim true (· f.2)) := by
  induction frags generalizing n with
  | nil => rfl
  | cons frag frags ih =>
    rw [List.zipIdx_cons, List.flatMap_cons, List.flatten_cons, select_append (by simp), ← ih]
    rcases hb : preds.elim true (· n) with _ | _
    · rw [List.filter_cons_of_neg (by simp [hb]), select_false, List.nil_append]
    · rw [List.filter_cons_of_pos (by simp [hb]), select_true, List.flatMap_cons]

/-- The variables that are bound. -/
theorem multibindVar_eq (vpreds : Table) (values : List String) (n : Nat) : ((values.zipIdx n).filter fun v => vpreds v.2).map Prod.fst =
      select values ((List.range' n values.length).map vpreds) := by
  induction values generalizing n with
  | nil => rfl
  | cons value values ih =>
    rw [List.zipIdx_cons, List.length_cons, List.range'_succ, List.map_cons, select, ← ih]
    rcases hb : vpreds n with _ | _
    · rw [List.filter_cons_of_neg (by simp [hb]), if_neg Bool.false_ne_true]
    · rw [List.filter_cons_of_pos (by simp [hb]), List.map_cons, if_pos rfl]

/-- The predicates decide what is prepared and bound. -/
theorem prepared_eq (g : Gen) (t : Tables) : g.prepared t = select g.frags.flatten (g.included t) := prepareVar_eq ..

theorem bound_eq (g : Gen) (t : Tables) : g.bound t = (g.boundMask t).map (select (boundVariables g.frags.flatten)) := by
  unfold Gen.bound Gen.boundMask
  by_cases h : g.hasCond = true ∧ boundVariables g.frags.flatten ≠ []
  · rw [if_pos h, if_pos h, Option.map_map]
    congr 1
    funext vpreds
    rw [Function.comp_apply, List.range_eq_range', ← multibindVar_eq]
    rfl
  · rw [if_neg h, if_neg h, Option.map_some, select_true]

mutual

theorem Pieces.hasShared_of_hasCond : ∀ p : Pieces, p.hasCond = true → p.hasShared = true
  | .nil, h => h
  | .char _ rest, h => Pieces.hasShared_of_hasCond rest h
  | .var _ rest, h => Pieces.hasShared_of_hasCond rest h
  | .inline .., _ => rfl
  | .call .., _ => rfl

end

/-- The state before the text of a statement with conditions. -/
def startGen (hasVars : Bool) (number : Nat) : Gen where
  number := number + 1
  hasCond := true
  hasVars := hasVars
  cur := 0
  max := 0
  prev := 0
  vars := 0
  strings := []
  buf := []

/-- The tables are made, and all predicates are false. -/
def startTables (hasVars : Bool) (number : Nat) : Tables where
  preds := fun n => if n = number + 1 then some fun _ => false else none
  vpreds := fun n => if hasVars = true ∧ n = number + 1 then some fun _ => false else none

/-- A statement with conditions: its text and its predicates. -/
theorem statement_of_noSelects (env : Env) (p : Pieces) (number : Nat) (hcond : p.hasCond = true) (h : p.NoSelects) :
    ∃ code g t, p.statement number = some (code, g) ∧ run env code .init = some t ∧ g.number = number + 1 ∧
      g.frags.flatten = p.flat ∧ g.included t = p.mask (fun c => (env c).luaTrue) ∧
      ∃ vmask, g.boundMask t = some vmask ∧ (vmask = p.varMask (fun c => (env c).luaTrue) ↔ p.Kept env .done) := by
  let g0 := startGen p.hasVars number
  have hok : Ok g0 := ⟨rfl, Nat.le_refl _, Nat.zero_le _, Nat.le_refl _, Or.inl rfl, fun _ => rfl⟩
  have hsim := Sim.andThen (Pieces.sim env p h) (Sim.andThen (sim_emitOneFrag env Sound) (sim_skip env fun _ => True)
    fun _ _ => trivial) fun _ => Pieces.after_sound p
  have hvars : g0.hasVars = true ∨ (p.varMask (fun c => (env c).luaTrue) ++ ([] ++ [])) = [] := by
    rcases hv : p.hasVars with _ | _
    · exact Or.inr (by rw [Pieces.varMask_of_hasVars _ p hv]; rfl)
    · exact Or.inl hv
  obtain ⟨code, g, hrun, hstatic, hpoint, hdyn⟩ := hsim g0 hok clear_done.sound hvars
  simp only [List.append_nil] at hstatic hdyn
  have hready : Ready (p.after .done) := Pieces.after_ready p ⟨rfl, fun h => absurd h Bool.false_ne_true⟩
  have hdone : point g = .done := hpoint.trans (emit_of_ready hready)
  obtain ⟨hbuf, hmax⟩ := of_clear hstatic.ok (hdone ▸ clear_done)
  have hprev := prev_of_done hstatic.ok hdone
  let t0 := startTables p.hasVars number
  have hlive : Live g0 t0 (fun _ => false) fun _ => false := by
    refine ⟨if_pos rfl, fun hv => if_pos ⟨hv, rfl⟩, fun _ _ => rfl, fun _ _ => rfl, Or.inl rfl, fun hearly => ?_⟩
    simp [g0, startGen] at hearly
  obtain ⟨t, preds, vpreds, hexec, hlive', -, hincl, hbound⟩ := (hdyn t0 _ _ hlive).exec
  have hinit : run env (.newPreds (number + 1) :: (if p.hasVars then [.newVpreds (number + 1)] else [])) .init = some t0 := by
    rcases hv : p.hasVars with _ | _
    · simp [run, Instr.run, Tables.init, t0, startTables, hv]
    · simp [run, Instr.run, Tables.init, t0, startTables, hv]
  have hfrags : g.frags = g.strings := by rw [Gen.frags, hbuf, if_pos rfl, List.append_nil]
  have hflat : g.frags.flatten = p.flat := by
    obtain ⟨chunks, hstrings, htext⟩ := hstatic.text
    rw [hbuf, List.append_nil] at htext
    rw [hfrags, hstrings]
    exact htext
  have hcount : (boundVariables g.frags.flatten).length = g.prev := by
    rw [hflat, hprev, hstatic.vars, ← Pieces.varMask_length fun c => (env c).luaTrue]
    exact (Nat.zero_add _).symm
  refine ⟨(.newPreds (number + 1) :: if p.hasVars then [.newVpreds (number + 1)] else []) ++ code, g, t, ?_, ?_, hstatic.number, hflat,
    ?_, flushed g vpreds, ?_, ?_⟩
  · have hshared := Pieces.hasShared_of_hasCond p hcond
    have hseq : seq [p.gen, emitOneFrag] g0 = some (code, g) := hrun
    simp only [g0, startGen] at hseq
    simp only [Pieces.statement, boundSqlStatement, hcond, hshared, if_true]
    rw [hseq]
    rfl
  · rw [run_append, hinit]
    exact hexec
  · have hpreds : t.preds g.number = some preds := hlive'.predsTable
    unfold Gen.included
    rw [if_pos hstatic.ok.cond, hpreds, hfrags]
    rw [incl, hbuf, List.map_nil, List.append_nil] at hincl
    exact hincl
  · unfold Gen.boundMask
    by_cases hvalues : boundVariables g.frags.flatten = []
    · rw [if_neg fun h => h.2 hvalues, hvalues]
      rw [hvalues] at hcount
      rw [flushed, ← hcount]
      rfl
    · rw [if_pos ⟨hstatic.ok.cond, hvalues⟩, hcount]
      have hv : g.hasVars = true := by
        rcases hv : g.hasVars with _ | _
        · have hzero := hstatic.ok.noVars hv
          rw [← hprev, ← hcount, List.length_eq_zero_iff] at hzero
          exact absurd hzero hvalues
        · rfl
      rw [hlive'.vpredsTable hv]
      rfl
  · obtain ⟨expected, -, heq, hiff⟩ := hbound [] rfl
    rw [hprev, Nat.sub_self, List.replicate_zero, List.append_nil, show g0.vars - g0.prev = 0 from rfl, List.replicate_zero,
      List.nil_append, List.nil_append] at heq
    rw [← heq, hiff]
    simp [flushed, g0, startGen, point, Point.done]

/-- A statement without conditions. -/
theorem statement_of_plain (p : Pieces) (number : Nat) (h : p.hasCond = false) :
    ∃ g, p.statement number = some ([], g) ∧ g.hasCond = false ∧ g.frags.flatten = p.flat := by
  rw [Pieces.statement, h]
  exact boundSqlStatement_plain (Pieces.plain p h) ..

/-- Everything is included. -/
theorem included_of_plain (t : Tables) (h : g.hasCond = false) : g.included t = g.frags.flatten.map fun _ => true := by
  unfold Gen.included
  simp only [h, Bool.false_eq_true, if_false, Option.elim_none]
  generalize 0 = n
  induction g.frags generalizing n with
  | nil => rfl
  | cons frag frags ih => rw [List.zipIdx_cons, List.flatMap_cons, List.flatten_cons, List.map_append, ih]

/-- What the predicates tell about the conditions. -/
theorem of_choosesTaken {env : Env} {p : Pieces} {number : Nat} (h : ChoosesTaken env p number) (hcond : p.hasCond = true) :
    p.NoSelects ∧ p.Agree env ∧ p.Kept env .done := by
  obtain ⟨code, g, t, hstmt, hrun, hnumber, -, -, hmask, hvmask⟩ := h.runs
  have hselects : p.NoSelects := (number_boundSqlStatement (Pieces.numbered p) hstmt).2 (hnumber hcond)
  obtain ⟨code', g', t', hstmt', hrun', -, -, hmask', vmask, hvmask', hkept⟩ := statement_of_noSelects env p number hcond hselects
  rw [hstmt] at hstmt'
  cases hstmt'
  rw [hrun] at hrun'
  cases hrun'
  have hagree : p.Agree env := Pieces.agree_of_mask env p (hmask'.symm.trans hmask)
  rw [hvmask] at hvmask'
  cases hvmask'
  exact ⟨hselects, hagree, hkept.1 (Pieces.masks_of_agree env p hagree).2.symm⟩

end FragmentsAux

open FragmentsAux

/-- `WITH (CALL frag(x))` where the fragment is `IF x THEN SELECT … ELSE SELECT … END IF`. -/
def branchOnInteger : Pieces :=
  .char 'w' (.call false .nil (.cond ⟨0, false⟩ 'a' .nil (.otherwise 'b' .nil)) .nil)

end CgSql.LuaFragments
