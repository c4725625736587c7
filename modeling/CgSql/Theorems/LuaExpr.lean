import CgSql.Lemmas.LuaSound

/-!
# Scratch variables in Lua keep their operands

Nothing is clobbered but the temporary for the left operand of AND and OR: its level is that after the right operand, and the
statements of the right operand come between its store and its read.
-/

namespace CgSql.LuaExpr

open Writers

namespace TempsAux

variable {l : Gen} {emits : Bool} {after : Nat → Nat} {slots : Nat → List Slot}

/-! ## Expressions that misread -/

theorem not_misreads_skip : ¬Misreads (Code.skip : Code) := (triple_skip fun _ => True).not_misreads (σ := fun _ => none) trivial

section

variable {l r : Gen} {emits emits' : Bool} {after after' : Nat → Nat} {slots slots' : Nat → List Slot}

/-- The temporary for the left operand is lost where the right operand sets it. -/
theorem misreads_andOr_temp (hr : Shaped r emits' after' slots') (p : Place) (k : Nat) (hmem : (semTypeBool, after' k) ∈ slots' k) :
    Misreads ((r (2 :: p) k).code.seq (.one (.read ((.scratch semTypeBool (r (2 :: p) k).level, 0 :: p) :: (r (2 :: p) k).text.uses)))) := by
  have hwrites := hr.writes (2 :: p) k _ hmem
  rw [hr.level]
  exact misreads_of_writes (hr.owned (2 :: p) k) hwrites (not_below_sibling p (by decide)) List.mem_cons_self

theorem andOr_of_not_misreads (hl : Shaped l emits after slots) (hr : Shaped r emits' after' slots') (target : Target) (t : SemType)
    (p : Place) (k : Nat) (h : ¬Misreads (cgLuaExprAndOr target t false l r p k).code) :
    ¬Misreads (l (1 :: p) (k + 1)).code ∧ ¬Misreads (r (2 :: p) (after (k + 1))).code ∧
      (emits' = true → (semTypeBool, after' (after (k + 1))) ∉ slots' (after (k + 1))) := by
  have hskip := hr.emits (2 :: p) (after (k + 1))
  rcases hemits : emits' with _ | _
  · have heq := hskip.2 hemits
    simp only [cgLuaExprAndOr, Bool.false_eq_true, if_false, hl.level, heq, if_true] at h
    refine ⟨h, ?_, fun htrue => absurd htrue Bool.false_ne_true⟩
    rw [heq]
    exact not_misreads_skip
  · have hne : ¬(r (2 :: p) (after (k + 1))).code = .skip := by
      rw [hskip, hemits]
      exact Bool.true_eq_false.mp
    simp only [cgLuaExprAndOr, Bool.false_eq_true, if_false, hl.level, hne] at h
    have hbefore := Code.seq_ne_nil (Code.seq_ne_nil (hl.ne (1 :: p) (k + 1))
      (cgLuaStore_ne (.scratch semTypeBool (r (2 :: p) (after (k + 1))).level) (0 :: p) (l (1 :: p) (k + 1)).text))
      (Code.one_ne_nil (.read [(.scratch semTypeBool (r (2 :: p) (after (k + 1))).level, 0 :: p)]))
    refine ⟨fun hf => h ?_, fun hf => h ?_, fun _ hmem => h ?_⟩
    · refine ((hf.seq_left (cgLuaStore_ne _ _ _)).seq_left (Code.one_ne_nil _)).seq_left ?_
      exact Code.choice_ne_nil (Code.one_ne_nil _)
    · refine Misreads.seq_right (Misreads.choice_right ?_) hbefore
      exact (hf.seq_left (Code.one_ne_nil _)).seq_left (Code.one_ne_nil _)
    · refine Misreads.seq_right (Misreads.choice_right ?_) hbefore
      exact (misreads_andOr_temp hr p (after (k + 1)) hmem).seq_left (Code.one_ne_nil _)

end

theorem operands_of_not_misreads {r : Gen} {emits' : Bool} {after' : Nat → Nat} {slots' : Nat → List Slot}
    (hl : Shaped l emits after slots) (hr : Shaped r emits' after' slots') (text : Text → Text → Text) (p : Place) (k : Nat)
    (h : ¬Misreads (operands l r text p k).code) : ¬Misreads (l (1 :: p) k).code ∧ ¬Misreads (r (2 :: p) (after k)).code := by
  simp only [operands, hl.level] at h
  exact ⟨fun hf => h (hf.seq_left (hr.ne _ _)), fun hf => h (hf.seq_right (hl.ne _ _))⟩

theorem inList_ne (items : Exprs) (temp result : Use) (p : Place) (k : Nat) : items.inList temp result p k ≠ [] :=
  (Exprs.inList_shaped items (S := fun _ => True) temp result p k (fun _ _ => trivial) trivial).ne

theorem frags_ne (frags : Frags) (p : Place) (k : Nat) : (frags.gen p k).1 ≠ [] :=
  ((Frags.gen_shaped frags).1 (S := fun _ => True) p k fun _ _ => trivial).ne

theorem caseList_ne (whens : Whens) (temp : List Use) (result : Use) {otherwise : Code} (h : otherwise ≠ []) (p : Place) (k : Nat) :
    whens.caseList temp result otherwise p k ≠ [] := by
  have hother : Part (fun _ => True) otherwise k [] :=
    ⟨h, fun _ _ _ _ _ => trivial, fun _ hs => absurd hs List.not_mem_nil, fun _ hs => absurd hs List.not_mem_nil⟩
  exact (Whens.caseList_shaped whens temp result p k (fun _ _ => trivial) trivial (Nat.le_refl k) hother).ne

theorem inPred_of_not_misreads (he : Shaped l emits after slots) (t te : SemType) (items : Exprs) (p : Place) (k : Nat) (hnull : te.core ≠ .null)
    (h : ¬Misreads (cgLuaExprInPredOrNotIn t te l items.inList p k).code) :
    ¬Misreads (l (1 :: p) (k + 1)).code ∧ ∃ temp result p', ¬Misreads (items.inList temp result p' (after (k + 1) + 1)) := by
  have hlist := inList_ne items (.scratch te (after (k + 1)), 0 :: p) (.scratch t k, p) (2 :: p) (after (k + 1) + 1)
  have hvalue : (l (1 :: p) (k + 1)).code.seq (cgLuaStore (.scratch te (after (k + 1))) (0 :: p) (l (1 :: p) (k + 1)).text) ≠ [] :=
    Code.seq_ne_nil (he.ne _ _) (cgLuaStore_ne _ _ _)
  have htests := Code.seq_ne_nil (Code.one_ne_nil (.write (.scratch t k) p)) hlist
  simp only [cgLuaExprInPredOrNotIn, hnull, if_false, he.level] at h
  refine ⟨fun hf => h ((hf.seq_left (cgLuaStore_ne _ _ _)).seq_left ?_), (.scratch te (after (k + 1)), 0 :: p), (.scratch t k, p),
    2 :: p, fun hf => h (Misreads.seq_right ?_ hvalue)⟩
  · split
    · exact htests
    · exact Code.seq_ne_nil (Code.one_ne_nil _) (Code.choice_ne_nil (Code.one_ne_nil _))
  · have hmisreads := hf.seq_right (Code.one_ne_nil (.write (.scratch t k) p))
    split
    · exact hmisreads
    · exact (hmisreads.choice_right).seq_right (Code.one_ne_nil _)

/-- Where the tests of CASE with an expression begin. -/
theorem caseOf_of_not_misreads (he : Shaped l emits after slots)
    (target : Target) (t te : SemType) (whens : Whens) {els : Option Gen} (p : Place) (k : Nat)
    (hother : otherwiseCode (resultVar target t k) els p k ≠ [])
    (h : ¬Misreads (cgLuaExprCase target t (some (te, l)) whens.caseList els p k).code) :
    ¬Misreads (l (1 :: p) (k + 2)).code ∧ ¬Misreads (whens.caseList [(.scratch te (k + 1), 0 :: p)] (resultVar target t k, p)
      (otherwiseCode (resultVar target t k) els p k) (2 :: p) (k + 2)) := by
  have hcases := caseList_ne whens [(.scratch te (k + 1), 0 :: p)] (resultVar target t k, p) hother (2 :: p) (k + 2)
  have hvalue : (l (1 :: p) (k + 2)).code.seq (cgLuaStore (.scratch te (k + 1)) (0 :: p) (l (1 :: p) (k + 2)).text) ≠ [] :=
    Code.seq_ne_nil (he.ne _ _) (cgLuaStore_ne _ _ _)
  refine ⟨fun hf => h ((hf.seq_left (cgLuaStore_ne _ _ _)).seq_left ?_), fun hf => h (Misreads.seq_right ?_ hvalue)⟩
  · split
    · exact hcases
    · exact Code.seq_ne_nil (Code.one_ne_nil _) (Code.choice_ne_nil hother)
  · split
    · exact hf
    · exact (hf.choice_right).seq_right (Code.one_ne_nil _)

theorem otherwise_some_ne (els : Expr) (result : Var) (p : Place) (k : Nat) : otherwiseCode result (some (els.gen none)) p k ≠ [] :=
  Code.seq_ne_nil ((Expr.shaped els).ne _ _) (cgLuaStore_ne _ _ _)

theorem selectIfNothing_of_not_misreads (hl : ∀ p k, (l p k).code ≠ []) (target : Target) (t ts : SemType) (kind : IfNothing)
    (frags : Frags) (p : Place) (k : Nat) (h : ¬Misreads (cgLuaExprSelectIfNothing target t ts kind frags.gen l p k).code) :
    ¬Misreads (frags.gen (1 :: p) (k + 2)).1 ∧ (kind ≠ .orNullThrow → ¬Misreads (l (2 :: p) (k + 2)).code) := by
  have hbefore := frags_ne frags (1 :: p) (k + 2)
  refine ⟨fun hf => h (hf.seq_left ?_), fun hkind hf => h (Misreads.seq_right ?_ hbefore)⟩
  · split
    · exact Code.choice_ne_nil (Code.seq_ne_nil (Code.one_ne_nil _) (cgLuaStore_ne _ _ _))
    · refine Code.choice_ne_nil (Code.seq_ne_nil (Code.seq_ne_nil (Code.one_ne_nil _) (Code.one_ne_nil _)) ?_)
      exact Code.choice_ne_nil (Code.seq_ne_nil (hl _ _) (cgLuaStore_ne _ _ _))
    · exact Code.seq_ne_nil (Code.seq_ne_nil (Code.one_ne_nil _) (Code.one_ne_nil _)) (cgLuaStore_ne _ _ _)
  · rcases kind with _ | _ | _
    · exact (hf.seq_left (cgLuaStore_ne _ _ _)).choice_right
    · exact (hf.seq_left (cgLuaStore_ne _ _ _)).choice_right
    · exact absurd rfl hkind

theorem sets_ne (outs : List String) (o p : Place) (v : Var) :
    outs.foldr (fun name code => (Code.one (.write (.user name) o)).seq code) (Code.one (.write v p)) ≠ ([] : Code) := by
  induction outs with
  | nil => exact Code.one_ne_nil _
  | cons name outs ih => exact Code.seq_ne_nil (Code.one_ne_nil _) ih

mutual

theorem Expr.guarded_of_not_misreads : ∀ (e : Expr) (target : Target) (p : Place) (k : Nat), ¬Misreads (e.gen target p k).code → e.Guarded k
  | .null, _, _, _, _ => trivial
  | .literal, _, _, _, _ => trivial
  | .name _, _, _, _, _ => trivial
  | .unary op t e, _, p, k, h => by
    refine Expr.guarded_of_not_misreads e none (1 :: p) k fun hf => h (hf.seq_left ?_)
    split
    · exact readText_ne _
    · exact Code.skip_ne_nil
  | .binary true l r, _, p, k, h => .inl rfl
  | .binary false l r, _, p, k, h => by
    obtain ⟨hl, hr⟩ := operands_of_not_misreads (Expr.shaped l) (Expr.shaped r)
      (fun x y => if x.isNil ∨ y.isNil then .nil else .other (x.uses ++ y.uses)) p k h
    exact .inr ⟨Expr.guarded_of_not_misreads l none _ k hl, Expr.guarded_of_not_misreads r none _ _ hr⟩
  | .isOrIsNot l r, _, p, k, h => by
    obtain ⟨hl, hr⟩ := operands_of_not_misreads (Expr.shaped l) (Expr.shaped r) (fun x y => .other (x.uses ++ y.uses)) p k h
    exact ⟨Expr.guarded_of_not_misreads l none _ k hl, Expr.guarded_of_not_misreads r none _ _ hr⟩
  | .andOr t l r, target, p, k, h => by
    rw [Expr.gen] at h
    rcases hnull : l.isNull && r.isNull with _ | _
    · rw [hnull] at h
      obtain ⟨hl, hr, htemp⟩ := andOr_of_not_misreads (Expr.shaped l) (Expr.shaped r) target t p k h
      exact .inr ⟨Expr.guarded_of_not_misreads l none _ _ hl, Expr.guarded_of_not_misreads r none _ _ hr, htemp⟩
    · exact .inl hnull
  | .inPred t te e items, _, p, k, h => by
    by_cases hnull : te.core = .null
    · exact .inl hnull
    · obtain ⟨he, temp, result, p', hitems⟩ := inPred_of_not_misreads (Expr.shaped e) t te items p k hnull h
      exact .inr ⟨Expr.guarded_of_not_misreads e none _ _ he, Exprs.itemsGuarded_of_not_misreads items temp result p' _ hitems⟩
  | .caseWhen t whens, target, p, k, h => (Whens.guarded_of_not_misreads whens _ _ _ _ _ h).1
  | .caseWhenElse t whens els, target, p, k, h => by
    obtain ⟨hwhens, hels⟩ := Whens.guarded_of_not_misreads whens _ _ _ _ _ h
    exact ⟨hwhens, Expr.guarded_of_not_misreads els none (3 :: p) _ fun hf => hels (hf.seq_left (cgLuaStore_ne _ _ _))⟩
  | .caseOf t te e whens, target, p, k, h => by
    have hother : otherwiseCode (resultVar target t k) none p k ≠ [] := Code.one_ne_nil _
    obtain ⟨he, hcases⟩ := caseOf_of_not_misreads (Expr.shaped e) target t te whens p k hother h
    exact ⟨Expr.guarded_of_not_misreads e none _ _ he, (Whens.guarded_of_not_misreads whens _ _ _ _ _ hcases).1⟩
  | .caseOfElse t te e whens els, target, p, k, h => by
    obtain ⟨he, hcases⟩ := caseOf_of_not_misreads (Expr.shaped e) target t te whens p k (otherwise_some_ne els _ p k) h
    obtain ⟨hwhens, hels⟩ := Whens.guarded_of_not_misreads whens _ _ _ _ _ hcases
    exact ⟨Expr.guarded_of_not_misreads e none _ _ he, hwhens,
      Expr.guarded_of_not_misreads els none (3 :: p) _ fun hf => hels (hf.seq_left (cgLuaStore_ne _ _ _))⟩
  | .coalesce t args last, target, p, k, h => by
    obtain ⟨hargs, p', hlast⟩ := Exprs.alternatives_guarded args _ _ _ _
      (fun p k => Code.seq_ne_nil ((Expr.shaped last).ne _ _) (cgLuaStore_ne _ _ _)) h
    exact ⟨hargs, Expr.guarded_of_not_misreads last none (1 :: p') _ fun hf => hlast (hf.seq_left (cgLuaStore_ne _ _ _))⟩
  | .select t frags, target, p, k, h =>
    Frags.guarded_of_not_misreads frags (1 :: p) _ fun hf => h (hf.seq_left (Code.one_ne_nil _))
  | .selectIfNothingThrow t frags, _, p, k, h =>
    Frags.guarded_of_not_misreads frags (1 :: p) _ fun hf => h (hf.seq_left (Code.one_ne_nil _))
  | .selectIfNothing t ts kind frags default, target, p, k, h => by
    obtain ⟨hfrags, hdefault⟩ := selectIfNothing_of_not_misreads (Expr.shaped default).ne target t ts kind frags p k h
    refine ⟨Frags.guarded_of_not_misreads frags _ _ hfrags, ?_⟩
    split
    · trivial
    · rename_i hkind
      exact Expr.guarded_of_not_misreads default none _ _ (hdefault hkind)
  | .call t args outs, target, p, k, h =>
    Exprs.guarded_of_not_misreads args (1 :: p) _ fun hf => h ((hf.seq_left (readText_ne _)).seq_left (sets_ne _ _ _ _))
  | .between name e test, _, p, k, h => by
    rw [Expr.gen] at h
    rcases hnull : e.isNull with _ | _
    · rw [hnull] at h
      simp only [cgLuaExprBetweenRewrite, Bool.false_eq_true, if_false, (Expr.shaped e).level] at h
      have htest := (Expr.shaped test).ne (2 :: p) (e.after k)
      refine .inr ⟨Expr.guarded_of_not_misreads e none (1 :: p) k fun hf => h ?_,
        Expr.guarded_of_not_misreads test none (2 :: p) _ fun hf => h (hf.seq_right ?_)⟩
      · exact ((hf.seq_left (readText_ne _)).seq_left (Code.one_ne_nil _)).seq_left htest
      · exact Code.seq_ne_nil (Code.seq_ne_nil ((Expr.shaped e).ne _ _) (readText_ne _)) (Code.one_ne_nil _)
    · exact .inl hnull

theorem Exprs.itemsGuarded_of_not_misreads : ∀ (items : Exprs) (temp result : Use) (p : Place) (k : Nat),
    ¬Misreads (items.inList temp result p k) → items.ItemsGuarded k
  | .nil, _, _, _, _, _ => trivial
  | .cons e rest, temp, result, p, k, h => by
    rw [Exprs.inList] at h
    rcases hnull : e.isNull with _ | _
    · simp only [hnull, Bool.false_eq_true, if_false] at h
      have hitem := Code.seq_ne_nil ((Expr.shaped e).ne (1 :: p) k) (Code.one_ne_nil (.read (temp :: (e.gen none (1 :: p) k).text.uses)))
      refine ⟨Expr.guarded_of_not_misreads e none (1 :: p) k fun hf => h ?_,
        Exprs.itemsGuarded_of_not_misreads rest temp result (2 :: p) k fun hf => h (Misreads.seq_right hf.choice_right hitem)⟩
      exact (hf.seq_left (Code.one_ne_nil _)).seq_left (Code.choice_ne_nil Code.skip_ne_nil)
    · rw [if_pos hnull] at h
      rw [eq_null_of_isNull hnull]
      exact ⟨trivial, Exprs.itemsGuarded_of_not_misreads rest temp result (2 :: p) k h⟩

theorem Exprs.alternatives_guarded : ∀ (args : Exprs) (result : Use) (last : Place → Nat → Code) (p : Place) (k : Nat),
    (∀ p k, last p k ≠ []) → ¬Misreads (args.alternatives result last p k) → args.Guarded k ∧ ∃ p', ¬Misreads (last p' (args.after k))
  | .nil, _, _, p, _, _, h => ⟨trivial, p, h⟩
  | .cons e rest, result, last, p, k, hne, h => by
    rw [Exprs.alternatives] at h
    simp only [(Expr.shaped e).level] at h
    have hvalue := Code.seq_ne_nil ((Expr.shaped e).ne (1 :: p) k) (readText_ne (e.gen none (1 :: p) k).text)
    obtain ⟨hrest, hlast⟩ := Exprs.alternatives_guarded rest result last (2 :: p) _ hne fun hf => h (Misreads.seq_right hf.choice_right hvalue)
    refine ⟨⟨Expr.guarded_of_not_misreads e none (1 :: p) k fun hf => h ?_, hrest⟩, hlast⟩
    exact (hf.seq_left (readText_ne _)).seq_left (Code.choice_ne_nil (cgLuaStore_ne _ _ _))

theorem Exprs.guarded_of_not_misreads : ∀ (args : Exprs) (p : Place) (k : Nat), ¬Misreads (args.args p k).code → args.Guarded k
  | .nil, _, _, _ => trivial
  | .cons e rest, p, k, h => by
    obtain ⟨emits, hrest⟩ := Exprs.args_shaped rest
    obtain ⟨he, hargs⟩ := operands_of_not_misreads (Expr.shaped e) hrest (fun x y => .other (x.uses ++ y.uses)) p k h
    exact ⟨Expr.guarded_of_not_misreads e none _ k he, Exprs.guarded_of_not_misreads rest _ _ hargs⟩

theorem Whens.guarded_of_not_misreads : ∀ (whens : Whens) (temp : List Use) (result : Use) (otherwise : Code) (p : Place) (k : Nat),
    ¬Misreads (whens.caseList temp result otherwise p k) → whens.Guarded k ∧ ¬Misreads otherwise
  | .nil, _, _, _, _, _, h => ⟨trivial, h⟩
  | .cons c e rest, temp, result, otherwise, p, k, h => by
    rw [Whens.caseList] at h
    have htest := Code.seq_ne_nil ((Expr.shaped c).ne (1 :: p) k) (Code.one_ne_nil (.read (temp ++ (c.gen none (1 :: p) k).text.uses)))
    have hvalue := Code.seq_ne_nil ((Expr.shaped e).ne (2 :: p) k) (cgLuaStore_ne result.1 result.2 (e.gen none (2 :: p) k).text)
    obtain ⟨hrest, hother⟩ := Whens.guarded_of_not_misreads rest temp result otherwise (3 :: p) k
      fun hf => h (Misreads.seq_right hf.choice_right htest)
    refine ⟨⟨Expr.guarded_of_not_misreads c none (1 :: p) k fun hf => h ?_,
      Expr.guarded_of_not_misreads e none (2 :: p) k fun hf => h (Misreads.seq_right ?_ htest), hrest⟩, hother⟩
    · exact (hf.seq_left (Code.one_ne_nil _)).seq_left (Code.choice_ne_nil hvalue)
    · exact (hf.seq_left (cgLuaStore_ne _ _ _)).choice_left

theorem Frags.guarded_of_not_misreads : ∀ (frags : Frags) (p : Place) (k : Nat), ¬Misreads (frags.gen p k).1 → frags.Guarded k
  | .nil, _, _, _ => trivial
  | .arg aliasName e rest, p, k, h => by
    rw [Frags.gen] at h
    simp only [(Expr.shaped e).level] at h
    refine ⟨Expr.guarded_of_not_misreads e none (1 :: p) k fun hf => h ?_,
      Frags.guarded_of_not_misreads rest (2 :: p) _ fun hf => h (hf.seq_right ?_)⟩
    · exact ((hf.seq_left (readText_ne _)).seq_left (Code.one_ne_nil _)).seq_left (frags_ne rest _ _)
    · exact Code.seq_ne_nil (Code.seq_ne_nil ((Expr.shaped e).ne _ _) (readText_ne _)) (Code.one_ne_nil _)
  | .ite c thn els rest, p, k, h => by
    rw [Frags.gen] at h
    simp only [(Expr.shaped c).level, (Frags.gen_shaped thn).2.1, (Frags.gen_shaped els).2.1] at h
    have hrest := frags_ne rest (4 :: p) (els.after (thn.after (c.after k)))
    have hchoice : ((thn.gen (2 :: p) (c.after k)).1.choice (els.gen (3 :: p) (thn.after (c.after k))).1) ≠ [] :=
      Code.choice_ne_nil (frags_ne thn _ _)
    have htest := Code.seq_ne_nil ((Expr.shaped c).ne (1 :: p) k) (readText_ne (c.gen none (1 :: p) k).text)
    refine ⟨Expr.guarded_of_not_misreads c none (1 :: p) k fun hf => h ?_,
      Frags.guarded_of_not_misreads thn (2 :: p) _ fun hf => h ?_, Frags.guarded_of_not_misreads els (3 :: p) _ fun hf => h ?_,
      Frags.guarded_of_not_misreads rest (4 :: p) _ fun hf => h (hf.seq_right (Code.seq_ne_nil htest hchoice))⟩
    · exact ((hf.seq_left (readText_ne _)).seq_left hchoice).seq_left hrest
    · exact (Misreads.seq_right hf.choice_left htest).seq_left hrest
    · exact (Misreads.seq_right hf.choice_right htest).seq_left hrest

end

end TempsAux

/-! ## Live scratch variables -/

/-- No operand is lost, wherever an expression is and whatever it is assigned to, just if the right operands of AND and OR do not set
the variable that their left operands are in. -/
theorem neverClobbered_iff (e : Expr) (target : Target) (place : Place) (level : Nat) :
    NeverClobbered e target place level ↔ e.Guarded level := by
  constructor
  · intro h
    refine TempsAux.Expr.guarded_of_not_misreads e target place level fun hf => ?_
    obtain ⟨p, hp, hrun⟩ := hf.seq_left (TempsAux.readText_ne (e.gen target place level).text) fun _ => none
    have hsome := h p hp fun _ => none
    rw [hrun] at hsome
    nomatch hsome
  · intro h p hp σ
    have hsound := TempsAux.Expr.sound e target level h place (fun _ => True) fun _ _ _ _ => trivial
    obtain ⟨σ', hrun, -⟩ := hsound.seq (TempsAux.triple_readText fun σ h => h.2) p hp σ trivial
    rw [hrun]
    rfl

/-- `a AND (b AND f())`, where all are nullable booleans. -/
def nestedAnd : Expr := .andOr semTypeBool (.name "a") (.andOr semTypeBool (.name "b") (.call semTypeBool .nil []))

/-- The value of `a` is lost: `f()` is stored in its variable. -/
theorem neverClobbered_false : ¬∀ (e : Expr) (target : Target) (place : Place) (level : Nat), NeverClobbered e target place level := by
  intro h
  have hall : (nestedAnd.evaluated none [] 0).all (fun p => (run p fun _ => none).isSome) = true :=
    List.all_eq_true.2 fun p hp => h nestedAnd none [] 0 p hp fun _ => none
  revert hall
  decide

end CgSql.LuaExpr
