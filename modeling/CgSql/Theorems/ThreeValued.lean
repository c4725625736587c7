import CgSql.Lemmas.Simulation

/-!
# Main results about values

When generated code computes and stores the values of SQL.
-/

namespace CgSql.CodeGen

open Nullability Precedence RenderingAux RunAux ValuesAux BoolsAux Faults

namespace SimulationAux

variable {V : Type} {rt : Runtime V} {Z : Prop} {Γ : Types} {ρ : String → Option V} {scope : String → Prop} {σ τ : Store V} {e : Expr V} {c : Ctx}

/-- No trouble but zero divisors, and those only if `Z`. -/
def Calm (Z : Prop) (ts : List Trouble) : Prop := ∀ x ∈ ts, x = .zeroDivisor ∧ Z

theorem calm_append {ts us : List Trouble} : Calm Z (ts ++ us) ↔ Calm Z ts ∧ Calm Z us := List.forall_mem_append

theorem not_calm {x : Trouble} (h : Calm Z [x]) (hx : x ≠ .zeroDivisor) : False := hx (h x (.head _)).1

theorem eq_null (h : e.isNullLiteral = true) : e = .null := by
  cases e <;> first | rfl | cases h

theorem alternative_calm {blobs : Bool} {u : SemType} {a : Option V} (h : Calm Z (alternativeTrouble blobs u a)) :
    (u.core = .text → a ≠ none) ∧ (u.core = .blob → blobs = true) := by
  have h := calm_append.mp h
  constructor
  · intro ht ha
    rw [if_pos ⟨ht, ha⟩] at h
    exact not_calm h.1 nofun
  · intro ht
    by_contra hb
    rw [if_pos (show u.core = .blob ∧ (!blobs) = true from ⟨ht, by simpa using hb⟩)] at h
    exact not_calm h.2 nofun

theorem applyMath_gives {op : MathOp} {v w : V} (h : Calm Z (divisorTrouble rt op (some v) (some w))) :
    Gives (Allowed Z) (applyBinary rt (mathBinary op) (some v) (some w)) (· = some (mathValue rt op v w)) := by
  have hmath : applyBinary rt (mathBinary op) (some v) (some w) = applyMath rt op (some v) (some w) := by
    cases op <;> rfl
  rw [hmath]
  simp only [applyMath, nonNull, mathValue, bind, Except.bind]
  cases hu : rt.math op v w with
  | some u => rfl
  | none =>
    rw [divisorTrouble, hu] at h
    exact ⟨rfl, (h .zeroDivisor (.head _)).2⟩

theorem isRef_math {t u : CoreType} (ht : t.isNumericCompat = true) (hu : u.isNumericCompat = true) :
    isRef (if semCombineCore t u = .bool then .integer else semCombineCore t u) = false := by
  cases t <;> cases u <;> simp [CoreType.isNumericCompat, CoreType.isNumeric, semCombineCore, isRef] at ht hu ⊢

/-- A safe store does not store the text of a number as a BOOL because it starts with `!`. -/
theorem start_of_storeSafe {t : SemType} (h : storeSafe t c.pri c.right e = true) (ht : t.core = .bool) :
    e.type.core = .bool ∨ startsWithNot (cgExpr c e).value = false := by
  simp only [storeSafe, ht, ne_eq, not_true_eq_false, decide_false, Bool.false_or, Bool.or_eq_true, decide_eq_true_eq, Bool.not_eq_true'] at h
  rwa [(starts_eq e c).1]

theorem store_compat {t u : SemType} (ht : t.core ≠ .null) (h : semVerifyCompat t.core u.core = true) :
    isRef t.core = true ∨ t.core = .null → isRef u.core = true ∨ u.core = .null :=
  fun h' => (ref_of_compat h (.inl (h'.resolve_right ht))).2

theorem sim_skip {t : SemType} {u v : Text V} {a : Option V} {ts : List (Text V)}
    (h : ∀ τ, Keeps Γ ρ none c.level σ τ → Denotes Z rt τ t u v a) : Sim Z rt Γ ρ c t (out u v .skip c.level ts) σ a :=
  sim_out (Nat.le_refl _) (runs_skip ⟨rfl, Keeps.refl σ, h⟩)

theorem calm_else {t : SemType} {o : Option V} {ts : List Trouble} : ∀ (whens : Whens V),
    Calm Z (troublesWhens rt cqlIn ρ o ts whens) → evalWhens rt cqlIn ρ t o whens = none → Calm Z ts
  | .nil, h, _ => h
  | .cons cond value rest, h, hnone => by
    rw [evalWhens] at hnone
    split at hnone
    · cases hnone
    · rename_i htaken
      rw [troublesWhens, if_neg htaken] at h
      exact calm_else rest (calm_append.mp (calm_append.mp h).2).2 hnone

/-- What a list of WHENs does: the one that is taken stores its value and breaks. -/
def WhensDone (Γ : Types) (ρ : String → Option V) (c : Ctx) (t : SemType) (σ : Store V) (r : Option (Option V)) (e : End) (τ : Store V) : Prop :=
  match r with
  | some a => e = .break ∧ Keeps Γ ρ (c.targetVar) c.level σ τ ∧ (τ (c.resultVar t)).Holds t a
  | none => e = .normal ∧ Keeps Γ ρ none c.level σ τ

mutual

/-- The statements of an expression compute its value. -/
theorem cgExpr_sim (hrt : rt.Lawful) (hρ : ValidValues rt ρ Γ) : ∀ (e : Expr V) (c : Ctx) {scope : String → Prop} {σ : Store V},
    e.Typed Γ → e.Checked → e.storesSafe = true → e.Scoped rt cqlIn ρ scope → Calm Z (troubles rt cqlIn ρ e) →
      Represents Γ ρ scope σ → c.TargetOk → Sim Z rt Γ ρ c e.type (cgExpr c e) σ (eval rt cqlIn ρ e)
  | .null, c, scope, σ, _, _, _, _, _, _, _ => sim_skip fun _ _ => ⟨evals_one, nofun, fun _ _ => rfl⟩
  | .bit core b, c, scope, σ, _, _, _, _, _, _, _ => sim_skip fun _ _ => denotes_bit (evals_bit b)
  | .literal core v, c, scope, σ, _, _, _, _, _, _, _ => sim_skip fun _ _ => denotes_of_some evals_zero rfl
  | .var t name, c, scope, σ, ht, hc, _, hs, _, hσ, _ => by
    obtain rfl : Γ name = t := ht
    exact sim_skip fun τ hτ => denotes_varTexts hc (hτ.user name nofun (hσ name hs))
  | .unary op e, c, scope, σ, ht, hc, hsafe, hs, hcalm, hσ, htarget => by
    have hE := (cgExpr_sim hrt hρ e (.left 10 (c.level + 1)) ht hc hsafe hs hcalm hσ (targetOk_of_none rfl)).after rfl
    have hcore : isRef (Expr.unary op e).type.core = false ∧ (Expr.unary op e).type.core ≠ .null := by
      simp only [Expr.type, semCombineTypes]
      cases e.type.core <;> simp [semCombineCore, isRef]
    have hnn : (Expr.unary op e).type.notNull = e.type.notNull := Bool.true_and _
    exact sim_unaryOut htarget hnn.symm hcore.1 hcore.2 (fun h => (eval_fits hρ e ht hc).notNull (hnn ▸ h)) hE fun v => by cases op <;> rfl
  | .not e, c, scope, σ, ht, hc, hsafe, hs, hcalm, hσ, htarget => by
    have hE := (cgExpr_sim hrt hρ e (.left 10 (c.level + 1)) ht hc hsafe hs hcalm hσ (targetOk_of_none rfl)).after rfl
    exact sim_unaryOut htarget rfl rfl nofun (eval_fits hρ e ht hc).notNull hE fun v => rfl
  | .binary op l r, c, scope, σ, ht, hc, hsafe, hs, hcalm, hσ, htarget => by
    have hsafe := (Bool.and_eq_true _ _).mp hsafe
    have hcalm := calm_append.mp hcalm
    have hcalm' := calm_append.mp hcalm.2
    have hops := fun pri level => runs_operands
      ((cgExpr_sim hrt hρ l (.left pri level) ht.1 hc.2.1 hsafe.1 hs.1 hcalm.1 hσ (targetOk_of_none rfl)).after rfl)
      (fun τ hk => (cgExpr_sim hrt hρ r (.rightOf pri _) ht.2 hc.2.2 hsafe.2 hs.2 hcalm'.1 (hk.represents hσ)
        (targetOk_of_none rfl)).after rfl) (level_le l _) rfl (level_le r (.rightOf pri _))
    have hfits := eval_fits hρ (.binary op l r) ht hc
    rw [cgExpr]
    split
    · rename_i htype
      have hnone := hfits.null (congrArg SemType.core htype)
      rw [hnone, htype]
      exact sim_skip fun _ _ => ⟨evals_one, nofun, fun _ _ => rfl⟩
    · rename_i htype
      refine sim_binaryOut htarget (by cases op <;> decide) rfl (isRef_math hc.1.1 hc.1.2) (fun hnull => ?_)
        (eval_fits hρ l ht.1 hc.2.1).notNull (eval_fits hρ r ht.2 hc.2.2).notNull (hops _ _) fun v w hv hw => ?_
      · by_contra hn
        refine htype ?_
        rw [← eq_false_of_ne_true hn, ← hnull]
      · have h := hcalm'.2
        rw [hv, hw] at h
        exact applyMath_gives h
  | .compare op l r, c, scope, σ, ht, hc, hsafe, hs, hcalm, hσ, htarget => by
    have hsafe := (Bool.and_eq_true _ _).mp hsafe
    have hcalm := calm_append.mp hcalm
    have hops := fun pri level => runs_operands
      ((cgExpr_sim hrt hρ l (.left pri level) ht.1 hc.1 hsafe.1 hs.1 hcalm.1 hσ (targetOk_of_none rfl)).after rfl)
      (fun τ hk => (cgExpr_sim hrt hρ r (.rightOf pri _) ht.2 hc.2 hsafe.2 hs.2 hcalm.2 (hk.represents hσ)
        (targetOk_of_none rfl)).after rfl) (level_le l _) rfl (level_le r (.rightOf pri _))
    have hL := (eval_fits hρ l ht.1 hc.1).notNull
    have hR := (eval_fits hρ r ht.2 hc.2).notNull
    rw [cgExpr]
    split
    · refine sim_compareOut htarget rfl rfl nofun hL hR (hops _ _) fun τ v w hl hr => ?_
      have hcall : Evals Z rt τ (.call .stringCompare _ _) (· = some (rt.stringCompare v w)) := evals_call (by decide) hl hr rfl
      refine evals_binary (by cases op <;> decide) hcall evals_zero ?_
      rw [← rt.compare_stringCompare op v w]
      cases op <;> rfl
    · exact sim_binaryOut htarget (by cases op <;> decide) rfl rfl nofun hL hR (hops _ _) fun v w _ _ => by cases op <;> rfl
  | .eqNe negated l r, c, scope, σ, ht, hc, hsafe, hs, hcalm, hσ, htarget => by
    have hsafe := (Bool.and_eq_true _ _).mp hsafe
    have hcalm := calm_append.mp hcalm
    have hops := fun pri level => runs_operands
      ((cgExpr_sim hrt hρ l (.left pri level) ht.1 hc.1 hsafe.1 hs.1 hcalm.1 hσ (targetOk_of_none rfl)).after rfl)
      (fun τ hk => (cgExpr_sim hrt hρ r (.rightOf pri _) ht.2 hc.2 hsafe.2 hs.2 hcalm.2 (hk.represents hσ)
        (targetOk_of_none rfl)).after rfl) (level_le l _) rfl (level_le r (.rightOf pri _))
    have hL := (eval_fits hρ l ht.1 hc.1).notNull
    have hR := (eval_fits hρ r ht.2 hc.2).notNull
    rw [cgExpr]
    split
    · refine sim_compareOut htarget rfl rfl nofun hL hR (hops _ _) fun τ v w hl hr => ?_
      have hcall : Evals Z rt τ (.call .stringCompare _ _) (· = some (rt.stringCompare v w)) := evals_call (by decide) hl hr rfl
      refine evals_binary (eqBinary_ne negated) hcall evals_zero ?_
      rw [apply_eqBinary, ← rt.equal_stringCompare v w]
      rfl
    split
    · refine sim_compareOut htarget rfl rfl nofun hL hR (hops _ _) fun τ v w hl hr => evals_negate negated ?_
      exact evals_call (by decide) hl hr rfl
    · refine sim_binaryOut htarget (eqBinary_ne negated) rfl rfl nofun hL hR (hops _ _) fun v w _ _ => ?_
      rw [apply_eqBinary]
      rfl
  | .like negated l r, c, scope, σ, ht, hc, hsafe, hs, hcalm, hσ, htarget => by
    have hsafe := (Bool.and_eq_true _ _).mp hsafe
    have hcalm := calm_append.mp hcalm
    have hops := fun pri level => runs_operands
      ((cgExpr_sim hrt hρ l (.left pri level) ht.1 hc.1 hsafe.1 hs.1 hcalm.1 hσ (targetOk_of_none rfl)).after rfl)
      (fun τ hk => (cgExpr_sim hrt hρ r (.rightOf pri _) ht.2 hc.2 hsafe.2 hs.2 hcalm.2 (hk.represents hσ)
        (targetOk_of_none rfl)).after rfl) (level_le l _) rfl (level_le r (.rightOf pri _))
    refine sim_compareOut htarget rfl rfl nofun (eval_fits hρ l ht.1 hc.1).notNull (eval_fits hρ r ht.2 hc.2).notNull (hops _ _)
      fun τ v w hl hr => ?_
    have hcall : Evals Z rt τ (.call .stringLike _ _) (· = some (rt.stringLike v w)) := evals_call (by decide) hl hr rfl
    refine evals_binary (eqBinary_ne negated) hcall evals_zero ?_
    rw [apply_eqBinary, ← rt.equal_stringLike v w]
    rfl
  | .logical op l r, c, scope, σ, ht, hc, hsafe, hs, hcalm, hσ, htarget => by
    have hsafe := (Bool.and_eq_true _ _).mp hsafe
    have hstart := hsafe.2
    have hsafe := (Bool.and_eq_true _ _).mp hsafe.1
    have hcalm := calm_append.mp hcalm
    refine sim_logicalOut htarget rfl (eval_fits hρ l ht.1 hc.1).notNull (eval_fits hρ r ht.2 hc.2)
      ((cgExpr_sim hrt hρ l (.left _ (c.level + 1)) ht.1 hc.1 hsafe.1 hs.1 hcalm.1 hσ (targetOk_of_none rfl)).after rfl)
      (fun hdec τ hk => (cgExpr_sim hrt hρ r (.rightOf _ _) ht.2 hc.2 hsafe.2 hs.2 ?_ (hk.represents hσ)
        (targetOk_of_none rfl)).after rfl) (level_le l (.left _ (c.level + 1)))
      (level_le r (.rightOf _ _)) (fun hboth => ?_) fun hskip => ?_
    · have h := hcalm.2
      rw [if_neg (by simp [hdec])] at h
      exact h
    · have hboth := (Bool.and_eq_true _ _).mp hboth
      rw [eq_null hboth.1, eq_null hboth.2]
      exact ⟨rfl, rfl⟩
    · rw [(described r _).isSkip, Bool.and_eq_true] at hskip
      have hb : bothNotNull l r = true := hskip.1
      rw [hb, (Bool.not_eq_true' _).mp hskip.2] at hstart
      exact start_of_storeSafe (t := ⟨.bool, true⟩) (c := .rightOf (if op = .or then 1 else 2) _) hstart rfl
  | .is negated l r, c, scope, σ, ht, hc, hsafe, hs, hcalm, hσ, htarget => by
    have hsafe := (Bool.and_eq_true _ _).mp hsafe
    have hcalm := calm_append.mp hcalm
    have hL := fun c' : Ctx => cgExpr_sim hrt hρ l c' ht.1 hc.2.1 hsafe.1 hs.1 hcalm.1 hσ
    have hR := fun (c' : Ctx) τ (hk : Keeps Γ ρ none c.level σ τ) =>
      cgExpr_sim hrt hρ r c' ht.2 hc.2.2 hsafe.2 hs.2 hcalm.2 (hk.represents hσ)
    have hfl := eval_fits hρ l ht.1 hc.2.1
    have hfr := eval_fits hρ r ht.2 hc.2.2
    rw [cgExpr]
    split
    · rename_i hnull
      have heval : eval rt cqlIn ρ (.is negated l r) = rt.bit ((eval rt cqlIn ρ r).isNone ^^ negated) := by
        rw [eq_null hnull]
        simp only [eval]
        cases eval rt cqlIn ρ r <;> rfl
      rw [heval]
      split
      · rename_i hn
        obtain ⟨w, hw⟩ := Option.ne_none_iff_exists'.mp (hfr.notNull ((Bool.and_eq_true _ _).mp hn).1)
        rw [hw]
        exact sim_skip fun _ _ => denotes_bit (by simp [atomValue])
      · exact sim_isNullOut negated ((hR (.root c.level) σ (Keeps.refl σ) (targetOk_of_none rfl)).after rfl)
    split
    · rename_i hnull
      have heval : eval rt cqlIn ρ (.is negated l r) = rt.bit ((eval rt cqlIn ρ l).isNone ^^ negated) := by
        rw [eq_null hnull]
        simp only [eval]
        cases eval rt cqlIn ρ l <;> rfl
      rw [heval]
      split
      · rename_i hn
        obtain ⟨w, hw⟩ := Option.ne_none_iff_exists'.mp (hfl.notNull ((Bool.and_eq_true _ _).mp hn).1)
        rw [hw]
        exact sim_skip fun _ _ => denotes_bit (by simp [atomValue])
      · exact sim_isNullOut negated ((hL (.root c.level) (targetOk_of_none rfl)).after rfl)
    · exact sim_isOut hrt negated hc.1 hfl.notNull hfr.notNull (runs_operands ((hL (.left 5 c.level) (targetOk_of_none rfl)).after rfl)
        (fun τ hk => (hR (.rightOf 5 _) τ hk (targetOk_of_none rfl)).after rfl) (level_le l (.left 5 c.level)) rfl
        (level_le r (.rightOf 5 _)))
  | .isTruth negated value e, c, scope, σ, ht, hc, hsafe, hs, hcalm, hσ, htarget =>
    sim_isTruthOut negated value (eval_fits hρ e ht hc).notNull
      ((cgExpr_sim hrt hρ e (.root c.level) ht hc hsafe hs hcalm hσ (targetOk_of_none rfl)).after rfl)
  | .between name e test, c, scope, σ, ht, hc, hsafe, hs, hcalm, hσ, htarget => by
    rw [cgExpr, eval]
    rw [troubles] at hcalm
    split
    · exact sim_skip fun _ _ => ⟨evals_one, nofun, fun h => h.elim nofun nofun⟩
    · rename_i hnull
      rw [if_neg hnull] at hcalm
      obtain ⟨hname, hse, hst⟩ := hs.resolve_left hnull
      have hsafe := (Bool.and_eq_true _ _).mp hsafe
      have hcalm := calm_append.mp hcalm
      have hE := (cgExpr_sim hrt hρ e (.root c.level) ht.2.1 hc.1 hsafe.1 hse hcalm.1 hσ (targetOk_of_none rfl)).after rfl
      refine sim_out (Nat.le_refl _) (runs_then hE fun τ ⟨hk, hd⟩ => runs_andThen ?_)
      refine runs_storeNew (hd τ (Keeps.refl τ)) (eval_fits hρ e ht.2.1 hc.1).notNull fun cell hcell => ?_
      -- the store of the variable's own value keeps the variables, and brings it into scope
      have hcell : cell.Holds (Γ name) (ρ name) := by
        rw [ht.1.1, hname]
        exact hcell
      have hk' : Keeps Γ ρ none c.level σ (τ.set (.user name) cell) := hk.trans ((Keeps.refl τ).set_own hcell)
      have hσ' : Represents Γ ρ (fun x => x = name ∨ scope x) (τ.set (.user name) cell) := fun x hx => by
        rcases hx with rfl | hx
        · rw [set_self]
          exact hcell
        · exact hk'.represents hσ x hx
      have hT := (cgExpr_sim hrt hρ test ⟨c.pri, true, none, (cgExpr (.root c.level) e).level⟩ ht.2.2 hc.2 hsafe.2 hst hcalm.2 hσ'
        (targetOk_of_none rfl)).after rfl
      refine hT.mono fun e' τ' ⟨he, hkT, hdT⟩ => ⟨he, hk'.trans (hkT.weaken (level_le e (.root c.level))), fun τ'' hτ => ?_⟩
      exact (hdT τ'' hτ).retype fun h => h.elim nofun nofun
  | .inPred negated e items, c, scope, σ, ht, hc, hsafe, hs, hcalm, hσ, htarget => by
    have hsafe := (Bool.and_eq_true _ _).mp hsafe
    have hcalm := calm_append.mp hcalm
    have hfits := eval_fits hρ e ht.1 hc.1
    rw [cgExpr]
    split
    · rename_i hnull
      have hnone := hfits.null hnull
      have heval : eval rt cqlIn ρ (.inPred negated e items) = none := by
        rw [eval, hnone]
        rfl
      rw [heval]
      have hn : (Expr.inPred negated e items).type.notNull = false := eq_false_of_ne_true fun h => hfits.notNull h hnone
      exact sim_outVar (resultVar_ok c _) nofun (runs_setNullCode hn fun cell hcell => stored_result htarget (Keeps.refl σ) hcell)
    · rename_i hcore
      have hE := (cgExpr_sim hrt hρ e (.root (c.level + 1)) ht.1 hc.1 hsafe.1 hs.1 hcalm.1 hσ (targetOk_of_none rfl)).after rfl
      have hlevel : c.level + 1 ≤ (cgExpr (.root (c.level + 1)) e).level := level_le e (.root (c.level + 1))
      refine sim_outVar (.inr ⟨_, rfl⟩) nofun (runs_block ?_)
      refine runs_then hE fun τ₁ ⟨hk₁, hd₁⟩ => runs_andThen ?_
      refine runs_store_same (hd₁ τ₁ (Keeps.refl τ₁)) hfits.notNull fun cell hcell => ?_
      have hk₂ : Keeps Γ ρ none (c.level + 1) σ (τ₁.set (.temp e.type (cgExpr (.root (c.level + 1)) e).level) cell) :=
        hk₁.set_temp hlevel
      have hD : Denotes Z rt (τ₁.set (.temp e.type (cgExpr (.root (c.level + 1)) e).level) cell) e.type
          (varTexts e.type (.temp e.type (cgExpr (.root (c.level + 1)) e).level)).1
          (varTexts e.type (.temp e.type (cgExpr (.root (c.level + 1)) e).level)).2 (eval rt cqlIn ρ e) :=
        denotes_varTexts hcore (by rw [set_self]; exact hcell)
      -- where the operand is null, the result is null
      cases ha : eval rt cqlIn ρ e with
      | none =>
        have hn : e.type.notNull = false := eq_false_of_ne_true fun h => hfits.notNull h ha
        have heval : eval rt cqlIn ρ (.inPred negated e items) = none := by
          rw [eval, ha]
          rfl
        rw [heval]
        rw [ha] at hD
        refine runs_andThen ?_
        rw [if_neg (by simp [hn])]
        refine runs_ite (hD.isNull.mono fun v hv => (congrArg rt.isTrue hv).trans (isTrue_bit true)) ?_
        rw [if_pos rfl]
        refine runs_andThen (runs_setNullCode hn fun cell' hcell' => runs_break ?_)
        refine ⟨rfl, ((hk₂.weaken (Nat.le_succ _)).set_temp (Nat.le_refl _)), ?_⟩
        rw [set_self]
        exact hcell'
      | some w =>
        rw [ha] at hD
        have hitems : Calm Z (troublesItems rt cqlIn ρ w items) := by
          have h := hcalm.2
          rw [ha] at h
          exact h
        have heval : eval rt cqlIn ρ (.inPred negated e items) =
            rt.bit ((evalItems rt cqlIn ρ items).any (fun o => o.any (rt.equal w)) ^^ negated) := by
          rw [eval, ha]
          rfl
        rw [heval]
        have hbit : ∀ (τ : Store V) (b : Bool), Denotes Z rt τ (Expr.inPred negated e items).type zero (.atom (.bool b)) (rt.bit b) :=
          fun τ b => denotes_bit (evals_bit b)
        refine runs_andThen ?_
        have hpass : ∀ P : End → Store V → Prop, P .normal (τ₁.set (.temp e.type (cgExpr (.root (c.level + 1)) e).level) cell) →
            Runs Z rt (if e.type.notNull then Code.skip
              else .ite (varTexts e.type (.temp e.type (cgExpr (.root (c.level + 1)) e).level)).1
                ((setNullCode (.temp (Expr.inPred negated e items).type c.level) (Expr.inPred negated e items).type).andThen .break)
                .skip) (τ₁.set (.temp e.type (cgExpr (.root (c.level + 1)) e).level) cell) P := fun P hP => by
          split
          · exact runs_skip hP
          · exact runs_ite (hD.isNull.mono fun v hv => (congrArg rt.isTrue hv).trans (isTrue_bit false)) (runs_skip hP)
        refine hpass _ (runs_andThen (runs_store_same (hbit _ _) (fun _ => nofun) fun cell₃ hcell₃ => ?_))
        have hk₃ : Keeps Γ ρ none c.level σ ((τ₁.set (.temp e.type (cgExpr (.root (c.level + 1)) e).level) cell).set
            (.temp (Expr.inPred negated e items).type c.level) cell₃) :=
          (hk₂.weaken (Nat.le_succ _)).set_temp (Nat.le_refl _)
        refine runs_andThen ((cgItems_sim hrt hρ items ht.2 hc.2 hsafe.2 hs.2 hitems (hk₃.represents hσ) fun τ' hτ' => ?_).mono
          fun e₄ τ₄ ⟨hk₄, he₄⟩ => ?_)
        · refine ((denotes_varTexts (Z := Z) hcore ?_).value w rfl)
          have hne : (Var.temp e.type (cgExpr (.root (c.level + 1)) e).level) ≠ .temp (Expr.inPred negated e items).type c.level :=
            fun h => absurd (Var.temp.inj h).2 (Nat.ne_of_gt hlevel)
          rw [hτ'.temp _ _ (Nat.lt_succ_self _), set_of_ne cell₃ hne, set_self]
          exact ha ▸ hcell
        · have hk := hk₃.trans (hk₄.weaken (Nat.le_trans (Nat.le_succ _) (Nat.le_succ_of_le hlevel)))
          cases hfound : (evalItems rt cqlIn ρ items).any (fun o => o.any (rt.equal w)) with
          | true =>
            rw [hfound] at he₄
            obtain rfl : e₄ = .break := he₄
            refine ⟨rfl, hk.weaken (Nat.le_refl _), ?_⟩
            rw [hk₄.temp _ _ (Nat.lt_succ_of_lt hlevel), set_self, Bool.true_xor]
            exact hcell₃
          | false =>
            rw [hfound] at he₄
            obtain rfl : e₄ = .normal := he₄
            refine runs_store_same (hbit _ _) (fun _ => nofun) fun cell₅ hcell₅ => ⟨rfl, ?_, ?_⟩
            · exact (hk.weaken (Nat.le_refl _)).set_temp (Nat.le_refl _)
            · rw [set_self, Bool.false_xor]
              exact hcell₅
  | .caseExpr operand whens orElse, c, scope, σ, ht, hc, hsafe, hs, hcalm, hσ, htarget => by
    simp only [Expr.storesSafe, Bool.and_eq_true] at hsafe
    have hfitW := fun o r => evalWhens_fits hρ whens (o := o) (r := r) ht.2.1 hc.1 hc.2.2.1 (@whens_notNull_of_case V operand orElse whens)
    have hfitE : FitsType rt (Expr.caseExpr operand whens orElse).type
        (evalElse rt cqlIn ρ (Expr.caseExpr operand whens orElse).type orElse) := evalElse_fits hρ orElse ht.2.2 hc.1 hc.2.2.2
    -- the ELSE, wherever it is reached
    have helse : ∀ τ, Keeps Γ ρ none c.level σ τ → Calm Z (troublesElse rt cqlIn ρ orElse) →
        Runs Z rt (cgElse (c.resultVar (Expr.caseExpr operand whens orElse).type) (Expr.caseExpr operand whens orElse).type
          (c.level + 1) orElse).1 τ (Stored Γ ρ c (Expr.caseExpr operand whens orElse).type
            (c.resultVar (Expr.caseExpr operand whens orElse).type) σ
              (evalElse rt cqlIn ρ (Expr.caseExpr operand whens orElse).type orElse)) := fun τ hk hcalm =>
      cgElse_sim hrt hρ orElse ht.2.2 hc.1 hc.2.2.2 hsafe.2 hs.2.2 hcalm (hk.represents hσ) htarget (Nat.le_succ _) hk hfitE.notNull
    -- the WHENs with the ELSE after them
    have hwhens : ∀ (text : Option (Text V)) (o : Option V) (level : Nat) (τ : Store V), c.level + 1 ≤ level → Keeps Γ ρ none c.level σ τ →
        text.isSome = o.isSome → (∀ s w, text = some s → o = some w → ∀ τ', Keeps Γ ρ none level τ τ' → Evals Z rt τ' s (· = some w)) →
        Calm Z (troublesWhens rt cqlIn ρ o (troublesElse rt cqlIn ρ orElse) whens) →
        Runs Z rt (cgWhens (c.resultVar (Expr.caseExpr operand whens orElse).type) (Expr.caseExpr operand whens orElse).type text level
          whens).1 τ fun e τ' => Next Z rt (cgElse (c.resultVar (Expr.caseExpr operand whens orElse).type)
            (Expr.caseExpr operand whens orElse).type (c.level + 1) orElse).1
            (fun e τ => Stored Γ ρ c (Expr.caseExpr operand whens orElse).type (c.resultVar (Expr.caseExpr operand whens orElse).type) σ
              ((evalWhens rt cqlIn ρ (Expr.caseExpr operand whens orElse).type o whens).getD
                (evalElse rt cqlIn ρ (Expr.caseExpr operand whens orElse).type orElse)) (if e = .break then .normal else e) τ)
            (if e = .gotoElse then .normal else e) τ' := fun text o level τ hlevel hk hsome ho hcalm => by
      refine (cgWhens_sim hrt hρ whens ht.2.1 hc.1 hc.2.2.1 hsafe.1.2 hs.2.1 hcalm (hk.represents hσ) htarget hlevel hk hsome ho
        fun r hr => (hfitW o r hr).notNull).mono fun e τ' hdone => ?_
      cases hr : evalWhens rt cqlIn ρ (Expr.caseExpr operand whens orElse).type o whens with
      | some r =>
        rw [hr] at hdone
        obtain ⟨rfl, hk', hx⟩ := hdone
        exact ⟨rfl, hk', hx⟩
      | none =>
        rw [hr] at hdone
        obtain ⟨rfl, hk'⟩ := hdone
        refine (helse τ' hk' (calm_else whens hcalm hr)).mono fun e τ'' hst => ?_
        obtain ⟨rfl, hst⟩ := hst
        exact ⟨rfl, hst⟩
    refine sim_outVar (resultVar_ok c _) hc.1 (runs_block (runs_andThen (runs_caseElse ?_)))
    cases operand with
    | none => exact hwhens none none (c.level + 1) σ (Nat.le_refl _) (Keeps.refl σ) rfl nofun hcalm
    | some e =>
      have hcalm := calm_append.mp hcalm
      have hfits := eval_fits hρ e ht.1 hc.2.1
      have hE := (cgExpr_sim hrt hρ e (.left 5 (c.level + 1 + 1)) ht.1 hc.2.1 hsafe.1.1 hs.1 hcalm.1 hσ (targetOk_of_none rfl)).after rfl
      refine runs_andThen (runs_then hE fun τ₁ ⟨hk₁, hd₁⟩ => runs_andThen ?_)
      refine runs_store_same (hd₁ τ₁ (Keeps.refl τ₁)) hfits.notNull fun cell hcell => ?_
      have hk₂ : Keeps Γ ρ none (c.level + 1) σ (τ₁.set (.temp e.type (c.level + 1)) cell) :=
        (hk₁.weaken (Nat.le_succ _)).set_temp (Nat.le_refl _)
      have hnull : ∀ P : End → Store V → Prop, P (if (eval rt cqlIn ρ e).isNone then .gotoElse else .normal)
          (τ₁.set (.temp e.type (c.level + 1)) cell) → Runs Z rt (if e.type.notNull then Code.skip
            else .ite (varTexts e.type (.temp e.type (c.level + 1))).1 .gotoElse .skip) (τ₁.set (.temp e.type (c.level + 1)) cell) P :=
        fun P hP => by
          split
          · rename_i hn
            obtain ⟨w, hw⟩ := Option.ne_none_iff_exists'.mp (hfits.notNull hn)
            rw [hw] at hP
            exact runs_skip hP
          · rename_i hn
            have hisNull : Evals Z rt (τ₁.set (.temp e.type (c.level + 1)) cell) (varTexts e.type (.temp e.type (c.level + 1))).1
                (· = rt.bit (eval rt cqlIn ρ e).isNone) :=
              evals_varTexts_isNull (by rw [set_self]; exact hcell)
            refine runs_ite (hisNull.mono fun v hv => (congrArg rt.isTrue hv).trans (isTrue_bit _)) ?_
            cases h : (eval rt cqlIn ρ e).isNone with
            | true =>
              rw [h] at hP
              exact runs_gotoElse hP
            | false =>
              rw [h] at hP
              exact runs_skip hP
      refine hnull _ ?_
      cases ha : eval rt cqlIn ρ e with
      | none =>
        have hcalm := hcalm.2
        rw [ha] at hcalm
        have heval : eval rt cqlIn ρ (.caseExpr (.some e) whens orElse) =
            evalElse rt cqlIn ρ (Expr.caseExpr (.some e) whens orElse).type orElse := by
          rw [eval, ha]
        rw [heval]
        refine (helse _ (hk₂.weaken (Nat.le_succ _)) hcalm).mono fun e τ'' hst => ?_
        obtain ⟨rfl, hst⟩ := hst
        exact ⟨rfl, hst⟩
      | some w =>
        have hcalm := hcalm.2
        rw [ha] at hcalm
        have heval : eval rt cqlIn ρ (.caseExpr (.some e) whens orElse) =
            (evalWhens rt cqlIn ρ (Expr.caseExpr (.some e) whens orElse).type (some w) whens).getD
              (evalElse rt cqlIn ρ (Expr.caseExpr (.some e) whens orElse).type orElse) := by
          rw [eval, ha]
        rw [heval]
        refine hwhens _ (some w) (c.level + 2) _ (Nat.le_succ _) (hk₂.weaken (Nat.le_succ _)) rfl (fun s v hs hv τ' hτ' => ?_) hcalm
        cases hs
        cases hv
        refine evals_varTexts_value ?_ rfl
        rw [hτ'.temp _ _ (Nat.lt_succ_self _), set_self]
        exact ha ▸ hcell
  | .coalesce args, c, scope, σ, ht, hc, hsafe, hs, hcalm, hσ, htarget => by
    have hfits := eval_fits hρ (.coalesce args) ht hc
    refine sim_outVar (resultVar_ok c _) hc.1 (runs_block ((cgCoalesce_sim hrt hρ args ht hc.1 hc.2 hsafe hs hcalm hσ htarget
      (Nat.le_succ _) (Keeps.refl σ) hfits.notNull).mono fun e τ ⟨he, hk, hx⟩ => ?_))
    rcases he with rfl | rfl <;> exact ⟨rfl, hk, hx⟩
  | .cast e core, c, scope, σ, ht, hc, hsafe, hs, hcalm, hσ, htarget => by
    have hE := (cgExpr_sim hrt hρ e (.root (c.level + 1)) ht hc.2 hsafe hs hcalm hσ (targetOk_of_none rfl)).after rfl
    exact sim_castOut htarget hc.1.1 rfl hc.1.2 (eval_fits hρ e ht hc.2) hE
  | .typeCheck e, c, scope, σ, ht, hc, hsafe, hs, hcalm, hσ, htarget => by
    have hcalm := calm_append.mp hcalm
    have hE := (cgExpr_sim hrt hρ e (.root c.level) ht hc hsafe hs hcalm.1 hσ (targetOk_of_none rfl)).after rfl
    have ha : eval rt cqlIn ρ e ≠ none := fun hnone => by
      have h := hcalm.2
      rw [hnone] at h
      exact not_calm h nofun
    exact sim_out (Nat.le_refl _) (hE.mono fun _ _ ⟨he, hk, hd⟩ => ⟨he, hk, fun τ' hτ => denotes_zero ha (hd τ' hτ).value⟩)

/-- The items of IN break where one is equal. -/
theorem cgItems_sim (hrt : rt.Lawful) (hρ : ValidValues rt ρ Γ) : ∀ (items : Exprs V) {operand : Text V} {level : Nat} {w : V}
    {scope : String → Prop} {σ : Store V}, items.Typed Γ → items.ItemsChecked → items.itemsStoresSafe = true →
      items.Scoped rt cqlIn ρ scope → Calm Z (troublesItems rt cqlIn ρ w items) → Represents Γ ρ scope σ →
      (∀ τ, Keeps Γ ρ none level σ τ → Evals Z rt τ operand (· = some w)) →
      Runs Z rt (cgItems operand level items).1 σ fun e τ => Keeps Γ ρ none level σ τ ∧
        e = if (evalItems rt cqlIn ρ items).any (fun o => o.any (rt.equal w)) then .break else .normal
  | .nil, operand, level, w, scope, σ, _, _, _, _, _, _, _ => runs_skip ⟨Keeps.refl σ, rfl⟩
  | .cons e rest, operand, level, w, scope, σ, ht, hc, hsafe, hs, hcalm, hσ, ho => by
    have hsafe := (Bool.and_eq_true _ _).mp hsafe
    rw [cgItems]
    rw [troublesItems] at hcalm
    split
    · rename_i hnull
      rw [if_pos hnull] at hcalm
      have ih := cgItems_sim hrt hρ rest ht.2 hc.2 hsafe.2 hs.2 hcalm hσ ho
      rw [eq_null hnull]
      exact ih
    · rename_i hnull
      rw [if_neg hnull] at hcalm
      have hcalm := calm_append.mp hcalm
      have hcalm' := calm_append.mp hcalm.2
      have hE := (cgExpr_sim hrt hρ e (.left 5 level) ht.1 hc.1 hsafe.1 hs.1 hcalm.1 hσ (targetOk_of_none rfl)).after rfl
      refine runs_then hE fun τ ⟨hk, hd⟩ => runs_andThen ?_
      have hcond := evals_itemTest (ho τ hk) (hd τ (Keeps.refl τ)) (eval_fits hρ e ht.1 hc.1).notNull
        (alternative_calm hcalm'.1).1 (alternative_calm hcalm'.1).2
      refine runs_ite hcond ?_
      rw [evalItems, List.any_cons]
      cases hfound : (eval rt cqlIn ρ e).any (rt.equal w) with
      | true => exact runs_break ⟨hk, rfl⟩
      | false =>
        have hrest := hcalm'.2
        rw [if_neg (by simp [hfound])] at hrest
        refine runs_skip ((cgItems_sim hrt hρ rest ht.2 hc.2 hsafe.2 hs.2 hrest (hk.represents hσ) fun τ' hτ' =>
          ho τ' (hk.trans hτ')).mono fun e' τ' ⟨hk', he'⟩ => ⟨hk.trans hk', ?_⟩)
        rw [Bool.false_or]
        exact he'

theorem cgWhens_sim (hrt : rt.Lawful) (hρ : ValidValues rt ρ Γ) : ∀ (whens : Whens V) {c : Ctx} {t : SemType} {text : Option (Text V)}
    {o : Option V} {level : Nat} {ts : List Trouble} {scope : String → Prop} {σ σ₀ : Store V}, whens.Typed Γ → t.core ≠ .null →
      whens.Checked t → whens.storesSafe t = true → whens.Scoped rt cqlIn ρ scope → Calm Z (troublesWhens rt cqlIn ρ o ts whens) →
      Represents Γ ρ scope σ → c.TargetOk → c.level + 1 ≤ level → Keeps Γ ρ none c.level σ₀ σ → text.isSome = o.isSome →
      (∀ s w, text = some s → o = some w → ∀ τ', Keeps Γ ρ none level σ τ' → Evals Z rt τ' s (· = some w)) →
      (∀ r, evalWhens rt cqlIn ρ t o whens = some r → t.notNull = true → r ≠ none) →
      Runs Z rt (cgWhens (c.resultVar t) t text level whens).1 σ (WhensDone Γ ρ c t σ₀ (evalWhens rt cqlIn ρ t o whens))
  | .nil, c, t, text, o, level, ts, scope, σ, σ₀, _, _, _, _, _, _, _, _, _, hk, _, _, _ => runs_skip ⟨rfl, hk⟩
  | .cons cond value rest, c, t, text, o, level, ts, scope, σ, σ₀, ht, hcore, hc, hsafe, hs, hcalm, hσ, htarget, hlevel, hk, hsome, ho,
      hfit => by
    simp only [Whens.storesSafe, Bool.and_eq_true] at hsafe
    rw [troublesWhens] at hcalm
    have hcalm := calm_append.mp hcalm
    have hcalm' := calm_append.mp hcalm.2
    have hC := (cgExpr_sim hrt hρ cond (.left 5 level) ht.1 hc.1 hsafe.1.1 hs.1 hcalm.1 hσ (targetOk_of_none rfl)).after rfl
    refine runs_then hC fun τ ⟨hkC, hd⟩ => runs_andThen ?_
    have halternative : o.isSome = true → (cond.type.core = .text → eval rt cqlIn ρ cond ≠ none) ∧ (cond.type.core = .blob → false = true) :=
      fun h => by
        have hcond := hcalm'.1
        rw [if_pos h] at hcond
        exact alternative_calm hcond
    have hcond := evals_whenCond hsome (fun s w hs hw => ho s w hs hw τ hkC) (hd τ (Keeps.refl τ)) (eval_fits hρ cond ht.1 hc.1).notNull
      (fun h => (halternative h).1) fun h hb => absurd ((halternative h).2 hb) Bool.false_ne_true
    have hkτ := hk.trans (hkC.weaken (Nat.le_of_succ_le hlevel))
    refine runs_ite hcond ?_
    rw [evalWhens]
    rw [evalWhens] at hfit
    cases htaken : whenTaken rt o (eval rt cqlIn ρ cond) with
    | true =>
      rw [htaken] at hfit hcalm'
      have hE := (cgExpr_sim hrt hρ value (.root level) ht.2.1 hc.2.1.2 hsafe.1.2.1 hs.2.1 hcalm'.2 (hkC.represents hσ)
        (targetOk_of_none rfl)).after rfl
      refine runs_then hE fun τ₂ ⟨hk₂, hd₂⟩ => runs_andThen ?_
      refine runs_store (hd₂ τ₂ (Keeps.refl τ₂)) (store_compat hcore hc.2.1.1) (start_of_storeSafe hsafe.1.2.2)
        (fun hn hnone => hfit _ rfl hn (Option.map_eq_none_iff.mpr hnone)) fun cell hcell => runs_break ?_
      obtain ⟨-, hk', hx⟩ := stored_result htarget (hkτ.trans (hk₂.weaken (Nat.le_of_succ_le hlevel))) hcell
      exact ⟨rfl, hk', hx⟩
    | false =>
      rw [htaken] at hfit hcalm'
      exact runs_skip (cgWhens_sim hrt hρ rest ht.2.2 hcore hc.2.2 hsafe.2 hs.2.2 hcalm'.2 (hkC.represents hσ) htarget hlevel hkτ hsome
        (fun s w hs hw τ' hτ' => ho s w hs hw τ' (hkC.trans hτ')) hfit)

theorem cgElse_sim (hrt : rt.Lawful) (hρ : ValidValues rt ρ Γ) : ∀ (orElse : OptExpr V) {c : Ctx} {t : SemType} {level : Nat}
    {scope : String → Prop} {σ σ₀ : Store V}, orElse.Typed Γ → t.core ≠ .null → orElse.Checked t → orElse.storesSafe t = true →
      orElse.Scoped rt cqlIn ρ scope → Calm Z (troublesElse rt cqlIn ρ orElse) → Represents Γ ρ scope σ → c.TargetOk → c.level ≤ level →
      Keeps Γ ρ none c.level σ₀ σ → (t.notNull = true → evalElse rt cqlIn ρ t orElse ≠ none) →
      Runs Z rt (cgElse (c.resultVar t) t level orElse).1 σ (Stored Γ ρ c t (c.resultVar t) σ₀ (evalElse rt cqlIn ρ t orElse))
  | .none, c, t, level, scope, σ, σ₀, _, _, _, _, _, _, _, htarget, _, hk, hfit =>
    runs_setNullCode (eq_false_of_ne_true fun h => hfit h rfl) fun cell hcell => stored_result htarget hk hcell
  | .some e, c, t, level, scope, σ, σ₀, ht, hcore, hc, hsafe, hs, hcalm, hσ, htarget, hlevel, hk, hfit => by
    have hsafe := (Bool.and_eq_true _ _).mp hsafe
    have hE := (cgExpr_sim hrt hρ e (.root level) ht hc.2 hsafe.1 hs hcalm hσ (targetOk_of_none rfl)).after rfl
    refine runs_then hE fun τ ⟨hkE, hd⟩ => ?_
    exact runs_store (hd τ (Keeps.refl τ)) (store_compat hcore hc.1) (start_of_storeSafe hsafe.2)
      (fun hn hnone => hfit hn (Option.map_eq_none_iff.mpr hnone)) fun cell hcell =>
        stored_result htarget (hk.trans (hkE.weaken hlevel)) hcell

theorem cgCoalesce_sim (hrt : rt.Lawful) (hρ : ValidValues rt ρ Γ) : ∀ (args : Exprs V) {c : Ctx} {t : SemType} {level : Nat}
    {scope : String → Prop} {σ σ₀ : Store V}, args.Typed Γ → t.core ≠ .null → args.Checked t → args.storesSafe t = true →
      args.Scoped rt cqlIn ρ scope → Calm Z (troublesCoalesce rt cqlIn ρ args) → Represents Γ ρ scope σ → c.TargetOk → c.level ≤ level →
      Keeps Γ ρ none c.level σ₀ σ → (t.notNull = true → evalCoalesce rt cqlIn ρ t args ≠ none) →
      Runs Z rt (cgCoalesce (c.resultVar t) t level args).1 σ fun e τ => (e = .normal ∨ e = .break) ∧
        Keeps Γ ρ (c.targetVar) c.level σ₀ τ ∧ (τ (c.resultVar t)).Holds t (evalCoalesce rt cqlIn ρ t args)
  | .nil, c, t, level, scope, σ, σ₀, _, _, hc, _, _, _, _, _, _, _, _ => hc.elim
  | .cons e .nil, c, t, level, scope, σ, σ₀, ht, hcore, hc, hsafe, hs, hcalm, hσ, htarget, hlevel, hk, hfit => by
    simp only [Exprs.storesSafe, Bool.and_eq_true] at hsafe
    have hvalue : evalCoalesce rt cqlIn ρ t (.cons e .nil) = (eval rt cqlIn ρ e).map (convert rt t e.type) := by
      rw [evalCoalesce]
      cases eval rt cqlIn ρ e <;> rfl
    rw [hvalue] at hfit ⊢
    have hE := (cgExpr_sim hrt hρ e (.root level) ht.1 hc.2 hsafe.1.1 hs.1 (calm_append.mp hcalm).1 hσ (targetOk_of_none rfl)).after rfl
    refine runs_then hE fun τ ⟨hkE, hd⟩ => ?_
    refine runs_store (hd τ (Keeps.refl τ)) (store_compat hcore hc.1) (start_of_storeSafe hsafe.1.2)
      (fun hn hnone => hfit hn (Option.map_eq_none_iff.mpr hnone)) fun cell hcell => ?_
    obtain ⟨-, hk', hx⟩ := stored_result htarget (hk.trans (hkE.weaken hlevel)) hcell
    exact ⟨.inl rfl, hk', hx⟩
  | .cons e (.cons e' rest), c, t, level, scope, σ, σ₀, ht, hcore, hc, hsafe, hs, hcalm, hσ, htarget, hlevel, hk, hfit => by
    rw [Exprs.storesSafe, Bool.and_eq_true, Bool.and_eq_true] at hsafe
    rw [troublesCoalesce] at hcalm
    have hcalm := calm_append.mp hcalm
    have hE := (cgExpr_sim hrt hρ e (.root level) ht.1 hc.1.2 hsafe.1.1 hs.1 hcalm.1 hσ (targetOk_of_none rfl)).after rfl
    refine runs_then hE fun τ ⟨hkE, hd⟩ => runs_andThen ?_
    have hD := hd τ (Keeps.refl τ)
    have hkτ := hk.trans (hkE.weaken hlevel)
    refine runs_ite ((evals_not hD.isNull.isTrue).isTrue.mono fun v hv => hv.trans (isTrue_bit _)) ?_
    rw [isTrue_bit]
    rw [evalCoalesce] at hfit ⊢
    cases ha : eval rt cqlIn ρ e with
    | some w =>
      have hstore : Denotes Z rt τ ⟨e.type.core, true⟩ zero (cgExpr (.root level) e).value (some w) := by
        rw [ha] at hD
        exact denotes_zero nofun hD.value
      refine runs_andThen (runs_store hstore (store_compat (u := ⟨e.type.core, true⟩) hcore hc.1.1) (start_of_storeSafe hsafe.1.2)
        (fun _ => nofun) fun cell hcell => runs_break ?_)
      obtain ⟨-, hk', hx⟩ := stored_result htarget hkτ hcell
      exact ⟨.inr rfl, hk', hx⟩
    | none =>
      rw [ha] at hfit hcalm
      exact runs_skip (cgCoalesce_sim hrt hρ (.cons e' rest) ht.2 hcore hc.2 hsafe.2 hs.2 hcalm.2 (hkE.represents hσ) htarget
        (Nat.le_trans hlevel (level_le e (.root level))) hkτ hfit)

end

/-- A run of an expression gives whether its value is null, and the value. -/
theorem gives_runExpr (h : Accepted rt ρ Γ scope e) (hquiet : Quiet rt ρ e) (hσ : Represents Γ ρ scope σ)
    (hc : c.TargetOk) : Gives (Allowed (.zeroDivisor ∈ troubles rt cqlIn ρ e)) (runExpr rt c e σ)
      (· = (rt.bit (eval rt cqlIn ρ e).isNone, eval rt cqlIn ρ e)) := by
  have hfit := (cgExpr_fit e c).mpr hquiet.paren
  have hshape := (described e c).shaped
  have hcalm : SimulationAux.Calm (.zeroDivisor ∈ troubles rt cqlIn ρ e) (troubles rt cqlIn ρ e) := fun x hx => by
    obtain rfl := hquiet.calm x hx
    exact ⟨rfl, hx⟩
  have hsim := cgExpr_sim h.lawful h.values e c h.typed h.checked hquiet.stores h.inScope hcalm hσ hc
  rw [runExpr, run_eq hfit.2]
  refine Gives.bind hsim fun r ⟨he, _, hd⟩ => ?_
  obtain ⟨e', τ⟩ := r
  obtain rfl : e' = .normal := he
  have hD := hd τ (Keeps.refl τ) fun _ _ => rfl
  refine Gives.bind (P := (· = rt.bit (eval rt cqlIn ρ e).isNone)) ?_ fun n hn => ?_
  · rw [evalText_of_fits hshape.isNull.2]
    exact hD.isNull
  subst hn
  rw [isTrue_bit]
  cases ha : eval rt cqlIn ρ e with
  | none => rfl
  | some w =>
    refine Gives.bind (P := (· = some w)) ?_ fun v hv => ?_
    · rw [evalText_of_fits (hshape.fits hfit)]
      exact hD.value w ha
    · subst hv
      rfl

/-- Equal integers are equal. -/
theorem integerRuntime_lawful : integerRuntime.Lawful := fun a b => by cases a <;> cases b <;> rfl

end SimulationAux

open SimulationAux

/-! ## Assignments -/

/-- `SET x := e` stores the value of `e` from before and keeps the other variables. -/
theorem gives_assign {V : Type} {rt : Runtime V} {Γ : Types} {ρ : String → Option V} {scope : String → Prop} {σ : Store V} {e : Expr V}
    {x : String} (h : Accepted rt ρ Γ scope e) (hquiet : Quiet rt ρ e) (hσ : Represents Γ ρ scope σ)
    (ht : Assignable (Γ x) e.type) (hstore : storeSafe (Γ x) 0 true e = true) :
    Gives (Allowed (.zeroDivisor ∈ troubles rt cqlIn ρ e)) ((cgAssign x (Γ x) e).run rt σ) fun r =>
      r.1 = .normal ∧ (r.2 (.user x)).Holds (Γ x) ((eval rt cqlIn ρ e).map (convert rt (Γ x) e.type)) ∧
        ∀ y, y ≠ x → (σ (.user y)).Holds (Γ y) (ρ y) → (r.2 (.user y)).Holds (Γ y) (ρ y) := by
  have hfit := (cgExpr_fit e ⟨0, true, some (.user x, Γ x), 0⟩).mpr hquiet.paren
  have hshape := (described e ⟨0, true, some (.user x, Γ x), 0⟩).shaped
  have hcalm : SimulationAux.Calm (.zeroDivisor ∈ troubles rt cqlIn ρ e) (troubles rt cqlIn ρ e) := fun x hx => by
    obtain rfl := hquiet.calm x hx
    exact ⟨rfl, hx⟩
  have hc : Ctx.TargetOk ⟨0, true, some (.user x, Γ x), 0⟩ := fun y hy => by
    cases hy
    exact ⟨x, rfl⟩
  have hsim := cgExpr_sim h.lawful h.values e _ h.typed h.checked hquiet.stores h.inScope hcalm hσ hc
  rw [cgAssign, run_eq (by
    rw [texts_andThen]
    exact allFit_append.mpr ⟨hfit.2, allFit_store hshape.isNull.2 (hshape.fits hfit)⟩)]
  refine (runs_then hsim fun τ h => ?_ : Runs _ rt _ σ fun e' τ => e' = .normal ∧
    (τ (.user x)).Holds (Γ x) ((eval rt cqlIn ρ e).map (convert rt (Γ x) e.type)) ∧
      ∀ y, y ≠ x → (σ (.user y)).Holds (Γ y) (ρ y) → (τ (.user y)).Holds (Γ y) (ρ y))
  obtain ⟨hk, hd⟩ := h
  refine runs_store (hd τ (Keeps.refl τ) fun _ _ => rfl) (store_compat ht.core ht.compat)
    (start_of_storeSafe (c := ⟨0, true, some (.user x, Γ x), 0⟩) hstore)
    (fun hn => (eval_fits h.values e h.typed h.checked).notNull (ht.notNull hn)) fun cell hcell => ⟨rfl, ?_, fun y hy hσy => ?_⟩
  · rw [set_self]
    exact hcell
  · rw [set_of_ne cell fun h => hy (Var.user.inj h)]
    exact hk.user y (fun h => hy (Var.user.inj (Option.some.inj h)).symm) hσy

/-! ## Three-valued logic -/

/-- `1 IN (NULL, 2)`. -/
def oneInNull : Expr Int := .inPred false (.literal .integer 1) (.cons .null (.cons (.literal .integer 2) .nil))

/-- In CQL it is false, and null in SQL. -/
theorem implementsSql_false : ¬ ImplementsSql Int sqlIn := by
  intro h
  have hbool : CoreType.integer ≠ .bool := by decide
  have hnull : CoreType.integer ≠ .null := by decide
  have hvalues : ValidValues integerRuntime (fun _ => some 0) fun _ => ⟨.integer, true⟩ := ⟨by simp, by simp⟩
  have hzeros : Represents (fun _ => ⟨.integer, true⟩) (fun _ => some (0 : Int)) (fun _ => True) zeros := by
    intro x _
    exact ⟨by simp, by simp, fun w hw => hw, by simp⟩
  have h := h integerRuntime (fun _ => ⟨.integer, true⟩) (fun _ => some 0) (fun _ => True) zeros (.root 0) oneInNull
    ⟨integerRuntime_lawful, hvalues, ⟨hbool, trivial, hbool, trivial⟩, ⟨hnull, trivial, hnull, trivial⟩, ⟨trivial, trivial, trivial, trivial⟩⟩
    hzeros (targetOk_of_none rfl) (by decide)
  exact absurd (congrArg (fun r => r.toOption) h) (by decide +kernel)

/-- Where the texts are read rightly, stores are safe, and there are no troubles but zero divisors, generated code computes the value that
an expression has by the documented rules, unless an operand that is needed divides by zero. -/
theorem value_computed_of_quiet {V : Type} (rt : Runtime V) (Γ : Types) (ρ : String → Option V) (scope : String → Prop) (σ : Store V)
    (c : Ctx) (e : Expr V) (h : Accepted rt ρ Γ scope e) (hσ : Represents Γ ρ scope σ) (hc : c.TargetOk) (hquiet : Quiet rt ρ e) :
    runExpr rt c e σ = .ok (rt.bit (eval rt cqlIn ρ e).isNone, eval rt cqlIn ρ e) ∨
      runExpr rt c e σ = .error .divideByZero ∧ .zeroDivisor ∈ troubles rt cqlIn ρ e := by
  have h := gives_runExpr h hquiet hσ hc
  cases hr : runExpr rt c e σ with
  | ok r =>
    rw [hr] at h
    exact .inl (congrArg Except.ok h)
  | error f =>
    rw [hr] at h
    obtain ⟨rfl, hz⟩ := h
    exact .inr ⟨rfl, hz⟩

/-- `x IN (NULL, 0)` with a nullable `x` that is `0`. -/
def zeroInNull : Expr Int := .inPred false (.var ⟨.integer, false⟩ "x") (.cons .null (.cons (.literal .integer 0) .nil))

theorem zeroInNull_accepted : Accepted integerRuntime (fun _ => some 0) (fun _ => ⟨.integer, false⟩) (fun _ => True) zeroInNull :=
  ⟨integerRuntime_lawful, ⟨nofun, nofun⟩, ⟨rfl, trivial, nofun, trivial⟩, ⟨nofun, trivial, nofun, trivial⟩, ⟨trivial, trivial, trivial, trivial⟩⟩

theorem zeros_represents : Represents (fun _ => ⟨.integer, false⟩) (fun _ => some (0 : Int)) (fun _ => True) zeros :=
  fun _ _ => ⟨nofun, fun _ _ => rfl, fun _ hw => hw, nofun⟩

theorem value_computed_of_quiet_in : runExpr integerRuntime (.root 0) zeroInNull zeros = .ok (some 0, some 1) :=
  (value_computed_of_quiet integerRuntime (fun _ => ⟨.integer, false⟩) (fun _ => some 0) (fun _ => True) zeros (.root 0) zeroInNull
    zeroInNull_accepted zeros_represents nofun ⟨by decide, by decide, by decide⟩).resolve_right fun h => absurd h.2 (by decide)

end CgSql.CodeGen
