import CgSql.Lemmas.CRun
import CgSql.Lemmas.Values
import CgSql.Theorems.Bools

/-!
# Lemmas about what generated code computes

The texts that are generated for an expression denote its value once its statements have run, and go on doing so while later statements
leave the scratch variables below their level alone.
-/

namespace CgSql.CodeGen

open Nullability Precedence RenderingAux RunAux ValuesAux BoolsAux Faults

namespace SimulationAux

variable {V : Type} {rt : Runtime V} {Z : Prop} {Γ : Types} {ρ : String → Option V} {scope : String → Prop} {σ τ : Store V} {t u : SemType}
  {v n : Text V} {a : Option V} {w : V} {P : End → Store V → Prop}

/-! ## What texts denote -/

/-- Two texts denote a value of type `t`. The value of a null is asked for only where it is a reference. -/
structure Denotes (Z : Prop) (rt : Runtime V) (σ : Store V) (t : SemType) (n v : Text V) (a : Option V) : Prop where
  isNull : Evals Z rt σ n (· = rt.bit a.isNone)
  value : ∀ w, a = some w → Evals Z rt σ v (· = some w)
  null : isRef t.core = true ∨ t.core = .null → a = none → Evals Z rt σ v (· = none)

/-- A value that is there. -/
theorem denotes_of_some (hn : Evals Z rt σ n (· = rt.bit false)) (hv : Evals Z rt σ v (· = some w)) : Denotes Z rt σ t n v (some w) :=
  ⟨hn, fun u hu => by cases hu; exact hv, fun _ h => absurd h (Option.some_ne_none _)⟩

/-- The text of a NOT NULL value. -/
theorem denotes_zero (ha : a ≠ none) (hv : ∀ w, a = some w → Evals Z rt σ v (· = some w)) : Denotes Z rt σ t zero v a := by
  cases a with
  | none => exact absurd rfl ha
  | some w => exact denotes_of_some evals_zero (hv w rfl)

/-- A BOOL NOT NULL. -/
theorem denotes_bit {b : Bool} (hv : Evals Z rt σ v (· = rt.bit b)) : Denotes Z rt σ t zero v (rt.bit b) := denotes_of_some evals_zero hv

/-- Texts of a type that is no reference denote the value for every other such type. -/
theorem Denotes.retype (h : Denotes Z rt σ u n v a)
    (ht : isRef t.core = true ∨ t.core = .null → isRef u.core = true ∨ u.core = .null) : Denotes Z rt σ t n v a :=
  ⟨h.isNull, h.value, fun h' => h.null (ht h')⟩

/-- The null test of a variable. -/
theorem evals_varTexts_isNull {x : Var} (h : (σ x).Holds t a) : Evals Z rt σ (varTexts t x).1 (· = rt.bit a.isNone) := by
  unfold varTexts
  split
  · rename_i href
    have hvalue : (σ x).value = a := by
      cases a with
      | none => exact h.null href rfl
      | some w => exact h.value w rfl
    exact evals_unary (v := a) hvalue rfl
  split
  · rename_i hnn
    obtain ⟨w, rfl⟩ := Option.ne_none_iff_exists'.mp (h.notNull hnn)
    exact evals_zero
  · rename_i href hnn
    exact congrArg rt.bit (h.isNull (eq_false_of_ne_true href) (eq_false_of_ne_true hnn))

/-- The value of a variable. -/
theorem evals_varTexts_value {x : Var} (h : (σ x).Holds t a) (ha : a = some w) : Evals Z rt σ (varTexts t x).2 (· = some w) := by
  unfold varTexts
  split
  · exact h.value w ha
  split <;> exact h.value w ha

/-- The texts of a variable denote what it holds. -/
theorem denotes_varTexts {x : Var} (ht : t.core ≠ .null) (h : (σ x).Holds t a) : Denotes Z rt σ t (varTexts t x).1 (varTexts t x).2 a := by
  refine ⟨evals_varTexts_isNull h, fun w hw => evals_varTexts_value h hw, fun href ha => ?_⟩
  have href := href.resolve_right ht
  rw [varTexts, if_pos href]
  exact h.null href ha

/-! ## Stores -/

@[simp] theorem set_self (x : Var) (c : Cell V) : (σ.set x c) x = c := if_pos rfl

theorem set_of_ne {x y : Var} (c : Cell V) (h : y ≠ x) : (σ.set x c) y = σ y := if_neg h

theorem set_eq (x : Var) : σ.set x (σ x) = σ := by
  funext y
  unfold Store.set
  split
  · rename_i h
    rw [h]
  · rfl

/-- A store to a scratch variable. -/
theorem runs_storeNew {x : Var} (hD : Denotes Z rt σ t n v a) (hn : t.notNull = true → a ≠ none)
    (h : ∀ c : Cell V, c.Holds t a → P .normal (σ.set x c)) : Runs Z rt (storeNew x t n v) σ P := by
  unfold storeNew
  split
  · rename_i hcopy
    have hv : Evals Z rt σ v (· = a) := by
      cases a with
      | some w => exact hD.value w rfl
      | none =>
        refine hD.null (.inl ?_) rfl
        exact ((Bool.or_eq_true _ _).mp hcopy).resolve_right fun h => hn h rfl
    refine runs_copy hv (h _ ⟨hn, fun href hnn => ?_, fun w hw => hw, fun _ ha => ha⟩)
    rw [href, hnn] at hcopy
    cases hcopy
  · rename_i hcopy
    rw [Bool.or_eq_true, not_or] at hcopy
    exact runs_combineNullables hD.isNull evals_zero (Bool.or_false _).symm hD.value fun c hc hw =>
      h c ⟨hn, fun _ _ => hc, hw, fun href => absurd href hcopy.1⟩

/-- The stored text has the converted value. -/
theorem evals_storedValue (hv : Evals Z rt σ v (· = some w))
    (hs : t.core = .bool → u.core = .bool ∨ startsWithNot v = false) : Evals Z rt σ (storedValue t u v) (· = some (convert rt t u w)) := by
  unfold storedValue convert
  split
  · exact evals_unary (evals_paren.mpr hv) rfl
  split
  · rename_i h
    rw [if_pos ⟨h.1, h.2.1⟩]
    have h := evals_not (evals_not (evals_paren.mpr hv).isTrue).isTrue
    rw [isTrue_bit, Bool.not_not] at h
    exact h
  · rename_i h
    split
    · rename_i hb
      have hstart : startsWithNot v = false := (hs hb.1).resolve_left hb.2
      simp only [hb, ne_eq, not_false_eq_true, true_and, Bool.and_eq_true, Bool.not_eq_true', hstart, and_true, not_and_or,
        Bool.not_eq_false] at h
      rcases h with h | h
      · cases v with
        | atom a =>
          cases a with
          | bool b =>
            have hw : rt.bit b = some w := hv
            obtain rfl := Option.some.inj hw
            rw [rt.truth_ofBool]
            exact hv
          | _ => cases h
        | _ => cases h
      · cases v with
        | atom a =>
          cases a with
          | bool b =>
            have hw : rt.bit b = some w := hv
            obtain rfl := Option.some.inj hw
            rw [rt.truth_ofBool]
            exact hv
          | _ => cases h
        | _ => cases h
    · exact hv

/-- References are stored as they are. -/
theorem storedValue_of_ref (ht : isRef t.core = true ∨ t.core = .null) : storedValue t u v = v := by
  have hreal : t.core ≠ .real := fun h => by simp [h, isRef] at ht
  have hbool : t.core ≠ .bool := fun h => by simp [h, isRef] at ht
  unfold storedValue
  rw [if_neg fun h => hreal h.1, if_neg fun h => hbool h.1]

/-- What is stored denotes the converted value. -/
theorem denotes_storedValue (hD : Denotes Z rt σ u n v a) (ht : isRef t.core = true ∨ t.core = .null → isRef u.core = true ∨ u.core = .null)
    (hs : t.core = .bool → u.core = .bool ∨ startsWithNot v = false) : Denotes Z rt σ t n (storedValue t u v) (a.map (convert rt t u)) := by
  refine ⟨?_, fun w hw => ?_, fun h ha => ?_⟩
  · rw [Option.isNone_map]
    exact hD.isNull
  · obtain ⟨u, hu, rfl⟩ := Option.map_eq_some_iff.mp hw
    exact evals_storedValue (hD.value u hu) hs
  · rw [storedValue_of_ref h]
    exact hD.null (ht h) (Option.map_eq_none_iff.mp ha)

/-- A store is left out only where the texts are those of the variable. -/
theorem holds_of_isSameVar {x : Var} (h : isSameVar x t n v = true)
    (hD : Denotes Z rt σ t n v a) (hn : t.notNull = true → a ≠ none) : (σ x).Holds t a := by
  unfold isSameVar at h
  split at h
  · split at h
    · rename_i hc _ y
      obtain rfl := of_decide_eq_true h
      refine ⟨hn, fun href hnn => ?_, fun w hw => hD.value w hw, fun href ha => hD.null (.inl href) ha⟩
      rw [href, hnn] at hc
      cases hc
    · cases h
  · rename_i hc
    rw [Bool.or_eq_true, not_or] at hc
    split at h
    · rename_i y z
      obtain ⟨rfl, rfl⟩ := of_decide_eq_true h
      exact ⟨hn, fun _ _ => @bit_inj V rt _ _ hD.isNull, fun w hw => hD.value w hw, fun href => absurd href hc.1⟩
    · cases h

/-- A store. -/
theorem runs_store {x : Var} (hD : Denotes Z rt σ u n v a) (ht : isRef t.core = true ∨ t.core = .null → isRef u.core = true ∨ u.core = .null)
    (hs : t.core = .bool → u.core = .bool ∨ startsWithNot v = false) (hn : t.notNull = true → a ≠ none)
    (h : ∀ c : Cell V, c.Holds t (a.map (convert rt t u)) → P .normal (σ.set x c)) : Runs Z rt (store x t u n v) σ P := by
  have hD' := denotes_storedValue hD ht hs
  have hn' : t.notNull = true → a.map (convert rt t u) ≠ none := fun ht' hnone => hn ht' (Option.map_eq_none_iff.mp hnone)
  dsimp only [store]
  split
  · rename_i hsame
    have h := h (σ x) (holds_of_isSameVar hsame hD' hn')
    rw [set_eq] at h
    exact h
  · exact runs_storeNew hD' hn' h

/-- A store of a value of the same type. -/
theorem runs_store_same {x : Var} (hD : Denotes Z rt σ t n v a) (hn : t.notNull = true → a ≠ none)
    (h : ∀ c : Cell V, c.Holds t a → P .normal (σ.set x c)) : Runs Z rt (store x t t n v) σ P := by
  refine runs_store hD id .inl hn fun c hc => h c ?_
  have hconvert : convert rt t t = id := by
    funext w
    simp [convert]
  rwa [hconvert, Option.map_id] at hc

/-- A store of NULL. -/
theorem runs_setNullCode {x : Var} (ht : t.notNull = false)
    (h : ∀ c : Cell V, c.Holds t none → P .normal (σ.set x c)) : Runs Z rt (setNullCode x t) σ P := by
  have hn : t.notNull = true → (none : Option V) ≠ none := fun h => by
    rw [ht] at h
    cases h
  unfold setNullCode
  split
  · rename_i href
    exact runs_copy (o := none) rfl (h _ ⟨hn, fun h => absurd href (by simp [h]), nofun, fun _ _ => rfl⟩)
  · rename_i href
    rw [ht]
    exact runs_setNull (h _ ⟨hn, fun _ _ => rfl, nofun, fun h => absurd h href⟩)

/-! ## What statements keep -/

/-- From one store to another the scratch variables below a level are kept, and all variables but one go on holding their values. -/
structure Keeps (Γ : Types) (ρ : String → Option V) (x : Option Var) (level : Nat) (σ τ : Store V) : Prop where
  temp : ∀ t l, l < level → τ (.temp t l) = σ (.temp t l)
  user : ∀ n, x ≠ some (.user n) → (σ (.user n)).Holds (Γ n) (ρ n) → (τ (.user n)).Holds (Γ n) (ρ n)

variable {x : Option Var} {level m : Nat} {σ' : Store V} {c cell : Cell V}

theorem Keeps.refl (σ : Store V) : Keeps Γ ρ x level σ σ := ⟨fun _ _ _ => rfl, fun _ _ h => h⟩

theorem Keeps.trans (h : Keeps Γ ρ x level σ τ) (h' : Keeps Γ ρ x level τ σ') : Keeps Γ ρ x level σ σ' :=
  ⟨fun t l hl => (h'.temp t l hl).trans (h.temp t l hl), fun n hn hσ => h'.user n hn (h.user n hn hσ)⟩

theorem Keeps.weaken (h : Keeps Γ ρ none m σ τ) (hm : level ≤ m) : Keeps Γ ρ x level σ τ :=
  ⟨fun t l hl => h.temp t l (Nat.lt_of_lt_of_le hl hm), fun n _ hσ => h.user n nofun hσ⟩

theorem Keeps.represents (h : Keeps Γ ρ none level σ τ) (hσ : Represents Γ ρ scope σ) : Represents Γ ρ scope τ :=
  fun n hn => h.user n nofun (hσ n hn)

/-- Temporaries of higher levels may change. -/
theorem Keeps.set_temp (h : Keeps Γ ρ x level σ τ) {l : Nat} (hl : level ≤ l) : Keeps Γ ρ x level σ (τ.set (.temp t l) c) := by
  refine ⟨fun u k hk => ?_, fun n hn hσ => ?_⟩
  · rw [set_of_ne c fun h => by cases h; exact absurd hk (Nat.not_lt.mpr hl)]
    exact h.temp u k hk
  · rw [set_of_ne c Var.noConfusion]
    exact h.user n hn hσ

/-- So may the target. -/
theorem Keeps.set_user (h : Keeps Γ ρ none level σ τ) {n : String} : Keeps Γ ρ (some (.user n)) level σ (τ.set (.user n) c) := by
  refine ⟨fun u k hk => ?_, fun k hk hσ => ?_⟩
  · rw [set_of_ne c Var.noConfusion]
    exact h.temp u k hk
  · rw [set_of_ne c fun h => hk (by cases h; rfl)]
    exact h.user k nofun hσ

/-- A store of a variable's own value. -/
theorem Keeps.set_own (h : Keeps Γ ρ none level σ τ) {n : String} (hc : c.Holds (Γ n) (ρ n)) : Keeps Γ ρ none level σ (τ.set (.user n) c) := by
  refine ⟨fun u k hk => ?_, fun k _ hσ => ?_⟩
  · rw [set_of_ne c Var.noConfusion]
    exact h.temp u k hk
  · by_cases hk : k = n
    · obtain rfl := hk
      rw [set_self]
      exact hc
    · rw [set_of_ne c fun h => hk (by cases h; rfl)]
      exact h.user k nofun hσ

theorem targetOk_of_none {c : Ctx} (h : c.target = none) : c.TargetOk := fun x hx => by
  rw [Ctx.targetVar, h] at hx
  cases hx

/-- The result variable is the one that is assigned, or a scratch variable. -/
theorem resultVar_cases (c : Ctx) (t : SemType) : c.targetVar = some (c.resultVar t) ∨ c.resultVar t = .temp t c.level := by
  unfold Ctx.resultVar Ctx.targetVar
  split
  · rename_i x u h
    split
    · exact .inl (by rw [h]; rfl)
    · exact .inr rfl
  · exact .inr rfl

/-- So may the result variable. -/
theorem Keeps.set_result {c : Ctx} (hc : c.TargetOk) (h : Keeps Γ ρ none c.level σ τ) :
    Keeps Γ ρ (c.targetVar) c.level σ (τ.set (c.resultVar t) cell) := by
  rcases resultVar_cases c t with hx | hx
  · obtain ⟨n, hn⟩ := hc _ hx
    rw [hx, hn]
    exact h.set_user
  · rw [hx]
    exact (h.weaken (Nat.le_refl _)).set_temp (Nat.le_refl _)

/-! ## What a call gives -/

/-- The statements of a call end normally and keep what is below them, and from then on its texts denote a value. -/
def Sim (Z : Prop) (rt : Runtime V) (Γ : Types) (ρ : String → Option V) (c : Ctx) (t : SemType) (E : Out V) (σ : Store V) (a : Option V) : Prop :=
  Runs Z rt E.code σ fun e τ => e = .normal ∧ Keeps Γ ρ (c.targetVar) c.level σ τ ∧
    ∀ τ', Keeps Γ ρ none E.level τ τ' → (∀ x, c.targetVar = some x → τ' x = τ x) → Denotes Z rt τ' t E.isNull E.value a

variable {c : Ctx} {E L R : Out V} {b : Option V} {r l : SemType} {op : LogicalOp} {f : V → V → V} {text : Text V}

/-- What holds after the statements of an operand. -/
def After (Z : Prop) (rt : Runtime V) (Γ : Types) (ρ : String → Option V) (level : Nat) (t : SemType) (E : Out V) (σ : Store V)
    (a : Option V) (τ : Store V) : Prop :=
  Keeps Γ ρ none level σ τ ∧ ∀ τ', Keeps Γ ρ none E.level τ τ' → Denotes Z rt τ' t E.isNull E.value a

/-- Without a target, only temporaries change. -/
theorem Sim.after (h : Sim Z rt Γ ρ c t E σ a) (hc : c.target = none) :
    Runs Z rt E.code σ fun e τ => e = .normal ∧ After Z rt Γ ρ c.level t E σ a τ := by
  have htarget : c.targetVar = none := by rw [Ctx.targetVar, hc]; rfl
  unfold Sim at h
  rw [htarget] at h
  exact h.mono fun e τ ⟨he, hk, hd⟩ => ⟨he, hk, fun τ' hτ => hd τ' hτ nofun⟩

/-- A call without a result variable. -/
theorem sim_out {u : Text V} {code : Code V} {ts : List (Text V)} {l : Nat} (hl : c.level ≤ l)
    (h : Runs Z rt code σ fun e τ => e = .normal ∧ Keeps Γ ρ none l σ τ ∧
      ∀ τ', Keeps Γ ρ none level τ τ' → Denotes Z rt τ' t u v a) : Sim Z rt Γ ρ c t (out u v code level ts) σ a :=
  h.mono fun _ _ ⟨he, hk, hd⟩ => ⟨he, hk.weaken hl, fun τ' hτ _ => hd τ' hτ⟩

/-- A call whose statements store a value in a result variable. -/
theorem sim_outVar {x : Var} {code : Code V} {ts : List (Text V)} (hx : c.targetVar = some x ∨ ∃ u, x = .temp u c.level) (ht : t.core ≠ .null)
    (h : Runs Z rt code σ fun e τ => e = .normal ∧ Keeps Γ ρ (c.targetVar) c.level σ τ ∧ (τ x).Holds t a) :
    Sim Z rt Γ ρ c t (outVar c t x code ts) σ a := by
  refine h.mono fun e τ ⟨he, hk, hx'⟩ => ⟨he, hk, fun τ' hτ htarget => denotes_varTexts ht ?_⟩
  have hsame : τ' x = τ x := by
    rcases hx with hx | ⟨u, rfl⟩
    · exact htarget x hx
    · exact hτ.temp u c.level (Nat.lt_succ_self _)
  rw [hsame]
  exact hx'

/-- The result variable is the target or a temporary. -/
theorem resultVar_ok (c : Ctx) (t : SemType) : c.targetVar = some (c.resultVar t) ∨ ∃ u, c.resultVar t = .temp u c.level :=
  (resultVar_cases c t).imp_right fun h => ⟨t, h⟩

/-- A value is stored in a variable, and what is below the call is kept. -/
def Stored (Γ : Types) (ρ : String → Option V) (c : Ctx) (t : SemType) (x : Var) (σ : Store V) (a : Option V) (e : End) (τ : Store V) :
    Prop := e = .normal ∧ Keeps Γ ρ (c.targetVar) c.level σ τ ∧ (τ x).Holds t a

/-- A result that is stored. -/
theorem stored_result (hc : c.TargetOk) (hk : Keeps Γ ρ none c.level σ τ) (h : cell.Holds t a) :
    Stored Γ ρ c t (c.resultVar u) σ a .normal (τ.set (c.resultVar u) cell) := by
  refine ⟨rfl, hk.set_result hc, ?_⟩
  rw [set_self]
  exact h

/-- When a nullable variable holds a value. -/
theorem holds_of_nullable (hn : t.notNull = false) (href : isRef t.core = false) (hnull : cell.isNull = a.isNone)
    (hv : ∀ w, a = some w → cell.value = some w) : cell.Holds t a :=
  ⟨fun h => absurd (hn.symm.trans h) Bool.false_ne_true, fun _ _ => hnull, hv, fun h => absurd (href.symm.trans h) Bool.false_ne_true⟩

/-- Two operands. -/
theorem runs_operands {l : Nat} {tl tr : SemType} {lr : Nat} (hL : Runs Z rt L.code σ fun e τ => e = .normal ∧ After Z rt Γ ρ l tl L σ a τ)
    (hR : ∀ τ, Keeps Γ ρ none l σ τ → Runs Z rt R.code τ fun e τ' => e = .normal ∧ After Z rt Γ ρ lr tr R τ b τ')
    (hl : l ≤ L.level) (hlr : lr = L.level) (hr : L.level ≤ R.level) :
    Runs Z rt (L.code.andThen R.code) σ fun e τ => e = .normal ∧ Keeps Γ ρ none l σ τ ∧
      ∀ τ', Keeps Γ ρ none R.level τ τ' → Denotes Z rt τ' tl L.isNull L.value a ∧ Denotes Z rt τ' tr R.isNull R.value b := by
  subst hlr
  refine runs_then hL fun τ ⟨hk, hd⟩ => (hR τ hk).mono fun e τ' ⟨he, hk', hd'⟩ =>
    ⟨he, hk.trans (hk'.weaken hl), fun τ'' hτ => ⟨hd τ'' (hk'.trans (hτ.weaken hr)), hd' τ'' hτ⟩⟩

/-! ## Levels -/

theorem level_unaryOut {op : Prefix} (h : c.level + 1 ≤ E.level) : c.level ≤ (unaryOut c t u op E).level := by
  dsimp only [unaryOut]
  split
  · exact Nat.le_of_succ_le h
  · exact Nat.le_succ _

theorem level_strictOut {u : Text V} (h : c.level + 1 ≤ R.level) : c.level ≤ (strictOut c t l r u v L R).level := by
  dsimp only [strictOut]
  split
  · exact Nat.le_of_succ_le h
  · exact Nat.le_succ _

theorem level_logicalOut {both : Bool} (h : c.level + 1 ≤ R.level) : c.level ≤ (logicalOut c t r op both L R).level := by
  dsimp only [logicalOut]
  split
  · exact Nat.le_of_succ_le h
  · exact Nat.le_succ _

/-- A call leaves the scratch variables below it alone. -/
theorem level_le : ∀ (e : Expr V) (c : Ctx), c.level ≤ (cgExpr c e).level
  | .null, ⟨_, _, _, _⟩ => Nat.le_refl _
  | .bit _ _, c => Nat.le_refl _
  | .literal _ _, c => Nat.le_refl _
  | .var _ _, c => Nat.le_refl _
  | .unary op e, c => level_unaryOut (level_le e (.left 10 (c.level + 1)))
  | .not e, c => level_unaryOut (level_le e (.left 10 (c.level + 1)))
  | .binary op l r, c => by
    rw [cgExpr]
    split
    · exact Nat.le_refl _
    · exact level_strictOut (Nat.le_trans (level_le l (.left _ (c.level + 1))) (level_le r (.rightOf _ _)))
  | .compare op l r, c => by
    rw [cgExpr]
    split <;> exact level_strictOut (Nat.le_trans (level_le l (.left _ (c.level + 1))) (level_le r (.rightOf _ _)))
  | .eqNe negated l r, c => by
    have h := Nat.le_trans (level_le l (.left 5 (c.level + 1))) (level_le r (.rightOf 5 _))
    rw [cgExpr]
    split
    · exact level_strictOut h
    split <;> exact level_strictOut h
  | .like negated l r, c => level_strictOut (Nat.le_trans (level_le l (.left 5 (c.level + 1))) (level_le r (.rightOf 5 _)))
  | .logical op l r, c => level_logicalOut (Nat.le_trans (level_le l (.left (if op = .or then 1 else 2) (c.level + 1)))
      (level_le r (.rightOf (if op = .or then 1 else 2) _)))
  | .is negated l r, c => by
    rw [cgExpr]
    split
    · split
      · exact Nat.le_refl _
      · exact level_le r (.root c.level)
    split
    · split
      · exact Nat.le_refl _
      · exact level_le l (.root c.level)
    · exact Nat.le_trans (level_le l (.left 5 c.level)) (level_le r (.rightOf 5 _))
  | .isTruth negated value e, c => level_le e (.root c.level)
  | .between name e test, c => by
    rw [cgExpr]
    split
    · exact Nat.le_refl _
    · exact Nat.le_trans (level_le e (.root c.level)) (level_le test ⟨c.pri, true, none, _⟩)
  | .inPred negated e items, c => by
    rw [cgExpr]
    split <;> exact Nat.le_succ _
  | .caseExpr _ _ _, c => Nat.le_succ _
  | .coalesce _, c => Nat.le_succ _
  | .cast e core, c => by
    have h := Nat.le_of_succ_le (level_le e (.root (c.level + 1)))
    simp only [cgExpr, castOut]
    split
    · exact h
    split
    · exact h
    split
    · exact h
    · exact Nat.le_succ _
  | .typeCheck e, c => level_le e (.root c.level)

/-! ## Operators -/

/-- An operator on one operand that is null if it is. -/
theorem sim_mapped (hc : c.TargetOk) {n : Bool} {f : V → V} (hn : n = t.notNull)
    (href : isRef t.core = false) (hnull : t.core ≠ .null) (ha : t.notNull = true → a ≠ none)
    (hE : Runs Z rt E.code σ fun e τ => e = .normal ∧ After Z rt Γ ρ (c.level + 1) u E σ a τ)
    (htext : ∀ τ v, a = some v → Evals Z rt τ E.value (· = some v) → Evals Z rt τ text (· = some (f v))) :
    Sim Z rt Γ ρ c t (if n then out zero text E.code E.level E.produced
      else outVar c t (c.resultVar t) (E.code.andThen (combineNullables (c.resultVar t) E.isNull zero text)) E.produced) σ (a.map f) := by
  have hvalue : ∀ τ, Denotes Z rt τ u E.isNull E.value a → ∀ w, a.map f = some w → Evals Z rt τ text (· = some w) :=
    fun τ hD w hw => by
      obtain ⟨v, hv, rfl⟩ := Option.map_eq_some_iff.mp hw
      exact htext τ v hv (hD.value v hv)
  subst hn
  split
  · rename_i hn
    refine sim_out (Nat.le_succ _) (hE.mono fun e τ ⟨he, hk, hd⟩ => ⟨he, hk, fun τ' hτ => ?_⟩)
    exact denotes_zero (fun h => ha hn (Option.map_eq_none_iff.mp h)) (hvalue τ' (hd τ' hτ))
  · rename_i hn
    refine sim_outVar (resultVar_ok c t) hnull (runs_then hE fun τ ⟨hk, hd⟩ => ?_)
    have hD := hd τ (Keeps.refl τ)
    refine runs_combineNullables hD.isNull evals_zero ((Option.isNone_map ..).trans (Bool.or_false _).symm) (hvalue τ hD)
      fun cell hcell hw => stored_result hc (hk.weaken (Nat.le_succ _)) (holds_of_nullable (eq_false_of_ne_true hn) href hcell hw)

/-- Unary operators. -/
theorem sim_unaryOut (hc : c.TargetOk) {op : Prefix} {f : V → V} (hn : u.notNull = t.notNull)
    (href : isRef t.core = false) (hnull : t.core ≠ .null) (ha : t.notNull = true → a ≠ none)
    (hE : Runs Z rt E.code σ fun e τ => e = .normal ∧ After Z rt Γ ρ (c.level + 1) u E σ a τ)
    (hop : ∀ v, applyPrefix rt op (some v) = .ok (some (f v))) : Sim Z rt Γ ρ c t (unaryOut c t u op E) σ (a.map f) :=
  sim_mapped hc hn href hnull ha hE fun τ v _ hv => evals_parenIf.mpr (evals_unary hv (by rw [hop]; rfl))

/-- A strict operator has a value when both operands have. -/
theorem strict_eq_some (h : strict f a b = some w) : ∃ v u, a = some v ∧ b = some u ∧ w = f v u := by
  cases a with
  | none => cases h
  | some v =>
    cases b with
    | none => cases h
    | some u =>
      cases h
      exact ⟨v, u, rfl, rfl, rfl⟩

/-- It is null when an operand is. -/
theorem strict_isNone (f : V → V → V) (a b : Option V) : (strict f a b).isNone = (a.isNone || b.isNone) := by
  cases a <;> cases b <;> rfl

/-- What two operands denote after their statements. -/
def Operands (Z : Prop) (rt : Runtime V) (Γ : Types) (ρ : String → Option V) (l : Nat) (tl tr : SemType) (L R : Out V) (σ : Store V)
    (a b : Option V) (τ : Store V) : Prop :=
  Keeps Γ ρ none l σ τ ∧ ∀ τ', Keeps Γ ρ none R.level τ τ' → Denotes Z rt τ' tl L.isNull L.value a ∧ Denotes Z rt τ' tr R.isNull R.value b

/-- An operator on two operands that is null if either is. -/
theorem sim_strictOut (hc : c.TargetOk) {plain boxed : Text V}
    (hn : (l.notNull && r.notNull) = t.notNull) (href : isRef t.core = false) (hnull : t.core = .null → t.notNull = true)
    (ha : l.notNull = true → a ≠ none) (hb : r.notNull = true → b ≠ none)
    (h : Runs Z rt (L.code.andThen R.code) σ fun e τ => e = .normal ∧ Operands Z rt Γ ρ (c.level + 1) l r L R σ a b τ)
    (htext : ∀ τ v w, a = some v → b = some w → Evals Z rt τ L.value (· = some v) → Evals Z rt τ R.value (· = some w) →
      Evals Z rt τ plain (· = some (f v w)) ∧ Evals Z rt τ boxed (· = some (f v w))) :
    Sim Z rt Γ ρ c t (strictOut c t l r plain boxed L R) σ (strict f a b) := by
  have hvalue : ∀ τ, Denotes Z rt τ l L.isNull L.value a → Denotes Z rt τ r R.isNull R.value b → ∀ w, strict f a b = some w →
      Evals Z rt τ plain (· = some w) ∧ Evals Z rt τ boxed (· = some w) := fun τ hL hR w hw => by
    obtain ⟨v, u, hv, hu, rfl⟩ := strict_eq_some hw
    exact htext τ v u hv hu (hL.value v hv) (hR.value u hu)
  dsimp only [strictOut]
  rw [hn]
  split
  · rename_i hnn
    refine sim_out (Nat.le_succ _) (h.mono fun e τ ⟨he, hk, hd⟩ => ⟨he, hk, fun τ' hτ => ?_⟩)
    have hboth := (Bool.and_eq_true _ _).mp (hn.trans hnn)
    exact denotes_zero (strict_ne_none (ha hboth.1) (hb hboth.2)) fun w hw => (hvalue τ' (hd τ' hτ).1 (hd τ' hτ).2 w hw).1
  · rename_i hnn
    refine sim_outVar (resultVar_ok c t) (fun h => hnn (hnull h)) (runs_then h fun τ ⟨hk, hd⟩ => ?_)
    obtain ⟨hL, hR⟩ := hd τ (Keeps.refl τ)
    exact runs_combineNullables hL.isNull hR.isNull (strict_isNone f a b) (fun w hw => (hvalue τ hL hR w hw).2)
      fun cell hcell hw => stored_result hc (hk.weaken (Nat.le_succ _)) (holds_of_nullable (eq_false_of_ne_true hnn) href hcell hw)

/-- Binary operators. -/
theorem sim_binaryOut (hc : c.TargetOk) {op : Binary} (hop : op ≠ .lor ∧ op ≠ .land)
    (hn : (l.notNull && r.notNull) = t.notNull) (href : isRef t.core = false) (hnull : t.core = .null → t.notNull = true)
    (ha : l.notNull = true → a ≠ none) (hb : r.notNull = true → b ≠ none)
    (h : Runs Z rt (L.code.andThen R.code) σ fun e τ => e = .normal ∧ Operands Z rt Γ ρ (c.level + 1) l r L R σ a b τ)
    (happly : ∀ v w, a = some v → b = some w → Gives (Allowed Z) (applyBinary rt op (some v) (some w)) (· = some (f v w))) :
    Sim Z rt Γ ρ c t (binaryOut c t l r op L R) σ (strict f a b) :=
  sim_strictOut hc hn href hnull ha hb h fun _ v w hv hw hL hR =>
    ⟨evals_parenIf.mpr (evals_binary hop hL hR (happly v w hv hw)), evals_binary hop hL hR (happly v w hv hw)⟩

/-- Comparisons. -/
theorem sim_compareOut (hc : c.TargetOk) {pri : Nat}
    (hn : (l.notNull && r.notNull) = t.notNull) (href : isRef t.core = false) (hnull : t.core = .null → t.notNull = true)
    (ha : l.notNull = true → a ≠ none) (hb : r.notNull = true → b ≠ none)
    (h : Runs Z rt (L.code.andThen R.code) σ fun e τ => e = .normal ∧ Operands Z rt Γ ρ (c.level + 1) l r L R σ a b τ)
    (htext : ∀ τ : Store V, ∀ v w, Evals Z rt τ L.value (· = some v) → Evals Z rt τ R.value (· = some w) → Evals Z rt τ text (· = some (f v w))) :
    Sim Z rt Γ ρ c t (compareOut c t l r pri text L R) σ (strict f a b) :=
  sim_strictOut hc hn href hnull ha hb h fun τ v w _ _ hL hR =>
    ⟨evals_parenIf.mpr (htext τ v w hL hR), evals_parenIf.mpr (htext τ v w hL hR)⟩

/-- The test for true. -/
theorem evals_ifTrue (h : Denotes Z rt σ u n v a) : Evals Z rt σ (ifTrue n v) fun w => rt.isTrue w = a.any rt.truth := by
  unfold ifTrue
  cases a with
  | none =>
    split
    · rename_i hz
      cases isZero_bit hz h.isNull
    split
    · exact isTrue_bit false
    · exact (evals_isNullableTrue h.isNull (b := false) nofun).isTrue.mono fun w hw => hw.trans (isTrue_bit false)
  | some v =>
    have hv := (h.value v rfl).isTrue
    split
    · exact hv
    split
    · rename_i ho
      cases isOne_bit ho h.isNull
    · exact (evals_isNullableTrue h.isNull fun _ => hv).isTrue.mono fun w hw => hw.trans (isTrue_bit _)

/-- The test for false. -/
theorem evals_ifFalse (h : Denotes Z rt σ u n v a) : Evals Z rt σ (ifFalse n v) fun w => rt.isTrue w = a.any fun v => !rt.truth v := by
  unfold ifFalse
  cases a with
  | none =>
    split
    · rename_i hz
      cases isZero_bit hz h.isNull
    split
    · exact isTrue_bit false
    · exact (evals_isNullableFalse h.isNull (b := false) nofun).isTrue.mono fun w hw => hw.trans (isTrue_bit false)
  | some v =>
    have hv := (h.value v rfl).isTrue
    split
    · exact (evals_not (evals_paren.mpr hv)).isTrue.mono fun w hw => hw.trans (isTrue_bit _)
    split
    · rename_i ho
      cases isOne_bit ho h.isNull
    · exact (evals_isNullableFalse h.isNull fun _ => hv).isTrue.mono fun w hw => hw.trans (isTrue_bit _)

/-- The condition on which the first operand decides. -/
theorem evals_decides (h : Denotes Z rt σ u E.isNull E.value a) :
    Evals Z rt σ (if op = .or then ifTrue E.isNull E.value else ifFalse E.isNull E.value) fun w => rt.isTrue w = decides rt op a := by
  cases op with
  | or =>
    refine (evals_ifTrue h).mono fun w hw => hw.trans ?_
    cases a with
    | none => rfl
    | some v => cases hv : rt.truth v <;> simp [decides, truthOf, hv]
  | and =>
    refine (evals_ifFalse h).mono fun w hw => hw.trans ?_
    cases a with
    | none => rfl
    | some v => cases hv : rt.truth v <;> simp [decides, truthOf, hv]

/-- The left operand decides. -/
theorem logicalValue_left (h : decides rt op a = true) : logicalValue rt op a b = rt.bit (op = .or) := by
  have h : truthOf rt a = some (decide (op = .or)) := of_decide_eq_true h
  cases op <;> simp [logicalValue, h, logical, Runtime.bit]

/-- The right operand decides. -/
theorem logicalValue_right (h : decides rt op b = true) : logicalValue rt op a b = rt.bit (op = .or) := by
  have h : truthOf rt b = some (decide (op = .or)) := of_decide_eq_true h
  cases op <;> simp [logicalValue, h, logical, Runtime.bit]

/-- Where neither operand decides. -/
theorem logicalValue_neither (ha : decides rt op a = false) (hb : decides rt op b = false) :
    logicalValue rt op a b = if a.isNone || b.isNone then none else rt.bit (op = .and) := by
  have ha : truthOf rt a ≠ some (decide (op = .or)) := of_decide_eq_false ha
  have hb : truthOf rt b ≠ some (decide (op = .or)) := of_decide_eq_false hb
  cases a with
  | none => cases b <;> cases op <;> simp_all [logicalValue, logical, truthOf]
  | some v =>
    cases b with
    | none => cases op <;> simp_all [logicalValue, logical, truthOf]
    | some w => cases op <;> simp_all [logicalValue, logical, truthOf, Runtime.bit]

/-- Where the left operand does not decide and the right one is not null, the result is the truth of the right one. -/
theorem logicalValue_some {v : V} (ha : decides rt op (some v) = false) : logicalValue rt op (some v) (some w) = rt.bit (rt.truth w) := by
  have ha : truthOf rt (some v) ≠ some (decide (op = .or)) := of_decide_eq_false ha
  cases op <;> cases hv : rt.truth v <;> cases hw : rt.truth w <;> simp_all [logicalValue, logical, truthOf, Runtime.bit]

theorem isSkip_eq {k : Code V} (h : k.isSkip = true) : k = .skip := by
  cases k <;> first | rfl | cases h

/-- AND and OR. The right operand is run only where the left one does not decide. -/
theorem sim_logicalOut (hc : c.TargetOk) {both : Bool}
    (ht : t = ⟨.bool, l.notNull && r.notNull⟩) (ha : l.notNull = true → a ≠ none) (hb : FitsType rt r b)
    (hL : Runs Z rt L.code σ fun e τ => e = .normal ∧ After Z rt Γ ρ (c.level + 1) l L σ a τ)
    (hR : decides rt op a = false → ∀ τ, Keeps Γ ρ none (c.level + 1) σ τ →
      Runs Z rt R.code τ fun e τ' => e = .normal ∧ After Z rt Γ ρ L.level r R τ b τ')
    (hl : c.level + 1 ≤ L.level) (hr : L.level ≤ R.level) (hboth : both = true → a = none ∧ b = none)
    (hstart : (t.notNull && !R.code.isSkip) = true → r.core = .bool ∨ startsWithNot R.value = false) :
    Sim Z rt Γ ρ c t (logicalOut c t r op both L R) σ (logicalValue rt op a b) := by
  subst ht
  dsimp only [logicalOut]
  split
  · rename_i hskip
    have hskip := (Bool.and_eq_true _ _).mp hskip
    have hnn : (l.notNull && r.notNull) = true := hskip.1
    rw [Bool.and_eq_true] at hnn
    obtain ⟨v, rfl⟩ := Option.ne_none_iff_exists'.mp (ha hnn.1)
    obtain ⟨w, rfl⟩ := Option.ne_none_iff_exists'.mp (hb.notNull hnn.2)
    refine sim_out (Nat.le_succ _) (hL.mono fun e τ ⟨he, hk, hd⟩ => ⟨he, hk, fun τ' hτ => ?_⟩)
    have hlv := ((hd τ' (hτ.weaken hr)).value v rfl).isTrue
    by_cases hdec : decides rt op (some v) = true
    · rw [logicalValue_left hdec]
      refine denotes_bit (evals_parenIf.mpr ?_)
      have htruth : rt.truth v = decide (op = .or) := Option.some.inj (of_decide_eq_true hdec)
      cases op with
      | or =>
        refine (evals_lor (b := false) hlv fun h => absurd (htruth.symm.trans h) nofun).mono fun u hu => ?_
        rw [hu, isTrue_some, htruth]
        rfl
      | and =>
        refine (evals_land (b := false) hlv fun h => absurd (htruth.symm.trans h) nofun).mono fun u hu => ?_
        rw [hu, isTrue_some, htruth]
        rfl
    · have hdec := eq_false_of_ne_true hdec
      rw [logicalValue_some hdec]
      have hafter := hR hdec τ hk
      rw [isSkip_eq hskip.2] at hafter
      have hrv := ((hafter.2.2 τ' hτ).value w rfl).isTrue
      refine denotes_bit (evals_parenIf.mpr ?_)
      have htruth : rt.truth v ≠ decide (op = .or) := fun h => of_decide_eq_false hdec (congrArg some h)
      cases op with
      | or =>
        refine (evals_lor hlv fun _ => hrv).mono fun u hu => ?_
        rw [hu, isTrue_some, isTrue_some, Bool.eq_false_iff.mpr htruth]
        rfl
      | and =>
        refine (evals_land hlv fun _ => hrv).mono fun u hu => ?_
        rw [hu, isTrue_some, isTrue_some, show rt.truth v = true by simpa using htruth]
        rfl
  · rename_i hskip
    have hlevel := Nat.le_succ c.level
    refine sim_outVar (resultVar_ok c _) nofun (runs_then hL fun τ ⟨hk, hd⟩ => ?_)
    have hnn : (l.notNull && r.notNull) = true → logicalValue rt op a b ≠ none := fun h => by
      rw [Bool.and_eq_true] at h
      exact fun hnone => logical_ne_none (fun hn => ha h.1 (Option.map_eq_none_iff.mp hn))
        (fun hn => hb.notNull h.2 (Option.map_eq_none_iff.mp hn)) (Option.map_eq_none_iff.mp hnone)
    split
    · rename_i hnull
      obtain ⟨rfl, rfl⟩ := hboth hnull
      have hvalue : logicalValue rt op none none = none := by cases op <;> rfl
      rw [hvalue] at hnn ⊢
      refine runs_setNull (stored_result hc (hk.weaken hlevel) (holds_of_nullable ?_ rfl rfl nofun))
      exact eq_false_of_ne_true fun h => hnn h rfl
    have hdecided : ∀ τ', Keeps Γ ρ none (c.level + 1) σ τ' → logicalValue rt op a b = rt.bit (op = .or) →
        Runs Z rt (store (c.resultVar ⟨.bool, l.notNull && r.notNull⟩) ⟨.bool, l.notNull && r.notNull⟩
          ⟨.bool, l.notNull && r.notNull⟩ zero (if op = .or then one else zero)) τ'
          (Stored Γ ρ c ⟨.bool, l.notNull && r.notNull⟩ (c.resultVar ⟨.bool, l.notNull && r.notNull⟩) σ (logicalValue rt op a b)) :=
      fun τ' hk' hvalue => by
        have hbit : Evals Z rt τ' (if op = .or then one else zero) (· = rt.bit (op = .or)) := by cases op <;> rfl
        rw [hvalue]
        exact runs_store_same (denotes_bit hbit) (fun _ => nofun) fun cell hcell => stored_result hc (hk'.weaken hlevel) hcell
    refine runs_ite (evals_decides (hd τ (Keeps.refl τ))) ?_
    by_cases hdec : decides rt op a = true
    · rw [if_pos hdec]
      exact hdecided τ hk (logicalValue_left hdec)
    rw [if_neg hdec]
    have hdec := eq_false_of_ne_true hdec
    refine runs_then (hR hdec τ hk) fun τ₂ ⟨hk₂, hd₂⟩ => ?_
    have hk₂' := hk.trans (hk₂.weaken hl)
    have hDL := hd τ₂ hk₂
    have hDR := hd₂ τ₂ (Keeps.refl τ₂)
    split
    · rename_i hboth'
      have hboth' : (l.notNull && r.notNull) = true := hboth'
      have hb' := hb.notNull ((Bool.and_eq_true _ _).mp hboth').2
      obtain ⟨v, rfl⟩ := Option.ne_none_iff_exists'.mp (ha ((Bool.and_eq_true _ _).mp hboth').1)
      obtain ⟨w, rfl⟩ := Option.ne_none_iff_exists'.mp hb'
      refine runs_store (denotes_zero hb' hDR.value) (fun h => ?_) (fun _ => hstart ?_) (fun _ => hb') fun cell hcell => ?_
      · rcases h with h | h <;> cases h
      · rw [Bool.and_eq_true]
        refine ⟨hboth', ?_⟩
        rw [Bool.not_eq_true']
        exact eq_false_of_ne_true fun h => hskip ((Bool.and_eq_true _ _).mpr ⟨hboth', h⟩)
      · refine stored_result hc (hk₂'.weaken hlevel) ?_
        have hconvert : convert rt ⟨.bool, l.notNull && r.notNull⟩ r w = rt.ofBool (rt.truth w) := by
          unfold convert
          rw [if_neg (by simp)]
          split
          · rfl
          · rename_i h
            obtain ⟨d, rfl⟩ := hb.bool (not_not.mp fun h' => h ⟨rfl, h'⟩) w rfl
            rw [rt.truth_ofBool]
        rw [logicalValue_some hdec]
        rw [Option.map_some, hconvert] at hcell
        exact hcell
    · rename_i hboth'
      refine runs_ite (evals_decides hDR) ?_
      by_cases hdec' : decides rt op b = true
      · rw [if_pos hdec']
        exact hdecided τ₂ hk₂' (logicalValue_right hdec')
      rw [if_neg hdec']
      have hvalue := logicalValue_neither hdec (eq_false_of_ne_true hdec')
      refine runs_combineNullables hDL.isNull hDR.isNull (o := logicalValue rt op a b) ?_ ?_ fun cell hcell hw =>
        stored_result hc (hk₂'.weaken hlevel) (holds_of_nullable (eq_false_of_ne_true hboth') rfl hcell hw)
      · rw [hvalue]
        cases a <;> cases b <;> rfl
      · intro w hw
        rw [hvalue] at hw
        split at hw
        · cases hw
        · cases op <;> exact hw

/-- The value of a reference is denoted even if it is null. -/
theorem Denotes.full (h : Denotes Z rt σ t n v a) (ht : isRef t.core = true ∨ t.core = .null) : Evals Z rt σ v (· = a) := by
  cases a with
  | none => exact h.null ht rfl
  | some w => exact h.value w rfl

/-- Casts. -/
theorem sim_castOut (hc : c.TargetOk) (ht : t.core ≠ .null) (hn : t.notNull = if u.core = .null then false else u.notNull)
    (hcast : isRef t.core = true → u.core = .null ∨ u.core = t.core) (hv : FitsType rt u a)
    (hE : Runs Z rt E.code σ fun e τ => e = .normal ∧ After Z rt Γ ρ (c.level + 1) u E σ a τ) :
    Sim Z rt Γ ρ c t (castOut c t u E) σ (if u.core = t.core then a else a.map (rt.cast t.core)) := by
  dsimp only [castOut]
  by_cases hnull : u.core = .null
  · obtain rfl := hv.null hnull
    rw [if_pos hnull, Option.map_none, ite_self]
    refine sim_out (Nat.le_succ _) (hE.mono fun e τ h => ⟨h.1, h.2.1, fun τ' _ => ?_⟩)
    refine ⟨evals_one, fun u hu => absurd hu.symm (Option.some_ne_none u), fun href _ => ?_⟩
    rw [nullZero, if_pos href]
    rfl
  rw [if_neg hnull] at hn ⊢
  by_cases hsame : u.core = t.core
  · rw [if_pos hsame, if_pos hsame]
    refine sim_out (Nat.le_succ _) (hE.mono fun e τ h => ⟨h.1, h.2.1, fun τ' hτ => (h.2.2 τ' hτ).retype fun h => ?_⟩)
    rwa [hsame]
  rw [if_neg hsame, if_neg hsame]
  refine sim_mapped hc rfl (eq_false_of_ne_true fun h => (hcast h).elim hnull hsame) ht (hn ▸ hv.notNull) hE fun τ v ha hE => ?_
  refine evals_paren.mpr ?_
  by_cases hbool : u.core = .bool ∨ t.core = .bool
  · rw [if_pos hbool]
    have harg := evals_not (evals_not (evals_paren.mpr hE).isTrue).isTrue
    rw [isTrue_bit, Bool.not_not] at harg
    refine evals_unary harg ?_
    suffices h : rt.cast t.core (rt.ofBool (rt.truth v)) = rt.cast t.core v from congrArg some h
    rcases hbool with hb | hb
    · obtain ⟨d, rfl⟩ := hv.bool hb v ha
      rw [rt.truth_ofBool]
    · rw [hb, rt.cast_bool, rt.cast_bool, rt.truth_ofBool]
  · rw [if_neg hbool]
    exact evals_unary (evals_paren.mpr hE) rfl

/-! ## Tests -/

/-- `==` and `!=` compare values. -/
theorem apply_eqBinary (negated : Bool) (a b : Option V) : applyBinary rt (eqBinary negated) a b = .ok (rt.bit (rt.same a b ^^ negated)) := by
  cases negated <;> simp [eqBinary, applyBinary]

theorem eqBinary_ne (negated : Bool) : eqBinary negated ≠ .lor ∧ eqBinary negated ≠ .land := by
  cases negated <;> decide

/-- A negated test. -/
theorem evals_negate {d : Bool} (negated : Bool) (h : Evals Z rt σ text (· = rt.bit d)) :
    Evals Z rt σ (if negated then notText text else text) (· = rt.bit (d ^^ negated)) := by
  cases negated with
  | false =>
    rw [Bool.xor_false]
    exact h
  | true =>
    have h := evals_not h.isTrue
    rw [isTrue_bit] at h
    rw [Bool.xor_true]
    exact h

/-- IS NULL. -/
theorem sim_isNullOut (negated : Bool) (hE : Runs Z rt E.code σ fun e τ => e = .normal ∧ After Z rt Γ ρ c.level u E σ a τ) :
    Sim Z rt Γ ρ c ⟨.bool, true⟩ (isNullOut negated E) σ (rt.bit (a.isNone ^^ negated)) :=
  sim_out (Nat.le_refl _) (hE.mono fun _ _ ⟨he, hk, hd⟩ =>
    ⟨he, hk, fun τ' hτ => denotes_bit (evals_negate negated (hd τ' hτ).isNull)⟩)

/-- IS TRUE and IS FALSE. -/
theorem sim_isTruthOut (negated value : Bool) (ha : u.notNull = true → a ≠ none)
    (hE : Runs Z rt E.code σ fun e τ => e = .normal ∧ After Z rt Γ ρ c.level u E σ a τ) :
    Sim Z rt Γ ρ c ⟨.bool, true⟩ (isTruthOut negated value u E) σ (rt.bit (decide (truthOf rt a = some value) ^^ negated)) := by
  refine sim_out (Nat.le_refl _) (hE.mono fun e τ ⟨he, hk, hd⟩ => ⟨he, hk, fun τ' hτ => denotes_bit ?_⟩)
  have hD := hd τ' hτ
  split
  · rename_i hn
    obtain ⟨v, rfl⟩ := Option.ne_none_iff_exists'.mp (ha hn)
    have hnot := evals_not (evals_paren.mpr (hD.value v rfl).isTrue)
    have hnotnot := evals_not hnot.isTrue
    rw [isTrue_bit] at hnotnot
    split
    · rename_i h
      subst h
      refine hnot.mono fun w hw => hw.trans (congrArg rt.bit ?_)
      cases hv : rt.truth v <;> cases negated <;> simp [truthOf, hv]
    · rename_i h
      refine hnotnot.mono fun w hw => hw.trans (congrArg rt.bit ?_)
      cases hv : rt.truth v <;> cases negated <;> cases value <;> simp_all [truthOf]
  · refine evals_negate negated ?_
    cases value with
    | true =>
      refine (evals_isNullableTrue hD.isNull (b := a.any rt.truth) fun hn => ?_).mono fun w hw => hw.trans (congrArg rt.bit ?_)
      · obtain ⟨v, rfl⟩ := Option.isSome_iff_exists.mp (Option.isNone_eq_false_iff.mp hn)
        exact (hD.value v rfl).isTrue
      · cases a <;> simp [truthOf]
    | false =>
      refine (evals_isNullableFalse hD.isNull (b := a.any rt.truth) fun hn => ?_).mono fun w hw => hw.trans (congrArg rt.bit ?_)
      · obtain ⟨v, rfl⟩ := Option.isSome_iff_exists.mp (Option.isNone_eq_false_iff.mp hn)
        exact (hD.value v rfl).isTrue
      · cases a <;> simp [truthOf]

/-- References are compatible with references and NULL. -/
theorem ref_of_compat {t u : CoreType} (h : semVerifyCompat t u = true) (href : isRef t = true ∨ isRef u = true) :
    (isRef t = true ∨ t = .null) ∧ (isRef u = true ∨ u = .null) := by
  cases t <;> cases u <;> simp [semVerifyCompat, isRef, CoreType.isNumericCompat, CoreType.isNumeric] at h href ⊢

/-- IS. -/
theorem sim_isOut (hrt : rt.Lawful) (negated : Bool) (hcompat : semVerifyCompat l.core r.core = true)
    (ha : l.notNull = true → a ≠ none) (hb : r.notNull = true → b ≠ none)
    (h : Runs Z rt (L.code.andThen R.code) σ fun e τ => e = .normal ∧ Operands Z rt Γ ρ c.level l r L R σ a b τ) :
    Sim Z rt Γ ρ c ⟨.bool, true⟩ (isOut c negated l r L R) σ (rt.bit (rt.same a b ^^ negated)) := by
  refine sim_out (Nat.le_refl _) (h.mono fun e τ ⟨he, hk, hd⟩ => ⟨he, hk, fun τ' hτ => denotes_bit ?_⟩)
  obtain ⟨hL, hR⟩ := hd τ' hτ
  have hrefs : isRef l.core = true ∨ isRef r.core = true → Evals Z rt τ' L.value (· = a) ∧ Evals Z rt τ' R.value (· = b) := fun href =>
    ⟨hL.full (ref_of_compat hcompat href).1, hR.full (ref_of_compat hcompat href).2⟩
  have href : ∀ {core : CoreType}, isRef core = true → l.core = core ∨ r.core = core → isRef l.core = true ∨ isRef r.core = true :=
    fun {core} hcore h => h.imp (fun h : l.core = core => by rw [h]; exact hcore) fun h : r.core = core => by rw [h]; exact hcore
  split
  · rename_i htext
    obtain ⟨hl, hr⟩ := hrefs (href rfl htext)
    exact evals_negate negated (evals_call (by decide) hl hr rfl)
  split
  · rename_i hblob
    obtain ⟨hl, hr⟩ := hrefs (href rfl hblob)
    exact evals_negate negated (evals_call (by decide) hl hr rfl)
  split
  · rename_i hplain
    rw [Bool.or_eq_true, Bool.or_eq_true, Bool.and_eq_true, or_assoc] at hplain
    obtain ⟨hl, hr⟩ : Evals Z rt τ' L.value (· = a) ∧ Evals Z rt τ' R.value (· = b) := by
      rcases hplain with ⟨hnl, hnr⟩ | href
      · obtain ⟨v, rfl⟩ := Option.ne_none_iff_exists'.mp (ha hnl)
        obtain ⟨w, rfl⟩ := Option.ne_none_iff_exists'.mp (hb hnr)
        exact ⟨hL.value v rfl, hR.value w rfl⟩
      · exact hrefs href
    refine evals_parenIf.mpr (evals_binary (eqBinary_ne negated) hl hr ?_)
    rw [apply_eqBinary]
    rfl
  · refine evals_negate negated (evals_paren.mpr ?_)
    have heq : Evals Z rt τ' (.paren (.binary .eq L.isNull R.isNull)) (· = rt.bit (a.isNone == b.isNone)) :=
      evals_binary (by decide) hL.isNull hR.isNull (congrArg rt.bit (hrt _ _))
    have hsame : ∀ v w, a = some v → b = some w → Evals Z rt τ' (.binary .eq L.value R.value) (· = rt.bit (rt.equal v w)) :=
      fun v w hv hw => evals_binary (by decide) (hL.value v hv) (hR.value w hw) rfl
    cases a with
    | none =>
      refine (evals_land heq.isTrue (b := true) fun hboth => ?_).mono fun u hu => hu.trans ?_
      · have hb' : b.isNone = true := by simpa using hboth
        refine (evals_lor hR.isNull.isTrue (b := true) fun h => ?_).isTrue.mono fun u hu => hu.trans ?_
        · rw [isTrue_bit, hb'] at h
          cases h
        · simp [hb']
      · cases b <;> simp [Runtime.same]
    | some v =>
      cases b with
      | none =>
        refine (evals_land heq.isTrue (b := true) fun hboth => ?_).mono fun u hu => hu.trans ?_
        · simp at hboth
        · simp [Runtime.same]
      | some w =>
        have hor := evals_lor hR.isNull.isTrue fun _ => (hsame v w rfl rfl).isTrue
        refine (evals_land heq.isTrue fun _ => hor.isTrue).mono fun u hu => hu.trans ?_
        simp [Runtime.same]

/-- The comparison with an item or a WHEN, where that makes no trouble. -/
theorem evals_itemTest {blobs : Bool} {operand : Text V} (ho : Evals Z rt σ operand (· = some w))
    (hE : Denotes Z rt σ u E.isNull E.value a) (ha : u.notNull = true → a ≠ none) (htext : u.core = .text → a ≠ none)
    (hblob : u.core = .blob → blobs = true) : Evals Z rt σ (itemTest blobs operand u E) fun r => rt.isTrue r = a.any (rt.equal w) := by
  dsimp only [itemTest]
  split
  · rename_i h
    obtain ⟨v, rfl⟩ := Option.ne_none_iff_exists'.mp (htext h)
    have hcall : Evals Z rt σ (.call .stringCompare operand E.value) (· = some (rt.stringCompare w v)) :=
      evals_call (by decide) ho (hE.value v rfl) rfl
    refine evals_binary (by decide) hcall evals_zero ?_
    exact (isTrue_bit _).trans (rt.equal_stringCompare w v)
  split
  · rename_i h
    refine evals_call (by decide) ho (hE.full (.inl (by rw [h.2]; rfl))) ?_
    refine (isTrue_bit _).trans ?_
    cases a <;> rfl
  rename_i hcall
  have hcore : u.core ≠ .blob := fun h => hcall ⟨hblob h, h⟩
  rw [if_neg hcore]
  have hequal : ∀ v, a = some v → Evals Z rt σ (.binary .eq operand E.value) fun r => rt.isTrue r = a.any (rt.equal w) := fun v hv => by
    subst hv
    exact evals_binary (by decide) ho (hE.value v rfl) (isTrue_bit _)
  split
  · rename_i hn
    obtain ⟨v, hv⟩ := Option.ne_none_iff_exists'.mp (ha hn)
    exact hequal v hv
  · refine (evals_isNullableTrue hE.isNull (b := a.any (rt.equal w)) fun hn => ?_).isTrue.mono fun r hr =>
      hr.trans ((isTrue_bit _).trans ?_)
    · obtain ⟨v, hv⟩ := Option.isSome_iff_exists.mp (Option.isNone_eq_false_iff.mp hn)
      exact hequal v hv
    · cases a <;> rfl

/-- The test of a WHEN, where that makes no trouble. -/
theorem evals_whenCond {operand : Option (Text V)} {o : Option V} (hsome : operand.isSome = o.isSome)
    (ho : ∀ text w, operand = some text → o = some w → Evals Z rt σ text (· = some w))
    (hE : Denotes Z rt σ u E.isNull E.value a) (ha : u.notNull = true → a ≠ none)
    (htext : o.isSome = true → u.core = .text → a ≠ none) (hblob : o.isSome = true → u.core ≠ .blob) :
    Evals Z rt σ (whenCond operand u E) fun r => rt.isTrue r = whenTaken rt o a := by
  cases operand with
  | some text =>
    obtain ⟨w, rfl⟩ := Option.isSome_iff_exists.mp hsome.symm
    exact evals_itemTest (ho text w rfl rfl) hE ha (htext rfl) fun h => absurd h (hblob rfl)
  | none =>
    obtain rfl : o = none := Option.not_isSome_iff_eq_none.mp (by simp [← hsome])
    dsimp only [whenCond]
    split
    · rename_i hn
      obtain ⟨v, rfl⟩ := Option.ne_none_iff_exists'.mp (ha hn)
      exact (hE.value v rfl).isTrue
    · refine (evals_isNullableTrue hE.isNull (b := a.any rt.truth) fun hn => ?_).isTrue.mono fun r hr => hr.trans ((isTrue_bit _).trans ?_)
      · obtain ⟨v, rfl⟩ := Option.isSome_iff_exists.mp (Option.isNone_eq_false_iff.mp hn)
        exact (hE.value v rfl).isTrue
      · cases a <;> simp [whenTaken]

end SimulationAux

end CgSql.CodeGen
