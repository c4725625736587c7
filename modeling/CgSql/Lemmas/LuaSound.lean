import CgSql.Lemmas.LuaExpr

/-!
# Code that keeps operands

Scratch variables of one operand have levels above those of the operands that are still needed, so the code for an expression reads
what it should, whatever is known of other variables.
-/

namespace CgSql.LuaExpr

open Writers

namespace TempsAux

variable {slots : List Slot} {k j : Nat} {x : Text}

abbrev Tags := Writers.Tags Var Place

/-! ## What statements leave alone -/

/-- A property that does not depend on some scratch variables, nor on variables of the program. -/
def Apart (slots : List Slot) (P : Tags → Prop) : Prop :=
  ∀ σ σ' : Tags, (∀ t j, (t, j) ∉ slots → σ' (.scratch t j) = σ (.scratch t j)) → P σ → P σ'

theorem Apart.mono {slots' : List Slot} {P : Tags → Prop} (h : Apart slots' P) (hsub : ∀ s ∈ slots, s ∈ slots') : Apart slots P :=
  fun σ σ' hsame => h σ σ' fun t j hnot => hsame t j fun hmem => hnot (hsub _ hmem)

theorem Apart.and {P Q : Tags → Prop} (hp : Apart slots P) (hq : Apart slots Q) : Apart slots fun σ => P σ ∧ Q σ :=
  fun σ σ' hsame h => ⟨hp σ σ' hsame h.1, hq σ σ' hsame h.2⟩

/-- Variables that are not written keep what they hold. -/
theorem apart_holds {held : List Use} (h : ∀ u ∈ held, ∃ t j, u.1 = .scratch t j ∧ (t, j) ∉ slots) : Apart slots (Holds held) := by
  intro σ σ' hsame hholds u hu
  obtain ⟨t, j, hv, hnot⟩ := h u hu
  rw [hv, hsame t j hnot, ← hv]
  exact hholds u hu

theorem Apart.setScratch {P : Tags → Prop} (h : Apart slots P) (hmem : (t, j) ∈ slots)
    (o : Place) {σ : Tags} (hp : P σ) : P (σ.set (.scratch t j) o) := by
  refine h σ _ (fun t' j' hnot => Tags.set_of_ne fun heq => ?_) hp
  cases heq
  exact hnot hmem

theorem Apart.setUser {P : Tags → Prop} (h : Apart slots P) (x : String) (o : Place) {σ : Tags} (hp : P σ) : P (σ.set (.user x) o) :=
  h σ _ (fun _ _ _ => Tags.set_of_ne Var.noConfusion) hp

theorem resultVar_cases (target : Target) (t : SemType) (k : Nat) :
    resultVar target t k = .scratch t k ∨ ∃ x, resultVar target t k = .user x := by
  rcases target with _ | ⟨name, type⟩
  · exact Or.inl rfl
  · by_cases h : type = t
    · exact Or.inr ⟨name, if_pos h⟩
    · exact Or.inl (if_neg h)

/-- After the result is set. -/
theorem Apart.setResult {P : Tags → Prop} (h : Apart slots P) (target : Target) (hmem : (t, k) ∈ slots) (p : Place) (σ : Tags) (hp : P σ) :
    P (σ.set (resultVar target t k) p) ∧ Holds [(resultVar target t k, p)] (σ.set (resultVar target t k) p) := by
  refine ⟨?_, fun u hu => ?_⟩
  · rcases resultVar_cases target t k with heq | ⟨x, heq⟩
    · rw [heq]
      exact h.setScratch hmem p hp
    · rw [heq]
      exact h.setUser x p hp
  · rw [List.mem_singleton.1 hu]
    exact Tags.set_self ..

theorem triple_readText {P : Tags → Prop} (h : ∀ σ, P σ → Holds x.uses σ) : Triple P (readText x) P := triple_read h

theorem triple_store {P Q : Tags → Prop} {v : Var} {o : Place} (hread : ∀ σ, P σ → Holds x.uses σ)
    (hset : ∀ σ, P σ → Q (σ.set v o)) : Triple P (cgLuaStore v o x) Q := by
  unfold cgLuaStore
  split
  · exact triple_write hset
  · exact (triple_readText hread).seq (triple_write hset)

/-- The result is set, whatever else is known. -/
theorem triple_result {P Q : Tags → Prop} (h : Apart slots P) (target : Target) (hmem : (t, k) ∈ slots) (p : Place) (hpre : ∀ σ, Q σ → P σ) :
    Triple Q (.one (.write (resultVar target t k) p)) fun σ => P σ ∧ Holds [(resultVar target t k, p)] σ :=
  triple_write fun σ hq => h.setResult target hmem p σ (hpre σ hq)

theorem triple_storeResult {P Q : Tags → Prop} (h : Apart slots P) (target : Target)
    (hmem : (t, k) ∈ slots) (p : Place) (hpre : ∀ σ, Q σ → P σ) (hread : ∀ σ, Q σ → Holds x.uses σ) :
    Triple Q (cgLuaStore (resultVar target t k) p x) fun σ => P σ ∧ Holds [(resultVar target t k, p)] σ :=
  triple_store hread fun σ hq => h.setResult target hmem p σ (hpre σ hq)

/-- A scratch variable is set. -/
theorem triple_storeScratch {P Q : Tags → Prop} (h : Apart slots P)
    (hmem : (t, j) ∈ slots) (o : Place) (hpre : ∀ σ, Q σ → P σ) (hread : ∀ σ, Q σ → Holds x.uses σ) :
    Triple Q (cgLuaStore (.scratch t j) o x) fun σ => P σ ∧ Holds [(.scratch t j, o)] σ := by
  refine triple_store hread fun σ hq => ⟨h.setScratch hmem o (hpre σ hq), fun u hu => ?_⟩
  rw [List.mem_singleton.1 hu]
  exact Tags.set_self ..

/-! ## Sound generators -/

/-- The code reads what it should, leaves alone what does not depend on its variables, and its value can be read after it. -/
def Sound (g : Gen) (k : Nat) (slots : List Slot) : Prop :=
  ∀ (p : Place) (P : Tags → Prop), Apart slots P → Triple P (g p k).code fun σ => P σ ∧ Holds (g p k).text.uses σ

theorem sound_plain (h : x.uses = []) (k : Nat) : Sound (fun _ level => ⟨.skip, x, level⟩) k [] := by
  intro p P _
  refine (triple_skip P).weaken (fun _ h => h) fun σ hp => ⟨hp, ?_⟩
  rw [show (Out.text _).uses = [] from h]
  exact holds_nil σ

section

variable {l r : Gen} {emits emits' : Bool} {after after' : Nat → Nat} {slots slots' : Nat → List Slot} {t : SemType} {els : Option Gen}
  {elsSlots : List Slot}

theorem sound_unary {k : Nat} {s : List Slot} (h : Sound l k s) (op : UnaryOp) (t : SemType) : Sound (cgLuaUnary op t l) k s := by
  intro p P hP
  have hcheck : Triple (fun σ => P σ ∧ Holds (l (1 :: p) k).text.uses σ)
      (if op.checks then readText (l (1 :: p) k).text else .skip) fun σ => P σ ∧ Holds (l (1 :: p) k).text.uses σ := by
    split
    · exact triple_readText fun σ h => h.2
    · exact triple_skip _
  exact ((h (1 :: p) P hP).seq hcheck).weaken (fun _ h => h) fun σ hpost => ⟨hpost.1, fun u hu => hpost.2 u (uses_unary op t _ hu)⟩

/-- What the left operand leaves is not written by the right operand. -/
theorem apart_left (hl : Shaped l emits after slots) (hr : Shaped r emits' after' slots') (p : Place) (k : Nat) :
    Apart (slots' (after k)) (Holds (l p k).text.uses) := by
  refine apart_holds fun u hu => ?_
  obtain ⟨t, j, hv, -, hj⟩ := hl.uses p k u hu
  refine ⟨t, j, hv, fun hmem => ?_⟩
  have hle : after k ≤ j := hr.slots_le (after k) _ hmem
  omega

theorem sound_operands (hl : Shaped l emits after slots) (hr : Shaped r emits' after' slots') {k : Nat} (hls : Sound l k (slots k))
    (hrs : Sound r (after k) (slots' (after k))) (text : Text → Text → Text)
    (htext : ∀ x y u, u ∈ (text x y).uses → u ∈ x.uses ++ y.uses) :
    Sound (operands l r text) k (slots k ++ slots' (after k)) := by
  intro p P hP
  have hleft := hls (1 :: p) P (hP.mono fun _ => List.mem_append_left _)
  have hright := hrs (2 :: p) _ ((hP.mono fun _ => List.mem_append_right _).and (apart_left hl hr (1 :: p) k))
  simp only [operands, hl.level]
  refine (hleft.seq hright).weaken (fun _ h => h) fun σ h => ⟨h.1.1, fun u hu => ?_⟩
  rcases List.mem_append.1 (htext _ _ u hu) with hu | hu
  · exact h.1.2 u hu
  · exact h.2 u hu

theorem sound_andOr (hl : Shaped l emits after slots) (hr : Shaped r emits' after' slots') (target : Target) (t : SemType)
    (bothNull : Bool) {k : Nat} (h : bothNull = true ∨ Sound l (k + 1) (slots (k + 1)) ∧ Sound r (after (k + 1)) (slots' (after (k + 1))) ∧
      (emits' = true → (semTypeBool, after' (after (k + 1))) ∉ slots' (after (k + 1)))) :
    Sound (cgLuaExprAndOr target t bothNull l r) k (if bothNull then []
        else slots (k + 1) ++ slots' (after (k + 1)) ++ if emits' then [(t, k), (semTypeBool, after' (after (k + 1)))] else []) := by
  rcases bothNull with _ | _
  · obtain ⟨hls, hrs, hguard⟩ := h.resolve_left Bool.false_ne_true
    simp only [Bool.false_eq_true, if_false]
    intro p P hP
    have hlevel := hl.level (1 :: p) (k + 1)
    have htemp := hr.level (2 :: p) (after (k + 1))
    have hskip := hr.emits (2 :: p) (after (k + 1))
    have hleft := hls (1 :: p) P (hP.mono fun s hs => List.mem_append_left _ (List.mem_append_left _ hs))
    rcases hemits : emits' with _ | _
    · rw [hemits] at hskip
      have hright := hrs (2 :: p) _ ((hP.mono fun s hs => List.mem_append_left _ (List.mem_append_right _ hs)).and
        (apart_left hl hr (1 :: p) (k + 1)))
      rw [hskip.2 rfl] at hright
      simp only [cgLuaExprAndOr, Bool.false_eq_true, if_false, hlevel, hskip.2 rfl, if_true]
      have hboth := hleft.seq hright
      rw [Code.seq_skip] at hboth
      exact hboth.weaken (fun _ h => h) fun σ h => ⟨h.1.1, holds_append.2 ⟨h.1.2, h.2⟩⟩
    · rw [hemits] at hskip hP
      have hstatement : ¬(r (2 :: p) (after (k + 1))).code = .skip := fun heq => Bool.true_eq_false.mp (hskip.1 heq)
      simp only [cgLuaExprAndOr, Bool.false_eq_true, if_false, hlevel, hstatement, htemp]
      simp only [if_true] at hP
      have hstore := triple_storeScratch hP (t := semTypeBool) (j := after' (after (k + 1))) (by simp) (0 :: p)
        (Q := fun σ => P σ ∧ Holds (l (1 :: p) (k + 1)).text.uses σ) (fun σ h => h.1) fun σ h => h.2
      -- the right operand does not write the temporary
      have hapart : Apart (slots' (after (k + 1))) fun σ =>
          P σ ∧ Holds [(Var.scratch semTypeBool (after' (after (k + 1))), 0 :: p)] σ := by
        refine (hP.mono fun s hs => List.mem_append_left _ (List.mem_append_right _ hs)).and (apart_holds fun u hu => ?_)
        rw [List.mem_singleton.1 hu]
        exact ⟨_, _, rfl, hguard hemits⟩
      have hright := hrs (2 :: p) _ hapart
      have hread : Triple (fun σ => (P σ ∧ Holds [(Var.scratch semTypeBool (after' (after (k + 1))), 0 :: p)] σ) ∧
            Holds (r (2 :: p) (after (k + 1))).text.uses σ)
          (.one (.read ((.scratch semTypeBool (after' (after (k + 1))), 0 :: p) :: (r (2 :: p) (after (k + 1))).text.uses))) _ :=
        triple_read fun σ h => List.forall_mem_cons.2 ⟨h.1.2 _ (List.mem_singleton.2 rfl), h.2⟩
      have hlong := (hright.seq hread).seq (triple_result hP target (t := t) (k := k) (by simp) p fun σ h => h.1.1)
      have hshort := triple_result hP target (t := t) (k := k) (by simp) p
        (Q := fun σ => P σ ∧ Holds [(Var.scratch semTypeBool (after' (after (k + 1))), 0 :: p)] σ) fun σ h => h.1
      exact ((hleft.seq hstore).seq (triple_read fun σ h => h.2)).seq (hshort.choice hlong)
  · exact sound_plain (x := .nil) rfl k

/-- The tests of `IN` leave alone what does not depend on their variables. -/
def ListSound (list : Use → Use → Place → Nat → Code) (k : Nat) (slots : List Slot) : Prop :=
  ∀ (temp result : Use) (p : Place) (R : Tags → Prop), Apart slots R → (∀ σ, R σ → Holds [temp] σ) →
    (∀ σ, R σ → R (σ.set result.1 result.2)) → Triple R (list temp result p k) R

/-- A scratch variable that is not among those that are written. -/
theorem apart_scratch {slots : List Slot} (h : (t, j) ∉ slots) (o : Place) : Apart slots (Holds [(.scratch t j, o)]) := by
  refine apart_holds fun u hu => ?_
  rw [List.mem_singleton.1 hu]
  exact ⟨t, j, rfl, h⟩

theorem sound_inPred (he : Shaped l emits after slots) {list : Use → Use → Place → Nat → Code} (t te : SemType) {k : Nat}
    (hle : ∀ s ∈ slots' (after (k + 1) + 1), after (k + 1) + 1 ≤ s.2)
    (h : te.core = .null ∨ Sound l (k + 1) (slots (k + 1)) ∧ ListSound list (after (k + 1) + 1) (slots' (after (k + 1) + 1))) :
    Sound (cgLuaExprInPredOrNotIn t te l list) k
      (if te.core = .null then [] else (t, k) :: (te, after (k + 1)) :: (slots (k + 1) ++ slots' (after (k + 1) + 1))) := by
  intro p P hP
  by_cases hnull : te.core = .null
  · simp only [cgLuaExprInPredOrNotIn, hnull, if_true]
    exact sound_plain (x := .nil) rfl k p P fun σ σ' hsame hp => hP σ σ' (fun t j _ => hsame t j List.not_mem_nil) hp
  · obtain ⟨hs, hlist⟩ := h.resolve_left hnull
    simp only [hnull, if_false] at hP
    have hk : k + 1 ≤ after (k + 1) := he.le (k + 1)
    have hlevel := he.level (1 :: p) (k + 1)
    have hvalue := hs (1 :: p) P (hP.mono fun s hs => by simp [hs])
    have hstore := triple_storeScratch hP (t := te) (j := after (k + 1)) (by simp) (0 :: p)
      (Q := fun σ => P σ ∧ Holds (l (1 :: p) (k + 1)).text.uses σ) (fun σ h => h.1) fun σ h => h.2
    -- the temporary and the result are variables of their own
    have htemp : Apart [(t, k)] fun σ => P σ ∧ Holds [(Var.scratch te (after (k + 1)), 0 :: p)] σ := by
      refine (hP.mono fun s hs => by simp [List.mem_singleton.1 hs]).and (apart_scratch (fun hmem => ?_) _)
      have heq := congrArg Prod.snd (List.mem_singleton.1 hmem)
      simp only at heq
      omega
    have hboth : Apart (slots' (after (k + 1) + 1)) fun σ =>
        (P σ ∧ Holds [(Var.scratch te (after (k + 1)), 0 :: p)] σ) ∧ Holds [(Var.scratch t k, p)] σ := by
      refine ((hP.mono fun s hs => by simp [hs]).and (apart_scratch (fun hmem => ?_) _)).and (apart_scratch (fun hmem => ?_) _)
      · have hmax := hle _ hmem
        simp only at hmax
        omega
      · have hmax := hle _ hmem
        simp only at hmax
        omega
    have hresult := triple_result htemp none (List.mem_singleton.2 rfl) p fun σ h => h
    have htests := hresult.seq (hlist (.scratch te (after (k + 1)), 0 :: p) (.scratch t k, p) (2 :: p) _ hboth (fun σ h => h.1.2)
      fun σ h => htemp.setResult none (List.mem_singleton.2 rfl) p σ h.1)
    have hpost : ∀ σ, (P σ ∧ Holds [(Var.scratch te (after (k + 1)), 0 :: p)] σ) ∧ Holds [(Var.scratch t k, p)] σ →
        P σ ∧ Holds [(Var.scratch t k, p)] σ := fun σ h => ⟨h.1.1, h.2⟩
    simp only [cgLuaExprInPredOrNotIn, hnull, if_false, hlevel]
    refine (hvalue.seq hstore).seq ?_
    rcases te.notnull with _ | _
    · have hread : Triple (fun σ => P σ ∧ Holds [(Var.scratch te (after (k + 1)), 0 :: p)] σ)
          (.one (.read [(.scratch te (after (k + 1)), 0 :: p)])) _ := triple_read fun σ h => h.2
      exact hread.seq ((hresult.choice htests).weaken (fun _ h => h) hpost)
    · exact htests.weaken (fun _ h => h) hpost

/-- The cases of CASE end like what is done when none of them is taken. -/
def CasesSound (cases : List Use → Use → Code → Place → Nat → Code) (k : Nat) (slots : List Slot) : Prop :=
  ∀ (temp : List Use) (result : Use) (otherwise : Code) (p : Place) (R Q : Tags → Prop), Apart slots R →
    (∀ σ, R σ → Holds temp σ) → (∀ σ, R σ → Q (σ.set result.1 result.2)) → Triple R otherwise Q → Triple R (cases temp result otherwise p k) Q

theorem sound_otherwise {all : List Slot} {P : Tags → Prop} (hP : Apart all P) (target : Target) {k : Nat}
    (hmem : (t, k) ∈ all) (hsub : ∀ s ∈ elsSlots, s ∈ all) (hels : ∀ e ∈ els, Sound e (k + 1) elsSlots) (p : Place) :
    Triple P (otherwiseCode (resultVar target t k) els p k) fun σ => P σ ∧ Holds [(resultVar target t k, p)] σ := by
  rcases els with _ | e
  · exact triple_result hP target hmem p fun σ h => h
  · have hvalue := hels e rfl (3 :: p) P (hP.mono hsub)
    exact hvalue.seq (triple_storeResult hP target hmem p (fun σ h => h.1) fun σ h => h.2)

theorem sound_caseWhen {cases : List Use → Use → Code → Place → Nat → Code} (target : Target) (t : SemType) {k : Nat}
    {casesSlots : List Slot} (hcases : CasesSound cases (k + 1) casesSlots) (hels : ∀ e ∈ els, Sound e (k + 1) elsSlots) :
    Sound (cgLuaExprCase target t none cases els) k ((t, k) :: (casesSlots ++ elsSlots)) := by
  intro p P hP
  have hother := sound_otherwise hP target (t := t) (k := k) (by simp) (fun s hs => by simp [hs]) hels p
  exact hcases [] (resultVar target t k, p) _ (2 :: p) P _ (hP.mono fun s hs => by simp [hs]) (fun σ _ => holds_nil σ)
    (fun σ h => hP.setResult target (by simp) p σ h) hother

theorem sound_caseOf {cases : List Use → Use → Code → Place → Nat → Code} (target : Target) (t te : SemType) {k : Nat}
    {valueSlots casesSlots : List Slot} (hs : Sound l (k + 2) valueSlots) (hcases : CasesSound cases (k + 2) casesSlots)
    (hle : ∀ s ∈ casesSlots, k + 2 ≤ s.2) (hels : ∀ e ∈ els, Sound e (k + 1) elsSlots) : Sound (cgLuaExprCase target t (some (te, l)) cases els) k
      ((t, k) :: (te, k + 1) :: (valueSlots ++ casesSlots ++ elsSlots)) := by
  intro p P hP
  have hother := sound_otherwise hP target (t := t) (k := k) (by simp) (fun s hs => by simp [hs]) hels p
  have hvalue := hs (1 :: p) P (hP.mono fun s hs => by simp [hs])
  have hstore := triple_storeScratch hP (t := te) (j := k + 1) (by simp) (0 :: p)
    (Q := fun σ => P σ ∧ Holds (l (1 :: p) (k + 2)).text.uses σ) (fun σ h => h.1) fun σ h => h.2
  have htemp : Apart casesSlots fun σ => P σ ∧ Holds [(Var.scratch te (k + 1), 0 :: p)] σ := by
    refine (hP.mono fun s hs => by simp [hs]).and (apart_scratch (fun hmem => ?_) _)
    have hmax := hle _ hmem
    simp only at hmax
    omega
  have hother' : Triple (fun σ => P σ ∧ Holds [(Var.scratch te (k + 1), 0 :: p)] σ) _ _ :=
    hother.weaken (fun σ h => h.1) fun _ h => h
  have htests := hcases [(.scratch te (k + 1), 0 :: p)] (resultVar target t k, p) _ (2 :: p) _ _ htemp (fun σ h => h.2)
    (fun σ h => hP.setResult target (by simp) p σ h.1) hother'
  have hread : Triple (fun σ => P σ ∧ Holds [(Var.scratch te (k + 1), 0 :: p)] σ)
      (.one (.read [(.scratch te (k + 1), 0 :: p)])) _ := triple_read fun σ h => h.2
  refine (hvalue.seq hstore).seq ?_
  rcases te.notnull with _ | _
  · exact hread.seq (hother'.choice htests)
  · exact htests

/-- The arguments of COALESCE before the last one. -/
def AlternativesSound (args : Use → (Place → Nat → Code) → Place → Nat → Code) (k after : Nat) (slots : List Slot) : Prop :=
  ∀ (result : Use) (last : Place → Nat → Code) (p : Place) (R Q : Tags → Prop), Apart slots R →
    (∀ σ, R σ → Q (σ.set result.1 result.2)) → (∀ p', Triple R (last p' after) Q) → Triple R (args result last p k) Q

theorem sound_coalesce {args : Use → (Place → Nat → Code) → Place → Nat → Code} (target : Target) (t : SemType) {k middle : Nat}
    {argsSlots lastSlots : List Slot} (hargs : AlternativesSound args (k + 1) middle argsSlots) (hs : Sound l middle lastSlots) :
    Sound (cgLuaFuncCoalesce target t args l) k ((t, k) :: (argsSlots ++ lastSlots)) := by
  intro p P hP
  refine hargs (resultVar target t k, p) _ (1 :: p) P _ (hP.mono fun s hs => by simp [hs])
    (fun σ h => hP.setResult target (by simp) p σ h) fun p' => ?_
  exact (hs (1 :: p') P (hP.mono fun s hs => by simp [hs])).seq (triple_storeResult hP target (by simp) p (fun σ h => h.1) fun σ h => h.2)

/-- Code for fragments leaves alone what does not depend on its variables. -/
def FragsSound (frags : Place → Nat → Code × Nat) (k : Nat) (slots : List Slot) : Prop :=
  ∀ (p : Place) (R : Tags → Prop), Apart slots R → Triple R (frags p k).1 R

theorem sound_select {frags : Place → Nat → Code × Nat} (target : Target) (t : SemType) {k : Nat} {fragsSlots : List Slot}
    (hfrags : FragsSound frags (k + 1) fragsSlots) : Sound (cgLuaExprSelect target t frags) k ((t, k) :: fragsSlots) := by
  intro p P hP
  exact (hfrags (1 :: p) P (hP.mono fun s hs => by simp [hs])).seq (triple_result hP target (by simp) p fun σ h => h)

theorem sound_selectIfNothing {frags : Place → Nat → Code × Nat} (target : Target) (t ts : SemType) (kind : IfNothing) {k : Nat}
    {fragsSlots defaultSlots : List Slot} (hfrags : FragsSound frags (k + 2) fragsSlots)
    (hs : kind = .orNullThrow ∨ Sound l (k + 2) defaultSlots) :
    Sound (cgLuaExprSelectIfNothing target t ts kind frags l) k ((t, k) :: (ts, k + 1) :: (fragsSlots ++ match kind with
        | .orNullThrow => []
        | _ => defaultSlots)) := by
  intro p P hP
  have hbefore := hfrags (1 :: p) P (hP.mono fun s hs => by simp [hs])
  have hfetch : Triple P (.one (.write (.scratch ts (k + 1)) (0 :: p))) fun σ =>
      P σ ∧ Holds [(Var.scratch ts (k + 1), 0 :: p)] σ := by
    refine triple_write fun σ h => ⟨hP.setScratch (by simp) _ h, fun u hu => ?_⟩
    rw [List.mem_singleton.1 hu]
    exact Tags.set_self ..
  have htest : Triple (fun σ => P σ ∧ Holds [(Var.scratch ts (k + 1), 0 :: p)] σ)
      (.one (.read [(.scratch ts (k + 1), 0 :: p)])) _ := triple_read fun σ h => h.2
  have hfound := triple_storeResult hP target (t := t) (k := k) (by simp) p
    (x := .ref (.scratch ts (k + 1)) (some (0 :: p))) (Q := fun σ => P σ ∧ Holds [(Var.scratch ts (k + 1), 0 :: p)] σ)
    (fun σ h => h.1) fun σ h => h.2
  rcases kind with _ | _ | _
  · have hvalue := (hs.resolve_left IfNothing.noConfusion) (2 :: p) P (hP.mono fun s hs => by simp [hs])
    have hdefault := hvalue.seq (triple_storeResult hP target (t := t) (k := k) (by simp) p (fun σ h => h.1) fun σ h => h.2)
    exact hbefore.seq ((hfetch.seq hfound).choice hdefault)
  · have hvalue := (hs.resolve_left IfNothing.noConfusion) (2 :: p) P (hP.mono fun s hs => by simp [hs])
    have hdefault := hvalue.seq (triple_storeResult hP target (t := t) (k := k) (by simp) p (fun σ h => h.1) fun σ h => h.2)
    have hnull : Triple (fun σ => P σ ∧ Holds [(Var.scratch ts (k + 1), 0 :: p)] σ) _ _ :=
      hdefault.weaken (fun σ h => h.1) fun _ h => h
    exact hbefore.seq (((hfetch.seq htest).seq (hnull.choice hfound)).choice hdefault)
  · exact hbefore.seq ((hfetch.seq htest).seq hfound)

theorem sound_sets {all : List Slot} {P : Tags → Prop} (hP : Apart all P) (target : Target) {k : Nat}
    (hmem : (t, k) ∈ all) (outs : List String) (o p : Place) :
    Triple P (outs.foldr (fun name code => (Code.one (.write (.user name) o)).seq code) (.one (.write (resultVar target t k) p)))
      fun σ => P σ ∧ Holds [(resultVar target t k, p)] σ := by
  induction outs with
  | nil => exact triple_result hP target hmem p fun σ h => h
  | cons name outs ih => exact (triple_write fun σ h => hP.setUser name o h).seq ih

theorem sound_call (target : Target) (t : SemType) {k : Nat} {argsSlots : List Slot} (hs : Sound l (k + 1) argsSlots)
    (outs : List String) : Sound (cgLuaUserFunc target t l outs) k ((t, k) :: argsSlots) := by
  intro p P hP
  have hvalue := hs (1 :: p) P (hP.mono fun s hs => by simp [hs])
  have hsets : Triple (fun σ => P σ ∧ Holds (l (1 :: p) (k + 1)).text.uses σ) _ _ :=
    (sound_sets hP target (t := t) (k := k) (by simp) outs (0 :: p) p).weaken (fun σ h => h.1) fun _ h => h
  exact (hvalue.seq (triple_readText fun σ h => h.2)).seq hsets

theorem sound_between (he : Shaped l emits after slots) (isNull : Bool) (name : String) {k : Nat} {testSlots : List Slot}
    (h : isNull = true ∨ Sound l k (slots k) ∧ Sound r (after k) testSlots) :
    Sound (cgLuaExprBetweenRewrite isNull name l r) k (if isNull then [] else slots k ++ testSlots) := by
  rcases isNull with _ | _
  · obtain ⟨hs, ht⟩ := h.resolve_left Bool.false_ne_true
    intro p P hP
    simp only [Bool.false_eq_true, if_false] at hP
    have hvalue := hs (1 :: p) P (hP.mono fun s hs => by simp [hs])
    have htest := ht (2 :: p) P (hP.mono fun s hs => by simp [hs])
    have hset : Triple (fun σ => P σ ∧ Holds (l (1 :: p) k).text.uses σ) (.one (.write (.user name) (0 :: p))) P :=
      triple_write fun σ h => hP.setUser name _ h.1
    simp only [cgLuaExprBetweenRewrite, Bool.false_eq_true, if_false, he.level]
    exact ((hvalue.seq (triple_readText fun σ h => h.2)).seq hset).seq htest
  · exact sound_plain (x := .nil) rfl k

end

/-! ## Sound expressions -/

/-- Scratch variables of a part are at or above its level. -/
theorem Exprs.itemSlots_le (items : Exprs) (k : Nat) : ∀ s ∈ items.itemSlots k, k ≤ s.2 :=
  (Exprs.inList_shaped items (S := fun _ => True) (.user "", []) (.user "", []) [] k (fun _ _ => trivial) trivial).slots_le

theorem Whens.slots_le (whens : Whens) (k : Nat) : ∀ s ∈ whens.slots k, k ≤ s.2 := by
  have hpart := Whens.caseList_shaped whens (S := fun _ => True) [] (.user "", []) [] k (fun _ _ => trivial) trivial (Nat.le_refl k)
    (part_skip _ k)
  exact fun s hs => hpart.slots_le s (List.mem_append_left _ hs)

mutual

theorem Expr.sound : ∀ (e : Expr) (target : Target) (k : Nat), e.Guarded k → Sound (e.gen target) k (e.slots k)
  | .null, _, k, _ => sound_plain (x := .nil) rfl k
  | .literal, _, k, _ => sound_plain (x := .other []) rfl k
  | .name x, _, k, _ => sound_plain (x := .ref (.user x) none) rfl k
  | .unary op t e, _, k, h => sound_unary (Expr.sound e none k h) op t
  | .binary true l r, _, k, _ => sound_plain (x := .nil) rfl k
  | .binary false l r, _, k, h => by
    obtain ⟨hl, hr⟩ := h.resolve_left Bool.false_ne_true
    refine sound_operands (Expr.shaped l) (Expr.shaped r) (Expr.sound l none k hl) (Expr.sound r none _ hr)
      (fun x y => if x.isNil ∨ y.isNil then .nil else .other (x.uses ++ y.uses)) fun x y u hu => ?_
    split at hu
    · exact absurd hu List.not_mem_nil
    · exact hu
  | .isOrIsNot l r, _, k, h =>
    sound_operands (Expr.shaped l) (Expr.shaped r) (Expr.sound l none k h.1) (Expr.sound r none _ h.2)
      (fun x y => .other (x.uses ++ y.uses)) fun _ _ _ hu => hu
  | .andOr t l r, target, k, h =>
    sound_andOr (Expr.shaped l) (Expr.shaped r) target t _ (h.imp_right fun h => ⟨Expr.sound l none _ h.1, Expr.sound r none _ h.2.1, h.2.2⟩)
  | .inPred t te e items, _, k, h =>
    sound_inPred (Expr.shaped e) t te (Exprs.itemSlots_le items _)
      (h.imp_right fun h => ⟨Expr.sound e none _ h.1, Exprs.inList_sound items _ h.2⟩)
  | .caseWhen t whens, target, k, h => by
    have hels : ∀ e ∈ (none : Option Gen), Sound e (k + 1) [] := nofun
    have hcase := sound_caseWhen target t (Whens.caseList_sound whens _ h) hels
    rw [List.append_nil] at hcase
    exact hcase
  | .caseWhenElse t whens els, target, k, h => by
    have hels : ∀ e ∈ some (els.gen none), Sound e (k + 1) (els.slots (k + 1)) := by
      rintro _ ⟨⟩
      exact Expr.sound els none _ h.2
    exact sound_caseWhen target t (Whens.caseList_sound whens _ h.1) hels
  | .caseOf t te e whens, target, k, h => by
    have hels : ∀ e ∈ (none : Option Gen), Sound e (k + 1) [] := nofun
    have hcase := sound_caseOf target t te (Expr.sound e none _ h.1) (Whens.caseList_sound whens _ h.2) (Whens.slots_le whens _) hels
    rw [List.append_nil] at hcase
    exact hcase
  | .caseOfElse t te e whens els, target, k, h => by
    have hels : ∀ e ∈ some (els.gen none), Sound e (k + 1) (els.slots (k + 1)) := by
      rintro _ ⟨⟩
      exact Expr.sound els none _ h.2.2
    exact sound_caseOf target t te (Expr.sound e none _ h.1) (Whens.caseList_sound whens _ h.2.1) (Whens.slots_le whens _) hels
  | .coalesce t args last, target, k, h =>
    sound_coalesce target t (Exprs.alternatives_sound args _ h.1) (Expr.sound last none _ h.2)
  | .select t frags, target, k, h => sound_select target t (Frags.gen_sound frags _ h)
  | .selectIfNothingThrow t frags, _, k, h => sound_select none t (Frags.gen_sound frags _ h)
  | .selectIfNothing t ts .default frags default, target, k, h =>
    sound_selectIfNothing target t ts .default (Frags.gen_sound frags _ h.1) (.inr (Expr.sound default none _ h.2))
  | .selectIfNothing t ts .orNullDefault frags default, target, k, h =>
    sound_selectIfNothing target t ts .orNullDefault (Frags.gen_sound frags _ h.1) (.inr (Expr.sound default none _ h.2))
  | .selectIfNothing t ts .orNullThrow frags default, target, k, h =>
    sound_selectIfNothing target t ts .orNullThrow (Frags.gen_sound frags _ h.1) (.inl rfl : _ ∨ Sound _ _ [])
  | .call t args outs, target, k, h => sound_call target t (Exprs.args_sound args _ h) outs
  | .between name e test, _, k, h =>
    sound_between (Expr.shaped e) e.isNull name (h.imp_right fun h => ⟨Expr.sound e none k h.1, Expr.sound test none _ h.2⟩)

theorem Exprs.inList_sound : ∀ (items : Exprs) (k : Nat), items.ItemsGuarded k → ListSound items.inList k (items.itemSlots k)
  | .nil, k, _ => fun temp result p R hR htemp hset => triple_write hset
  | .cons e rest, k, h => by
    intro temp result p R hR htemp hset
    have hrest := Exprs.inList_sound rest k h.2 temp result (2 :: p) R (hR.mono fun _ => List.mem_append_right _) htemp hset
    have hitem := Expr.sound e none k h.1 (1 :: p) R (hR.mono fun _ => List.mem_append_left _)
    rw [Exprs.inList]
    split
    · exact hrest
    · refine (hitem.seq (triple_read fun σ hpost => ?_)).seq ?_
      · exact List.forall_mem_cons.2 ⟨htemp σ hpost.1 _ (List.mem_singleton.2 rfl), hpost.2⟩
      · exact ((triple_skip R).choice hrest).weaken (fun σ h => h.1) fun _ h => h

theorem Exprs.alternatives_sound : ∀ (args : Exprs) (k : Nat), args.Guarded k →
    AlternativesSound args.alternatives k (args.after k) (args.slots k)
  | .nil, k, _ => fun result last p R Q hR hset hlast => hlast p
  | .cons e rest, k, h => by
    intro result last p R Q hR hset hlast
    have hrest := Exprs.alternatives_sound rest _ h.2 result last (2 :: p) R Q (hR.mono fun _ => List.mem_append_right _) hset hlast
    have hvalue := Expr.sound e none k h.1 (1 :: p) R (hR.mono fun _ => List.mem_append_left _)
    have hstore : Triple (fun σ => R σ ∧ Holds (e.gen none (1 :: p) k).text.uses σ)
        (cgLuaStore result.1 result.2 (e.gen none (1 :: p) k).text) Q :=
      triple_store (fun σ h => h.2) fun σ h => hset σ h.1
    rw [Exprs.alternatives]
    simp only [(Expr.shaped e).level]
    exact (hvalue.seq (triple_readText fun σ h => h.2)).seq (hstore.choice (hrest.weaken (fun σ h => h.1) fun _ h => h))

theorem Exprs.args_sound : ∀ (args : Exprs) (k : Nat), args.Guarded k → Sound args.args k (args.slots k)
  | .nil, k, _ => sound_plain (x := .other []) rfl k
  | .cons e rest, k, h => by
    obtain ⟨emits, hrest⟩ := Exprs.args_shaped rest
    exact sound_operands (Expr.shaped e) hrest (Expr.sound e none k h.1) (Exprs.args_sound rest _ h.2)
      (fun x y => .other (x.uses ++ y.uses)) fun _ _ _ hu => hu

theorem Whens.caseList_sound : ∀ (whens : Whens) (k : Nat), whens.Guarded k → CasesSound whens.caseList k (whens.slots k)
  | .nil, k, _ => fun temp result otherwise p R Q hR htemp hset hother => hother
  | .cons c e rest, k, h => by
    intro temp result otherwise p R Q hR htemp hset hother
    have hsub : ∀ s, s ∈ c.slots k ∨ s ∈ e.slots k ∨ s ∈ rest.slots k → s ∈ (Whens.cons c e rest).slots k := by
      intro s hs
      rw [Whens.slots]
      simpa [or_assoc] using hs
    have hrest := Whens.caseList_sound rest k h.2.2 temp result otherwise (3 :: p) R Q
      (hR.mono fun s hs => hsub s (.inr (.inr hs))) htemp hset hother
    have htest := Expr.sound c none k h.1 (1 :: p) R (hR.mono fun s hs => hsub s (.inl hs))
    have hvalue := Expr.sound e none k h.2.1 (2 :: p) R (hR.mono fun s hs => hsub s (.inr (.inl hs)))
    have hstore : Triple (fun σ => R σ ∧ Holds (e.gen none (2 :: p) k).text.uses σ)
        (cgLuaStore result.1 result.2 (e.gen none (2 :: p) k).text) Q :=
      triple_store (fun σ h => h.2) fun σ h => hset σ h.1
    rw [Whens.caseList]
    refine (htest.seq (triple_read fun σ hpost => ?_)).seq ?_
    · exact holds_append.2 ⟨htemp σ hpost.1, hpost.2⟩
    · exact ((hvalue.seq hstore).choice hrest).weaken (fun σ h => h.1) fun _ h => h

theorem Frags.gen_sound : ∀ (frags : Frags) (k : Nat), frags.Guarded k → FragsSound frags.gen k (frags.slots k)
  | .nil, k, _ => fun p R _ => triple_skip R
  | .arg aliasName e rest, k, h => by
    intro p R hR
    have hrest := Frags.gen_sound rest _ h.2 (2 :: p) R (hR.mono fun _ => List.mem_append_right _)
    have hvalue := Expr.sound e none k h.1 (1 :: p) R (hR.mono fun _ => List.mem_append_left _)
    have hset : Triple (fun σ => R σ ∧ Holds (e.gen none (1 :: p) k).text.uses σ) (.one (.write (.user aliasName) (0 :: p))) R :=
      triple_write fun σ h => hR.setUser aliasName _ h.1
    rw [Frags.gen]
    simp only [(Expr.shaped e).level]
    exact ((hvalue.seq (triple_readText fun σ h => h.2)).seq hset).seq hrest
  | .ite c thn els rest, k, h => by
    intro p R hR
    have hsub : ∀ s, s ∈ c.slots k ∨ s ∈ thn.slots (c.after k) ∨ s ∈ els.slots (thn.after (c.after k)) ∨
        s ∈ rest.slots (els.after (thn.after (c.after k))) → s ∈ (Frags.ite c thn els rest).slots k := by
      intro s hs
      rw [Frags.slots]
      simpa [or_assoc] using hs
    have hthn := Frags.gen_sound thn _ h.2.1 (2 :: p) R (hR.mono fun s hs => hsub s (.inr (.inl hs)))
    have hels := Frags.gen_sound els _ h.2.2.1 (3 :: p) R (hR.mono fun s hs => hsub s (.inr (.inr (.inl hs))))
    have hrest := Frags.gen_sound rest _ h.2.2.2 (4 :: p) R (hR.mono fun s hs => hsub s (.inr (.inr (.inr hs))))
    have htest := Expr.sound c none k h.1 (1 :: p) R (hR.mono fun s hs => hsub s (.inl hs))
    rw [Frags.gen]
    simp only [(Expr.shaped c).level, (Frags.gen_shaped thn).2.1, (Frags.gen_shaped els).2.1]
    refine ((htest.seq (triple_readText fun σ h => h.2)).seq ?_).seq hrest
    exact (hthn.choice hels).weaken (fun σ h => h.1) fun _ h => h

end

end TempsAux

end CgSql.LuaExpr
