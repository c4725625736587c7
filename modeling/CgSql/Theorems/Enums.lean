import CgSql.Enums

/-!
# What an enumeration declares

A member has the value of its expression with the members before it in the place of their names. The replacement in the source knows no
roles: a function, a type or a kind that has the name of a member before it is replaced too, and then a contract fails, as it does where a
member is in its own expression. An expression that is nothing but a name is analysed again behind its replacement, and a global constant
can come in its place. A number that is not a whole one is rounded where it is referred to.
-/

namespace CgSql.Enums

open SymbolTable (Name)
open Eval (CoreType Doubles Value)

variable {R T : Type} (D : Doubles R) (Γ : Env D T)

/-! ## What is declared -/

/-- The literal of a value. -/
def exact : Value R → Ast R
  | .long v => if v = -2 ^ 63 then .node (.unary .uminus) (.num .minLong) .nil else .num (.value (.long v))
  | v => .num (.value v)

/-- What the names of members stand for. -/
def references (lit : Value R → Ast R) (seen : List (EnumValue R)) (name : Name) : Option (Ast R) := (tryResolveEnum seen name).map lit

/-- An expression with its references replaced. The names of functions, of types and kinds, and qualified names are none. -/
def subst (σ : Name → Option (Ast R)) : Ast R → Ast R
  | .str name => (σ name).getD (.str name)
  | .node .dot left right => .node .dot left right
  | .node .castExpr operand type => .node .castExpr (subst σ operand) type
  | .node .call name args => .node .call name (subst σ args)
  | .node kind left right => .node kind (subst σ left) (subst σ right)
  | e => e

/-- What a member is declared as: one more than the member before, or its expression. -/
def declared (t : CoreType) (last : Value R) (seen : List (EnumValue R)) (m : Member R) : Outcome (Ast R × Value R) :=
  if m.expr.isNil then nextMember D t last
  else
    match (semExpr D Γ (subst (references exact seen) m.expr)).out with
    | .crash => .crash
    | .reported => .reported
    | .ok r => evalMember D t r.1

/-- The members have the values that they are declared with, and the trees, and references to them find these values. -/
structure Right (t : CoreType) (ms : List (Member R)) (values : List (EnumValue R)) : Prop where
  declared : members (declared D Γ t) (.integer 0) [] ms = .ok values
  found : ∀ m ∈ values, ∀ name, fold name = fold m.name → ∃ v, tryResolveEnum values name = some v ∧ eval D (literal D v) = some m.value

/-- An error is reported, or what is declared is right. -/
def Declares (t : CoreType) (ms : List (Member R)) : Outcome (List (EnumValue R)) → Prop
  | .crash => False
  | .reported => True
  | .ok values => Right D Γ t ms values

/-! ## Where it is right -/

/-- The names that the replacement comes to. -/
def leaves : Ast R → List Name
  | .str name => [name]
  | .node .dot _ _ => []
  | .node _ left right => leaves left ++ leaves right
  | _ => []

/-- A member is not in its own expression, and no function, type or kind that the analysis comes to has the name of a member before. -/
structure Apart (seen : List (EnumValue R)) (m : Member R) : Prop where
  self : ∀ n ∈ leaves m.expr, fold n ≠ fold m.name
  names : ∀ n ∈ (semExpr D Γ (subst (references (literal D) seen) m.expr)).names, tryResolveEnum seen n = none

/-- An expression that is the name of a member before is that member. -/
def Alone (seen : List (EnumValue R)) (m : Member R) (tree : Ast R) : Prop :=
  ∀ n v, m.expr = .str n → tryResolveEnum seen n = some v → tree = literal D v

/-- The literal of a value has that value. -/
def Kept (v : Value R) : Prop := eval D (literal D v) = some v

/-- Each member, up to the first that is refused, is apart from the others and has a value. If none is refused and the enumeration is accepted, each
expression that is a name is the member of that name, and each value is kept by its literal. -/
def Sound (t : CoreType) (accepted : List (EnumValue R) → Prop) (alone : Prop) : Value R → List (EnumValue R) → List (Member R) → Prop
  | _, seen, [] => accepted seen → alone ∧ ∀ m ∈ seen, Kept D m.value
  | last, seen, m :: ms =>
    (tryResolveEnum seen m.name).isSome = true ∨ Apart D Γ seen m ∧
        match memberValue D Γ t seen last m (subst (references (literal D) seen) m.expr) with
        | .crash => False
        | .reported => True
        | .ok r => Sound t accepted (alone ∧ Alone D seen m r.1) r.2 (seen ++ [⟨⟨m.name, r.1⟩, r.2⟩]) ms

namespace EnumsAux

variable {a : Ast R} {kind : Kind} {seen : List (EnumValue R)} {t : CoreType} {v : Value R}

/-! ### Trees -/

/-- A property of a tree and of its children. -/
def Deep (S : Ast R → Prop) : Ast R → Prop
  | .node kind left right => S (.node kind left right) ∧ S left ∧ S right
  | a => S a

theorem Deep.self {S : Ast R → Prop} (h : Deep S a) : S a := by
  cases a with
  | node kind left right => exact h.1
  | nil => exact h
  | str name => exact h
  | strlit text => exact h
  | num n => exact h

/-- Induction where the grandchildren are needed. -/
theorem deep {S : Ast R → Prop} (hnil : S .nil) (hstr : ∀ name, S (.str name)) (hstrlit : ∀ text, S (.strlit text)) (hnum : ∀ n, S (.num n))
    (hnode : ∀ kind left right, Deep S left → Deep S right → S (.node kind left right)) (a : Ast R) : Deep S a := by
  induction a with
  | nil => exact hnil
  | str name => exact hstr name
  | strlit text => exact hstrlit text
  | num n => exact hnum n
  | node kind left right ihl ihr => exact ⟨hnode kind left right ihl ihr, ihl.self, ihr.self⟩

/-- The tree of a literal. -/
def Literal (a : Ast R) : Prop := (∃ v, a = .num (.value v)) ∨ a = .node (.unary .uminus) (.num .minLong) .nil

theorem literal_literal (v : Value R) : Literal (literal D v) := by
  cases v with
  | long v =>
    rw [literal]
    split_ifs
    · exact Or.inr rfl
    · exact Or.inl ⟨_, rfl⟩
  | error => exact Or.inl ⟨_, rfl⟩
  | null => exact Or.inl ⟨_, rfl⟩
  | bool b => exact Or.inl ⟨_, rfl⟩
  | integer v => exact Or.inl ⟨_, rfl⟩
  | real r => exact Or.inl ⟨_, rfl⟩

/-- What the replacement leaves, if no contract fails. -/
def replace (σ : Name → Option (Ast R)) : Ast R → Ast R
  | .str name => (σ name).getD (.str name)
  | .node .dot left right => .node .dot left right
  | .node kind left right => .node kind (replace σ left) (replace σ right)
  | e => e

/-- Names are replaced in both parts. -/
theorem replace_node {σ : Name → Option (Ast R)} (h : kind ≠ .dot) (left right : Ast R) :
    replace σ (.node kind left right) = .node kind (replace σ left) (replace σ right) := by
  cases kind <;> first | rfl | exact absurd rfl h

theorem leaves_node (h : kind ≠ .dot) (left right : Ast R) : leaves (.node kind left right) = leaves left ++ leaves right := by
  cases kind <;> first | rfl | exact absurd rfl h

theorem replaceSeen_node {self : Name} (h : kind ≠ .dot) (left right : Ast R) : replaceSeen D self seen (.node kind left right) =
      (replaceSeen D self seen left).bind fun l => (replaceSeen D self seen right).bind fun r => some (.node kind l r) := by
  cases kind <;> first | rfl | exact absurd rfl h

/-- Members are found whatever the case. -/
theorem tryResolveEnum_congr {n m : Name} (h : fold n = fold m) : tryResolveEnum seen n = tryResolveEnum seen m := by
  simp only [tryResolveEnum, h]

/-- The replacement fails exactly if the name that is declared is there. -/
theorem replaceSeen_eq {self : Name} (hself : tryResolveEnum seen self = none) (a : Ast R) :
    replaceSeen D self seen a = if ∀ n ∈ leaves a, fold n ≠ fold self then some (replace (references (literal D) seen) a) else none := by
  induction a with
  | nil => simp [replaceSeen, leaves, replace]
  | strlit text => simp [replaceSeen, leaves, replace]
  | num n => simp [replaceSeen, leaves, replace]
  | str name =>
    simp only [replaceSeen, leaves, replace, references, List.mem_singleton, forall_eq]
    cases hname : tryResolveEnum seen name with
    | some v =>
      have hne : fold name ≠ fold self := by
        intro heq
        rw [tryResolveEnum_congr heq, hself] at hname
        exact absurd hname (by simp)
      simp [hne]
    | none => by_cases heq : fold name = fold self <;> simp [heq]
  | node kind left right ihl ihr =>
    by_cases hkind : kind = .dot
    · subst hkind
      simp [replaceSeen, leaves, replace]
    · rw [replaceSeen_node D hkind, leaves_node hkind, replace_node hkind, ihl, ihr]
      by_cases hl : ∀ n ∈ leaves left, fold n ≠ fold self
      · by_cases hr : ∀ n ∈ leaves right, fold n ≠ fold self
        · have hall : ∀ n ∈ leaves left ++ leaves right, fold n ≠ fold self := fun n hn => (List.mem_append.mp hn).elim (hl n) (hr n)
          rw [if_pos hl, if_pos hr, if_pos hall]
          rfl
        · have hall : ¬∀ n ∈ leaves left ++ leaves right, fold n ≠ fold self := fun h => hr fun n hn => h n (List.mem_append_right _ hn)
          rw [if_pos hl, if_neg hr, if_neg hall]
          rfl
      · have hall : ¬∀ n ∈ leaves left ++ leaves right, fold n ≠ fold self := fun h => hl fun n hn => h n (List.mem_append_left _ hn)
        rw [if_neg hl, if_neg hall]
        rfl

/-! ### What a replaced name spoils -/

variable {α β : Type} {P : Name → Prop}

/-- An analysis goes as another one, unless that one comes to a name that was replaced: then a contract fails. -/
def Spoils (P : Name → Prop) (x y : Log α) : Prop := ((∀ n ∈ y.names, ¬P n) ∧ x.out = y.out) ∨ ((∃ n ∈ y.names, P n) ∧ x.out = .crash)

theorem Spoils.same {x : Log α} (h : x.names = []) : Spoils P x x := Or.inl ⟨by simp [h], rfl⟩

theorem bind_eq (x : Log α) (f : α → Log β) : x >>= f = x.bind f := rfl

/-- One analysis after the other. -/
theorem Spoils.bind {x y : Log α} {f g : α → Log β} (h : Spoils P x y) (hf : ∀ a, Spoils P (f a) (g a)) : Spoils P (x >>= f) (y >>= g) := by
  obtain ⟨xnames, xout⟩ := x
  obtain ⟨ynames, yout⟩ := y
  rw [bind_eq, bind_eq]
  rcases h with ⟨hnames, hout⟩ | ⟨⟨n, hn, hP⟩, hout⟩
  · dsimp only at hnames hout
    subst hout
    cases xout with
    | crash => exact Or.inl ⟨hnames, rfl⟩
    | reported => exact Or.inl ⟨hnames, rfl⟩
    | ok a =>
      rcases hf a with ⟨hnames', hout'⟩ | ⟨⟨n, hn, hP⟩, hout'⟩
      · refine Or.inl ⟨fun n hn => ?_, hout'⟩
        exact (List.mem_append.mp hn).elim (hnames n) (hnames' n)
      · exact Or.inr ⟨⟨n, List.mem_append_right _ hn, hP⟩, hout'⟩
  · dsimp only at hn hout
    subst hout
    refine Or.inr ⟨⟨n, ?_, hP⟩, rfl⟩
    cases yout with
    | crash => exact hn
    | reported => exact hn
    | ok a => exact List.mem_append_left _ hn

/-- The same steps follow. -/
theorem Spoils.map {x y : Log α} (h : Spoils P x y) {f : α → Log β} (hf : ∀ a, (f a).names = []) : Spoils P (x >>= f) (y >>= f) :=
  h.bind fun a => .same (hf a)

/-- No name is asked for where none is in either part. -/
theorem bind_names {x : Log α} {f : α → Log β} (hx : x.names = []) (hf : ∀ a, (f a).names = []) : (x >>= f).names = [] := by
  obtain ⟨names, out⟩ := x
  dsimp only at hx
  subst hx
  rw [bind_eq]
  cases out with
  | crash => rfl
  | reported => rfl
  | ok a => exact hf a

theorem resolveId_names (name : Name) : (resolveId D Γ name).names = [] := by
  unfold resolveId
  cases Γ.earlier none name with
  | some t => exact bind_names rfl fun _ => rfl
  | none =>
    cases Γ.constant name with
    | none => rfl
    | some c => cases c <;> rfl

theorem resolveDot_names (scope name : Name) : (resolveDot D Γ scope name).names = [] := by
  unfold resolveDot
  cases Γ.earlier (some scope) name with
  | some t => exact bind_names rfl fun _ => rfl
  | none =>
    cases Γ.enums scope with
    | none => exact bind_names rfl fun _ => rfl
    | some enum => exact bind_names rfl fun _ => rfl

/-- The analysis of a literal asks for no name. -/
theorem semExpr_literal (h : Literal a) : (semExpr D Γ a).names = [] := by
  rcases h with ⟨v, rfl⟩ | rfl <;> rfl

theorem semExpr_unary {op : Eval.UnaryOp} (h : ¬(op = .uminus ∧ a = .num .minLong)) (b : Ast R) : semExpr D Γ (.node (.unary op) a b) = (do
      let e ← semExpr D Γ a let t ← Log.check (Γ.check (.unary op) [e.2]) return (.node (.unary op) e.1 .nil, t)) := by
  cases a with
  | num n =>
    cases n with
    | value v => cases op <;> rfl
    | minLong =>
      cases op with
      | uminus => exact absurd ⟨rfl, rfl⟩ h
      | _ => rfl
  | _ => cases op <;> rfl

variable {σ : Name → Option (Ast R)}

section

variable (hσ : ∀ n a, σ n = some a → Literal a)

include hσ

theorem getD_cases (name : Name) :
    (σ name).getD (.str name) = .str name ∨ Literal ((σ name).getD (.str name)) := by
  cases h : σ name with
  | none => exact Or.inl rfl
  | some b => exact Or.inr (hσ name b h)

theorem isNil_getD (name : Name) : ((σ name).getD (.str name)).isNil = false := by
  cases h : σ name with
  | none => rfl
  | some a => rcases hσ name a h with ⟨n, rfl⟩ | rfl <;> rfl

/-- What is missing stays missing. -/
theorem isNil_replace (a : Ast R) : (replace σ a).isNil = a.isNil := by
  cases a with
  | str name => exact isNil_getD hσ name
  | node kind left right => cases kind <;> rfl
  | nil => rfl
  | strlit text => rfl
  | num n => rfl

theorem isNil_subst (a : Ast R) : (subst σ a).isNil = a.isNil := by
  cases a with
  | str name => exact isNil_getD hσ name
  | node kind left right => cases kind <;> rfl
  | nil => rfl
  | strlit text => rfl
  | num n => rfl

theorem argCount_getD (name : Name) : argCount ((σ name).getD (.str name)) = 0 := by
  cases h : σ name with
  | none => rfl
  | some a => rcases hσ name a h with ⟨n, rfl⟩ | rfl <;> rfl

/-- The number of arguments stays. -/
theorem argCount_replace (a : Ast R) : argCount (replace σ a) = argCount a := by
  induction a with
  | str name => exact argCount_getD hσ name
  | node kind left right _ ih =>
    cases kind with
    | argList => exact congrArg (· + 1) ih
    | _ => rfl
  | nil => rfl
  | strlit text => rfl
  | num n => rfl

theorem argCount_subst (a : Ast R) : argCount (subst σ a) = argCount a := by
  induction a with
  | str name => exact argCount_getD hσ name
  | node kind left right _ ih =>
    cases kind with
    | argList => exact congrArg (· + 1) ih
    | _ => rfl
  | nil => rfl
  | strlit text => rfl
  | num n => rfl

theorem getD_ne_minLong (name : Name) : (σ name).getD (.str name) ≠ .num .minLong := by
  rcases getD_cases hσ name with hb | ⟨v, hb⟩ | hb <;>
  · rw [hb]
    simp

/-- The smallest LONG does not come from a name. -/
theorem replace_eq_minLong (h : replace σ a = .num .minLong) : a = .num .minLong := by
  cases a with
  | str name => exact absurd h (getD_ne_minLong hσ name)
  | node kind left right => cases kind <;> exact absurd h (by simp [replace])
  | nil => exact h
  | strlit text => exact h
  | num n => exact h

theorem subst_eq_minLong (h : subst σ a = .num .minLong) : a = .num .minLong := by
  cases a with
  | str name => exact absurd h (getD_ne_minLong hσ name)
  | node kind left right => cases kind <;> exact absurd h (by simp [subst])
  | nil => exact h
  | strlit text => exact h
  | num n => exact h

/-- A name that is extracted. -/
theorem spoils_extractString (a : Ast R) :
    Spoils (fun n => (σ n).isSome = true) (extractString (replace σ a)) (extractString a) := by
  cases a with
  | str name =>
    cases h : σ name with
    | none => exact Or.inl ⟨by simp [extractString, h], by simp [replace, h]⟩
    | some a =>
      refine Or.inr ⟨⟨name, by simp [extractString], by simp [h]⟩, ?_⟩
      rcases hσ name a h with ⟨n, rfl⟩ | rfl <;> simp [replace, h, extractString, Log.crash]
  | node kind left right => cases kind <;> exact .same rfl
  | nil => exact .same rfl
  | strlit text => exact .same rfl
  | num n => exact .same rfl

theorem spoils_semDataType (a : Ast R) :
    Spoils (fun n => (σ n).isSome = true) (semDataType D Γ (replace σ a)) (semDataType D Γ a) := by
  cases a with
  | str name =>
    cases h : σ name with
    | none =>
      have hnames : ∀ n ∈ (semDataType D Γ (.str name)).names, n = name := by
        intro n hn
        simp only [semDataType, extractString, bind_eq, Log.bind] at hn
        cases hfound : Γ.namedType name <;> simpa [Log.check, hfound, pure] using hn
      exact Or.inl ⟨fun n hn => by simp [hnames n hn, h], by simp [replace, h]⟩
    | some lit =>
      refine Or.inr ⟨⟨name, ?_, by simp [h]⟩, ?_⟩
      · simp only [semDataType, extractString, bind_eq, Log.bind]
        exact List.mem_append_left _ (List.mem_singleton_self _)
      · rcases hσ name lit h with ⟨n, rfl⟩ | rfl <;> simp [replace, h, semDataType, Log.crash]
  | node kind left right =>
    cases kind with
    | type t =>
      cases left with
      | nil => exact .same rfl
      | str name =>
        have hextract := spoils_extractString (R := R) hσ (.str name)
        have hnotNil : replace σ (.str name) ≠ .nil := by
          intro hnil
          have hisNil := isNil_getD hσ name
          rw [replace] at hnil
          rw [hnil] at hisNil
          exact absurd hisNil (by simp [Ast.isNil])
        have hstep : ∀ a : Ast R, a ≠ .nil → ∀ b, semDataType D Γ (.node (.type t) a b) =
            (extractString a >>= fun name => pure (.node (.type t) (.str name) .nil, Γ.type t (some name))) := by
          intro a ha b
          cases a with
          | nil => exact absurd rfl ha
          | _ => rfl
        rw [replace_node (by simp), hstep _ hnotNil, hstep _ (by simp)]
        exact hextract.map fun _ => rfl
      | node kind left' right' => cases kind <;> exact .same rfl
      | strlit text => exact .same rfl
      | num n => exact .same rfl
    | _ => exact .same rfl
  | nil => exact .same rfl
  | strlit text => exact .same rfl
  | num n => exact .same rfl

end

/-- What is said of a tree: as an expression, as a list of branches and as a list of arguments. -/
structure SpoilsAll (σ : Name → Option (Ast R)) (a : Ast R) : Prop where
  expr : Spoils (fun n => (σ n).isSome = true) (semExpr D Γ (replace σ a)) (semExpr D Γ (subst σ a))
  caseList : ∀ test pending,
    Spoils (fun n => (σ n).isSome = true) (semCaseList D Γ test pending (replace σ a)) (semCaseList D Γ test pending (subst σ a))
  argList : ∀ name count before t,
    Spoils (fun n => (σ n).isSome = true) (semArgList D Γ name count before t (replace σ a)) (semArgList D Γ name count before t (subst σ a))

theorem Spoils.optional {e e' : Ast R} {x y : Log (Ast R × T)} (he : e.isNil = e'.isNil) (h : Spoils P x y) :
    Spoils P (optional e x) (optional e' y) := by
  unfold Enums.optional
  rw [he]
  split_ifs
  · exact .same rfl
  · exact h.map fun _ => rfl

/-- CASE, from its parts. -/
theorem spoils_caseExpr (hσ : ∀ n a, σ n = some a → Literal a) {test list otherwise : Ast R} (htest : SpoilsAll D Γ σ test)
    (hlist : SpoilsAll D Γ σ list) (hotherwise : SpoilsAll D Γ σ otherwise) :
    Spoils (fun n => (σ n).isSome = true) (semExpr D Γ (replace σ (.node .caseExpr test (.node .connector list otherwise))))
      (semExpr D Γ (subst σ (.node .caseExpr test (.node .connector list otherwise)))) := by
  refine Spoils.bind (htest.expr.optional ?_) fun e => ?_
  · rw [isNil_replace hσ, isNil_subst hσ]
  refine Spoils.bind (hlist.caseList e.2 none) fun l => ?_
  refine Spoils.bind (hotherwise.expr.optional ?_) fun o => .same (bind_names rfl fun _ => rfl)
  rw [isNil_replace hσ, isNil_subst hσ]

/-- Calls, from their arguments. -/
theorem spoils_call (hσ : ∀ n a, σ n = some a → Literal a) {name filter args : Ast R} (hargs : SpoilsAll D Γ σ args) :
    Spoils (fun n => (σ n).isSome = true) (semExpr D Γ (replace σ (.node .call name (.node .callArgList filter args))))
      (semExpr D Γ (subst σ (.node .call name (.node .callArgList filter args)))) := by
  refine Spoils.bind (spoils_extractString hσ name) fun n => ?_
  rw [argCount_replace hσ, argCount_subst hσ]
  split_ifs
  · exact .same rfl
  · refine Spoils.bind (.same rfl) fun t => ?_
    exact (hargs.argList n (argCount args) [] t).map fun _ => rfl

/-- Every tree, by induction. -/
theorem spoilsAll (hσ : ∀ n a, σ n = some a → Literal a) (a : Ast R) : Deep (SpoilsAll D Γ σ) a := by
  refine deep ?_ ?_ ?_ ?_ ?_ a
  · exact ⟨.same rfl, fun test pending => .same (by cases pending <;> rfl), fun _ _ _ _ => .same rfl⟩
  · intro name
    have hlit : ∀ b : Ast R, b = .str name ∨ Literal b → (semExpr D Γ b).names = [] ∧ (∀ test pending, (semCaseList D Γ test pending b).names = []) ∧
        ∀ n count before t, (semArgList D Γ n count before t b).names = [] := by
      rintro b (rfl | hb)
      · exact ⟨resolveId_names D Γ name, fun _ _ => rfl, fun _ _ _ _ => rfl⟩
      · refine ⟨semExpr_literal D Γ hb, ?_, ?_⟩
        · rcases hb with ⟨n, rfl⟩ | rfl <;> exact fun _ _ => rfl
        · rcases hb with ⟨n, rfl⟩ | rfl <;> exact fun _ _ _ _ => rfl
    obtain ⟨hexpr, hcase, hargs⟩ := hlit _ (getD_cases hσ name)
    exact ⟨.same hexpr, fun test pending => .same (hcase test pending), fun n count before t => .same (hargs n count before t)⟩
  · exact fun text => ⟨.same rfl, fun _ _ => .same rfl, fun _ _ _ _ => .same rfl⟩
  · intro n
    exact ⟨.same (by cases n <;> rfl), fun _ _ => .same rfl, fun _ _ _ _ => .same rfl⟩
  intro kind left right hleft hright
  have hl := hleft.self
  have hr := hright.self
  refine ⟨?_, ?_, ?_⟩
  · cases kind with
    | null => exact .same (bind_names rfl fun _ => rfl)
    | dot =>
      refine .same ?_
      cases left with
      | str scope =>
        cases right with
        | str name => exact resolveDot_names D Γ scope name
        | _ => rfl
      | _ => rfl
    | binary op => exact hl.expr.bind fun l => hr.expr.bind fun r => .same (bind_names rfl fun _ => rfl)
    | unary op =>
      by_cases hmin : op = .uminus ∧ left = .num .minLong
      · obtain ⟨rfl, rfl⟩ := hmin
        exact .same rfl
      · change Spoils _ (semExpr D Γ (.node (.unary op) (replace σ left) (replace σ right)))
          (semExpr D Γ (.node (.unary op) (subst σ left) (subst σ right)))
        rw [semExpr_unary D Γ fun h => hmin ⟨h.1, replace_eq_minLong hσ h.2⟩, semExpr_unary D Γ fun h => hmin ⟨h.1, subst_eq_minLong hσ h.2⟩]
        exact hl.expr.bind fun e => .same (bind_names rfl fun _ => rfl)
    | castExpr => exact hl.expr.bind fun e => (spoils_semDataType D Γ hσ right).bind fun t => .same (bind_names rfl fun _ => rfl)
    | caseExpr =>
      cases right with
      | node kind list otherwise =>
        cases kind with
        | connector => exact spoils_caseExpr D Γ hσ hl hright.2.1 hright.2.2
        | _ => exact .same rfl
      | str name =>
        change Spoils _ (semExpr D Γ (.node .caseExpr (replace σ left) ((σ name).getD (.str name))))
          (semExpr D Γ (.node .caseExpr (subst σ left) ((σ name).getD (.str name))))
        rcases getD_cases hσ name with hb | ⟨n, hb⟩ | hb <;>
        · rw [hb]
          exact .same rfl
      | _ => exact .same rfl
    | call =>
      cases right with
      | node kind filter args =>
        cases kind with
        | callArgList => exact spoils_call D Γ hσ hright.2.2
        | _ => exact .same rfl
      | str name =>
        change Spoils _ (semExpr D Γ (.node .call (replace σ left) ((σ name).getD (.str name))))
          (semExpr D Γ (.node .call left ((σ name).getD (.str name))))
        rcases getD_cases hσ name with hb | ⟨n, hb⟩ | hb <;>
        · rw [hb]
          exact .same rfl
      | _ => exact .same rfl
    | _ => exact .same rfl
  · intro test pending
    cases kind with
    | caseList =>
      cases left with
      | node kind w t =>
        cases kind with
        | when =>
          refine Spoils.bind hleft.2.1.expr fun w => Spoils.bind (.same rfl) fun _ => Spoils.bind hleft.2.2.expr fun t => ?_
          exact Spoils.bind (.same rfl) fun p => (hr.caseList test (some p)).map fun _ => rfl
        | _ => exact .same rfl
      | str name =>
        change Spoils _ (semCaseList D Γ test pending (.node .caseList ((σ name).getD (.str name)) (replace σ right)))
          (semCaseList D Γ test pending (.node .caseList ((σ name).getD (.str name)) (subst σ right)))
        rcases getD_cases hσ name with hb | ⟨n, hb⟩ | hb <;>
        · rw [hb]
          exact .same rfl
      | _ => exact .same rfl
    | _ => exact .same rfl
  · intro name count before t
    cases kind with
    | argList => exact Spoils.bind hl.expr fun a => Spoils.bind (.same rfl) fun t => (hr.argList name count (before ++ [a.2]) t).map fun _ => rfl
    | _ => exact .same rfl

theorem isNil_iff : a.isNil = true ↔ a = .nil := by cases a <;> simp [Ast.isNil]

/-! ### A member -/

/-- Names are replaced by literals. -/
theorem references_literal : ∀ n a, references (literal D) seen n = some a → Literal a := by
  intro n a h
  obtain ⟨v, -, rfl⟩ := Option.map_eq_some_iff.mp h
  exact literal_literal D v

/-- A tree that was replaced is analysed as one with only its references replaced, unless a name that was replaced is come to. -/
theorem spoils_semReplaced (seen : List (EnumValue R)) (e : Ast R) :
    Spoils (fun n => (tryResolveEnum seen n).isSome = true) (semReplaced D Γ seen (replace (references (literal D) seen) e) e)
      (semReplaced D Γ seen (subst (references (literal D) seen) e) e) ∧
    ((semReplaced D Γ seen (subst (references (literal D) seen) e) e).names = (semExpr D Γ (subst (references (literal D) seen) e)).names ∨
      ∃ name, e = .str name ∧ (tryResolveEnum seen name).isSome = true) := by
  have hP : (fun n => (references (literal D) seen n).isSome = true) = fun n => (tryResolveEnum seen n).isSome = true := by
    simp [references]
  have hliteral : ∀ n a, references (literal D) seen n = some a → Literal a := references_literal D
  have hspoils := (spoilsAll D Γ hliteral e).self.expr
  rw [hP] at hspoils
  have hmap : ∀ x : Log (Ast R × T), (x >>= fun r => pure r.1 : Log (Ast R)).names = x.names := by
    rintro ⟨names, out⟩
    rw [bind_eq]
    cases out with
    | crash => rfl
    | reported => rfl
    | ok a => exact List.append_nil _
  cases e with
  | str name =>
    by_cases h : (tryResolveEnum seen name).isSome = true
    · refine ⟨?_, Or.inr ⟨name, rfl, h⟩⟩
      simp only [semReplaced, if_pos h, replace, subst]
      exact .same (bind_names (resolveId_names D Γ name) fun _ => rfl)
    · simp only [semReplaced, if_neg h]
      exact ⟨hspoils.map fun _ => rfl, Or.inl (hmap _)⟩
  | nil => exact ⟨hspoils.map fun _ => rfl, Or.inl (hmap _)⟩
  | strlit text => exact ⟨hspoils.map fun _ => rfl, Or.inl (hmap _)⟩
  | num n => exact ⟨hspoils.map fun _ => rfl, Or.inl (hmap _)⟩
  | node kind left right => exact ⟨hspoils.map fun _ => rfl, Or.inl (hmap _)⟩

theorem tryResolveEnum_none {n : Name} (h : ¬(tryResolveEnum seen n).isSome = true) : tryResolveEnum seen n = none := by
  simpa using h

/-- A member that is apart from the others has the value of its expression with only its references replaced. -/
theorem semMember_of_apart {last : Value R} {m : Member R} (hself : tryResolveEnum seen m.name = none) (h : Apart D Γ seen m) :
    semMember D Γ t last seen m = memberValue D Γ t seen last m (subst (references (literal D) seen) m.expr) := by
  rw [semMember, replaceSeen_eq D hself, if_pos h.self]
  dsimp only
  obtain ⟨hspoils, hnames⟩ := spoils_semReplaced D Γ seen m.expr
  have hout : (semReplaced D Γ seen (replace (references (literal D) seen) m.expr) m.expr).out =
      (semReplaced D Γ seen (subst (references (literal D) seen) m.expr) m.expr).out := by
    rcases hspoils with ⟨-, hout⟩ | ⟨⟨n, hn, hsome⟩, -⟩
    · exact hout
    · rcases hnames with hnames | ⟨name, he, hname⟩
      · rw [hnames] at hn
        rw [h.names n hn] at hsome
        exact absurd hsome (by simp)
      · rw [he] at hn
        simp only [semReplaced, if_pos hname] at hn
        rw [bind_names (resolveId_names D Γ name) fun _ => rfl] at hn
        exact absurd hn (by simp)
  unfold memberValue
  rw [hout]

/-- A contract fails in one that is not. -/
theorem semMember_crash {last : Value R} {m : Member R} (hself : tryResolveEnum seen m.name = none)
    (h : ¬Apart D Γ seen m) : semMember D Γ t last seen m = .crash := by
  rw [semMember, replaceSeen_eq D hself]
  by_cases hleaves : ∀ n ∈ leaves m.expr, fold n ≠ fold m.name
  · have hnames : ¬∀ n ∈ (semExpr D Γ (subst (references (literal D) seen) m.expr)).names, tryResolveEnum seen n = none :=
      fun hall => h ⟨hleaves, hall⟩
    rw [not_forall] at hnames
    obtain ⟨n, hn⟩ := hnames
    rw [Classical.not_imp] at hn
    obtain ⟨hmem, hsome⟩ := hn
    have hsome : (tryResolveEnum seen n).isSome = true := Option.isSome_iff_ne_none.mpr hsome
    rw [if_pos hleaves]
    dsimp only
    have hnil : m.expr.isNil = false := by
      cases he : m.expr.isNil with
      | false => rfl
      | true =>
        rw [isNil_iff.mp he] at hmem
        exact absurd hmem (by simp [subst, semExpr, Log.crash])
    obtain ⟨hspoils, hnames⟩ := spoils_semReplaced D Γ seen m.expr
    have hnames : (semReplaced D Γ seen (subst (references (literal D) seen) m.expr) m.expr).names =
        (semExpr D Γ (subst (references (literal D) seen) m.expr)).names := by
      rcases hnames with hnames | ⟨name, he, hname⟩
      · exact hnames
      · obtain ⟨v, hv⟩ := Option.isSome_iff_exists.mp hname
        rw [he] at hmem
        simp only [subst, references, hv, Option.map_some, Option.getD_some] at hmem
        rw [semExpr_literal D Γ (literal_literal D v)] at hmem
        exact absurd hmem (by simp)
    rcases hspoils with ⟨hnone, -⟩ | ⟨-, hout⟩
    · rw [hnames] at hnone
      exact absurd hsome (hnone n hmem)
    · simp [memberValue, hnil, hout]
  · rw [if_neg hleaves]

/-! ### Literals -/

/-- Values that are kept have their exact literal. -/
theorem literal_eq_exact (h : Kept D v) : literal D v = exact v := by
  cases v with
  | real r =>
    have hprinted : D.printed r = r := by simpa [Kept, literal, eval] using h
    rw [literal, exact, hprinted]
    exact fun _ h => absurd h (by simp)
  | long v => rfl
  | error => rfl
  | null => rfl
  | bool b => rfl
  | integer v => rfl

theorem references_eq_exact (h : ∀ m ∈ seen, Kept D m.value) : references (literal D) seen = references exact seen := by
  funext n
  unfold references
  cases hn : tryResolveEnum seen n with
  | none => rfl
  | some v =>
    obtain ⟨m, hm, rfl⟩ := Option.map_eq_some_iff.mp hn
    exact congrArg some (literal_eq_exact D (h m (List.mem_of_find?_eq_some hm)))

/-- The analysis leaves a literal as it is. -/
theorem semExpr_exact_fst {r : Ast R × T} (h : (semExpr D Γ (exact v)).out = .ok r) : r.1 = exact v := by
  have hnum : ∀ w : Value R, (semExpr D Γ (.num (.value w))).out = .ok r → r.1 = .num (.value w) := by
    intro w hr
    cases hr
    rfl
  cases v with
  | long v =>
    by_cases hv : v = -2 ^ 63
    · simp only [exact, if_pos hv] at h ⊢
      cases h
      rfl
    · simp only [exact, if_neg hv] at h ⊢
      exact hnum _ h
  | error => exact hnum _ h
  | null => exact hnum _ h
  | bool b => exact hnum _ h
  | integer v => exact hnum _ h
  | real r => exact hnum _ h

theorem semExpr_exact_ok (v : Value R) : ∃ r, (semExpr D Γ (exact v)).out = .ok r := by
  cases v with
  | long v =>
    by_cases hv : v = -2 ^ 63
    · simp only [exact, if_pos hv]
      exact ⟨_, rfl⟩
    · simp only [exact, if_neg hv]
      exact ⟨_, rfl⟩
  | _ => exact ⟨_, rfl⟩

/-- The tree of a member that is evaluated. -/
theorem evalMember_fst {tree : Ast R} {r : Ast R × Value R} (h : evalMember D t tree = .ok r) : r.1 = tree := by
  unfold evalMember at h
  cases hv : eval D tree with
  | none => simp [hv] at h
  | some v =>
    simp only [hv] at h
    split_ifs at h
    cases hcast : Eval.evalCastTo D v t with
    | none => simp [hcast] at h
    | some w =>
      simp only [hcast, Outcome.ok.injEq] at h
      rw [← h]

variable {t : CoreType} {last : Value R} {seen : List (EnumValue R)} {m : Member R} {r : Ast R × Value R}

/-- A member that is a name has the value of that name. -/
theorem declared_str {name : Name} (he : m.expr = .str name) (hv : tryResolveEnum seen name = some v) :
    declared D Γ t last seen m = evalMember D t (exact v) := by
  obtain ⟨r, hr⟩ := semExpr_exact_ok D Γ v
  have hsubst : subst (references exact seen) m.expr = exact v := by simp [he, subst, references, hv]
  rw [declared, hsubst, hr, he]
  dsimp only
  rw [semExpr_exact_fst D Γ hr]
  rfl

/-- A member that stands alone where its expression is a name has the value that it is declared with. -/
theorem declared_of_memberValue (hkept : ∀ m ∈ seen, Kept D m.value) (halone : Alone D seen m r.1)
    (h : memberValue D Γ t seen last m (subst (references (literal D) seen) m.expr) = .ok r) : declared D Γ t last seen m = .ok r := by
  rw [references_eq_exact D hkept] at h
  by_cases hname : ∃ name v, m.expr = .str name ∧ tryResolveEnum seen name = some v
  · obtain ⟨name, v, he, hv⟩ := hname
    obtain ⟨m', hm', rfl⟩ := Option.map_eq_some_iff.mp hv
    have htree : r.1 = exact m'.value := (halone name m'.value he hv).trans (literal_eq_exact D (hkept m' (List.mem_of_find?_eq_some hm')))
    rw [declared_str D Γ he hv]
    unfold memberValue at h
    rw [he] at h
    simp only [Ast.isNil, Bool.false_eq_true, if_false] at h
    cases hout : (semReplaced D Γ seen (subst (references exact seen) (.str name)) (.str name)).out with
    | crash => simp [hout] at h
    | reported => simp [hout] at h
    | ok tree =>
      simp only [hout] at h
      rw [← htree, evalMember_fst D h, h]
  · have hreplaced : semReplaced D Γ seen (subst (references exact seen) m.expr) m.expr =
        (semExpr D Γ (subst (references exact seen) m.expr) >>= fun r => pure r.1) := by
      cases he : m.expr with
      | str name =>
        have hnone : ¬(tryResolveEnum seen name).isSome = true := by
          intro hsome
          obtain ⟨v, hv⟩ := Option.isSome_iff_exists.mp hsome
          exact hname ⟨name, v, he, hv⟩
        simp only [semReplaced, if_neg hnone]
      | _ => rfl
    rw [memberValue, hreplaced] at h
    rw [declared]
    split_ifs at h ⊢
    · exact h
    · cases hout : (semExpr D Γ (subst (references exact seen) m.expr)).out with
      | crash => simp [bind_eq, Log.bind, hout] at h
      | reported => simp [bind_eq, Log.bind, hout] at h
      | ok r' =>
        simp only [bind_eq, Log.bind, hout] at h
        exact h

/-- A member declared behind others is right alone. -/
theorem alone_of_declared (hkept : ∀ m ∈ seen, Kept D m.value) (h : declared D Γ t last seen m = .ok r) : Alone D seen m r.1 := by
  intro name v he hv
  obtain ⟨m', hm', rfl⟩ := Option.map_eq_some_iff.mp hv
  rw [declared_str D Γ he hv] at h
  rw [evalMember_fst D h, literal_eq_exact D (hkept m' (List.mem_of_find?_eq_some hm'))]

/-! ### The loop -/

variable {step : Value R → List (EnumValue R) → Member R → Outcome (Ast R × Value R)} {ms : List (Member R)} {out : List (EnumValue R)}

/-- One step of the loop that is not the last. -/
theorem members_cons (h : members step last seen (m :: ms) = .ok out) :
    tryResolveEnum seen m.name = none ∧ ∃ r, step last seen m = .ok r ∧ members step r.2 (seen ++ [⟨⟨m.name, r.1⟩, r.2⟩]) ms = .ok out := by
  rw [members] at h
  split_ifs at h with hseen
  refine ⟨tryResolveEnum_none hseen, ?_⟩
  cases hstep : step last seen m with
  | crash => simp [hstep] at h
  | reported => simp [hstep] at h
  | ok r => exact ⟨r, rfl, by simpa [hstep] using h⟩

/-- Members are added behind those that are there. -/
theorem members_prefix (h : members step last seen ms = .ok out) : ∃ rest, out = seen ++ rest := by
  induction ms generalizing last seen with
  | nil =>
    obtain rfl : seen = out := by simpa [members] using h
    exact ⟨[], by simp⟩
  | cons m ms ih =>
    obtain ⟨-, r, -, hrest⟩ := members_cons h
    obtain ⟨rest, rfl⟩ := ih hrest
    exact ⟨_, List.append_assoc ..⟩

/-- Their names stay different. -/
theorem members_nodup (h : members step last seen ms = .ok out) (hnodup : (seen.map fun m => fold m.name).Nodup) :
    (out.map fun m => fold m.name).Nodup := by
  induction ms generalizing last seen with
  | nil =>
    obtain rfl : seen = out := by simpa [members] using h
    exact hnodup
  | cons m ms ih =>
    obtain ⟨hnew, r, -, hrest⟩ := members_cons h
    refine ih hrest ?_
    rw [List.map_append, List.nodup_append]
    refine ⟨hnodup, by simp, ?_⟩
    intro x hx y hy
    obtain ⟨m', hm', rfl⟩ := List.mem_map.mp hx
    obtain rfl : y = fold m.name := by simpa using hy
    intro heq
    have hnone : seen.find? (fun m' => fold m'.name = fold m.name) = none := by simpa [tryResolveEnum] using hnew
    exact List.find?_eq_none.mp hnone m' hm' (by simpa using heq)

/-- A member without a value has the next one. -/
theorem nextMember_valued (h : nextMember D t last = .ok r) :
    r.1 = .nil ∧ ((Eval.evalAddOne D last).bind fun v => Eval.evalCastTo D v t) = some r.2 := by
  unfold nextMember at h
  cases hnext : (Eval.evalAddOne D last).bind fun v => Eval.evalCastTo D v t with
  | none => simp [hnext] at h
  | some v =>
    simp only [hnext, Outcome.ok.injEq] at h
    subst h
    exact ⟨rfl, rfl⟩

/-- A member with a value has it. -/
theorem evalMember_valued {tree : Ast R} (h : evalMember D t tree = .ok r) :
    r.1.isNil = false ∧ ((eval D r.1).bind fun v => Eval.evalCastTo D v t) = some r.2 := by
  have htree := evalMember_fst D h
  subst htree
  unfold evalMember at h
  cases hv : eval D r.1 with
  | none => simp [hv] at h
  | some v =>
    simp only [hv] at h
    split_ifs at h with herror
    refine ⟨?_, ?_⟩
    · cases hnil : r.1.isNil with
      | false => rfl
      | true =>
        rw [isNil_iff.mp hnil] at hv
        obtain rfl : Value.error = v := by simpa [eval] using hv
        exact absurd rfl herror
    · rw [Option.bind_some]
      cases hcast : Eval.evalCastTo D v t with
      | none => simp [hcast] at h
      | some w =>
        simp only [hcast, Outcome.ok.injEq] at h
        rw [← h]

/-- The value of a member comes from its tree. -/
theorem semMember_valued (h : semMember D Γ t last seen m = .ok r) :
    ((if r.1.isNil then Eval.evalAddOne D last else eval D r.1).bind fun v => Eval.evalCastTo D v t) = some r.2 := by
  unfold semMember at h
  cases hreplaced : replaceSeen D m.name seen m.expr with
  | none => simp [hreplaced] at h
  | some tree =>
    simp only [hreplaced, memberValue] at h
    split_ifs at h
    · obtain ⟨htree, hvalue⟩ := nextMember_valued D h
      rw [htree]
      exact hvalue
    · cases hout : (semReplaced D Γ seen tree m.expr).out with
      | crash => simp [hout] at h
      | reported => simp [hout] at h
      | ok tree =>
        simp only [hout] at h
        obtain ⟨hnil, hvalue⟩ := evalMember_valued D h
        rw [hnil]
        exact hvalue

/-- All members do, by induction. -/
theorem members_valued (h : members (semMember D Γ t) last seen ms = .ok out) : ∃ rest, out = seen ++ rest ∧ Valued D t last rest := by
  induction ms generalizing last seen with
  | nil =>
    obtain rfl : seen = out := by simpa [members] using h
    exact ⟨[], by simp, trivial⟩
  | cons m ms ih =>
    obtain ⟨-, r, hr, hrest⟩ := members_cons h
    obtain ⟨rest, rfl, hvalued⟩ := ih hrest
    exact ⟨⟨⟨m.name, r.1⟩, r.2⟩ :: rest, List.append_assoc .., semMember_valued D Γ hr, hvalued⟩

/-- The trees tell the values. -/
theorem valued_unique {xs ys : List (EnumValue R)} (hx : Valued D t last xs) (hy : Valued D t last ys)
    (h : xs.map EnumValue.toMember = ys.map EnumValue.toMember) : xs = ys := by
  induction xs generalizing last ys with
  | nil => exact (List.map_eq_nil_iff.mp h.symm).symm
  | cons x xs ih =>
    cases ys with
    | nil => simp at h
    | cons y ys =>
      obtain ⟨hhead, htail⟩ := List.cons.inj h
      obtain ⟨xmember, xvalue⟩ := x
      obtain ⟨ymember, yvalue⟩ := y
      dsimp only at hhead
      subst hhead
      have hvalue : xvalue = yvalue := Option.some.inj (hx.1.symm.trans hy.1)
      subst hvalue
      rw [ih hx.2 hy.2 htail]

/-! ### Runs -/

variable {accepted : List (EnumValue R) → Prop} {alone : Prop}

/-- What is sound is refused, or has the values that are declared. -/
theorem run_of_sound (h : Sound D Γ t accepted alone last seen ms) :
    members (semMember D Γ t) last seen ms = .reported ∨ ∃ out, members (semMember D Γ t) last seen ms = .ok out ∧
      (accepted out → alone ∧ (∀ m ∈ out, Kept D m.value) ∧ members (declared D Γ t) last seen ms = .ok out) := by
  induction ms generalizing alone last seen with
  | nil => exact Or.inr ⟨seen, rfl, fun hacc => ⟨(h hacc).1, (h hacc).2, rfl⟩⟩
  | cons m ms ih =>
    rw [Sound] at h
    by_cases hseen : (tryResolveEnum seen m.name).isSome = true
    · left
      rw [members, if_pos hseen]
    obtain ⟨hapart, hvalue⟩ := h.resolve_left hseen
    have hstep : semMember D Γ t last seen m = _ := semMember_of_apart D Γ (tryResolveEnum_none hseen) hapart
    simp only [members, if_neg hseen, hstep]
    cases hr : memberValue D Γ t seen last m (subst (references (literal D) seen) m.expr) with
    | crash => simp [hr] at hvalue
    | reported => exact Or.inl rfl
    | ok r =>
      simp only [hr] at hvalue
      rcases ih hvalue with hrep | ⟨out, hout, hright⟩
      · exact Or.inl hrep
      · refine Or.inr ⟨out, hout, fun hacc => ?_⟩
        obtain ⟨⟨halone, hthis⟩, hkept, hdeclared⟩ := hright hacc
        obtain ⟨rest, rfl⟩ := members_prefix hout
        have hkeptSeen : ∀ m ∈ seen, Kept D m.value := fun m hm => hkept m (by simp [hm])
        refine ⟨halone, hkept, ?_⟩
        rw [declared_of_memberValue D Γ hkeptSeen hthis hr]
        exact hdeclared

/-- What is refused, or has the values that are declared, is sound. -/
theorem sound_of_run (hcrash : members (semMember D Γ t) last seen ms ≠ .crash)
    (h : ∀ out, members (semMember D Γ t) last seen ms = .ok out → accepted out →
      alone ∧ (∀ m ∈ out, Kept D m.value) ∧ members (declared D Γ t) last seen ms = .ok out) : Sound D Γ t accepted alone last seen ms := by
  induction ms generalizing alone last seen with
  | nil => exact fun hacc => ⟨(h seen rfl hacc).1, (h seen rfl hacc).2.1⟩
  | cons m ms ih =>
    rw [Sound]
    by_cases hseen : (tryResolveEnum seen m.name).isSome = true
    · exact Or.inl hseen
    have hapart : Apart D Γ seen m := by
      by_contra hnot
      apply hcrash
      rw [members, if_neg hseen, semMember_crash D Γ (tryResolveEnum_none hseen) hnot]
    refine Or.inr ⟨hapart, ?_⟩
    have hstep : semMember D Γ t last seen m = _ := semMember_of_apart D Γ (tryResolveEnum_none hseen) hapart
    cases hr : memberValue D Γ t seen last m (subst (references (literal D) seen) m.expr) with
    | crash =>
      apply hcrash
      rw [members, if_neg hseen, hstep, hr]
    | reported => trivial
    | ok r =>
      rw [hr] at hstep
      have hrun : members (semMember D Γ t) last seen (m :: ms) = members (semMember D Γ t) r.2 (seen ++ [⟨⟨m.name, r.1⟩, r.2⟩]) ms := by
        rw [members, if_neg hseen, hstep]
      rw [hrun] at hcrash h
      refine ih hcrash fun out hout hacc => ?_
      obtain ⟨halone, hkept, hdeclared⟩ := h out hout hacc
      obtain ⟨-, r', hr', hrest⟩ := members_cons hdeclared
      obtain ⟨rest, rfl⟩ := members_prefix hout
      obtain ⟨rest', heq⟩ := members_prefix hrest
      have hkeptSeen : ∀ m ∈ seen, Kept D m.value := fun m hm => hkept m (by simp [hm])
      have hrr : r' = r := by
        simp only [List.append_assoc, List.singleton_append, List.append_cancel_left_eq, List.cons.injEq, EnumValue.mk.injEq, Member.mk.injEq,
          true_and] at heq
        exact Prod.ext heq.1.1.symm heq.1.2.symm
      subst hrr
      exact ⟨⟨halone, alone_of_declared D Γ hkeptSeen hr'⟩, hkept, hrest⟩

/-- References find the values exactly if the literals keep them. -/
theorem found_iff {values : List (EnumValue R)} (hnodup : (values.map fun m => fold m.name).Nodup) :
    (∀ m ∈ values, ∀ name, fold name = fold m.name → ∃ v, tryResolveEnum values name = some v ∧ eval D (literal D v) = some m.value) ↔
      ∀ m ∈ values, Kept D m.value := by
  have hfind : ∀ m ∈ values, ∀ name, fold name = fold m.name → tryResolveEnum values name = some m.value := by
    intro m hm name hname
    rw [tryResolveEnum]
    cases hfound : values.find? fun m => fold m.name = fold name with
    | none => exact absurd (List.find?_eq_none.mp hfound m hm) (by simp [hname])
    | some m' =>
      have hmem := List.mem_of_find?_eq_some hfound
      have heq : fold m'.name = fold name := by simpa using List.find?_some hfound
      rw [List.inj_on_of_nodup_map hnodup hmem hm (heq.trans hname), Option.map_some]
  constructor
  · intro h m hm
    obtain ⟨v, hv, heval⟩ := h m hm m.name rfl
    rw [hfind m hm m.name rfl] at hv
    cases hv
    exact heval
  · intro h m hm name hname
    exact ⟨m.value, hfind m hm name hname, h m hm⟩

/-- An enumeration that is there already has the same members. -/
theorem addEnum_eq [DecidableEq R] {name : Name} {values values' : List (EnumValue R)}
    (hrun : members (semMember D Γ t) (.integer 0) [] ms = .ok values) (h : addEnum D Γ name t values = .ok values') : values' = values := by
  unfold addEnum at h
  cases hexisting : Γ.enums name with
  | none =>
    simp only [hexisting] at h
    split_ifs at h
    cases h
    rfl
  | some existing =>
    simp only [hexisting] at h
    split_ifs at h with hidentical
    cases h
    obtain ⟨-, htype, htrees⟩ := of_decide_eq_true hidentical
    obtain ⟨rest, rfl, hvalued⟩ := members_valued D Γ hrun
    exact (valued_unique D hvalued (htype ▸ existing.valued) htrees).symm

/-- The analysis ends. -/
theorem addEnum_ne_crash [DecidableEq R] (name : Name) (values : List (EnumValue R)) : addEnum D Γ name t values ≠ .crash := by
  unfold addEnum
  cases Γ.enums name with
  | none =>
    dsimp only
    split_ifs <;> simp
  | some existing =>
    dsimp only
    split_ifs <;> simp

end EnumsAux

open EnumsAux

/-- An enumeration is declared as it says exactly if its members are sound. -/
theorem semDeclareEnumStmt_right_iff [DecidableEq R] (inProc : Bool) (name : Name) (t : CoreType) (ms : List (Member R)) :
    Declares D Γ t ms (semDeclareEnumStmt D Γ inProc name t ms) ↔
      inProc = true ∨ Sound D Γ t (fun values => ∃ out, addEnum D Γ name t values = .ok out) True (.integer 0) [] ms := by
  cases inProc with
  | true => simp [semDeclareEnumStmt, Declares]
  | false =>
    simp only [Bool.false_eq_true, false_or]
    rw [semDeclareEnumStmt, if_neg Bool.false_ne_true]
    constructor
    · intro h
      refine sound_of_run D Γ ?_ fun values hrun => ?_
      · intro hcrash
        rw [hcrash] at h
        exact h
      · rintro ⟨values', hadd⟩
        obtain rfl := addEnum_eq D Γ hrun hadd
        rw [hrun] at h
        dsimp only at h
        rw [hadd] at h
        exact ⟨trivial, (found_iff D (members_nodup hrun List.nodup_nil)).mp h.found, h.declared⟩
    · intro h
      rcases run_of_sound D Γ h with hrun | ⟨values, hrun, hright⟩
      · rw [hrun]
        trivial
      · rw [hrun]
        dsimp only
        cases hadd : addEnum D Γ name t values with
        | crash => exact absurd hadd (addEnum_ne_crash D Γ name values)
        | reported => trivial
        | ok values' =>
          obtain rfl := addEnum_eq D Γ hrun hadd
          obtain ⟨-, hkept, hdeclared⟩ := hright ⟨_, hadd⟩
          exact ⟨hdeclared, (found_iff D (members_nodup hrun List.nodup_nil)).mpr hkept⟩

namespace EnumsAux

/-- Whole numbers only. -/
def noDoubles : Doubles Unit :=
  ⟨fun _ _ => (), fun _ _ => (), fun _ _ => (), fun _ _ => (), fun _ => (), fun _ _ => true, fun _ _ => false, fun _ _ => true,
    fun _ => (), fun _ => some 0, fun _ => ()⟩

/-- Every tree has a type, and nothing was declared before. -/
def empty : Env noDoubles Unit where
  enums _ := none
  typeTaken _ := false
  constant _ := none
  earlier _ _ := none
  later _ _ := none
  namedType _ := none
  number _ := ()
  strlit := ()
  member _ _ := ()
  type _ _ := ()
  check _ _ := some ()
  call _ _ _ := some ()

def b : Name := ⟨[98], by decide⟩

/-- A literal of the type `integer`. -/
def int (v : ℤ) : Ast Unit := .num (.value (.integer v))

/-- `iif(1, 2, 3)` -/
def iifCall : Ast Unit :=
  .node .call (.str iif) (.node .callArgList .nil (.node .argList (int 1) (.node .argList (int 2) (.node .argList (int 3) .nil))))

end EnumsAux

/-- The name of the function is replaced. -/
theorem semDeclareEnumStmt_right_false :
    ¬∀ ms : List (Member Unit), Declares noDoubles empty .integer ms (semDeclareEnumStmt noDoubles empty false b .integer ms) := by
  intro hall
  -- `iif = 1, b = iif(1, 2, 3)`
  have hcrash : semDeclareEnumStmt noDoubles empty false b .integer [⟨iif, int 1⟩, ⟨b, iifCall⟩] = .crash := by rfl
  have hright := hall [⟨iif, int 1⟩, ⟨b, iifCall⟩]
  rw [hcrash] at hright
  exact hright

end CgSql.Enums
