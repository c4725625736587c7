import CgSql.LuaExpr

/-!
# The shape of generated code

Levels, scratch variables and emitted statements of an expression are those that its shape says, and whatever is written is owned by
a place below it.
-/

namespace CgSql.LuaExpr

open Writers

namespace TempsAux

/-- A place is below another. -/
def Below (place : Place) : Place → Prop := (place <:+ ·)

variable {o : Place} {S : Place → Prop}

/-- What is below a child is below its parent. -/
theorem below_cons {place : Place} {i : Nat} (h : Below (i :: place) o) : Below place o :=
  (List.suffix_cons i place).trans h

/-- A place is below itself. -/
theorem below_self (place : Place) : Below place place := List.suffix_refl place

/-- A child is below its parent. -/
theorem below_child (i : Nat) (place : Place) : Below place (i :: place) := List.suffix_cons i place

/-- A temporary is not below its sibling. -/
theorem not_below_sibling {i j : Nat} (place : Place) (h : i ≠ j) : ¬Below (i :: place) (j :: place) := by
  intro hbelow
  have heq := hbelow.eq_of_length (by simp)
  exact h (List.cons.inj heq).1

/-! ## Parts of code -/

/-- A text is read on some path. -/
theorem readText_ne (x : Text) : readText x ≠ [] := Code.one_ne_nil _

/-- A store has a path. -/
theorem cgLuaStore_ne (v : Var) (o : Place) (x : Text) : cgLuaStore v o x ≠ [] := by
  unfold cgLuaStore
  split
  · exact Code.one_ne_nil _
  · exact Code.seq_ne_nil (readText_ne x) (Code.one_ne_nil _)

/-- A store does something. -/
theorem cgLuaStore_ne_skip (v : Var) (o : Place) (x : Text) : cgLuaStore v o x ≠ .skip := by
  unfold cgLuaStore
  split
  · exact Code.one_ne_skip _
  · exact fun h => Code.one_ne_skip _ (Code.eq_skip_of_seq h).1

/-- Reading a text writes nothing. -/
theorem owned_readText (S : Place → Prop) (x : Text) : Owned S (readText x) := owned_read S _

/-- A store is owned by its writer. -/
theorem owned_store (v : Var) (x : Text) (h : S o) : Owned S (cgLuaStore v o x) := by
  unfold cgLuaStore
  split
  · exact owned_write h
  · exact (owned_readText S x).seq (owned_write h)

/-- A store writes its variable. -/
theorem writes_store (v : Var) (o : Place) (x : Text) : Writes (cgLuaStore v o x) v := by
  unfold cgLuaStore
  split
  · exact writes_write v o
  · exact (writes_write v o).seq_right (readText_ne x)

/-- A sequence does something where its first part does. -/
theorem seq_ne_skip_left {a b : Code} (h : a ≠ .skip) : a.seq b ≠ .skip := fun heq => h (Code.eq_skip_of_seq heq).1

/-- Or where its second part does. -/
theorem seq_ne_skip_right {a b : Code} (h : b ≠ .skip) : a.seq b ≠ .skip := fun heq => h (Code.eq_skip_of_seq heq).2

/-- A sequence does nothing where both parts do nothing. -/
theorem seq_eq_skip_iff {a b : Code} : a.seq b = .skip ↔ a = .skip ∧ b = .skip := by
  refine ⟨Code.eq_skip_of_seq, ?_⟩
  rintro ⟨rfl, rfl⟩
  rfl

/-! ## Generators -/

/-- What a generator without a target does, whatever its place. -/
structure Shaped (g : Gen) (emits : Bool) (after : Nat → Nat) (slots : Nat → List Slot) : Prop where
  level : ∀ p k, (g p k).level = after k
  ne : ∀ p k, (g p k).code ≠ []
  emits : ∀ p k, (g p k).code = .skip ↔ emits = false
  owned : ∀ p k, Owned (Below p) (g p k).code
  writes : ∀ p k, ∀ s ∈ slots k, Writes (g p k).code (.scratch s.1 s.2)
  uses : ∀ p k, ∀ u ∈ (g p k).text.uses, ∃ t j, u.1 = .scratch t j ∧ k ≤ j ∧ j < after k
  le : ∀ k, k ≤ after k
  slots_le : ∀ k, ∀ s ∈ slots k, k ≤ s.2

/-- A constant or a name. -/
theorem shaped_plain {x : Text} (h : x.uses = []) : Shaped (fun _ level => ⟨.skip, x, level⟩) false id fun _ => [] where
  level := fun _ _ => rfl
  ne := fun _ _ => Code.skip_ne_nil
  emits := fun _ _ => by simp
  owned := fun _ _ => owned_skip _
  writes := fun _ _ s hs => absurd hs List.not_mem_nil
  uses := fun _ _ u hu => by
    rw [show (Out.text _).uses = [] from h] at hu
    exact absurd hu List.not_mem_nil
  le := fun _ => Nat.le_refl _
  slots_le := fun _ s hs => absurd hs List.not_mem_nil

/-- A unary operator reads no more than its operand. -/
theorem uses_unary (op : UnaryOp) (t : SemType) (x : Text) {u : Use} (h : u ∈ (op.text t x).uses) : u ∈ x.uses := by
  unfold UnaryOp.text at h
  split at h
  all_goals first
    | exact h
    | (split at h
       · first
         | exact h
         | exact absurd h List.not_mem_nil
       · exact h)

/-- The shape of a unary operator. -/
theorem shaped_unary {g : Gen} {emits : Bool} {after : Nat → Nat} {slots : Nat → List Slot} (h : Shaped g emits after slots)
    (op : UnaryOp) (t : SemType) : Shaped (cgLuaUnary op t g) (emits || op.checks) after slots where
  level := fun p k => h.level _ k
  ne := fun p k => by
    refine Code.seq_ne_nil (h.ne _ k) ?_
    split
    · exact readText_ne _
    · exact Code.skip_ne_nil
  emits := fun p k => by
    have hself := h.emits (1 :: p) k
    rcases hc : op.checks with _ | _
    · simp only [cgLuaUnary, hc, Bool.or_false, Bool.false_eq_true, if_false, Code.seq_skip]
      exact hself
    · simp only [cgLuaUnary, hc, Bool.or_true, if_true, Bool.true_eq_false, iff_false]
      exact seq_ne_skip_right (Code.one_ne_skip _)
  owned := fun p k => by
    refine ((h.owned (1 :: p) k).mono fun _ => below_cons).seq ?_
    split
    · exact owned_readText _ _
    · exact owned_skip _
  writes := fun p k s hs => by
    refine (h.writes (1 :: p) k s hs).seq_left ?_
    split
    · exact readText_ne _
    · exact Code.skip_ne_nil
  uses := fun p k u hu => h.uses (1 :: p) k u (uses_unary op t _ hu)
  le := h.le
  slots_le := h.slots_le

section

variable {l r : Gen} {emits emits' : Bool} {after after' : Nat → Nat} {slots slots' : Nat → List Slot}

/-- The shape of two operands. -/
theorem shaped_operands (hl : Shaped l emits after slots) (hr : Shaped r emits' after' slots') (text : Text → Text → Text)
    (htext : ∀ x y u, u ∈ (text x y).uses → u ∈ x.uses ++ y.uses) :
    Shaped (operands l r text) (emits || emits') (fun k => after' (after k)) fun k => slots k ++ slots' (after k) where
  level := fun p k => by
    simp only [operands]
    rw [hr.level, hl.level]
  ne := fun p k => Code.seq_ne_nil (hl.ne _ k) (hr.ne _ _)
  emits := fun p k => by
    simp only [operands]
    rw [seq_eq_skip_iff, hl.emits, hr.emits, Bool.or_eq_false_iff]
  owned := fun p k => ((hl.owned _ k).mono fun _ => below_cons).seq ((hr.owned _ _).mono fun _ => below_cons)
  writes := fun p k s hs => by
    simp only [operands]
    rw [hl.level]
    rcases List.mem_append.1 hs with hs | hs
    · exact (hl.writes _ k s hs).seq_left (hr.ne _ _)
    · exact (hr.writes _ _ s hs).seq_right (hl.ne _ k)
  uses := fun p k u hu => by
    simp only [operands] at hu
    rw [hl.level] at hu
    rcases List.mem_append.1 (htext _ _ u hu) with hu | hu
    · obtain ⟨t, j, hv, hk, hj⟩ := hl.uses _ k u hu
      exact ⟨t, j, hv, hk, Nat.lt_of_lt_of_le hj (hr.le _)⟩
    · obtain ⟨t, j, hv, hk, hj⟩ := hr.uses _ _ u hu
      exact ⟨t, j, hv, Nat.le_trans (hl.le k) hk, hj⟩
  le := fun k => Nat.le_trans (hl.le k) (hr.le _)
  slots_le := fun k s hs => by
    rcases List.mem_append.1 hs with hs | hs
    · exact hl.slots_le k s hs
    · exact Nat.le_trans (hl.le k) (hr.slots_le _ s hs)

end

/-- Part of the code for an operator: who writes, and scratch variables that are written, none below a level. -/
structure Part (S : Place → Prop) (c : Code) (k : Nat) (slots : List Slot) : Prop where
  ne : c ≠ []
  owned : Owned S c
  writes : ∀ s ∈ slots, Writes c (.scratch s.1 s.2)
  slots_le : ∀ s ∈ slots, k ≤ s.2

section

variable {a b : Code} {k k' : Nat} {slots slots' : List Slot}

/-- A sequence writes the scratch variables of both parts. -/
theorem Part.seq (ha : Part S a k slots) (hb : Part S b k slots') : Part S (a.seq b) k (slots ++ slots') where
  ne := Code.seq_ne_nil ha.ne hb.ne
  owned := ha.owned.seq hb.owned
  writes := fun s hs => by
    rcases List.mem_append.1 hs with hs | hs
    · exact (ha.writes s hs).seq_left hb.ne
    · exact (hb.writes s hs).seq_right ha.ne
  slots_le := fun s hs => by
    rcases List.mem_append.1 hs with hs | hs
    · exact ha.slots_le s hs
    · exact hb.slots_le s hs

/-- So does a choice. -/
theorem Part.choice (ha : Part S a k slots) (hb : Part S b k slots') : Part S (a.choice b) k (slots ++ slots') where
  ne := Code.choice_ne_nil ha.ne
  owned := ha.owned.choice hb.owned
  writes := fun s hs => by
    rcases List.mem_append.1 hs with hs | hs
    · exact (ha.writes s hs).choice_left
    · exact (hb.writes s hs).choice_right
  slots_le := fun s hs => by
    rcases List.mem_append.1 hs with hs | hs
    · exact ha.slots_le s hs
    · exact hb.slots_le s hs

/-- A part can be said to start lower and to write more. -/
theorem Part.weaken (h : Part S a k slots) (hle : k' ≤ k) (hsub : ∀ s ∈ slots', s ∈ slots) : Part S a k' slots' where
  ne := h.ne
  owned := h.owned
  writes := fun s hs => h.writes s (hsub s hs)
  slots_le := fun s hs => Nat.le_trans hle (h.slots_le s (hsub s hs))

/-- A part can be said to start lower. -/
theorem Part.lower (h : Part S a k slots) (hle : k' ≤ k) : Part S a k' slots := h.weaken hle fun _ hs => hs

/-- Nothing writes no scratch variable. -/
theorem part_skip (S : Place → Prop) (k : Nat) : Part S .skip k [] :=
  ⟨Code.skip_ne_nil, owned_skip S, fun _ hs => absurd hs List.not_mem_nil, fun _ hs => absurd hs List.not_mem_nil⟩

/-- Nor does a read. -/
theorem part_read (S : Place → Prop) (held : List Use) (k : Nat) : Part S (.one (.read held)) k [] :=
  ⟨Code.one_ne_nil _, owned_read S _, fun _ hs => absurd hs List.not_mem_nil, fun _ hs => absurd hs List.not_mem_nil⟩

/-- Nor does a write of another variable. -/
theorem part_write (v : Var) (k : Nat) (h : S o) : Part S (.one (.write v o)) k [] :=
  ⟨Code.one_ne_nil _, owned_write h, fun _ hs => absurd hs List.not_mem_nil, fun _ hs => absurd hs List.not_mem_nil⟩

/-- Nor does a store to one. -/
theorem part_store (v : Var) (x : Text) (k : Nat) (h : S o) : Part S (cgLuaStore v o x) k [] :=
  ⟨cgLuaStore_ne v o x, owned_store v x h, fun _ hs => absurd hs List.not_mem_nil, fun _ hs => absurd hs List.not_mem_nil⟩

/-- A write of a scratch variable. -/
theorem part_writeScratch (t : SemType) {j : Nat} (hle : k ≤ j) (h : S o) : Part S (.one (.write (.scratch t j) o)) k [(t, j)] where
  ne := Code.one_ne_nil _
  owned := owned_write h
  writes := fun s hs => by
    rw [List.mem_singleton.1 hs]
    exact writes_write _ o
  slots_le := fun s hs => by
    rw [List.mem_singleton.1 hs]
    exact hle

/-- A store to a scratch variable. -/
theorem part_storeScratch (t : SemType) {j : Nat} (x : Text) (hle : k ≤ j) (h : S o) : Part S (cgLuaStore (.scratch t j) o x) k [(t, j)] where
  ne := cgLuaStore_ne _ o x
  owned := owned_store _ x h
  writes := fun s hs => by
    rw [List.mem_singleton.1 hs]
    exact writes_store _ o x
  slots_le := fun s hs => by
    rw [List.mem_singleton.1 hs]
    exact hle

end

/-- What is shaped is a part. -/
theorem Shaped.part {g : Gen} {emits : Bool} {after : Nat → Nat} {slots : Nat → List Slot} (h : Shaped g emits after slots)
    (p : Place) (k : Nat) (hs : ∀ o, Below p o → S o) : Part S (g p k).code k (slots k) :=
  ⟨h.ne p k, (h.owned p k).mono hs, h.writes p k, h.slots_le k⟩

/-- A value that is in a result variable. -/
theorem shaped_result {t : SemType} {code : Place → Nat → Code} {slots : Nat → List Slot} (hskip : ∀ p k, code p k ≠ .skip)
    (hpart : ∀ p k, Part (Below p) (code p k) k (slots k)) :
    Shaped (fun p k => ⟨code p k, .ref (.scratch t k) (some p), k + 1⟩) true (· + 1) slots where
  level := fun _ _ => rfl
  ne := fun p k => (hpart p k).ne
  emits := fun p k => by simpa using hskip p k
  owned := fun p k => (hpart p k).owned
  writes := fun p k => (hpart p k).writes
  uses := fun p k u hu => by
    rw [List.mem_singleton.1 hu]
    exact ⟨t, k, rfl, Nat.le_refl k, Nat.lt_succ_self k⟩
  le := fun k => Nat.le_succ k
  slots_le := fun k => (hpart [] k).slots_le

/-- A shape one level higher. -/
theorem Shaped.shift {g : Gen} {emits : Bool} {after : Nat → Nat} {slots : Nat → List Slot} (h : Shaped g emits after slots) :
    Shaped (fun p k => g p (k + 1)) emits (fun k => after (k + 1)) fun k => slots (k + 1) where
  level := fun p k => h.level p (k + 1)
  ne := fun p k => h.ne p (k + 1)
  emits := fun p k => h.emits p (k + 1)
  owned := fun p k => h.owned p (k + 1)
  writes := fun p k => h.writes p (k + 1)
  uses := fun p k u hu => by
    obtain ⟨t, j, hv, hk, hj⟩ := h.uses p (k + 1) u hu
    exact ⟨t, j, hv, Nat.le_of_succ_le hk, hj⟩
  le := fun k => Nat.le_of_succ_le (h.le (k + 1))
  slots_le := fun k s hs => Nat.le_of_succ_le (h.slots_le (k + 1) s hs)

/-- Without a target the result is a scratch variable. -/
theorem resultVar_none (t : SemType) (level : Nat) : resultVar none t level = .scratch t level := rfl

/-! ## Operators -/

/-- The statement form of AND and OR. -/
def andOrCode (result : Var) (l r : Gen) (place : Place) (level : Nat) : Code :=
  let left := l (1 :: place) (level + 1)
  let right := r (2 :: place) left.level
  let temp := Var.scratch semTypeBool right.level
  let owner := 0 :: place
  let short := Code.one (.write result place)
  let long := (right.code.seq (.one (.read ((temp, owner) :: right.text.uses)))).seq (.one (.write result place))
  ((left.code.seq (cgLuaStore temp owner left.text)).seq (.one (.read [(temp, owner)]))).seq (short.choice long)

section

variable {l r : Gen} {emits emits' : Bool} {after after' : Nat → Nat} {slots slots' : Nat → List Slot}

/-- The statements of AND and OR. -/
theorem part_andOrCode (hl : Shaped l emits after slots) (hr : Shaped r emits' after' slots') (t : SemType) (p : Place) (k : Nat) :
    Part (Below p) (andOrCode (.scratch t k) l r p k) k
      (slots (k + 1) ++ slots' (after (k + 1)) ++ [(t, k), (semTypeBool, after' (after (k + 1)))]) := by
  have hk : k ≤ after (k + 1) := Nat.le_of_succ_le (hl.le (k + 1))
  have hlevel := hl.level (1 :: p) (k + 1)
  have htemp := hr.level (2 :: p) (after (k + 1))
  have hleft : Part (Below p) (l (1 :: p) (k + 1)).code k (slots (k + 1)) :=
    (hl.part _ _ fun _ => below_cons).lower (Nat.le_succ k)
  have hright : Part (Below p) (r (2 :: p) (after (k + 1))).code k (slots' (after (k + 1))) :=
    (hr.part _ _ fun _ => below_cons).lower hk
  unfold andOrCode
  simp only [hlevel, htemp]
  refine (((hleft.seq (part_storeScratch semTypeBool _ (Nat.le_trans hk (hr.le _)) (below_child 0 p))).seq (part_read _ _ k)).seq
    ((part_writeScratch t (Nat.le_refl k) (below_self p)).choice ((hright.seq (part_read _ _ k)).seq
      (part_write _ k (below_self p))))).weaken (Nat.le_refl k) fun s hs => ?_
  simp only [List.mem_append, List.mem_cons, List.not_mem_nil, or_false] at hs ⊢
  tauto

/-- The shape of AND and OR. -/
theorem shaped_andOr (hl : Shaped l emits after slots) (hr : Shaped r emits' after' slots') (t : SemType) (bothNull : Bool) :
    Shaped (cgLuaExprAndOr none t bothNull l r) (!bothNull && (emits || emits'))
      (fun k => if bothNull then k else if emits' then k + 1 else after' (after (k + 1)))
      fun k => if bothNull then []
        else slots (k + 1) ++ slots' (after (k + 1)) ++ if emits' then [(t, k), (semTypeBool, after' (after (k + 1)))] else [] := by
  rcases bothNull with _ | _
  · rcases emits' with _ | _
    · -- the right operand has no statements, and the value is a text
      have heq : cgLuaExprAndOr none t false l r = fun p k => operands l r (fun x y => .other (x.uses ++ y.uses)) p (k + 1) := by
        funext p k
        have hskip := (hr.emits (2 :: p) (l (1 :: p) (k + 1)).level).2 rfl
        simp only [cgLuaExprAndOr, operands, hskip, Bool.false_eq_true, if_false, if_true, Code.seq_skip]
      rw [heq]
      have hops := (shaped_operands hl hr (fun x y => .other (x.uses ++ y.uses)) fun _ _ _ h => h).shift
      simpa using hops
    · have heq : cgLuaExprAndOr none t false l r = fun p k =>
          ⟨andOrCode (.scratch t k) l r p k, .ref (.scratch t k) (some p), k + 1⟩ := by
        funext p k
        have hskip : ¬(r (2 :: p) (l (1 :: p) (k + 1)).level).code = .skip := by
          rw [hr.emits]
          exact Bool.true_eq_false.mp
        simp only [cgLuaExprAndOr, hskip, Bool.false_eq_true, if_false, resultVar_none]
        rfl
      rw [heq]
      have hskip : ∀ p k, andOrCode (.scratch t k) l r p k ≠ .skip :=
        fun p k => seq_ne_skip_left (seq_ne_skip_right (Code.one_ne_skip _))
      simpa using shaped_result hskip (part_andOrCode hl hr t)
  · exact shaped_plain (x := .nil) rfl

/-- The list of `IN`, as part of the code. -/
def ListShaped (list : Use → Use → Place → Nat → Code) (slots : Nat → List Slot) : Prop :=
  ∀ {S : Place → Prop} (temp result : Use) (p : Place) (k : Nat), (∀ o, Below p o → S o) → S result.2 → Part S (list temp result p k) k (slots k)

/-- The shape of IN. -/
theorem shaped_inPred (he : Shaped l emits after slots) {list : Use → Use → Place → Nat → Code} (hlist : ListShaped list slots')
    (t te : SemType) : Shaped (cgLuaExprInPredOrNotIn t te l list) (decide (te.core ≠ .null)) (fun k => if te.core = .null then k else k + 1)
      fun k => if te.core = .null then [] else (t, k) :: (te, after (k + 1)) :: (slots (k + 1) ++ slots' (after (k + 1) + 1)) := by
  by_cases hnull : te.core = .null
  · have heq : cgLuaExprInPredOrNotIn t te l list = fun _ k => ⟨.skip, .nil, k⟩ := by
      funext p k
      exact if_pos hnull
    simp only [heq, hnull, ne_eq, not_true_eq_false, decide_false, if_true]
    exact shaped_plain rfl
  · have heq : cgLuaExprInPredOrNotIn t te l list = fun p k =>
        ⟨(cgLuaExprInPredOrNotIn t te l list p k).code, .ref (.scratch t k) (some p), k + 1⟩ := by
      funext p k
      simp only [cgLuaExprInPredOrNotIn, hnull, if_false]
    simp only [hnull, ne_eq, not_false_eq_true, decide_true, if_false]
    rw [heq]
    refine shaped_result (fun p k => ?_) fun p k => ?_
    · simp only [cgLuaExprInPredOrNotIn, hnull, if_false]
      exact seq_ne_skip_left (seq_ne_skip_right (cgLuaStore_ne_skip _ _ _))
    · have hk : k ≤ after (k + 1) := Nat.le_of_succ_le (he.le (k + 1))
      have hlevel := he.level (1 :: p) (k + 1)
      have hvalue : Part (Below p) (l (1 :: p) (k + 1)).code k (slots (k + 1)) :=
        (he.part _ _ fun _ => below_cons).lower (Nat.le_succ k)
      have htests : Part (Below p) (list (.scratch te (after (k + 1)), 0 :: p) (.scratch t k, p) (2 :: p) (after (k + 1) + 1)) k
          (slots' (after (k + 1) + 1)) :=
        (hlist _ _ _ _ (fun _ => below_cons) (below_self p)).lower (Nat.le_succ_of_le hk)
      have hwrite := part_writeScratch t (Nat.le_refl k) (below_self p)
      have hfirst := hvalue.seq (part_storeScratch te (l (1 :: p) (k + 1)).text hk (below_child 0 p))
      simp only [cgLuaExprInPredOrNotIn, hnull, if_false, hlevel]
      rcases te.notnull with _ | _
      · refine (hfirst.seq ((part_read _ _ k).seq (hwrite.choice (hwrite.seq htests)))).weaken (Nat.le_refl k) fun s hs => ?_
        simp only [List.mem_append, List.mem_cons, List.not_mem_nil, or_false] at hs ⊢
        tauto
      · refine (hfirst.seq (hwrite.seq htests)).weaken (Nat.le_refl k) fun s hs => ?_
        simp only [List.mem_append, List.mem_cons, List.not_mem_nil, or_false] at hs ⊢
        tauto

/-- What CASE does when no case is taken. -/
def otherwiseCode (result : Var) (els : Option Gen) (place : Place) (level : Nat) : Code :=
  match els with
  | none => .one (.write result place)
  | some e =>
    let value := e (3 :: place) (level + 1)
    value.code.seq (cgLuaStore result place value.text)

/-- The list of cases, as part of the code. -/
def CasesShaped (cases : List Use → Use → Code → Place → Nat → Code) (slots : Nat → List Slot) : Prop :=
  ∀ {S : Place → Prop} {otherwise : Code} {m : Nat} {others : List Slot} (temp : List Use) (result : Use) (p : Place) (k : Nat),
    (∀ o, Below p o → S o) → S result.2 → m ≤ k → Part S otherwise m others → Part S (cases temp result otherwise p k) m (slots k ++ others)

/-- Without ELSE, no other variables are set. -/
def noSlots : Nat → List Slot := fun _ => []

/-- Without an ELSE a CASE stores `nil`. -/
theorem part_otherwise_none (t : SemType) (p : Place) (k : Nat) :
    Part (Below p) (otherwiseCode (.scratch t k) none p k) k ((t, k) :: noSlots (k + 1)) :=
  part_writeScratch t (Nat.le_refl k) (below_self p)

/-- The statements of an ELSE. -/
theorem part_otherwise_some (he : Shaped l emits after slots) (t : SemType) (p : Place) (k : Nat) :
    Part (Below p) (otherwiseCode (.scratch t k) (some l) p k) k ((t, k) :: slots (k + 1)) := by
  have hvalue : Part (Below p) (l (3 :: p) (k + 1)).code k (slots (k + 1)) :=
    (he.part _ _ fun _ => below_cons).lower (Nat.le_succ k)
  refine (hvalue.seq (part_storeScratch t (l (3 :: p) (k + 1)).text (Nat.le_refl k) (below_self p))).weaken (Nat.le_refl k) fun s hs => ?_
  simp only [List.mem_append, List.mem_cons, List.not_mem_nil, or_false] at hs ⊢
  exact hs.symm

/-- An ELSE does something. -/
theorem otherwise_ne_skip (result : Var) (els : Option Gen) (p : Place) (k : Nat) : otherwiseCode result els p k ≠ .skip := by
  rcases els with _ | e
  · exact Code.one_ne_skip _
  · exact seq_ne_skip_right (cgLuaStore_ne_skip _ _ _)

/-- The shape of a CASE without an operand. -/
theorem shaped_caseWhen {cases : List Use → Use → Code → Place → Nat → Code} (hcases : CasesShaped cases slots) (t : SemType)
    {els : Option Gen} (hels : ∀ p k, Part (Below p) (otherwiseCode (.scratch t k) els p k) k ((t, k) :: slots' (k + 1)))
    (hskip : ∀ temp result otherwise p k, otherwise ≠ Code.skip → cases temp result otherwise p k ≠ .skip) :
    Shaped (cgLuaExprCase none t none cases els) true (· + 1) fun k => (t, k) :: (slots (k + 1) ++ slots' (k + 1)) := by
  have heq : cgLuaExprCase none t none cases els = fun p k =>
      ⟨cases [] (.scratch t k, p) (otherwiseCode (.scratch t k) els p k) (2 :: p) (k + 1), .ref (.scratch t k) (some p), k + 1⟩ := rfl
  rw [heq]
  refine shaped_result (fun p k => hskip _ _ _ _ _ (otherwise_ne_skip _ _ p k)) fun p k => ?_
  refine (hcases [] _ _ _ (fun _ => below_cons) (below_self p) (Nat.le_succ k) (hels p k)).weaken (Nat.le_refl k) fun s hs => ?_
  simp only [List.mem_append, List.mem_cons] at hs ⊢
  tauto

/-- The shape of a CASE with an operand. -/
theorem shaped_caseOf (he : Shaped l emits after slots) {cases : List Use → Use → Code → Place → Nat → Code}
    {casesSlots : Nat → List Slot} (hcases : CasesShaped cases casesSlots) (t te : SemType) {els : Option Gen}
    (hels : ∀ p k, Part (Below p) (otherwiseCode (.scratch t k) els p k) k ((t, k) :: slots' (k + 1))) :
    Shaped (cgLuaExprCase none t (some (te, l)) cases els) true (· + 1) fun k =>
      (t, k) :: (te, k + 1) :: (slots (k + 2) ++ casesSlots (k + 2) ++ slots' (k + 1)) := by
  have heq : cgLuaExprCase none t (some (te, l)) cases els = fun p k =>
      ⟨(cgLuaExprCase none t (some (te, l)) cases els p k).code, .ref (.scratch t k) (some p), k + 1⟩ := rfl
  rw [heq]
  refine shaped_result (fun p k => seq_ne_skip_left (seq_ne_skip_right (cgLuaStore_ne_skip _ _ _))) fun p k => ?_
  have hvalue : Part (Below p) (l (1 :: p) (k + 2)).code k (slots (k + 2)) :=
    (he.part _ _ fun _ => below_cons).lower (Nat.le_add_right k 2)
  have hfirst := hvalue.seq (part_storeScratch te (l (1 :: p) (k + 2)).text (Nat.le_succ k) (below_child 0 p))
  have htests := hcases [(.scratch te (k + 1), 0 :: p)] (.scratch t k, p) (2 :: p) (k + 2) (fun _ => below_cons) (below_self p)
    (Nat.le_add_right k 2) (hels p k)
  have hcode : (cgLuaExprCase none t (some (te, l)) cases els p k).code =
      ((l (1 :: p) (k + 2)).code.seq (cgLuaStore (.scratch te (k + 1)) (0 :: p) (l (1 :: p) (k + 2)).text)).seq (if te.notnull then
          cases [(.scratch te (k + 1), 0 :: p)] (.scratch t k, p) (otherwiseCode (.scratch t k) els p k) (2 :: p) (k + 2)
        else (Code.one (.read [(.scratch te (k + 1), 0 :: p)])).seq ((otherwiseCode (.scratch t k) els p k).choice
          (cases [(.scratch te (k + 1), 0 :: p)] (.scratch t k, p) (otherwiseCode (.scratch t k) els p k) (2 :: p) (k + 2)))) := rfl
  rw [hcode]
  rcases te.notnull with _ | _
  · refine (hfirst.seq ((part_read _ _ k).seq ((hels p k).choice htests))).weaken (Nat.le_refl k) fun s hs => ?_
    simp only [List.mem_append, List.mem_cons, List.not_mem_nil, or_false] at hs ⊢
    tauto
  · refine (hfirst.seq htests).weaken (Nat.le_refl k) fun s hs => ?_
    simp only [List.mem_append, List.mem_cons, List.not_mem_nil, or_false] at hs ⊢
    tauto

/-- The arguments of COALESCE before the last one, as part of the code. -/
def AlternativesShaped (args : Use → (Place → Nat → Code) → Place → Nat → Code) (after : Nat → Nat) (slots : Nat → List Slot) : Prop :=
  (∀ k, k ≤ after k) ∧ ∀ {S : Place → Prop} {last : Place → Nat → Code} {m : Nat} {others : List Slot} (result : Use) (p : Place) (k : Nat),
      (∀ o, Below p o → S o) → S result.2 → m ≤ k → (∀ p', Below p p' → Part S (last p' (after k)) m others) →
        Part S (args result last p k) m (slots k ++ others)

/-- The shape of COALESCE. -/
theorem shaped_coalesce {args : Use → (Place → Nat → Code) → Place → Nat → Code} (hargs : AlternativesShaped args after' slots')
    (hl : Shaped l emits after slots) (t : SemType)
    (hskip : ∀ result last p k, (∀ p k, last p k ≠ Code.skip) → args result last p k ≠ .skip) :
    Shaped (cgLuaFuncCoalesce none t args l) true (· + 1) fun k =>
      (t, k) :: (slots' (k + 1) ++ slots (after' (k + 1))) := by
  have heq : cgLuaFuncCoalesce none t args l = fun p k =>
      ⟨args (.scratch t k, p) (fun p' k' => (l (1 :: p') k').code.seq (cgLuaStore (.scratch t k) p (l (1 :: p') k').text)) (1 :: p)
        (k + 1), .ref (.scratch t k) (some p), k + 1⟩ := rfl
  rw [heq]
  refine shaped_result (fun p k => hskip _ _ _ _ fun _ _ => seq_ne_skip_right (cgLuaStore_ne_skip _ _ _)) fun p k => ?_
  have hk : k ≤ after' (k + 1) := Nat.le_of_succ_le (hargs.1 (k + 1))
  have hlast : ∀ p', Below (1 :: p) p' → Part (Below p) ((l (1 :: p') (after' (k + 1))).code.seq
      (cgLuaStore (.scratch t k) p (l (1 :: p') (after' (k + 1))).text)) k (slots (after' (k + 1)) ++ [(t, k)]) := by
    intro p' hp'
    have hvalue : Part (Below p) (l (1 :: p') (after' (k + 1))).code k (slots (after' (k + 1))) :=
      (hl.part _ _ fun o ho => below_cons (hp'.trans (below_cons ho))).lower hk
    exact hvalue.seq (part_storeScratch t _ (Nat.le_refl k) (below_self p))
  refine (hargs.2 _ _ _ (fun _ => below_cons) (below_self p) (Nat.le_succ k) hlast).weaken (Nat.le_refl k) fun s hs => ?_
  simp only [List.mem_append, List.mem_cons, List.not_mem_nil, or_false] at hs ⊢
  tauto

/-- Code for fragments, as part of the code. -/
def FragsShaped (frags : Place → Nat → Code × Nat) (slots : Nat → List Slot) : Prop :=
  ∀ {S : Place → Prop} (p : Place) (k : Nat), (∀ o, Below p o → S o) → Part S (frags p k).1 k (slots k)

/-- The shape of a nested select. -/
theorem shaped_select {frags : Place → Nat → Code × Nat} (hfrags : FragsShaped frags slots) (t : SemType) :
    Shaped (cgLuaExprSelect none t frags) true (· + 1) fun k => (t, k) :: slots (k + 1) := by
  have heq : cgLuaExprSelect none t frags = fun p k =>
      ⟨(frags (1 :: p) (k + 1)).1.seq (.one (.write (.scratch t k) p)), .ref (.scratch t k) (some p), k + 1⟩ := rfl
  rw [heq]
  refine shaped_result (fun p k => seq_ne_skip_right (Code.one_ne_skip _)) fun p k => ?_
  refine (((hfrags (1 :: p) (k + 1) fun _ => below_cons).lower (Nat.le_succ k)).seq
    (part_writeScratch t (Nat.le_refl k) (below_self p))).weaken (Nat.le_refl k) fun s hs => ?_
  simp only [List.mem_append, List.mem_cons, List.not_mem_nil, or_false] at hs ⊢
  exact hs.symm

/-- The shape of a nested select with IF NOTHING. -/
theorem shaped_selectIfNothing {frags : Place → Nat → Code × Nat} (hfrags : FragsShaped frags slots')
    (hd : Shaped l emits after slots) (t ts : SemType) (kind : IfNothing) :
    Shaped (cgLuaExprSelectIfNothing none t ts kind frags l) true (· + 1) fun k =>
      (t, k) :: (ts, k + 1) :: (slots' (k + 2) ++ match kind with
        | .orNullThrow => []
        | _ => slots (k + 2)) := by
  have heq : cgLuaExprSelectIfNothing none t ts kind frags l = fun p k =>
      ⟨(cgLuaExprSelectIfNothing none t ts kind frags l p k).code, .ref (.scratch t k) (some p), k + 1⟩ := rfl
  rw [heq]
  have hk (k : Nat) : k ≤ k + 2 := Nat.le_add_right k 2
  have hdefault (p : Place) (k : Nat) : Part (Below p) (l (2 :: p) (k + 2)).code k (slots (k + 2)) :=
    (hd.part _ _ fun _ => below_cons).lower (hk k)
  have hbefore (p : Place) (k : Nat) : Part (Below p) (frags (1 :: p) (k + 2)).1 k (slots' (k + 2)) :=
    (hfrags (1 :: p) (k + 2) fun _ => below_cons).lower (hk k)
  have hfetch (p : Place) (k : Nat) : Part (Below p) (.one (.write (.scratch ts (k + 1)) (0 :: p))) k [(ts, k + 1)] :=
    part_writeScratch ts (Nat.le_succ k) (below_child 0 p)
  have hstore (x : Text) (p : Place) (k : Nat) : Part (Below p) (cgLuaStore (.scratch t k) p x) k [(t, k)] :=
    part_storeScratch t x (Nat.le_refl k) (below_self p)
  rcases kind with _ | _ | _
  · refine shaped_result (fun p k => seq_ne_skip_right (Code.choice_ne_skip ?_ ?_)) fun p k => ?_
    · exact Code.seq_ne_nil (Code.one_ne_nil _) (cgLuaStore_ne _ _ _)
    · exact Code.seq_ne_nil (hd.ne _ _) (cgLuaStore_ne _ _ _)
    · refine ((hbefore p k).seq (((hfetch p k).seq (hstore _ p k)).choice ((hdefault p k).seq (hstore _ p k)))).weaken
        (Nat.le_refl k) fun s hs => ?_
      simp only [List.mem_append, List.mem_cons, List.not_mem_nil, or_false] at hs ⊢
      tauto
  · refine shaped_result (fun p k => seq_ne_skip_right (Code.choice_ne_skip ?_ ?_)) fun p k => ?_
    · exact Code.seq_ne_nil (Code.seq_ne_nil (Code.one_ne_nil _) (Code.one_ne_nil _))
        (Code.choice_ne_nil (Code.seq_ne_nil (hd.ne _ _) (cgLuaStore_ne _ _ _)))
    · exact Code.seq_ne_nil (hd.ne _ _) (cgLuaStore_ne _ _ _)
    · refine ((hbefore p k).seq ((((hfetch p k).seq (part_read _ _ k)).seq (((hdefault p k).seq (hstore _ p k)).choice
        (hstore _ p k))).choice ((hdefault p k).seq (hstore _ p k)))).weaken (Nat.le_refl k) fun s hs => ?_
      simp only [List.mem_append, List.mem_cons, List.not_mem_nil, or_false] at hs ⊢
      tauto
  · refine shaped_result (fun p k => seq_ne_skip_right (seq_ne_skip_right (cgLuaStore_ne_skip _ _ _))) fun p k => ?_
    refine ((hbefore p k).seq (((hfetch p k).seq (part_read _ _ k)).seq (hstore _ p k))).weaken (Nat.le_refl k) fun s hs => ?_
    simp only [List.mem_append, List.mem_cons, List.not_mem_nil, or_false] at hs ⊢
    tauto

/-- A call sets OUT arguments and then the result. -/
theorem part_sets (outs : List String) (t : SemType) {p : Place} (k : Nat) (ho : S o) (hp : S p) :
    Part S (outs.foldr (fun name code => (Code.one (.write (.user name) o)).seq code) (.one (.write (.scratch t k) p))) k [(t, k)] := by
  induction outs with
  | nil => exact part_writeScratch t (Nat.le_refl k) hp
  | cons name outs ih =>
    rw [List.foldr_cons]
    exact ((part_write _ k ho).seq ih).weaken (Nat.le_refl k) fun s hs => hs

/-- The shape of a call. -/
theorem shaped_call (hargs : Shaped l emits after slots) (t : SemType) (outs : List String) :
    Shaped (cgLuaUserFunc none t l outs) true (· + 1) fun k => (t, k) :: slots (k + 1) := by
  have heq : cgLuaUserFunc none t l outs = fun p k =>
      ⟨(cgLuaUserFunc none t l outs p k).code, .ref (.scratch t k) (some p), k + 1⟩ := rfl
  rw [heq]
  refine shaped_result (fun p k => seq_ne_skip_left (seq_ne_skip_right (Code.one_ne_skip _))) fun p k => ?_
  have hvalue : Part (Below p) (l (1 :: p) (k + 1)).code k (slots (k + 1)) :=
    (hargs.part _ _ fun _ => below_cons).lower (Nat.le_succ k)
  refine ((hvalue.seq (part_read _ _ k)).seq (part_sets outs t k (below_child 0 p) (below_self p))).weaken (Nat.le_refl k) fun s hs => ?_
  simp only [List.mem_append, List.mem_cons, List.not_mem_nil, or_false] at hs ⊢
  exact hs.symm

/-- The shape of BETWEEN. -/
theorem shaped_between (he : Shaped l emits after slots) (ht : Shaped r emits' after' slots') (isNull : Bool) (name : String) :
    Shaped (cgLuaExprBetweenRewrite isNull name l r) (!isNull) (fun k => if isNull then k else after' (after k))
      fun k => if isNull then [] else slots k ++ slots' (after k) := by
  rcases isNull with _ | _
  · have hpart : ∀ p k, Part (Below p) (cgLuaExprBetweenRewrite false name l r p k).code k (slots k ++ slots' (after k)) := by
      intro p k
      have hlevel := he.level (1 :: p) k
      have hvalue : Part (Below p) (l (1 :: p) k).code k (slots k) := he.part _ _ fun _ => below_cons
      have htest : Part (Below p) (r (2 :: p) (after k)).code k (slots' (after k)) :=
        (ht.part _ _ fun _ => below_cons).lower (he.le k)
      simp only [cgLuaExprBetweenRewrite, Bool.false_eq_true, if_false, hlevel]
      refine (((hvalue.seq (part_read _ _ k)).seq (part_write _ k (below_child 0 p))).seq htest).weaken (Nat.le_refl k) fun s hs => ?_
      simp only [List.append_nil]
      exact hs
    exact {
      level := fun p k => by
        simp only [cgLuaExprBetweenRewrite, Bool.false_eq_true, if_false]
        rw [ht.level, he.level]
      ne := fun p k => (hpart p k).ne
      emits := fun p k => by
        simp only [Bool.not_false, Bool.true_eq_false, iff_false]
        exact seq_ne_skip_left (seq_ne_skip_right (Code.one_ne_skip _))
      owned := fun p k => (hpart p k).owned
      writes := fun p k => (hpart p k).writes
      uses := fun p k u hu => by
        simp only [cgLuaExprBetweenRewrite, Bool.false_eq_true, if_false] at hu
        rw [he.level] at hu
        obtain ⟨t, j, hv, hk, hj⟩ := ht.uses _ _ u hu
        exact ⟨t, j, hv, Nat.le_trans (he.le k) hk, hj⟩
      le := fun k => Nat.le_trans (he.le k) (ht.le _)
      slots_le := fun k => (hpart [] k).slots_le }
  · exact shaped_plain (x := .nil) rfl

end

/-! ## Expressions -/

/-- The literal NULL is the only one that is null. -/
theorem eq_null_of_isNull {e : Expr} (h : e.isNull = true) : e = .null := by
  unfold Expr.isNull at h
  split at h
  · rfl
  · nomatch h

/-- The WHENs of a CASE do something where its ELSE does. -/
theorem caseList_ne_skip (whens : Whens) (temp : List Use) (result : Use) (otherwise : Code) (p : Place) (k : Nat)
    (h : otherwise ≠ .skip) : whens.caseList temp result otherwise p k ≠ .skip := by
  rcases whens with _ | ⟨c, e, rest⟩
  · rw [Whens.caseList]
    exact h
  · rw [Whens.caseList]
    exact seq_ne_skip_left (seq_ne_skip_right (Code.one_ne_skip _))

/-- The arguments of COALESCE do something where the last one does. -/
theorem alternatives_ne_skip (args : Exprs) (result : Use) (last : Place → Nat → Code) (p : Place) (k : Nat)
    (h : ∀ p k, last p k ≠ .skip) : args.alternatives result last p k ≠ .skip := by
  rcases args with _ | ⟨e, rest⟩
  · rw [Exprs.alternatives]
    exact h p k
  · rw [Exprs.alternatives]
    exact seq_ne_skip_left (seq_ne_skip_right (Code.one_ne_skip _))

mutual

/-- An expression has its shape. -/
theorem Expr.shaped : ∀ e : Expr, Shaped (e.gen none) e.emits e.after e.slots
  | .null => shaped_plain (x := .nil) rfl
  | .literal => shaped_plain (x := .other []) rfl
  | .name x => shaped_plain (x := .ref (.user x) none) rfl
  | .unary op t e => shaped_unary (Expr.shaped e) op t
  | .binary true l r => shaped_plain (x := .nil) rfl
  | .binary false l r => by
    have h := shaped_operands (Expr.shaped l) (Expr.shaped r)
      (fun x y => if x.isNil ∨ y.isNil then .nil else .other (x.uses ++ y.uses)) fun x y u hu => by
        split at hu
        · exact absurd hu List.not_mem_nil
        · exact hu
    exact h
  | .isOrIsNot l r => shaped_operands (Expr.shaped l) (Expr.shaped r) (fun x y => .other (x.uses ++ y.uses)) fun _ _ _ hu => hu
  | .andOr t l r => shaped_andOr (Expr.shaped l) (Expr.shaped r) t _
  | .inPred t te e items => shaped_inPred (Expr.shaped e) (Exprs.inList_shaped items) t te
  | .caseWhen t whens => by
    have h := shaped_caseWhen (Whens.caseList_shaped whens) t (part_otherwise_none t) (caseList_ne_skip whens)
    simp only [noSlots, List.append_nil] at h
    exact h
  | .caseWhenElse t whens els =>
    shaped_caseWhen (Whens.caseList_shaped whens) t (part_otherwise_some (Expr.shaped els) t) (caseList_ne_skip whens)
  | .caseOf t te e whens => by
    have h := shaped_caseOf (Expr.shaped e) (Whens.caseList_shaped whens) t te (part_otherwise_none t)
    simp only [noSlots, List.append_nil] at h
    exact h
  | .caseOfElse t te e whens els =>
    shaped_caseOf (Expr.shaped e) (Whens.caseList_shaped whens) t te (part_otherwise_some (Expr.shaped els) t)
  | .coalesce t args last =>
    shaped_coalesce (Exprs.alternatives_shaped args) (Expr.shaped last) t (alternatives_ne_skip args)
  | .select t frags => shaped_select (Frags.gen_shaped frags).1 t
  | .selectIfNothingThrow t frags => shaped_select (Frags.gen_shaped frags).1 t
  | .selectIfNothing t ts kind frags default => shaped_selectIfNothing (Frags.gen_shaped frags).1 (Expr.shaped default) t ts kind
  | .call t args outs => by
    obtain ⟨emits, h⟩ := Exprs.args_shaped args
    exact shaped_call h t outs
  | .between name e test => shaped_between (Expr.shaped e) (Expr.shaped test) e.isNull name

/-- So have the items of IN. -/
theorem Exprs.inList_shaped : ∀ items : Exprs, ListShaped items.inList items.itemSlots
  | .nil => fun temp result p k hp hr => part_write result.1 k hr
  | .cons e rest => fun temp result p k hp hr => by
    have hrest := Exprs.inList_shaped rest temp result (2 :: p) k (fun o ho => hp o (below_cons ho)) hr
    have he := (Expr.shaped e).part (1 :: p) k fun o ho => hp o (below_cons ho)
    rw [Exprs.inList, Exprs.itemSlots]
    rcases hnull : e.isNull with _ | _
    · simp only [Bool.false_eq_true, if_false]
      refine ((he.seq (part_read _ _ k)).seq ((part_skip _ k).choice hrest)).weaken (Nat.le_refl k) fun s hs => ?_
      simpa using hs
    · rw [eq_null_of_isNull hnull]
      exact hrest

/-- So have the arguments of COALESCE. -/
theorem Exprs.alternatives_shaped : ∀ args : Exprs, AlternativesShaped args.alternatives args.after args.slots
  | .nil => ⟨fun k => Nat.le_refl k, fun result p k hp hr hm hlast => hlast p (below_self p)⟩
  | .cons e rest => by
    obtain ⟨hle, hrest⟩ := Exprs.alternatives_shaped rest
    have he := Expr.shaped e
    refine ⟨fun k => Nat.le_trans (he.le k) (hle _), fun {S last m others} result p k hp hr hm hlast => ?_⟩
    have hvalue : Part S (e.gen none (1 :: p) k).code m (e.slots k) :=
      (he.part (1 :: p) k fun o ho => hp o (below_cons ho)).lower hm
    have hothers := hrest result (2 :: p) (e.after k) (fun o ho => hp o (below_cons ho)) hr (Nat.le_trans hm (he.le k))
      fun p' hp' => hlast p' (below_cons hp')
    rw [Exprs.alternatives, Exprs.slots]
    simp only [he.level]
    refine ((hvalue.seq (part_read _ _ m)).seq ((part_store _ _ m hr).choice hothers)).weaken (Nat.le_refl m) fun s hs => ?_
    simpa using hs

/-- So have the arguments of a call. -/
theorem Exprs.args_shaped : ∀ args : Exprs, ∃ emits, Shaped args.args emits args.after args.slots
  | .nil => ⟨false, shaped_plain (x := .other []) rfl⟩
  | .cons e rest => by
    obtain ⟨emits, hrest⟩ := Exprs.args_shaped rest
    exact ⟨_, shaped_operands (Expr.shaped e) hrest (fun x y => .other (x.uses ++ y.uses)) fun _ _ _ hu => hu⟩

/-- So have the WHENs of a CASE. -/
theorem Whens.caseList_shaped : ∀ whens : Whens, CasesShaped whens.caseList whens.slots
  | .nil => fun temp result p k hp hr hm hother => hother
  | .cons c e rest => by
    intro temp result p k hp hr hm hother
    rename_i S otherwise m others
    have hrest := Whens.caseList_shaped rest temp result (3 :: p) k (fun o ho => hp o (below_cons ho)) hr hm hother
    have htest : Part S (c.gen none (1 :: p) k).code m (c.slots k) :=
      ((Expr.shaped c).part (1 :: p) k fun o ho => hp o (below_cons ho)).lower hm
    have hvalue : Part S (e.gen none (2 :: p) k).code m (e.slots k) :=
      ((Expr.shaped e).part (2 :: p) k fun o ho => hp o (below_cons ho)).lower hm
    rw [Whens.caseList, Whens.slots]
    refine ((htest.seq (part_read _ _ m)).seq ((hvalue.seq (part_store _ _ m hr)).choice hrest)).weaken (Nat.le_refl m) fun s hs => ?_
    simpa [or_assoc] using hs

/-- So have the fragments of a nested select. -/
theorem Frags.gen_shaped : ∀ frags : Frags,
    FragsShaped frags.gen frags.slots ∧ (∀ p k, (frags.gen p k).2 = frags.after k) ∧ ∀ k, k ≤ frags.after k
  | .nil => ⟨fun p k hp => part_skip _ k, fun p k => rfl, fun k => Nat.le_refl k⟩
  | .arg aliasName e rest => by
    obtain ⟨hrest, hlevel, hle⟩ := Frags.gen_shaped rest
    have he := Expr.shaped e
    refine ⟨fun {S} p k hp => ?_, fun p k => ?_, fun k => Nat.le_trans (he.le k) (hle _)⟩
    · have hvalue := he.part (1 :: p) k fun o ho => hp o (below_cons ho)
      have hothers : Part S (rest.gen (2 :: p) (e.after k)).1 k (rest.slots (e.after k)) :=
        (hrest (2 :: p) (e.after k) fun o ho => hp o (below_cons ho)).lower (he.le k)
      rw [Frags.gen, Frags.slots]
      simp only [he.level]
      refine (((hvalue.seq (part_read _ _ k)).seq (part_write _ k (hp _ (below_child 0 p)))).seq hothers).weaken (Nat.le_refl k) fun s hs => ?_
      simpa using hs
    · simp only [Frags.gen, Frags.after, he.level, hlevel]
  | .ite c thn els rest => by
    obtain ⟨hthn, hthnLevel, hthnLe⟩ := Frags.gen_shaped thn
    obtain ⟨hels, helsLevel, helsLe⟩ := Frags.gen_shaped els
    obtain ⟨hrest, hlevel, hle⟩ := Frags.gen_shaped rest
    have hc := Expr.shaped c
    have hle2 (k : Nat) : k ≤ thn.after (c.after k) := Nat.le_trans (hc.le k) (hthnLe _)
    have hle3 (k : Nat) : k ≤ els.after (thn.after (c.after k)) := Nat.le_trans (hle2 k) (helsLe _)
    refine ⟨fun {S} p k hp => ?_, fun p k => ?_, fun k => Nat.le_trans (hle3 k) (hle _)⟩
    · have htest := hc.part (1 :: p) k fun o ho => hp o (below_cons ho)
      have hfirst : Part S (thn.gen (2 :: p) (c.after k)).1 k (thn.slots (c.after k)) :=
        (hthn (2 :: p) (c.after k) fun o ho => hp o (below_cons ho)).lower (hc.le k)
      have hsecond : Part S (els.gen (3 :: p) (thn.after (c.after k))).1 k (els.slots (thn.after (c.after k))) :=
        (hels (3 :: p) _ fun o ho => hp o (below_cons ho)).lower (hle2 k)
      have hothers : Part S (rest.gen (4 :: p) (els.after (thn.after (c.after k)))).1 k (rest.slots (els.after (thn.after (c.after k)))) :=
        (hrest (4 :: p) _ fun o ho => hp o (below_cons ho)).lower (hle3 k)
      rw [Frags.gen, Frags.slots]
      simp only [hc.level, hthnLevel, helsLevel]
      refine (((htest.seq (part_read _ _ k)).seq (hfirst.choice hsecond)).seq hothers).weaken (Nat.le_refl k) fun s hs => ?_
      simpa [or_assoc] using hs
    · simp only [Frags.gen, Frags.after, hc.level, hthnLevel, helsLevel, hlevel]

end

end TempsAux

end CgSql.LuaExpr
