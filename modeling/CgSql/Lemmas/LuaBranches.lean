import CgSql.LuaBranches

/-!
# Masks of branches

Masks have the lengths of what they select from; with the conditions as they are in Lua and in SQL, masks are the same exactly if the
conditions that decide agree.
-/

namespace CgSql.LuaFragments

namespace FragmentsAux

variable {α : Type}

/-- Lists of one length have one mask of nothing. -/
theorem map_false_of_length {α β : Type} {l : List α} {l' : List β} (h : l.length = l'.length) :
    (l.map fun _ => false) = l'.map fun _ => false := by
  rw [map_const_false, map_const_false, h]

section

variable (truth : Nat → Bool)

mutual

/-- A mask has an entry for each fragment. -/
theorem Pieces.mask_length : ∀ p : Pieces, (p.mask truth).length = p.flat.length
  | .nil => rfl
  | .char _ rest => by simp [Pieces.mask, Pieces.flat, Pieces.mask_length rest]
  | .var _ rest => by simp [Pieces.mask, Pieces.flat, Pieces.mask_length rest]
  | .inline body tail rest => by
    simp [Pieces.mask, Pieces.flat, Pieces.mask_length body, Pieces.mask_length tail, Pieces.mask_length rest]
  | .call inFrom _ body rest => by
    rcases inFrom with _ | _
    · simp [Pieces.mask, Pieces.flat, Body.mask_length body, Pieces.mask_length rest]
    · simp [Pieces.mask, Pieces.flat, Body.mask_length body, Pieces.mask_length rest]

/-- A body has an entry for each of its fragments. -/
theorem Body.mask_length : ∀ b : Body, (b.mask truth).length = b.flat.length
  | .plain _ stmt => by simp [Body.mask, Body.flat, Pieces.mask_length stmt]
  | .cond c _ stmt alt => by
    have hstmt := Pieces.mask_length stmt
    have halt := Alt.mask_length alt
    by_cases h : truth c.id = true
    · simp [Body.mask, Body.flat, h, hstmt, halt]
    · simp [Body.mask, Body.flat, h, hstmt, halt]

/-- So has an ELSE. -/
theorem Alt.mask_length : ∀ a : Alt, (a.mask truth).length = a.flat.length
  | .otherwise _ stmt => by simp [Alt.mask, Alt.flat, Pieces.mask_length stmt]
  | .elseif c _ stmt alt => by
    have hstmt := Pieces.mask_length stmt
    have halt := Alt.mask_length alt
    by_cases h : truth c.id = true
    · simp [Alt.mask, Alt.flat, h, hstmt, halt]
    · simp [Alt.mask, Alt.flat, h, hstmt, halt]

end

end

section

variable (truth : Nat → Bool)

/-- The variables of two parts stand in order. -/
theorem boundVariables_append (xs ys : List Item) : boundVariables (xs ++ ys) = boundVariables xs ++ boundVariables ys :=
  List.filterMap_append

mutual

/-- The mask of the variables has an entry for each. -/
theorem Pieces.varMask_length : ∀ p : Pieces, (p.varMask truth).length = (boundVariables p.flat).length
  | .nil => rfl
  | .char _ rest => Pieces.varMask_length rest
  | .var _ rest => congrArg (· + 1) (Pieces.varMask_length rest)
  | .inline body tail rest => by
    have hbody := Pieces.varMask_length body
    have htail := Pieces.varMask_length tail
    have hrest := Pieces.varMask_length rest
    simp only [Pieces.varMask, List.length_append, hbody, htail, hrest, Pieces.flat]
    simp [boundVariables, List.filterMap_append]
  | .call inFrom _ body rest => by
    have hbody := Body.varMask_length body
    have hrest := Pieces.varMask_length rest
    rcases inFrom with _ | _
    · simp only [Pieces.varMask, List.length_append, hbody, hrest, Pieces.flat]
      simp [boundVariables]
    · simp only [Pieces.varMask, List.length_append, hbody, hrest, Pieces.flat]
      simp [boundVariables]

/-- A body has one for each of its variables. -/
theorem Body.varMask_length : ∀ b : Body, (b.varMask truth).length = (boundVariables b.flat).length
  | .plain _ stmt => Pieces.varMask_length stmt
  | .cond c first stmt alt => by
    have hstmt := Pieces.varMask_length stmt
    have halt := Alt.varMask_length alt
    have hflat : boundVariables (Body.flat (.cond c first stmt alt)) = boundVariables stmt.flat ++ boundVariables alt.flat :=
      boundVariables_append ..
    rw [hflat, List.length_append, ← hstmt, ← halt, Body.varMask]
    split
    · simp
    · simp

/-- So has an ELSE. -/
theorem Alt.varMask_length : ∀ a : Alt, (a.varMask truth).length = (boundVariables a.flat).length
  | .otherwise _ stmt => Pieces.varMask_length stmt
  | .elseif c first stmt alt => by
    have hstmt := Pieces.varMask_length stmt
    have halt := Alt.varMask_length alt
    have hflat : boundVariables (Alt.flat (.elseif c first stmt alt)) = boundVariables stmt.flat ++ boundVariables alt.flat :=
      boundVariables_append ..
    rw [hflat, List.length_append, ← hstmt, ← halt, Alt.varMask]
    split
    · simp
    · simp

end

mutual

/-- Without variables there is nothing to mask. -/
theorem Pieces.varMask_of_hasVars : ∀ p : Pieces, p.hasVars = false → p.varMask truth = []
  | .nil, _ => rfl
  | .char _ rest, h => Pieces.varMask_of_hasVars rest h
  | .var _ _, h => absurd h.symm Bool.false_ne_true
  | .inline body tail rest, h => by
    simp only [Pieces.hasVars, Bool.or_eq_false_iff] at h
    simp [Pieces.varMask, Pieces.varMask_of_hasVars body h.1.1, Pieces.varMask_of_hasVars tail h.1.2, Pieces.varMask_of_hasVars rest h.2]
  | .call _ args body rest, h => by
    simp only [Pieces.hasVars, Bool.or_eq_false_iff] at h
    simp [Pieces.varMask, Body.varMask_of_hasVars body h.1.2, Pieces.varMask_of_hasVars rest h.2]

/-- Nor is there in a body. -/
theorem Body.varMask_of_hasVars : ∀ b : Body, b.hasVars = false → b.varMask truth = []
  | .plain _ stmt, h => Pieces.varMask_of_hasVars stmt h
  | .cond _ _ stmt alt, h => by
    simp only [Body.hasVars, Bool.or_eq_false_iff] at h
    simp [Body.varMask, Pieces.varMask_of_hasVars stmt h.1, Alt.varMask_of_hasVars alt h.2]

/-- Nor in an ELSE. -/
theorem Alt.varMask_of_hasVars : ∀ a : Alt, a.hasVars = false → a.varMask truth = []
  | .otherwise _ stmt, h => Pieces.varMask_of_hasVars stmt h
  | .elseif _ _ stmt alt, h => by
    simp only [Alt.hasVars, Bool.or_eq_false_iff] at h
    simp [Alt.varMask, Pieces.varMask_of_hasVars stmt h.1, Alt.varMask_of_hasVars alt h.2]

end

/-! ## Selected items -/

/-- Two lists are selected from one after the other. -/
theorem select_append {xs : List α} {mask : List Bool} (h : xs.length = mask.length) (ys : List α) (mask' : List Bool) :
    select (xs ++ ys) (mask ++ mask') = select xs mask ++ select ys mask' := by
  induction xs generalizing mask with
  | nil => rw [List.length_eq_zero_iff.1 h.symm]; rfl
  | cons x xs ih =>
    rcases mask with _ | ⟨b, mask⟩
    · simp at h
    · rw [List.cons_append, List.cons_append, select, select, ih (Nat.succ.inj h)]
      rcases b with _ | _
      · rfl
      · rfl

/-- Nothing is selected by a mask of nothing. -/
theorem select_false {β : Type} (xs : List α) (ys : List β) : select xs (ys.map fun _ => false) = [] := by
  induction xs generalizing ys with
  | nil => simp [select]
  | cons x xs ih =>
    rcases ys with _ | ⟨y, ys⟩
    · rfl
    · exact ih ys

/-- All is selected by a mask of all. -/
theorem select_true (xs : List α) : select xs (xs.map fun _ => true) = xs := by
  induction xs with
  | nil => rfl
  | cons x xs ih => rw [List.map_cons, select, ih, if_pos rfl]

mutual

/-- The fragments that are taken are those that the mask selects. -/
theorem Pieces.taken_eq : ∀ p : Pieces, p.taken truth = select p.flat (p.mask truth)
  | .nil => rfl
  | .char c rest => by rw [Pieces.taken, Pieces.taken_eq rest]; rfl
  | .var name rest => by rw [Pieces.taken, Pieces.taken_eq rest]; rfl
  | .inline body tail rest => by
    simp only [Pieces.taken, Pieces.flat, Pieces.mask, Pieces.taken_eq body, Pieces.taken_eq tail, Pieces.taken_eq rest, select,
      select_append (Pieces.mask_length truth _).symm, if_true]
  | .call inFrom _ body rest => by
    rcases inFrom with _ | _
    · simp [Pieces.taken, Pieces.flat, Pieces.mask, Body.taken_eq body, Pieces.taken_eq rest, select_append (Body.mask_length truth _).symm]
    · simp [Pieces.taken, Pieces.flat, Pieces.mask, Body.taken_eq body, Pieces.taken_eq rest, select,
        select_append (Body.mask_length truth _).symm]

/-- It is so for a body. -/
theorem Body.taken_eq : ∀ b : Body, b.taken truth = select b.flat (b.mask truth)
  | .plain first stmt => by rw [Body.taken, Pieces.taken_eq stmt]; rfl
  | .cond c first stmt alt => by
    have hlen := (Pieces.mask_length truth stmt).symm
    by_cases h : truth c.id = true
    · simp only [Body.taken, Body.flat, Body.mask, h, if_true, Pieces.taken_eq stmt, List.cons_append, select,
        select_append hlen, select_false, List.append_nil]
    · have hlen' : stmt.flat.length = ((stmt.mask truth).map fun _ => false).length := by rw [List.length_map, hlen]
      simp only [Body.taken, Body.flat, Body.mask, h, if_false, Alt.taken_eq alt, List.cons_append, select, Bool.false_eq_true,
        select_append hlen', select_false, List.nil_append]

/-- It is so for an ELSE. -/
theorem Alt.taken_eq : ∀ a : Alt, a.taken truth = select a.flat (a.mask truth)
  | .otherwise first stmt => by rw [Alt.taken, Pieces.taken_eq stmt]; rfl
  | .elseif c first stmt alt => by
    have hlen := (Pieces.mask_length truth stmt).symm
    by_cases h : truth c.id = true
    · simp only [Alt.taken, Alt.flat, Alt.mask, h, if_true, Pieces.taken_eq stmt, List.cons_append, select,
        select_append hlen, select_false, List.append_nil]
    · have hlen' : stmt.flat.length = ((stmt.mask truth).map fun _ => false).length := by rw [List.length_map, hlen]
      simp only [Alt.taken, Alt.flat, Alt.mask, h, if_false, Alt.taken_eq alt, List.cons_append, select, Bool.false_eq_true,
        select_append hlen', select_false, List.nil_append]

end

mutual

/-- The variables of what is taken are those that their mask selects. -/
theorem Pieces.boundVariables_taken : ∀ p : Pieces, boundVariables (p.taken truth) = select (boundVariables p.flat) (p.varMask truth)
  | .nil => rfl
  | .char _ rest => Pieces.boundVariables_taken rest
  | .var name rest => congrArg (name :: ·) (Pieces.boundVariables_taken rest)
  | .inline body tail rest => by
    have hbody := (Pieces.varMask_length truth body).symm
    have htail := (Pieces.varMask_length truth tail).symm
    have hleft : boundVariables (Pieces.taken truth (.inline body tail rest)) =
        boundVariables (body.taken truth) ++ (boundVariables (tail.taken truth) ++ boundVariables (rest.taken truth)) := by
      simp [Pieces.taken, boundVariables, List.filterMap_append]
    have hright : boundVariables (Pieces.flat (.inline body tail rest)) =
        boundVariables body.flat ++ (boundVariables tail.flat ++ boundVariables rest.flat) := by
      simp [Pieces.flat, boundVariables, List.filterMap_append]
    rw [hleft, hright, Pieces.varMask, select_append hbody, select_append htail, Pieces.boundVariables_taken body,
      Pieces.boundVariables_taken tail, Pieces.boundVariables_taken rest]
  | .call inFrom args body rest => by
    have hbody := (Body.varMask_length truth body).symm
    have hleft : boundVariables (Pieces.taken truth (.call inFrom args body rest)) =
        boundVariables (body.taken truth) ++ boundVariables (rest.taken truth) := by
      rcases inFrom with _ | _
      · simp [Pieces.taken, boundVariables]
      · simp [Pieces.taken, boundVariables]
    have hright : boundVariables (Pieces.flat (.call inFrom args body rest)) = boundVariables body.flat ++ boundVariables rest.flat := by
      rcases inFrom with _ | _
      · simp [Pieces.flat, boundVariables]
      · simp [Pieces.flat, boundVariables]
    rw [hleft, hright, Pieces.varMask, select_append hbody, Body.boundVariables_taken body, Pieces.boundVariables_taken rest]

/-- It is so for a body. -/
theorem Body.boundVariables_taken : ∀ b : Body, boundVariables (b.taken truth) = select (boundVariables b.flat) (b.varMask truth)
  | .plain _ stmt => Pieces.boundVariables_taken stmt
  | .cond c first stmt alt => by
    have hlen := (Pieces.varMask_length truth stmt).symm
    have hflat : boundVariables (Body.flat (.cond c first stmt alt)) = boundVariables stmt.flat ++ boundVariables alt.flat :=
      boundVariables_append ..
    rw [hflat, Body.taken, Body.varMask]
    by_cases h : truth c.id = true
    · rw [if_pos h, if_pos h, select_append hlen, select_false, List.append_nil]
      exact Pieces.boundVariables_taken stmt
    · rw [if_neg h, if_neg h, select_append (by rw [List.length_map, hlen]), select_false, List.nil_append]
      exact Alt.boundVariables_taken alt

/-- It is so for an ELSE. -/
theorem Alt.boundVariables_taken : ∀ a : Alt, boundVariables (a.taken truth) = select (boundVariables a.flat) (a.varMask truth)
  | .otherwise _ stmt => Pieces.boundVariables_taken stmt
  | .elseif c first stmt alt => by
    have hlen := (Pieces.varMask_length truth stmt).symm
    have hflat : boundVariables (Alt.flat (.elseif c first stmt alt)) = boundVariables stmt.flat ++ boundVariables alt.flat :=
      boundVariables_append ..
    rw [hflat, Alt.taken, Alt.varMask]
    by_cases h : truth c.id = true
    · rw [if_pos h, if_pos h, select_append hlen, select_false, List.append_nil]
      exact Pieces.boundVariables_taken stmt
    · rw [if_neg h, if_neg h, select_append (by rw [List.length_map, hlen]), select_false, List.nil_append]
      exact Alt.boundVariables_taken alt

end

end

/-! ## Truth in Lua and in SQL -/

/-- What is true in SQL is true in Lua. -/
theorem Value.luaTrue_of_sqlTrue {v : Value} (h : v.sqlTrue = true) : v.luaTrue = true := by
  rcases v with _ | b | v | bits
  · exact h
  · exact h
  · rfl
  · rfl

section

variable (env : Env)

/-- A condition whose branches have the masks. -/
theorem Body.masks_of_branches {c : Cond} (first : Char) {stmt : Pieces} {alt : Alt}
    (hstmt : stmt.Agree env → stmt.mask (fun c => (env c).luaTrue) = stmt.mask (fun c => (env c).sqlTrue) ∧
      stmt.varMask (fun c => (env c).luaTrue) = stmt.varMask fun c => (env c).sqlTrue)
    (halt : alt.Agree env → alt.mask (fun c => (env c).luaTrue) = alt.mask (fun c => (env c).sqlTrue) ∧
      alt.varMask (fun c => (env c).luaTrue) = alt.varMask fun c => (env c).sqlTrue)
    (h : (Body.cond c first stmt alt).Agree env) :
    (Body.cond c first stmt alt).mask (fun c => (env c).luaTrue) = (Body.cond c first stmt alt).mask (fun c => (env c).sqlTrue) ∧
      (Body.cond c first stmt alt).varMask (fun c => (env c).luaTrue) = (Body.cond c first stmt alt).varMask fun c => (env c).sqlTrue := by
  obtain ⟨hsub, h⟩ := h
  by_cases hsql : (env c.id).sqlTrue = true
  · rw [if_pos hsql] at h
    obtain ⟨hmask, hvarMask⟩ := hstmt h
    simp only [Body.mask, Body.varMask, hsql, Value.luaTrue_of_sqlTrue hsql, if_true, hmask, hvarMask, map_const_false,
      Alt.mask_length, Alt.varMask_length, and_self]
  · rw [if_neg hsql] at h
    have hlua : ¬(env c.id).luaTrue = true := fun hlua => hsql (hsub hlua)
    obtain ⟨hmask, hvarMask⟩ := halt h
    simp only [Body.mask, Body.varMask, hsql, hlua, hmask, hvarMask, map_const_false, Pieces.mask_length, Pieces.varMask_length,
      Bool.false_eq_true, if_false, and_self]

mutual

/-- Where the conditions agree, both languages take the same. -/
theorem Pieces.masks_of_agree : ∀ p : Pieces, p.Agree env → p.mask (fun c => (env c).luaTrue) = p.mask (fun c => (env c).sqlTrue) ∧
      p.varMask (fun c => (env c).luaTrue) = p.varMask fun c => (env c).sqlTrue
  | .nil, _ => ⟨rfl, rfl⟩
  | .char _ rest, h => (Pieces.masks_of_agree rest h).imp_left (congrArg (true :: ·))
  | .var _ rest, h => (Pieces.masks_of_agree rest h).imp (congrArg (true :: ·)) (congrArg (true :: ·))
  | .inline body tail rest, h => by
    obtain ⟨hbody, hbody'⟩ := Pieces.masks_of_agree body h.1
    obtain ⟨htail, htail'⟩ := Pieces.masks_of_agree tail h.2.1
    obtain ⟨hrest, hrest'⟩ := Pieces.masks_of_agree rest h.2.2
    simp only [Pieces.mask, Pieces.varMask, hbody, hbody', htail, htail', hrest, hrest', and_self]
  | .call _ _ body rest, h => by
    obtain ⟨hbody, hbody'⟩ := Body.masks_of_agree body h.1
    obtain ⟨hrest, hrest'⟩ := Pieces.masks_of_agree rest h.2
    simp only [Pieces.mask, Pieces.varMask, hbody, hbody', hrest, hrest', and_self]

/-- They take the same of a body. -/
theorem Body.masks_of_agree : ∀ b : Body, b.Agree env → b.mask (fun c => (env c).luaTrue) = b.mask (fun c => (env c).sqlTrue) ∧
      b.varMask (fun c => (env c).luaTrue) = b.varMask fun c => (env c).sqlTrue
  | .plain _ stmt, h => (Pieces.masks_of_agree stmt h).imp_left (congrArg (true :: ·))
  | .cond _ first stmt alt, h => Body.masks_of_branches env first (Pieces.masks_of_agree stmt) (Alt.masks_of_agree alt) h

/-- They take the same of an ELSE. -/
theorem Alt.masks_of_agree : ∀ a : Alt, a.Agree env → a.mask (fun c => (env c).luaTrue) = a.mask (fun c => (env c).sqlTrue) ∧
      a.varMask (fun c => (env c).luaTrue) = a.varMask fun c => (env c).sqlTrue
  | .otherwise _ stmt, h => (Pieces.masks_of_agree stmt h).imp_left (congrArg (true :: ·))
  | .elseif _ first stmt alt, h => Body.masks_of_branches env first (Pieces.masks_of_agree stmt) (Alt.masks_of_agree alt) h

end

/-- The first items of the branches tell which is taken. -/
theorem Body.agree_of_branches {c : Cond} (first : Char) {stmt : Pieces} {alt : Alt}
    (hstmt : stmt.mask (fun c => (env c).luaTrue) = stmt.mask (fun c => (env c).sqlTrue) → stmt.Agree env)
    (halt : alt.mask (fun c => (env c).luaTrue) = alt.mask (fun c => (env c).sqlTrue) → alt.Agree env)
    (h : (Body.cond c first stmt alt).mask (fun c => (env c).luaTrue) =
      (Body.cond c first stmt alt).mask fun c => (env c).sqlTrue) : (Body.cond c first stmt alt).Agree env := by
  by_cases hsql : (env c.id).sqlTrue = true
  · refine ⟨fun _ => hsql, ?_⟩
    rw [if_pos hsql]
    simp only [Body.mask, hsql, Value.luaTrue_of_sqlTrue hsql, if_true, List.cons_append, List.cons.injEq, true_and] at h
    exact hstmt (List.append_inj_left h (by rw [Pieces.mask_length, Pieces.mask_length]))
  · have hlua : ¬(env c.id).luaTrue = true := fun hlua => by
      simp [Body.mask, hsql, hlua] at h
    refine ⟨fun hlua' => absurd hlua' hlua, ?_⟩
    rw [if_neg hsql]
    simp only [Body.mask, hsql, hlua, Bool.false_eq_true, if_false, List.cons_append, List.cons.injEq, true_and] at h
    exact halt (List.append_inj_right h (by rw [List.length_map, List.length_map, Pieces.mask_length, Pieces.mask_length]))

mutual

/-- Where both languages take the same, the conditions agree. -/
theorem Pieces.agree_of_mask : ∀ p : Pieces, p.mask (fun c => (env c).luaTrue) = p.mask (fun c => (env c).sqlTrue) → p.Agree env
  | .nil, _ => trivial
  | .char _ rest, h => Pieces.agree_of_mask rest (List.cons.inj h).2
  | .var _ rest, h => Pieces.agree_of_mask rest (List.cons.inj h).2
  | .inline body tail rest, h => by
    have hall := (List.cons.inj h).2
    have hbody := List.append_inj_left hall (by rw [Pieces.mask_length, Pieces.mask_length])
    have htail := List.append_inj_right hall (by rw [Pieces.mask_length, Pieces.mask_length])
    have hrest := List.append_inj_right htail (by rw [Pieces.mask_length, Pieces.mask_length])
    have htail := List.append_inj_left htail (by rw [Pieces.mask_length, Pieces.mask_length])
    exact ⟨Pieces.agree_of_mask body hbody, Pieces.agree_of_mask tail htail, Pieces.agree_of_mask rest (List.cons.inj hrest).2⟩
  | .call inFrom _ body rest, h => by
    have hall := List.append_cancel_left (show _ ++ _ = _ ++ _ from h)
    have hbody := List.append_inj_left hall (by rw [Body.mask_length, Body.mask_length])
    have hrest := List.append_cancel_left (List.append_inj_right hall (by rw [Body.mask_length, Body.mask_length]))
    exact ⟨Body.agree_of_mask body hbody, Pieces.agree_of_mask rest hrest⟩

/-- Those of a body agree. -/
theorem Body.agree_of_mask : ∀ b : Body, b.mask (fun c => (env c).luaTrue) = b.mask (fun c => (env c).sqlTrue) → b.Agree env
  | .plain _ stmt, h => Pieces.agree_of_mask stmt (List.cons.inj h).2
  | .cond _ first stmt alt, h => Body.agree_of_branches env first (Pieces.agree_of_mask stmt) (Alt.agree_of_mask alt) h

/-- Those of an ELSE agree. -/
theorem Alt.agree_of_mask : ∀ a : Alt, a.mask (fun c => (env c).luaTrue) = a.mask (fun c => (env c).sqlTrue) → a.Agree env
  | .otherwise _ stmt, h => Pieces.agree_of_mask stmt (List.cons.inj h).2
  | .elseif _ first stmt alt, h => Body.agree_of_branches env first (Pieces.agree_of_mask stmt) (Alt.agree_of_mask alt) h

end

end

end FragmentsAux

end CgSql.LuaFragments
