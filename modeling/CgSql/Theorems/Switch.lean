import CgSql.Switch

/-!
# The check for ALL VALUES is exact

The cases of a switch are all values of an enum exactly when nothing is reported, provided that the enum has a member to compare with
and its values fit into a buffer.
-/

namespace CgSql.Switch

variable {σ ε : Type}

namespace SwitchAux

/-! ## The buffer -/

/-- The size of a buffer: it grows by 65 values when it is full. -/
def Grown (b : ValBuffer σ) : Prop := b.max = 1040 * ((b.vals.length + 64) / 65)

/-- How many values a buffer can have. -/
def maxVals : Nat := 268435440

theorem grown_open : Grown (ValBuffer.open : ValBuffer σ) := by
  simp [Grown, ValBuffer.open]

theorem append_spec {b : ValBuffer σ} (h : Grown b) (val : CaseVal σ) :
    (b.vals.length < maxVals → ∃ b', b.append val = some b' ∧ Grown b' ∧ b'.vals = b.vals ++ [val]) ∧
      (maxVals ≤ b.vals.length → b.vals.length ≤ maxVals → b.append val = none) := by
  unfold Grown maxVals at *
  unfold ValBuffer.append
  constructor
  · intro hless
    by_cases hroom : 16 ≤ b.max - 16 * b.vals.length
    · refine ⟨_, if_pos hroom, ?_, rfl⟩
      simp only [List.length_append, List.length_singleton]
      omega
    · refine ⟨{ vals := b.vals ++ [val], max := b.max + 16 + 1024 }, ?_, ?_, rfl⟩
      · rw [if_neg hroom, if_pos (by omega)]
      · simp only [List.length_append, List.length_singleton]
        omega
  · intro hge hle
    rw [if_neg (by omega), if_neg (by omega)]

/-- The buffer of the public members has their values in order. -/
theorem appendAll_spec (members : List EnumMember) {b : ValBuffer EnumMember} (h : Grown b) (hfits : b.vals.length ≤ maxVals) :
    (b.vals.length + members.length ≤ maxVals → ∃ b', members.foldlM (fun b m => b.append { value := m.value, source := m }) b = some b' ∧
        b'.vals = b.vals ++ members.map fun m => { value := m.value, source := m }) ∧
      (maxVals < b.vals.length + members.length → members.foldlM (fun b m => b.append { value := m.value, source := m }) b = none) := by
  induction members generalizing b with
  | nil =>
    rw [List.length_nil, Nat.add_zero]
    exact ⟨fun _ => ⟨b, rfl, by simp⟩, fun hmore => absurd hmore (by omega)⟩
  | cons m members ih =>
    obtain ⟨hroom, hfull⟩ := append_spec h { value := m.value, source := m }
    rw [List.length_cons]
    rcases Nat.lt_or_ge b.vals.length maxVals with hlt | hge
    · obtain ⟨b₁, happend, h₁, hvals₁⟩ := hroom hlt
      have hlen : b₁.vals.length = b.vals.length + 1 := by rw [hvals₁, List.length_append, List.length_singleton]
      obtain ⟨hrest, hno⟩ := ih h₁ (by omega)
      rw [List.foldlM_cons, happend]
      constructor
      · intro hless
        obtain ⟨b', hrun, hvals⟩ := hrest (by omega)
        refine ⟨b', hrun, ?_⟩
        rw [hvals, hvals₁, List.append_assoc]
        rfl
      · intro hmore
        exact hno (by omega)
    · refine ⟨fun hless => absurd hless (by omega), fun _ => ?_⟩
      rw [List.foldlM_cons, hfull hge hfits]
      rfl

/-! ## Removing aliases -/

/-- The values of an array. -/
def values (vals : List (CaseVal σ)) : List Int := vals.map CaseVal.value

theorem values_append (vals₁ vals₂ : List (CaseVal σ)) : values (vals₁ ++ vals₂) = values vals₁ ++ values vals₂ := List.map_append

/-- A write over the first of some elements. -/
theorem set_middle (done junk rest : List (CaseVal σ)) (h : junk ++ rest ≠ []) (val : CaseVal σ) :
    ∃ tail, tail.length + 1 = (junk ++ rest).length ∧ (done ++ junk ++ rest).set done.length val = done ++ val :: tail := by
  rw [List.append_assoc]
  obtain ⟨x, tail, hcons⟩ := List.exists_cons_of_ne_nil h
  refine ⟨tail, by rw [hcons, List.length_cons], ?_⟩
  rw [hcons, List.set_append_right _ _ (Nat.le_refl _), Nat.sub_self, List.set_cons_zero]

/-- The loop keeps one of each value. `done` is what was kept, `junk` is between the indexes, `rest` is not yet read. -/
theorem dedupe_spec {rest : List (CaseVal σ)} (hrest : rest ≠ []) (done junk : List (CaseVal σ))
    (hdone : (values done ++ values rest).Pairwise (· ≤ ·)) (hlt : ∀ v ∈ values done, ∀ w ∈ values rest, v < w)
    (hstrict : (values done).Pairwise (· < ·)) :
    ∃ done' junk' last, dedupe (rest.length - 1) (done.length + junk.length) done.length (done ++ junk ++ rest) =
        some (done' ++ junk' ++ [last], done'.length + junk'.length, done'.length) ∧
      (done' ++ junk' ++ [last]).length = (done ++ junk ++ rest).length ∧
      (values (done' ++ [last])).Pairwise (· < ·) ∧ ∀ v, v ∈ values (done' ++ [last]) ↔ v ∈ values done ∨ v ∈ values rest := by
  induction rest generalizing done junk with
  | nil => exact absurd rfl hrest
  | cons a rest ih =>
    cases rest with
    | nil =>
      refine ⟨done, junk, a, rfl, rfl, ?_, fun v => ?_⟩
      · rw [values_append, List.pairwise_append]
        exact ⟨hstrict, List.pairwise_singleton _ _, hlt⟩
      · rw [values_append, List.mem_append]
    | cons b rest =>
      have hget : (done ++ junk ++ a :: b :: rest)[done.length + junk.length]? = some a := by
        rw [← List.length_append, List.getElem?_append_right (Nat.le_refl _), Nat.sub_self]
        rfl
      have hnext : (done ++ junk ++ a :: b :: rest)[done.length + junk.length + 1]? = some b := by
        rw [← List.length_append, List.getElem?_append_right (Nat.le_succ _), Nat.succ_sub (Nat.le_refl _), Nat.sub_self]
        rfl
      have hsteps : (a :: b :: rest).length - 1 = (b :: rest).length - 1 + 1 := rfl
      have hab : a.value ≤ b.value := by
        have hpair := (List.pairwise_append.mp hdone).2.1
        exact (List.pairwise_cons.mp hpair).1 _ List.mem_cons_self
      rw [hsteps, dedupe, if_pos (Nat.le_add_right _ _), hget, hnext]
      simp only [Option.bind_eq_bind, Option.bind_some]
      by_cases heq : a.value = b.value
      · -- the value is there again
        rw [if_pos heq]
        have hvalues : values (a :: b :: rest) = b.value :: values (b :: rest) := by rw [← heq]; rfl
        obtain ⟨done', junk', last, hrun, hlen, hpair, hmem⟩ := ih (List.cons_ne_nil _ _) done (junk ++ [a])
          (hdone.sublist ((List.sublist_cons_self _ _).append_left _))
          (fun v hv w hw => hlt v hv w (List.mem_cons_of_mem _ hw)) hstrict
        have harray : done ++ (junk ++ [a]) ++ b :: rest = done ++ junk ++ a :: b :: rest := by simp
        rw [harray] at hrun hlen
        refine ⟨done', junk', last, ?_, hlen, hpair, fun v => ?_⟩
        · rw [← hrun, List.length_append, List.length_singleton]
          rfl
        · rw [hmem, hvalues, List.mem_cons]
          have hin : b.value ∈ values (b :: rest) := List.mem_cons_self
          constructor
          · rintro (hv | hv)
            · exact .inl hv
            · exact .inr (.inr hv)
          · rintro (hv | rfl | hv)
            · exact .inl hv
            · exact .inr hin
            · exact .inr hv
      · -- the value is kept
        rw [if_neg heq]
        have hsplit : done ++ junk ++ a :: b :: rest = done ++ (junk ++ [a]) ++ b :: rest := by simp
        obtain ⟨x, tail, hcons⟩ := List.exists_cons_of_ne_nil (l := junk ++ [a]) (by simp)
        have htail : tail.length = junk.length := by
          have h := congrArg List.length hcons
          rw [List.length_append, List.length_singleton, List.length_cons] at h
          omega
        have hset : (done ++ junk ++ a :: b :: rest).set done.length a = done ++ [a] ++ tail ++ b :: rest := by
          rw [hsplit, hcons]
          simp [List.set_append_right]
        have hless : ∀ w ∈ values (b :: rest), a.value < w := by
          intro w hw
          have hpair := (List.pairwise_cons.mp (List.pairwise_append.mp hdone).2.1).2
          have hbw : b.value ≤ w := by
            rcases List.mem_cons.mp hw with rfl | hw
            · exact Int.le_refl _
            · exact (List.pairwise_cons.mp hpair).1 w hw
          omega
        obtain ⟨done', junk', last, hrun, hlen, hpair, hmem⟩ := ih (List.cons_ne_nil _ _) (done ++ [a]) tail (by
            rw [values_append, List.append_assoc]
            exact hdone)
          (by
            intro v hv w hw
            rw [values_append, List.mem_append] at hv
            rcases hv with hv | hv
            · exact hlt v hv w (List.mem_cons_of_mem _ hw)
            · obtain rfl := List.mem_singleton.mp hv
              exact hless w hw)
          (by
            rw [values_append, List.pairwise_append]
            exact ⟨hstrict, List.pairwise_singleton _ _, fun v hv w hw => hlt v hv w
              (by rw [List.mem_singleton.mp hw]; exact List.mem_cons_self)⟩)
        rw [hset]
        refine ⟨done', junk', last, ?_, ?_, hpair, fun v => ?_⟩
        · have hindex : done.length + junk.length + 1 = (done ++ [a]).length + tail.length := by
            rw [List.length_append, List.length_singleton, htail]
            omega
          rw [hindex]
          have hone : done.length + 1 = (done ++ [a]).length := by rw [List.length_append, List.length_singleton]
          rw [hone]
          exact hrun
        · rw [hlen, ← hset, List.length_set]
        · rw [hmem, values_append, List.mem_append]
          have hvalues : values (a :: b :: rest) = a.value :: values (b :: rest) := rfl
          have hsingle : values [a] = [a.value] := rfl
          rw [hvalues, hsingle]
          simp only [List.mem_cons, List.not_mem_nil, or_false, or_assoc]

/-- The sorted values of a buffer without aliases. -/
theorem distinctVals_spec {vals : List (CaseVal σ)} (hne : vals ≠ []) (hsorted : (values vals).Pairwise (· ≤ ·)) (hfits : vals.length < 2 ^ 64) :
    ∃ distinct tail, distinctVals vals = some (distinct ++ tail, distinct.length) ∧ (values distinct).Pairwise (· < ·) ∧
      ∀ v, v ∈ values distinct ↔ v ∈ values vals := by
  have hpos := List.length_pos_iff.mpr hne
  obtain ⟨done, junk, last, hrun, hlen, hpair, hmem⟩ := dedupe_spec hne [] [] hsorted (fun v hv => by cases hv) .nil
  simp only [List.nil_append, List.length_nil, Nat.add_zero] at hrun hlen
  have hindex : lastIndex vals.length = vals.length - 1 := by unfold lastIndex; omega
  have hless : done.length < vals.length := by
    rw [← hlen]
    simp only [List.length_append, List.length_singleton]
    omega
  have hget : (done ++ junk ++ [last])[done.length + junk.length]? = some last := by
    rw [← List.length_append, List.getElem?_append_right (Nat.le_refl _), Nat.sub_self]
    rfl
  obtain ⟨tail, -, hset⟩ := set_middle done junk [last] (by simp) last
  refine ⟨done ++ [last], tail, ?_, hpair, fun v => ?_⟩
  · simp only [distinctVals, hindex, hrun, Option.bind_eq_bind, Option.bind_some, if_pos hless, hget, hset]
    simp
  · rw [hmem]
    simp [values]

/-- The loop of an empty array reads outside of it. -/
theorem dedupe_nil {steps : Nat} (h : steps ≠ 0) : dedupe steps 0 0 ([] : List (CaseVal σ)) = none := by
  cases steps with
  | zero => exact absurd rfl h
  | succ steps => rfl

theorem lastIndex_zero : lastIndex 0 ≠ 0 := by
  unfold lastIndex
  omega

theorem distinctVals_nil : distinctVals ([] : List (CaseVal σ)) = none := by
  rw [distinctVals, List.length_nil, dedupe_nil lastIndex_zero]
  rfl

/-! ## Merging -/

/-- The loop reports nothing if and only if the rest of both arrays has the same values. -/
theorem mergeFrom_spec (tail : List (CaseVal EnumMember)) (cases' : List (CaseVal ε)) (enums : List (CaseVal EnumMember))
    (cases₀ : List (CaseVal ε)) (enums₀ : List (CaseVal EnumMember)) (hlen : cases₀.length = enums₀.length) :
    ∃ report, mergeFrom (enums₀ ++ enums ++ tail) (enums₀ ++ enums).length (cases₀ ++ cases') (min cases'.length enums.length)
        cases₀.length = some report ∧ (report = none ↔ values cases' = values enums) := by
  induction cases' generalizing cases₀ enums₀ enums with
  | nil =>
    rw [List.length_nil, Nat.zero_min, mergeFrom, leftOver, List.append_nil, if_neg (Nat.lt_irrefl _)]
    cases enums with
    | nil =>
      rw [List.append_nil, hlen, if_neg (Nat.lt_irrefl _)]
      exact ⟨none, rfl, iff_of_true rfl rfl⟩
    | cons e enums =>
      have hget : (enums₀ ++ e :: enums ++ tail)[cases₀.length]? = some e := by
        rw [hlen, List.append_assoc, List.getElem?_append_right (Nat.le_refl _), Nat.sub_self]
        rfl
      rw [if_pos (by rw [hlen, List.length_append, List.length_cons]; omega), if_pos rfl, hget]
      exact ⟨_, rfl, by simp [values]⟩
  | cons c cases' ih =>
    have hcase : (cases₀ ++ c :: cases')[cases₀.length]? = some c := by
      rw [List.getElem?_append_right (Nat.le_refl _), Nat.sub_self]
      rfl
    cases enums with
    | nil =>
      rw [List.length_nil, Nat.min_zero, mergeFrom, leftOver, List.append_nil,
        if_pos (by rw [List.length_append, List.length_cons]; omega), if_pos hlen, hcase]
      exact ⟨_, rfl, by simp [values]⟩
    | cons e enums =>
      have henum : (enums₀ ++ e :: enums ++ tail)[cases₀.length]? = some e := by
        rw [hlen, List.append_assoc, List.getElem?_append_right (Nat.le_refl _), Nat.sub_self]
        rfl
      rw [List.length_cons, List.length_cons, Nat.succ_min_succ, mergeFrom, hcase, henum]
      simp only [Option.bind_eq_bind, Option.bind_some]
      rcases Int.lt_trichotomy c.value e.value with hlt | heq | hgt
      · rw [if_pos hlt]
        refine ⟨_, rfl, ?_⟩
        simp only [values, List.map_cons, List.cons.injEq]
        exact ⟨nofun, fun h => absurd h.1 (by omega)⟩
      · rw [if_neg (by omega), if_neg (by omega)]
        obtain ⟨report, hrun, hiff⟩ := ih enums (cases₀ ++ [c]) (enums₀ ++ [e]) (by rw [List.length_append, List.length_append, hlen]; rfl)
        simp only [List.append_assoc, List.singleton_append, List.length_append, List.length_singleton] at hrun ⊢
        refine ⟨report, hrun, ?_⟩
        rw [hiff]
        simp only [values, List.map_cons, List.cons.injEq, heq, true_and]
      · rw [if_neg (by omega), if_pos hgt]
        refine ⟨_, rfl, ?_⟩
        simp only [values, List.map_cons, List.cons.injEq]
        exact ⟨nofun, fun h => absurd h.1 (by omega)⟩

theorem values_sortVals (vals : List (CaseVal σ)) : (values (sortVals vals)).Pairwise (· ≤ ·) ∧ (sortVals vals).Perm vals := by
  constructor
  · rw [values, List.pairwise_map]
    have htrans : ∀ a b c : CaseVal σ, decide (a.value ≤ b.value) → decide (b.value ≤ c.value) → decide (a.value ≤ c.value) := by
      intro a b c hab hbc
      simp only [decide_eq_true_eq] at *
      omega
    have htotal : ∀ a b : CaseVal σ, decide (a.value ≤ b.value) || decide (b.value ≤ a.value) := by
      intro a b
      simp only [Bool.or_eq_true, decide_eq_true_eq]
      omega
    exact (List.pairwise_mergeSort htrans htotal vals).imp fun hab => by simpa using hab
  · exact List.mergeSort_perm _ _

/-- An enum without public members. -/
theorem check_empty {members : List EnumMember} (h : members.filter EnumMember.isPublic = []) (caseVals : List (CaseVal ε)) :
    semCheckAllValuesCondition (some members) caseVals = none := by
  have hbuffer : enumBuffer members = some .open := by
    rw [enumBuffer, h]
    rfl
  have hsort : sortVals (ValBuffer.open : ValBuffer EnumMember).vals = [] := List.mergeSort_nil
  simp only [semCheckAllValuesCondition, hbuffer, Option.bind_eq_bind, Option.bind_some, hsort, distinctVals_nil, Option.bind_none]

end SwitchAux

open SwitchAux

/-- Nothing is undefined, and nothing is reported exactly when the values of the cases are those of the public members of the enum: if
and only if there is such a member, and there are not more of them than a buffer of `uint32_t` bytes has room for. -/
theorem allValues_iff (members : List EnumMember) {caseVals : List (CaseVal ε)} (hnodup : (caseVals.map CaseVal.value).Nodup) :
    (∃ report, semCheckAllValuesCondition (some members) (sortVals caseVals) = some report ∧
      (report = none ↔ ∀ v, v ∈ caseVals.map CaseVal.value ↔ ∃ m ∈ members, m.isPublic = true ∧ m.value = v)) ↔
    0 < (members.filter EnumMember.isPublic).length ∧ (members.filter EnumMember.isPublic).length ≤ 268435440 := by
  obtain ⟨hroom, hfull⟩ := appendAll_spec (members.filter EnumMember.isPublic) grown_open (Nat.zero_le _)
  rw [show (ValBuffer.open : ValBuffer EnumMember).vals.length = 0 from rfl, Nat.zero_add] at hroom hfull
  constructor
  · rintro ⟨report, hrun, -⟩
    simp only [semCheckAllValuesCondition, enumBuffer] at hrun
    by_contra hno
    rcases Nat.eq_zero_or_pos (members.filter EnumMember.isPublic).length with hzero | hpos
    · have hnone := check_empty (List.eq_nil_of_length_eq_zero hzero) (sortVals caseVals)
      simp only [semCheckAllValuesCondition, enumBuffer] at hnone
      rw [hnone] at hrun
      cases hrun
    · rw [hfull (by unfold maxVals; omega)] at hrun
      cases hrun
  · rintro ⟨hpos, hle⟩
    obtain ⟨b, hb, hvals⟩ := hroom (by unfold maxVals; exact hle)
    obtain ⟨hsorted, hperm⟩ := values_sortVals b.vals
    have hlen : b.vals.length = (members.filter EnumMember.isPublic).length := by
      rw [hvals]
      exact List.length_map ..
    have hne : sortVals b.vals ≠ [] := List.ne_nil_of_length_pos (by rw [hperm.length_eq]; omega)
    obtain ⟨distinct, tail, hdistinct, hstrict, hmem⟩ :=
      distinctVals_spec hne hsorted (by rw [hperm.length_eq]; omega)
    obtain ⟨report, hmerge, hreport⟩ := mergeFrom_spec tail (sortVals caseVals) distinct [] [] rfl
    refine ⟨report, ?_, hreport.trans ?_⟩
    · unfold semCheckAllValuesCondition enumBuffer
      simp only [hb, Option.bind_eq_bind, Option.bind_some, hdistinct]
      exact hmerge
    · have hcases := values_sortVals caseVals
      have hcaseStrict : (values (sortVals caseVals)).Pairwise (· < ·) := by
        have hnodup' : (values (sortVals caseVals)).Nodup := ((hcases.2.map CaseVal.value).nodup_iff).mpr hnodup
        exact (List.Pairwise.and hcases.1 hnodup').imp fun h => lt_of_le_of_ne h.1 h.2
      have hmemCases : ∀ v, v ∈ values (sortVals caseVals) ↔ v ∈ caseVals.map CaseVal.value := fun v =>
        (hcases.2.map CaseVal.value).mem_iff
      have hmemEnums : ∀ v, v ∈ values distinct ↔ ∃ m ∈ members, m.isPublic = true ∧ m.value = v := by
        intro v
        rw [hmem, values, (hperm.map CaseVal.value).mem_iff, hvals]
        simp [ValBuffer.open, and_assoc]
      constructor
      · intro heq v
        rw [← hmemCases, heq, hmemEnums]
      · intro hiff
        exact hcaseStrict.eq_of_mem_iff hstrict fun v => by rw [hmemCases, hmemEnums, hiff]

/-- An enum with an alias and a member that is left out, and a switch over its two values. -/
theorem allValues_alias : ∃ report, semCheckAllValuesCondition
    (some [⟨"x", 1⟩, ⟨"_max", 7⟩, ⟨"y", 2⟩, ⟨"another_name_for_x", 1⟩]) (sortVals [⟨2, ()⟩, ⟨1, ()⟩]) = some report ∧
      (report = none ↔ ∀ v, v ∈ [2, 1] ↔
        ∃ m ∈ [⟨"x", 1⟩, ⟨"_max", 7⟩, ⟨"y", 2⟩, ⟨"another_name_for_x", 1⟩], EnumMember.isPublic m = true ∧ m.value = v) :=
  (allValues_iff _ (by decide)).mpr (by decide)

/-- An enum with no other member than `_none`. -/
theorem allValues_false : ¬∀ (members : List EnumMember) (caseVals : List (CaseVal Unit)), (caseVals.map CaseVal.value).Nodup →
    ∃ report, semCheckAllValuesCondition (some members) (sortVals caseVals) = some report ∧
      (report = none ↔ ∀ v, v ∈ caseVals.map CaseVal.value ↔ ∃ m ∈ members, m.isPublic = true ∧ m.value = v) := by
  intro h
  obtain ⟨report, hrun, -⟩ := h [⟨"_none", 0⟩] [⟨0, ()⟩] (by decide)
  rw [check_empty (by decide)] at hrun
  cases hrun

end CgSql.Switch
