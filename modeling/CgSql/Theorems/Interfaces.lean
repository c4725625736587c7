import CgSql.Interfaces

/-!
# The interface check

Where the check ends it is exact, and it ends where no chain of comparisons is endless. Two shapes that name themselves are compared for ever.
-/

namespace CgSql.Interfaces

variable {N : Type} [DecidableEq N]

namespace InterfacesAux

variable {E : Decls N} {reqd actual : Shape N}
variable {S : Shape N → Shape N → Prop} {c : Column N} {r a : Option (Shape N)}

/-! ### Compatible shapes -/

omit [DecidableEq N] in
/-- Kinds that conform by a relation conform by a wider one. -/
theorem kindConforms_mono {S' : Shape N → Shape N → Prop} (h : ∀ r a, S r a → S' r a) {k k' : Option (Kind N)} (hk : E.KindConforms S k k') :
    E.KindConforms S' k k' := by
  intro kindReqd hreqd
  obtain ⟨kindActual, hactual, heq | ⟨r, a, hr, ha, hS⟩⟩ := hk kindReqd hreqd
  · exact ⟨kindActual, hactual, .inl heq⟩
  · exact ⟨kindActual, hactual, .inr ⟨r, a, hr, ha, h r a hS⟩⟩

theorem columnConforms_mono {S' : Shape N → Shape N → Prop} (h : ∀ r a, S r a → S' r a) (hc : E.ColumnConforms S actual c) :
    E.ColumnConforms S' actual c := by
  obtain ⟨d, hd, hname, htype, hnull, hsensitive, hkind⟩ := hc
  exact ⟨d, hd, hname, htype, hnull, hsensitive, kindConforms_mono h hkind⟩

/-- The relation is a fixed point. -/
theorem compatible_iff : E.Compatible reqd actual ↔ ∀ c ∈ reqd.columns, E.ColumnConforms E.Compatible actual c := by
  constructor
  · rintro ⟨S, hclosed, hS⟩ c hc
    refine columnConforms_mono ?_ (hclosed reqd actual hS c hc)
    intro r a h
    exact ⟨S, hclosed, h⟩
  · intro h
    refine ⟨fun r a => ∀ c ∈ r.columns, E.ColumnConforms E.Compatible a c, ?_, h⟩
    intro r a hra c hc
    refine columnConforms_mono ?_ (hra c hc)
    rintro r' a' ⟨S, hclosed, hS⟩ c' hc'
    refine columnConforms_mono ?_ (hclosed r' a' hS c' hc')
    intro r'' a'' h''
    exact ⟨S, hclosed, h''⟩

/-! ### One column -/

/-- The column of a name is the one that is found. -/
theorem find_of_mem {shape : Shape N} (h : c ∈ shape.columns) : shape.find c.name = some c := by
  obtain ⟨columns, hnodup⟩ := shape
  rw [Shape.find]
  induction columns with
  | nil => cases h
  | cons d columns ih =>
    rw [List.map_cons, List.nodup_cons] at hnodup
    rcases List.mem_cons.mp h with rfl | h
    · rw [List.find?_cons_of_pos (by simp)]
    · have hne : d.name ≠ c.name := by
        intro heq
        exact hnodup.1 (heq ▸ List.mem_map_of_mem h)
      rw [List.find?_cons_of_neg (by simpa using hne)]
      exact ih hnodup.2 h

theorem mem_of_find {shape : Shape N} {name : N} (h : shape.find name = some c) : c ∈ shape.columns ∧ c.name = name :=
  ⟨List.mem_of_find?_eq_some h, by simpa using List.find?_some h⟩

variable {sourceType : ItemType} {source interface : N} {c : Column N}

/-- The column that is found is the one that can conform. -/
theorem columnConforms_iff {d : Column N} (hfind : actual.find c.name = some d) : E.ColumnConforms S actual c ↔
    (d.type = c.type ∧ d.notNull = c.notNull ∧ d.sensitive = c.sensitive) ∧ E.KindConforms S c.kind d.kind := by
  obtain ⟨hmem, hname⟩ := mem_of_find hfind
  constructor
  · rintro ⟨d', hd', hname', htype, hnull, hsensitive, hkind⟩
    have hfind' := find_of_mem hd'
    rw [hname', hfind] at hfind'
    cases hfind'
    exact ⟨⟨htype, hnull, hsensitive⟩, hkind⟩
  · rintro ⟨⟨htype, hnull, hsensitive⟩, hkind⟩
    exact ⟨d, hmem, hname, htype, hnull, hsensitive, hkind⟩

omit [DecidableEq N] in
/-- Kinds that differ conform where what they name is in the relation. -/
theorem kindConforms_iff {k k' : Kind N} (hne : k' ≠ k) : E.KindConforms S (some k) (some k') ↔
    ∃ r a, E.shapeOf k = some r ∧ E.shapeOf k' = some a ∧ S r a := by
  constructor
  · intro h
    obtain ⟨k'', hk'', heq | hshapes⟩ := h k rfl
    · cases hk''
      exact absurd heq hne
    · cases hk''
      exact hshapes
  · intro h kindReqd hreqd
    cases hreqd
    exact ⟨k', rfl, .inr h⟩

/-- What a verdict says: nothing conforms, the column needs no comparison, or it conforms where two shapes are compatible. -/
theorem validateColumn_cases (E : Decls N) (sourceType : ItemType) (source interface : N) (actual : Shape N) (c : Column N) :
    (∃ error, E.validateColumn sourceType source interface actual c = .bad error ∧ ∀ S, ¬E.ColumnConforms S actual c) ∨
    (E.validateColumn sourceType source interface actual c = .fine ∧ E.Plain actual c) ∨
    ∃ itemType actualName nestedActual reqdName nestedReqd error,
      E.validateColumn sourceType source interface actual c = .nested itemType actualName nestedActual reqdName nestedReqd error ∧
      E.Names actual c nestedReqd nestedActual ∧
      ∀ S, E.ColumnConforms S actual c ↔ ∃ r a, nestedReqd = some r ∧ nestedActual = some a ∧ S r a := by
  rw [Decls.validateColumn]
  cases hfind : actual.find c.name with
  | none =>
    refine .inl ⟨_, rfl, ?_⟩
    rintro S ⟨d, hd, hname, -⟩
    have hfind' := find_of_mem hd
    rw [hname, hfind] at hfind'
    cases hfind'
  | some d =>
    obtain ⟨hmem, hname⟩ := mem_of_find hfind
    by_cases htypes : d.type = c.type ∧ d.notNull = c.notNull ∧ d.sensitive = c.sensitive
    · have hsame : ¬(d.type ≠ c.type || d.notNull ≠ c.notNull || d.sensitive ≠ c.sensitive) = true := by simp [htypes]
      simp only [if_neg hsame]
      cases hreqd : c.kind with
      | none =>
        refine .inr (.inl ⟨rfl, (columnConforms_iff hfind).mpr ⟨htypes, ?_⟩⟩)
        intro kindReqd h
        rw [hreqd] at h
        cases h
      | some k =>
        cases hactual : d.kind with
        | none =>
          refine .inl ⟨_, rfl, ?_⟩
          intro S hS
          obtain ⟨k', hk', -⟩ := ((columnConforms_iff hfind).mp hS).2 k hreqd
          rw [hactual] at hk'
          cases hk'
        | some k' =>
          by_cases heq : k' = k
          · refine .inr (.inl ⟨by simp only [if_pos heq], (columnConforms_iff hfind).mpr ⟨htypes, ?_⟩⟩)
            intro kindReqd h
            rw [hreqd] at h
            cases h
            exact ⟨k', hactual, .inl heq⟩
          · simp only [if_neg heq]
            have hiff : ∀ S, E.ColumnConforms S actual c ↔ ∃ r a, E.shapeOf k = some r ∧ E.shapeOf k' = some a ∧ S r a := by
              intro S
              rw [columnConforms_iff hfind, hreqd, hactual, kindConforms_iff heq, and_iff_right htypes]
            cases hk' : E.find k'.name with
            | none =>
              refine .inl ⟨_, rfl, ?_⟩
              intro S hS
              obtain ⟨r, a, -, ha, -⟩ := (hiff S).mp hS
              rw [Decls.shapeOf, hk'] at ha
              cases ha
            | some found' =>
              cases hk : E.find k.name with
              | none =>
                refine .inl ⟨_, rfl, ?_⟩
                intro S hS
                obtain ⟨r, a, hr, -⟩ := (hiff S).mp hS
                rw [Decls.shapeOf, hk] at hr
                cases hr
              | some found =>
                refine .inr (.inr ⟨_, _, _, _, _, _, rfl, ?_, ?_⟩)
                · exact ⟨d, hmem, hname, htypes.1, htypes.2.1, htypes.2.2, k, k', hreqd, hactual, heq, by rw [hk]; rfl, by rw [hk']; rfl⟩
                · intro S
                  rw [hiff S, Decls.shapeOf, Decls.shapeOf, hk, hk']
                  rfl
    · have hdiffer : (d.type ≠ c.type || d.notNull ≠ c.notNull || d.sensitive ≠ c.sensitive) = true := by
        by_contra h
        simp only [Bool.or_eq_true, decide_eq_true_eq, not_or, ne_eq, not_not] at h
        exact htypes ⟨h.1.1, h.1.2, h.2⟩
      simp only [if_pos hdiffer]
      exact .inl ⟨_, rfl, fun S hS => htypes ((columnConforms_iff hfind).mp hS).1⟩

/-- A column names the shapes that its verdict compares. -/
theorem nested_of_names (sourceType : ItemType) (source interface : N) {nestedReqd nestedActual : Option (Shape N)}
    (h : E.Names actual c nestedReqd nestedActual) :
    ∃ itemType actualName reqdName error,
      E.validateColumn sourceType source interface actual c = .nested itemType actualName nestedActual reqdName nestedReqd error := by
  obtain ⟨d, hd, hname, htype, hnull, hsensitive, k, k', hk, hk', hne, hreqd, hactual⟩ := h
  obtain ⟨⟨item, r⟩, hr, hrs⟩ := Option.map_eq_some_iff.mp hreqd
  obtain ⟨⟨item', a⟩, ha, has⟩ := Option.map_eq_some_iff.mp hactual
  cases hrs
  cases has
  have hfind : actual.find c.name = some d := hname ▸ find_of_mem hd
  refine ⟨item', k'.name, k.name, .columnKind interface c.name k sourceType source (some k'), ?_⟩
  simp [Decls.validateColumn, hfind, htype, hnull, hsensitive, hk, hk', hne, hr, ha]

/-- A column names two shapes at most. -/
theorem names_unique {r' a' : Option (Shape N)} (h : E.Names actual c r a) (h' : E.Names actual c r' a') : r' = r ∧ a' = a := by
  obtain ⟨_, _, _, _, hv⟩ := nested_of_names .procedure c.name c.name h
  obtain ⟨_, _, _, _, hv'⟩ := nested_of_names .procedure c.name c.name h'
  cases hv.symm.trans hv'
  exact ⟨rfl, rfl⟩

/-! ### Runs -/

/-- What lets the loop go on to the next column. -/
def Passes (E : Decls N) (actual : Shape N) (c : Column N) : Prop := E.ColumnConforms E.Compatible actual c

theorem passes_of_plain (h : E.Plain actual c) : Passes E actual c :=
  columnConforms_mono (fun _ _ h => h.elim) h

/-- The answer of a comparison is whether every column passes. -/
def Exact (E : Decls N) (recurse : N → N → ItemType → Option (Shape N) → Option (Shape N) → Option (Outcome N)) : Prop :=
  ∀ source interface sourceType r a errors, recurse source interface sourceType r a = some (.done errors) →
    ∃ reqd actual, r = some reqd ∧ a = some actual ∧ (errors = [] ↔ ∀ c ∈ reqd.columns, Passes E actual c)

variable {recurse : N → N → ItemType → Option (Shape N) → Option (Shape N) → Option (Outcome N)} {columns : List (Column N)}
  {errors : List (Error N)}

/-- A column that is compared passes if there are no errors. -/
theorem passes_nested {actualName reqdName : N} {itemType : ItemType} (hexact : Exact E recurse)
    (hiff : ∀ S, E.ColumnConforms S actual c ↔ ∃ reqd actual, r = some reqd ∧ a = some actual ∧ S reqd actual)
    (h : recurse actualName reqdName itemType r a = some (.done errors)) : (!errors.isEmpty) = false ↔ Passes E actual c := by
  obtain ⟨reqd, actual', rfl, rfl, hpasses⟩ := hexact _ _ _ _ _ _ h
  have hcompatible : Passes E actual c ↔ E.Compatible reqd actual' := by
    refine (hiff E.Compatible).trans ⟨?_, fun h => ⟨reqd, actual', rfl, rfl, h⟩⟩
    rintro ⟨_, _, hr, ha, h⟩
    cases hr
    cases ha
    exact h
  rw [hcompatible, compatible_iff]
  have hcolumns : (∀ c ∈ reqd.columns, Passes E actual' c) ↔ ∀ c ∈ reqd.columns, E.ColumnConforms E.Compatible actual' c := Iff.rfl
  rw [← hcolumns, ← hpasses]
  simp

/-- The loop has no errors where every column passes. -/
theorem columns_exact (hexact : Exact E recurse)
    (h : E.validateColumns recurse sourceType source interface actual columns = some (.done errors)) :
    errors = [] ↔ ∀ c ∈ columns, Passes E actual c := by
  induction columns with
  | nil =>
    cases h
    simp
  | cons c columns ih =>
    rw [List.forall_mem_cons]
    rw [Decls.validateColumns] at h
    rcases validateColumn_cases E sourceType source interface actual c with
      ⟨error, hv, hbad⟩ | ⟨hv, hplain⟩ | ⟨itemType, actualName, a, reqdName, r, error, hv, -, hiff⟩
    · rw [hv] at h
      cases h
      exact ⟨fun h => absurd h (List.cons_ne_nil _ _), fun h => absurd h.1 (hbad _)⟩
    · rw [hv] at h
      rw [ih h]
      exact ⟨fun h => ⟨passes_of_plain hplain, h⟩, fun h => h.2⟩
    · rw [hv] at h
      simp only at h
      split at h
      · cases h
      · cases h
      · rename_i errors' hrec
        have hpasses := passes_nested hexact hiff hrec
        split at h
        · rename_i hstop
          cases h
          refine ⟨fun h => absurd h (by simp), fun h => ?_⟩
          rw [hpasses.mpr h.1] at hstop
          cases hstop
        · rename_i hgo
          rw [ih h]
          exact ⟨fun h => ⟨hpasses.mp (by simpa using hgo), h⟩, fun h => h.2⟩

theorem validate_exact (fuel : Nat) : Exact E (E.validateReqdSptrs fuel) := by
  induction fuel with
  | zero =>
    intro source interface sourceType r a errors h
    cases h
  | succ fuel ih =>
    intro source interface sourceType r a errors h
    cases r with
    | none => cases h
    | some r =>
      cases a with
      | none => cases h
      | some a => exact ⟨r, a, rfl, rfl, columns_exact ih h⟩

/-- The loop comes to every column behind those that pass. -/
theorem columns_reach {before after : List (Column N)} (hexact : Exact E recurse)
    (h : E.validateColumns recurse sourceType source interface actual (before ++ c :: after) = some (.done errors))
    (hbefore : ∀ b ∈ before, Passes E actual b) (hnames : E.Names actual c r a) :
    ∃ actualName reqdName itemType errors', recurse actualName reqdName itemType r a = some (.done errors') := by
  induction before with
  | nil =>
    obtain ⟨itemType, actualName, reqdName, error, hv⟩ := nested_of_names sourceType source interface hnames
    rw [List.nil_append, Decls.validateColumns, hv] at h
    simp only at h
    split at h
    · cases h
    · cases h
    · rename_i errors' hrec
      exact ⟨actualName, reqdName, itemType, errors', hrec⟩
  | cons b before ih =>
    rw [List.forall_mem_cons] at hbefore
    rw [List.cons_append, Decls.validateColumns] at h
    rcases validateColumn_cases E sourceType source interface actual b with
      ⟨error, hv, hbad⟩ | ⟨hv, -⟩ | ⟨itemType, actualName, a', reqdName, r', error, hv, -, hiff⟩
    · exact absurd hbefore.1 (hbad _)
    · rw [hv] at h
      exact ih h hbefore.2
    · rw [hv] at h
      simp only at h
      split at h
      · cases h
      · cases h
      · rename_i errors' hrec
        rw [(passes_nested hexact hiff hrec).mpr hbefore.1] at h
        exact ih h hbefore.2

/-- Where the check has ended, no chain of comparisons is endless. -/
theorem ends_of_done {fuel : Nat} (h : E.validateReqdSptrs fuel source interface sourceType (some reqd) (some actual) = some (.done errors)) :
    E.Ends reqd actual := by
  induction fuel generalizing source interface sourceType reqd actual errors with
  | zero => cases h
  | succ fuel ih =>
    have hreach : ∀ r a, E.Leads reqd actual r a → ∃ actualName reqdName itemType errors',
        E.validateReqdSptrs fuel actualName reqdName itemType r a = some (.done errors') := by
      rintro r a ⟨before, c, after, hcolumns, hnames, hbefore⟩
      rw [Decls.validateReqdSptrs, hcolumns] at h
      exact columns_reach (validate_exact fuel) h hbefore hnames
    refine .intro reqd actual ?_ ?_
    · intro r a hleads
      obtain ⟨_, _, _, _, hrec⟩ := hreach r a hleads
      obtain ⟨_, _, rfl, rfl, -⟩ := validate_exact fuel _ _ _ _ _ _ hrec
      exact ⟨rfl, rfl⟩
    · intro r a hleads
      obtain ⟨_, _, _, _, hrec⟩ := hreach _ _ hleads
      exact ih hrec

/-- More fuel gives the same answer. -/
theorem columns_mono {recurse' : N → N → ItemType → Option (Shape N) → Option (Shape N) → Option (Outcome N)}
    (hrec : ∀ source interface sourceType r a outcome, recurse source interface sourceType r a = some outcome →
      recurse' source interface sourceType r a = some outcome) {outcome : Outcome N}
    (h : E.validateColumns recurse sourceType source interface actual columns = some outcome) :
    E.validateColumns recurse' sourceType source interface actual columns = some outcome := by
  induction columns with
  | nil => exact h
  | cons c columns ih =>
    rw [Decls.validateColumns] at h ⊢
    cases hv : E.validateColumn sourceType source interface actual c with
    | bad error =>
      rw [hv] at h
      exact h
    | fine =>
      rw [hv] at h
      exact ih h
    | nested itemType actualName a reqdName r error =>
      rw [hv] at h
      cases hr : recurse actualName reqdName itemType r a with
      | none =>
        simp only [hr] at h
        cases h
      | some result =>
        simp only [hr] at h
        simp only [hrec _ _ _ _ _ _ hr]
        cases result with
        | crash => exact h
        | done errors' =>
          simp only at h ⊢
          split at h
          · rename_i hstop
            rw [if_pos hstop]
            exact h
          · rename_i hgo
            rw [if_neg hgo]
            exact ih h

theorem validate_mono {fuel fuel' : Nat} (hle : fuel ≤ fuel') {outcome : Outcome N}
    (h : E.validateReqdSptrs fuel source interface sourceType r a = some outcome) :
    E.validateReqdSptrs fuel' source interface sourceType r a = some outcome := by
  induction fuel generalizing fuel' source interface sourceType r a outcome with
  | zero => cases h
  | succ fuel ih =>
    obtain ⟨fuel', rfl⟩ := Nat.exists_eq_succ_of_ne_zero (show fuel' ≠ 0 by omega)
    cases r with
    | none => exact h
    | some r =>
      cases a with
      | none => exact h
      | some a => exact columns_mono (fun _ _ _ _ _ _ => ih (by omega)) h

/-- The check ends where no chain of comparisons is endless. -/
theorem done_of_ends (h : E.Ends reqd actual) : ∃ fuel, ∀ source interface sourceType, ∃ errors,
    E.validateReqdSptrs fuel source interface sourceType (some reqd) (some actual) = some (.done errors) := by
  induction h with
  | intro reqd actual hsome _ ih =>
    -- the loop from any column on, behind columns that pass
    have hloop : ∀ columns before, reqd.columns = before ++ columns → (∀ b ∈ before, Passes E actual b) →
        ∃ fuel, ∀ source interface sourceType, ∃ errors,
          E.validateColumns (E.validateReqdSptrs fuel) sourceType source interface actual columns = some (.done errors) := by
      intro columns
      induction columns with
      | nil =>
        intro before _ _
        exact ⟨0, fun _ _ _ => ⟨[], rfl⟩⟩
      | cons c columns ihc =>
        intro before hcolumns hbefore
        -- what the column compares, if it does
        have hnested : ∃ fuel, ∀ r a, E.Names actual c r a → ∀ source interface sourceType, ∃ errors,
            E.validateReqdSptrs fuel source interface sourceType r a = some (.done errors) := by
          by_cases hnames : ∃ r a, E.Names actual c r a
          · obtain ⟨r, a, hnames⟩ := hnames
            have hleads : E.Leads reqd actual r a := ⟨before, c, columns, hcolumns, hnames, hbefore⟩
            obtain ⟨hr, ha⟩ := hsome r a hleads
            obtain ⟨r', rfl⟩ := Option.isSome_iff_exists.mp hr
            obtain ⟨a', rfl⟩ := Option.isSome_iff_exists.mp ha
            obtain ⟨fuel, hfuel⟩ := ih r' a' hleads
            refine ⟨fuel, ?_⟩
            intro r a hnames' source interface sourceType
            obtain ⟨rfl, rfl⟩ := names_unique hnames hnames'
            exact hfuel source interface sourceType
          · exact ⟨0, fun r a h => absurd ⟨r, a, h⟩ hnames⟩
        -- the columns behind it, if it passes
        have hrest : ∃ fuel, Passes E actual c → ∀ source interface sourceType, ∃ errors,
            E.validateColumns (E.validateReqdSptrs fuel) sourceType source interface actual columns = some (.done errors) := by
          by_cases hpass : Passes E actual c
          · obtain ⟨fuel, hfuel⟩ := ihc (before ++ [c]) (by rw [hcolumns, List.append_assoc]; rfl) (by
              intro b hb
              rcases List.mem_append.mp hb with hb | hb
              · exact hbefore b hb
              · rw [List.mem_singleton.mp hb]
                exact hpass)
            exact ⟨fuel, fun _ => hfuel⟩
          · exact ⟨0, fun h => absurd h hpass⟩
        obtain ⟨fuel₁, hnested⟩ := hnested
        obtain ⟨fuel₂, hrest⟩ := hrest
        have hrest' : Passes E actual c → ∀ source interface sourceType, ∃ errors,
            E.validateColumns (E.validateReqdSptrs (max fuel₁ fuel₂)) sourceType source interface actual columns =
              some (.done errors) := by
          intro hpass source interface sourceType
          obtain ⟨errors, herrors⟩ := hrest hpass source interface sourceType
          exact ⟨errors, columns_mono (fun _ _ _ _ _ _ => validate_mono (Nat.le_max_right ..)) herrors⟩
        refine ⟨max fuel₁ fuel₂, ?_⟩
        intro source interface sourceType
        rw [Decls.validateColumns]
        rcases validateColumn_cases E sourceType source interface actual c with
          ⟨error, hv, -⟩ | ⟨hv, hplain⟩ | ⟨itemType, actualName, a, reqdName, r, error, hv, hnames, hiff⟩
        · exact ⟨[error], by rw [hv]⟩
        · rw [hv]
          exact hrest' (passes_of_plain hplain) source interface sourceType
        · obtain ⟨errors, herrors⟩ := hnested r a hnames actualName reqdName itemType
          have hrec := validate_mono (Nat.le_max_left fuel₁ fuel₂) herrors
          simp only [hv, hrec]
          cases hstop : !errors.isEmpty with
          | true => exact ⟨_, rfl⟩
          | false => exact hrest' ((passes_nested (validate_exact _) hiff hrec).mp hstop) source interface sourceType
    obtain ⟨fuel, hfuel⟩ := hloop reqd.columns [] rfl (by simp)
    exact ⟨fuel + 1, hfuel⟩

end InterfacesAux

open InterfacesAux

/-- The check of an interface is right, ends and reports no error exactly for a compatible procedure, where no interface has failed
before, both have shapes and no chain of comparisons is endless. -/
theorem validateOneInterface_right_iff (E : Decls N) (failed : Bool) {interface : N} {reqd : Option (Shape N)}
    (h : E.interfaces interface = some reqd) (proc : N) (actual : Option (Shape N)) :
    (∃ fuel errors, E.validateOneInterface failed fuel proc interface actual = some (.done errors) ∧
      (errors = [] ↔ ∃ r a, reqd = some r ∧ actual = some a ∧ E.Compatible r a)) ↔
    failed = false ∧ ∃ r a, reqd = some r ∧ actual = some a ∧ E.Ends r a := by
  have hrun : ∀ fuel, E.validateOneInterface failed fuel proc interface actual =
      E.validateReqdSptrs fuel proc interface .procedure reqd (if failed then none else actual) := by
    intro fuel
    rw [Decls.validateOneInterface, h]
  constructor
  · rintro ⟨fuel, errors, hdone, -⟩
    rw [hrun] at hdone
    obtain ⟨r, a, rfl, hactual, -⟩ := validate_exact fuel _ _ _ _ _ _ hdone
    cases failed with
    | true => cases hactual
    | false =>
      obtain rfl : actual = some a := hactual
      exact ⟨rfl, r, a, rfl, rfl, ends_of_done hdone⟩
  · rintro ⟨rfl, r, a, rfl, rfl, hends⟩
    obtain ⟨fuel, hfuel⟩ := done_of_ends hends
    obtain ⟨errors, hdone⟩ := hfuel proc interface .procedure
    obtain ⟨r', a', hr, ha, hexact⟩ := validate_exact fuel _ _ _ _ _ _ hdone
    cases hr
    cases ha
    refine ⟨fuel, errors, (hrun fuel).trans hdone, ?_⟩
    have hshapes : (∃ r' a', some r = some r' ∧ some a = some a' ∧ E.Compatible r' a') ↔ E.Compatible r a := by
      constructor
      · rintro ⟨r', a', hr, ha, hcompatible⟩
        cases hr
        cases ha
        exact hcompatible
      · intro hcompatible
        exact ⟨r, a, rfl, rfl, hcompatible⟩
    rw [hexact, hshapes]
    exact compatible_iff.symm

/-- Two shapes of one column, whose kind is the name of the shape itself. -/
def selfNamed (name : String) : Shape String := ⟨[⟨"x", .object, false, false, some ⟨name, .none⟩⟩], by simp⟩

/-- `declare interface A (x object<A>)`, and the same for `B`. -/
def selfNamedDecls : Decls String where
  procs _ := none
  interfaces name := if name = "A" ∨ name = "B" then some (some (selfNamed name)) else none

/-- An integer column. -/
def oneInteger : Shape String := ⟨[⟨"x", .integer, true, false, none⟩], by simp⟩

/-- Every name is an interface with an integer column. -/
def integerDecls : Decls String where
  procs _ := none
  interfaces _ := some (some oneInteger)

/-- A result with an integer column implements it. -/
theorem validateOneInterface_integer : ∃ fuel errors, integerDecls.validateOneInterface false fuel "p" "I" (some oneInteger) = some (.done errors) ∧
    (errors = [] ↔ ∃ r a, some oneInteger = some r ∧ some oneInteger = some a ∧ integerDecls.Compatible r a) := by
  have hfound : integerDecls.interfaces "I" = some (some oneInteger) := rfl
  refine (validateOneInterface_right_iff integerDecls false hfound "p" (some oneInteger)).mpr
    ⟨rfl, oneInteger, oneInteger, rfl, rfl, ?_⟩
  have hnone : ∀ r a, ¬integerDecls.Leads oneInteger oneInteger r a := by
    rintro r a ⟨before, c, after, hcolumns, ⟨d, -, -, -, -, -, k, -, hk, -⟩, -⟩
    have hc : c ∈ oneInteger.columns := by
      rw [hcolumns]
      simp
    rw [List.mem_singleton.mp hc] at hk
    cases hk
  exact .intro _ _ (fun r a h => absurd h (hnone r a)) fun r a h => absurd h (hnone _ _)

/-- A result with `x object<A>` is compared with `B` for ever. -/
theorem validateOneInterface_false : ¬∀ (E : Decls String) failed interface reqd proc actual, E.interfaces interface = some reqd →
    ∃ fuel errors, E.validateOneInterface failed fuel proc interface actual = some (.done errors) ∧
      (errors = [] ↔ ∃ r a, reqd = some r ∧ actual = some a ∧ E.Compatible r a) := by
  intro h
  obtain ⟨fuel, errors, hdone, -⟩ := h selfNamedDecls false "B" (some (selfNamed "B")) "p" (some (selfNamed "A")) rfl
  have hloop : ∀ fuel source interface sourceType,
      selfNamedDecls.validateReqdSptrs fuel source interface sourceType (some (selfNamed "B")) (some (selfNamed "A")) = none := by
    intro fuel
    induction fuel with
    | zero => intro source interface sourceType; rfl
    | succ fuel ih =>
      intro source interface sourceType
      have hverdict : selfNamedDecls.validateColumn sourceType source interface (selfNamed "A") ⟨"x", .object, false, false, some ⟨"B", .none⟩⟩ =
          .nested .interface "A" (some (selfNamed "A")) "B" (some (selfNamed "B"))
            (.columnKind interface "x" ⟨"B", .none⟩ sourceType source (some ⟨"A", .none⟩)) := rfl
      have hcolumns : (selfNamed "B").columns = [⟨"x", .object, false, false, some ⟨"B", .none⟩⟩] := rfl
      rw [Decls.validateReqdSptrs, hcolumns, Decls.validateColumns, hverdict]
      simp only [ih]
  cases hdone.symm.trans (hloop fuel "p" "B" .procedure)

end CgSql.Interfaces
