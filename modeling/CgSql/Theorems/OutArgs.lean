import CgSql.Lemmas.OutArgs

/-!
# OUT arguments and names

The sort brings together the names that are spelled alike, so the check is exact for these; variables are found whatever the case of their names,
and also under qualified names. Where these notions differ, a variable is passed for two parameters, and DECLARE OUT CALL takes the flag off it twice.
-/

namespace CgSql.OutArgs

open SymbolTable (Name)

namespace Aux

variable {modes : List Mode} {arg : Arg} {scope after declared found globals : Scope} {n : ℕ} {q : QSort} {others : Arg → Mode → Bool}
  {state : LoopState}

/-! ### The first analysis -/

theorem outName_unflagged {args : List Written} : ∀ p ∈ outNames modes (args.map fun arg => (arg, false)), p.2 = false := by
  induction modes generalizing args with
  | nil => simp [outNames]
  | cons mode modes ih =>
    cases args with
    | nil => simp [outNames]
    | cons arg args =>
      rw [List.map_cons]
      unfold outNames
      split_ifs
      · exact ih
      · split
        · exact List.forall_mem_cons.mpr ⟨rfl, ih⟩
        · exact ih

/-- A bare name that is passed for OUT is among the arguments. -/
theorem mem_outNames {args : List (Written × Bool)} {p : Name × Bool} (h : p ∈ outNames modes args) :
    ∃ line improved mode, ((.arg (.id p.1 line improved), p.2), mode) ∈ args.zip modes ∧ mode.isIn = false := by
  fun_induction outNames modes args with
  | case1 mode modes arg flag args hin ih =>
    obtain ⟨line, improved, mode', hmem, hout⟩ := ih h
    exact ⟨line, improved, mode', List.mem_cons_of_mem _ hmem, hout⟩
  | case2 mode modes flag args hin name line improved ih =>
    rcases List.mem_cons.mp h with rfl | h
    · exact ⟨line, improved, mode, by simp, by simpa using hin⟩
    · obtain ⟨line', improved', mode', hmem, hout⟩ := ih h
      exact ⟨line', improved', mode', List.mem_cons_of_mem _ hmem, hout⟩
  | case3 mode modes arg flag args hin hbare ih =>
    obtain ⟨line, improved, mode', hmem, hout⟩ := ih h
    exact ⟨line, improved, mode', List.mem_cons_of_mem _ hmem, hout⟩
  | case4 => simp at h

theorem mem_expand {args : List Written} (h : .arg arg ∈ args) : arg ∈ expand args := by
  induction args with
  | nil => simp at h
  | cons w args ih =>
    rcases List.mem_cons.mp h with rfl | hmem
    · simp [expand]
    · cases w <;> simp [expand, ih hmem]

/-- A missing variable is passed as a bare name. -/
theorem bare_of_missing {args : List Written} {x : List UInt8} (h : Missing modes args scope x) :
    ∃ arg ∈ expand args, ∃ y, arg.bare = some y ∧ fold y = x := by
  obtain ⟨-, p, hp, rfl⟩ := h
  obtain ⟨line, improved, mode, hmem, -⟩ := mem_outNames hp
  have harg := (List.of_mem_zip hmem).1
  simp only [List.mem_map, Prod.mk.injEq] at harg
  obtain ⟨w, hw, rfl, -⟩ := harg
  exact ⟨.id p.1 line improved, mem_expand hw, p.1, rfl, rfl⟩

/-- The variables after the first loop, where no argument had a flag. -/
theorem first_scope {args : List Written}
    (h : declareArgs false modes (args.map fun arg => (arg, false)) scope 0 = .ok (after, n)) (x : List UInt8) :
    (after x = some true ↔ Flagged modes args scope x) ∧ (¬Flagged modes args scope x → after x = scope x) := by
  have hadded : Added (outNames modes (args.map fun arg => (arg, false))) scope x ↔ Missing modes args scope x := by
    constructor
    · rintro ⟨p, hp, hx, hflag | hnone⟩
      · simp [outName_unflagged p hp] at hflag
      · exact ⟨hnone, p, hp, hx⟩
    · rintro ⟨hnone, p, hp, hx⟩
      exact ⟨p, hp, hx, Or.inr hnone⟩
  have hscope := declareArgs_scope h x
  rw [hadded] at hscope
  by_cases hmissing : Missing modes args scope x
  · simp [Flagged, hmissing, hscope.1 hmissing]
  · simp [Flagged, hmissing, hscope.2 hmissing]

/-- What is found after the first loop. -/
theorem first_found {args : List Written}
    (h : declareArgs false modes (args.map fun arg => (arg, false)) scope 0 = .ok (after, n)) (x : List UInt8) :
    find globals after x = some true ↔ FoundFlagged globals modes args scope x := by
  obtain ⟨hset, hkept⟩ := first_scope h x
  by_cases hflagged : Flagged modes args scope x
  · have hfound : FoundFlagged globals modes args scope x := hflagged.imp_left fun hx => by simp [find, hx]
    simp [hfound, find, hset.mpr hflagged]
  · have hmissing : ¬Missing modes args scope x := fun hm => hflagged (Or.inr hm)
    simp [FoundFlagged, hmissing, find, hkept hflagged]

/-- With the counts of the first loop. -/
theorem passedOnce_iff {args : List Written} (h : declareArgs false modes (args.map fun arg => (arg, false)) scope 0 = .ok (after, n)) :
    PassedOnce state globals modes args scope ↔ OnNames (marked (find globals after) (resolved state (expand args) modes)) after ∧
      OnDifferent (marked (find globals after) (resolved state (expand args) modes)) := by
  have hnames : OnNames (marked (find globals after) (resolved state (expand args) modes)) after ↔
      ∀ arg ∈ resolved state (expand args) modes, ∀ x, arg.denotes = some x → FoundFlagged globals modes args scope (fold x) →
        arg.bare = some x ∧ Flagged modes args scope (fold x) := by
    simp only [onNames_marked, (first_scope h _).1, first_found h]
  rw [PassedOnce, ← hnames]
  refine and_congr_right fun hnames => ?_
  simp only [onDifferent_marked hnames, first_found h]

/-- What the first loop refuses is reported. -/
theorem first_ends (modes : List Mode) (args : List Written) (scope : Scope) :
    declareArgs false modes (args.map fun arg => (arg, false)) scope 0 ≠ .error .aborted := by
  refine (declareArgs_ends (fun p hp hflag => ?_) ?_).1
  · simp [outName_unflagged p hp] at hflag
  · refine List.pairwise_of_forall_mem_list fun p _ r hr hflag => ?_
    simp [outName_unflagged r hr] at hflag

theorem first_isFirst (place : Place) : decide (place.first = .reanalyze) = false := by
  cases place <;> rfl

theorem map_fst_unflagged (args : List Written) : (args.map fun arg => (arg, false)).map Prod.fst = args := by
  simp [Function.comp_def]

section First

variable {others : LoopState → Arg → Mode → Bool} {place : Place}

/-- What is not accepted is reported. -/
theorem refused_of_not {args : List Written} (h : ¬CallAccepted q (others place.first) place.first globals modes args scope) :
    ∃ e, declareOutCallStmt q others place.first globals modes (args.map fun arg => (arg, false)) scope = .error (.error e) := by
  rw [declareOutCallStmt, map_fst_unflagged, first_isFirst]
  rcases hloop : declareArgs false modes (args.map fun arg => (arg, false)) scope 0 with (_ | e) | ⟨after, n⟩
  · exact absurd hloop (first_ends modes args scope)
  · exact ⟨e, rfl⟩
  · by_cases hn : n = 0
    · exact ⟨.noMissingOut, by simp [hn]⟩
    · cases hcall : validateArgsVsFormals q (find globals after) (others place.first) place.first false (expand args) modes with
      | none => exact absurd ⟨after, n, hloop, hn, hcall⟩ h
      | some e => exact ⟨e, by simp [hn, hcall]⟩

/-- What is accepted aborts, or leaves the flags on bare names of different variables. -/
theorem first_of_accepted {args : List Written} (h : CallAccepted q (others place.first) place.first globals modes args scope) :
    ∃ declared n, declareArgs false modes (args.map fun arg => (arg, false)) scope 0 = .ok (declared, n) ∧ n ≠ 0 ∧
      validateArgsVsFormals q (find globals declared) (others place.first) place.first false (expand args) modes = none ∧
      (¬PassedOnce place.first globals modes args scope →
        declareOutCallStmt q others place.first globals modes (args.map fun arg => (arg, false)) scope = .error .aborted) ∧
      (PassedOnce place.first globals modes args scope → ∃ after,
        undecorate (marked (find globals declared) (resolved place.first (expand args) modes)) declared = some after ∧
          declareOutCallStmt q others place.first globals modes (args.map fun arg => (arg, false)) scope =
            .ok (after, marked (find globals declared) (resolved place.first (expand args) modes))) := by
  obtain ⟨declared, n, hloop, hn, hcall⟩ := h
  refine ⟨declared, n, hloop, hn, hcall, fun honce => ?_, fun honce => ?_⟩
  · rw [passedOnce_iff hloop, ← undecorate_isSome, Option.not_isSome_iff_eq_none] at honce
    simp [declareOutCallStmt, first_isFirst, Function.comp_def, hloop, hn, hcall, honce]
  · rw [passedOnce_iff hloop, ← undecorate_isSome, Option.isSome_iff_exists] at honce
    obtain ⟨after, hafter⟩ := honce
    refine ⟨after, hafter, ?_⟩
    simp [declareOutCallStmt, first_isFirst, Function.comp_def, hloop, hn, hcall, hafter]

end First

/-! ### The second analysis -/

/-- The arguments as the second analysis finds them: rewritten, and with their flags. -/
def again (found : Scope) (args : List Arg) : List (Written × Bool) := args.map fun arg => (.arg arg, arg.implicit found)

/-- The second analysis expands nothing. -/
theorem expand_again (found : Scope) (args : List Arg) : expand ((again found args).map Prod.fst) = args := by
  induction args with
  | nil => rfl
  | cons arg args ih => simpa [again, expand] using ih

/-- The state between the analyses, on which the second depends. -/
structure Ready (globals declared scope : Scope) (args : List Arg) (modes : List Mode) : Prop where
  length : args.length = modes.length
  names : OnNames (marked (find globals declared) args) declared
  different : OnDifferent (marked (find globals declared) args)
  /-- The first walk took the flags off. -/
  cleared : ∀ arg ∈ args, ∀ x, arg.denotes = some x → scope (fold x) ≠ some true ∧ (declared (fold x) = some true → scope (fold x) = some false)
  /-- No variable was taken away. -/
  kept : ∀ x, scope x = none → declared x = none
  /-- What is passed for OUT or INOUT was a variable. -/
  known : ∀ p ∈ args.zip modes, p.2.isOut = true → ∀ x, p.1.bare = some x → find globals scope (fold x) ≠ none

variable {declared scope : Scope} {modes : List Mode} {args : List Arg}

/-- The bare names that are passed for OUT, of arguments as they were rewritten. -/
theorem outNames_map (flag : Arg → Bool) (args : List Arg) (modes : List Mode) : outNames modes (args.map fun arg => (.arg arg, flag arg)) =
      (args.zip modes).filterMap fun p => if p.2.isIn then none else p.1.bare.map fun x => (x, flag p.1) := by
  induction args generalizing modes with
  | nil => cases modes <;> simp [outNames]
  | cons arg args ih =>
    cases modes with
    | nil => simp [outNames]
    | cons mode modes =>
      cases hin : mode.isIn with
      | true => simp [outNames, hin, ih]
      | false => cases arg <;> simp [outNames, hin, ih, Arg.bare]

theorem mem_outNames_map {flag : Arg → Bool} {p : Name × Bool} : p ∈ outNames modes (args.map fun arg => (.arg arg, flag arg)) ↔
      ∃ r ∈ args.zip modes, r.2.isIn = false ∧ r.1.bare = some p.1 ∧ flag r.1 = p.2 := by
  rw [outNames_map, List.mem_filterMap]
  refine exists_congr fun r => and_congr_right fun _ => ?_
  cases r.2.isIn with
  | true => simp
  | false => cases r.1.bare <;> simp [Prod.ext_iff]

theorem implicit_of_bare {x : Name} (h : arg.bare = some x) : arg.implicit found = true ↔ found (fold x) = some true := by
  rw [implicit_eq_true, denotes_of_bare h]
  simp

theorem isOut_of_isIn {mode : Mode} (h : mode.isIn = false) : mode.isOut = true := by
  cases mode <;> simp_all [Mode.isIn, Mode.isOut]

namespace Ready

variable (hready : Ready globals declared scope args modes)

include hready

/-- A flag is that of a variable of the table. -/
theorem own {arg : Arg} (harg : arg ∈ args) {x : Name} (hx : arg.denotes = some x) :
    find globals declared (fold x) = some true ↔ declared (fold x) = some true :=
  ⟨fun h => (onNames_marked.mp hready.names arg harg x hx h).2, fun h => by simp [find, h]⟩

/-- Variables that are declared come once. -/
theorem outNames_once : (outNames modes (again (find globals declared) args)).Pairwise fun p r => r.2 = true → fold p.1 ≠ fold r.1 := by
  have honce := (onDifferent_marked hready.names).mp hready.different
  rw [← List.map_fst_zip hready.length.le, List.pairwise_map] at honce
  rw [again, outNames_map, List.pairwise_filterMap]
  refine honce.imp fun {a b} hab p hp r hr hflag heq => ?_
  split_ifs at hp hr
  obtain ⟨x, hx, rfl⟩ := Option.map_eq_some_iff.mp hp
  obtain ⟨y, hy, rfl⟩ := Option.map_eq_some_iff.mp hr
  refine hab x y (denotes_of_bare hx) (denotes_of_bare hy) ?_ heq
  rw [heq]
  exact (implicit_of_bare hy).mp hflag

/-- The second walk over the arguments refuses only what is not a bare name. -/
theorem ends : declareArgs true modes (again (find globals declared) args) scope 0 ≠ .error .aborted ∧
    ((∀ p ∈ args.zip modes, p.2.isIn = false → ∃ x, p.1.bare = some x) →
      ∃ after n, declareArgs true modes (again (find globals declared) args) scope 0 = .ok (after, n)) := by
  have hvars : ∀ p ∈ outNames modes (again (find globals declared) args), p.2 = true → true = true ∧ scope (fold p.1) = some false := by
    intro p hp hflag
    obtain ⟨r, hr, -, hx, hf⟩ := mem_outNames_map.mp hp
    have harg := (List.of_mem_zip hr).1
    have hset := (hready.own harg (denotes_of_bare hx)).mp ((implicit_of_bare hx).mp (hf.trans hflag))
    exact ⟨rfl, (hready.cleared r.1 harg p.1 (denotes_of_bare hx)).2 hset⟩
  obtain ⟨hends, hbare⟩ := declareArgs_ends hvars hready.outNames_once
  refine ⟨hends, fun h => hbare fun p hp hin => ?_⟩
  rw [again, List.zip_map_left, List.mem_map] at hp
  obtain ⟨r, hr, rfl⟩ := hp
  obtain ⟨x, hx⟩ := h r hr hin
  obtain ⟨line, improved, harg⟩ := bare_eq_some.mp hx
  exact ⟨x, line, improved, congrArg Written.arg harg⟩

/-- A flag that is set again is that of one argument, passed for OUT. -/
theorem isOut_of_again {p : Arg × Mode} (hp : p ∈ args.zip modes) {x : Name} (hx : p.1.denotes = some x)
    (hset : declared (fold x) = some true) (hout : ∃ r ∈ outNames modes (again (find globals declared) args), fold r.1 = fold x) :
    p.2.isOut = true := by
  by_contra hin
  obtain ⟨r, hr, heq⟩ := hout
  obtain ⟨s, hs, hsout, hb, -⟩ := mem_outNames_map.mp hr
  have hne : p ≠ s := by
    rintro rfl
    exact hin (isOut_of_isIn hsout)
  have honce := (onDifferent_marked hready.names).mp hready.different
  rw [← List.map_fst_zip hready.length.le, List.pairwise_map] at honce
  have hboth : (args.zip modes).Pairwise fun a b => ∀ x y, a.1.denotes = some x → b.1.denotes = some y →
      find globals declared (fold x) = some true → find globals declared (fold y) = some true → fold x ≠ fold y :=
    honce.imp fun {a b} hab x y hx hy hset _ => hab x y hx hy hset
  have : Std.Symm fun a b : Arg × Mode => ∀ x y, a.1.denotes = some x → b.1.denotes = some y →
      find globals declared (fold x) = some true → find globals declared (fold y) = some true → fold x ≠ fold y :=
    ⟨fun a b hab x y hx hy hsetx hsety heq => hab y x hy hx hsety hsetx heq.symm⟩
  have hfound := (hready.own (List.of_mem_zip hp).1 hx).mpr hset
  exact hboth.forall hp hs hne x r.1 hx (denotes_of_bare hb) hfound (heq ▸ hfound) heq.symm

variable {after : Scope} {n : ℕ} (hloop : declareArgs true modes (again (find globals declared) args) scope 0 = .ok (after, n))

include hloop

omit hready in
theorem bare : ∀ p ∈ args.zip modes, p.2.isIn = false → ∃ x, p.1.bare = some x := by
  intro p hp hin
  obtain ⟨x, line, improved, h⟩ := declareArgs_bare hloop ((.arg p.1, p.1.implicit (find globals declared)), p.2)
    (by rw [again, List.zip_map_left, List.mem_map]; exact ⟨p, hp, rfl⟩) hin
  exact ⟨x, bare_eq_some.mpr ⟨line, improved, Written.arg.inj h⟩⟩

/-- The flags that are set: again, or for variables that are added only now. -/
theorem after_eq_true {arg : Arg} (harg : arg ∈ args) {x : Name} (hx : arg.denotes = some x) :
    after (fold x) = some true ↔ (declared (fold x) = some true ∨ scope (fold x) = none) ∧
      ∃ p ∈ outNames modes (again (find globals declared) args), fold p.1 = fold x := by
  have hscope := declareArgs_scope hloop (fold x)
  have hcleared := hready.cleared arg harg x hx
  have hadded : Added (outNames modes (again (find globals declared) args)) scope (fold x) ↔
      (declared (fold x) = some true ∨ scope (fold x) = none) ∧
        ∃ p ∈ outNames modes (again (find globals declared) args), fold p.1 = fold x := by
    constructor
    · rintro ⟨p, hp, heq, hnew⟩
      refine ⟨hnew.imp_left fun hflag => ?_, p, hp, heq⟩
      obtain ⟨r, hr, hin, hb, hf⟩ := mem_outNames_map.mp hp
      rw [← heq]
      exact (hready.own (List.of_mem_zip hr).1 (denotes_of_bare hb)).mp ((implicit_of_bare hb).mp (hf.trans hflag))
    · rintro ⟨hset, p, hp, heq⟩
      obtain ⟨r, hr, hin, hb, hf⟩ := mem_outNames_map.mp hp
      refine ⟨p, hp, heq, hset.imp_left fun hset => hf.symm.trans ((implicit_of_bare hb).mpr ?_)⟩
      rw [heq]
      exact (hready.own harg hx).mpr hset
  rw [← hadded]
  refine ⟨fun h => ?_, hscope.1⟩
  by_contra hn
  exact hcleared.1 ((hscope.2 hn).symm.trans h)

/-- What is found with the flag is a variable of the table. -/
theorem own_again {arg : Arg} (harg : arg ∈ args) {x : Name} (hx : arg.denotes = some x) :
    find globals after (fold x) = some true ↔ after (fold x) = some true := by
  refine ⟨fun h => ?_, fun h => by simp [find, h]⟩
  cases hafter : after (fold x) with
  | some flag => simpa [find, hafter] using h
  | none =>
    have hscope := declareArgs_scope hloop (fold x)
    have hnone : scope (fold x) = none := by
      by_contra hsome
      refine hsome ((hscope.2 fun hadded => ?_).symm.trans hafter)
      exact absurd (hafter.symm.trans (hscope.1 hadded)) (by simp)
    have hdeclared := hready.kept _ hnone
    have hfound : find globals declared (fold x) = some true := by simpa [find, hdeclared, hafter] using h
    exact absurd (hdeclared.symm.trans ((hready.own harg hx).mp hfound)) (by simp)

/-- The second analysis ends in its final walk exactly if what it adds is passed once. -/
theorem ends_again : (OnNames (marked (find globals after) (resolved .reanalyze args modes)) after ∧
      OnDifferent (marked (find globals after) (resolved .reanalyze args modes))) ↔
    (∀ arg ∈ resolved .reanalyze args modes, ∀ x, arg.denotes = some x →
      (scope (fold x) = none ∧ ∃ p ∈ outNames modes (again (find globals declared) args), fold p.1 = fold x) → arg.bare = some x) ∧
    (resolved .reanalyze args modes).Pairwise fun a b => ∀ x y, a.denotes = some x → b.denotes = some y →
      (scope (fold x) = none ∧ ∃ p ∈ outNames modes (again (find globals declared) args), fold p.1 = fold x) → fold x ≠ fold y := by
  have hflag : ∀ p ∈ args.zip modes, ∀ x, p.1.denotes = some x → (find globals after (fold x) = some true ↔
      (declared (fold x) = some true ∨ scope (fold x) = none) ∧
        ∃ p ∈ outNames modes (again (find globals declared) args), fold p.1 = fold x) := fun p hp x hx =>
    (hready.own_again hloop (List.of_mem_zip hp).1 hx).trans (hready.after_eq_true hloop (List.of_mem_zip hp).1 hx)
  have hnames : OnNames (marked (find globals after) (resolved .reanalyze args modes)) after ↔
      ∀ arg ∈ resolved .reanalyze args modes, ∀ x, arg.denotes = some x →
        (scope (fold x) = none ∧ ∃ p ∈ outNames modes (again (find globals declared) args), fold p.1 = fold x) → arg.bare = some x := by
    simp only [onNames_marked, resolved_eq_map hready.length, List.forall_mem_map, denotes_resolved]
    refine forall_congr' fun p => forall_congr' fun hp => forall_congr' fun x => forall_congr' fun hx => ?_
    have harg := (List.of_mem_zip hp).1
    constructor
    · rintro h ⟨hnone, hout⟩
      exact (h ((hflag p hp x hx).mpr ⟨Or.inr hnone, hout⟩)).1
    · intro h hset
      refine ⟨?_, (hready.own_again hloop harg hx).mp hset⟩
      obtain ⟨hset | hnone, hout⟩ := (hflag p hp x hx).mp hset
      · rw [resolved_of_out (hready.isOut_of_again hp hx hset hout)]
        exact (onNames_marked.mp hready.names p.1 harg x hx ((hready.own harg hx).mpr hset)).1
      · exact h ⟨hnone, hout⟩
  rw [← hnames]
  refine and_congr_right fun hon => ?_
  have honce := (onDifferent_marked hready.names).mp hready.different
  rw [← List.map_fst_zip hready.length.le, List.pairwise_map] at honce
  rw [onDifferent_marked hon, resolved_eq_map hready.length, List.pairwise_map, List.pairwise_map]
  simp only [denotes_resolved]
  constructor
  · intro h
    refine h.imp_of_mem fun {a b} ha _ hab x y hx hy hnew => ?_
    exact hab x y hx hy ((hflag a ha x hx).mpr ⟨Or.inr hnew.1, hnew.2⟩)
  · intro h
    refine (honce.and h).imp_of_mem fun {a b} ha _ hab x y hx hy hset => ?_
    obtain ⟨hset | hnone, hout⟩ := (hflag a ha x hx).mp hset
    · exact hab.1 x y hx hy ((hready.own (List.of_mem_zip ha).1 hx).mpr hset)
    · exact hab.2 x y hx hy ⟨hnone, hout⟩

end Ready

/-- When the check accepts the arguments. -/
theorem validate_eq_none : validateArgsVsFormals q scope others state false args modes = none ↔
      (args.length = modes.length ∧ ∀ p ∈ args.zip modes, validateArgVsFormal scope others p.1 p.2 = true) ∧
        NamesDiffer (resolved state args modes) modes := by
  rw [validateArgsVsFormals_eq_none, validateArgs_eq_nil]

theorem validateArgVsFormal_eq_true {mode : Mode} : validateArgVsFormal scope others arg mode = true ↔
      (mode.isOut = true → (∀ x, arg ≠ .expr x) ∧ ∀ x, arg.bare = some x → scope (fold x) ≠ none) ∧ others arg mode = true := by
  unfold validateArgVsFormal
  rw [Bool.and_eq_true]
  cases mode.isOut <;> cases arg <;> simp [Arg.bare, Option.isSome_iff_ne_none]

theorem afterRest_some (declares : List UInt8 → Bool) {x : List UInt8} {flag : Bool} (h : scope x = some flag) :
    scope.afterRest declares x = some flag := by
  simp [Scope.afterRest, h]

/-- An accepted first analysis, and the rest of the loop, leave what the second one depends on. -/
theorem ready_of_first (declares : List UInt8 → Bool)
    (hcall : validateArgsVsFormals q (find globals declared) others .analyze false args modes = none)
    (hnames : OnNames (marked (find globals declared) args) declared) (hdiff : OnDifferent (marked (find globals declared) args))
    (hafter : undecorate (marked (find globals declared) args) declared = some after) :
    Ready globals declared (after.afterRest declares) args modes := by
  obtain ⟨⟨hlen, hvalid⟩, -⟩ := validate_eq_none.mp hcall
  have hsome : ∀ x, declared x ≠ none → after x ≠ none := by
    intro x hx
    have hwalk := undecorate_scope hafter x
    by_cases hflag : OnFlag (marked (find globals declared) args) x
    · simp [hwalk.1 hflag]
    · rwa [hwalk.2 hflag]
  have hrest : ∀ x, after.afterRest declares x = none → after x = none := by
    intro x hx
    cases ha : after x with
    | none => rfl
    | some flag => exact absurd (hx.symm.trans (afterRest_some _ ha)) (by simp)
  refine ⟨hlen, hnames, hdiff, fun arg harg x hx => ?_, fun x hx => ?_, fun p hp hout x hx => ?_⟩
  · have hwalk := undecorate_scope hafter (fold x)
    by_cases hset : declared (fold x) = some true
    · have hfound : find globals declared (fold x) = some true := by simp [find, hset]
      have hflag : OnFlag (marked (find globals declared) args) (fold x) :=
        onFlag_marked.mpr ⟨hfound, arg, harg, x, (onNames_marked.mp hnames arg harg x hx hfound).1, rfl⟩
      have hcleared := afterRest_some declares (hwalk.1 hflag)
      exact ⟨by simp [hcleared], fun _ => hcleared⟩
    · refine ⟨?_, fun h => absurd h hset⟩
      have hkept := hwalk.2 fun hflag => by
        obtain ⟨hfound, arg', harg', y, hy, heq⟩ := onFlag_marked.mp hflag
        exact hset (heq ▸ (onNames_marked.mp hnames arg' harg' y (denotes_of_bare hy) (heq ▸ hfound)).2)
      rw [Scope.afterRest, hkept]
      split_ifs
      · simp
      · exact hset
  · by_contra hdeclared
    exact hsome x hdeclared (hrest x hx)
  · have hknown := ((validateArgVsFormal_eq_true.mp (hvalid p hp)).1 hout).2 x hx
    intro hnone
    have hscope : after.afterRest declares (fold x) = none := by
      cases h : after.afterRest declares (fold x) with
      | none => rfl
      | some flag => simp [find, h] at hnone
    have hdeclared : declared (fold x) = none := by
      by_contra hdeclared
      exact hsome _ hdeclared (hrest _ hscope)
    exact hknown (by simpa [find, hscope, hdeclared] using hnone)

/-- Whether arguments are passed for OUT does not depend on their flags. -/
theorem stillOut_iff {x : List UInt8} : (∃ p ∈ outNames modes (again found args), fold p.1 = x) ↔
      ∃ p ∈ outNames modes (args.map fun arg => (.arg arg, false)), fold p.1 = x := by
  constructor
  · rintro ⟨p, hp, hx⟩
    obtain ⟨r, hr, hin, hb, -⟩ := mem_outNames_map.mp hp
    exact ⟨(p.1, false), mem_outNames_map.mpr ⟨r, hr, hin, hb, rfl⟩, hx⟩
  · rintro ⟨p, hp, hx⟩
    obtain ⟨r, hr, hin, hb, -⟩ := mem_outNames_map.mp hp
    exact ⟨(p.1, r.1.implicit found), mem_outNames_map.mpr ⟨r, hr, hin, hb, rfl⟩, hx⟩


/-- The declarations of a statement after its last analysis. -/
theorem declares_iff {left : List Arg} (hnames : OnNames (marked found left) after) (hdiff : OnDifferent (marked found left))
    {P : List UInt8 → Prop} (hleft : ∀ x, P x → ∃ arg ∈ left, ∃ y, arg.denotes = some y ∧ fold y = x) :
    (∀ x, P x → ((declarations (marked found left)).map fold).count x = 1) ↔ ∀ x, P x → found x = some true := by
  refine forall_congr' fun x => imp_congr_right fun hx => ?_
  rw [count_declarations hdiff, onFlag_marked]
  refine and_iff_left_of_imp fun hset => ?_
  obtain ⟨arg, harg, y, hy, rfl⟩ := hleft x hx
  exact ⟨arg, harg, y, (onNames_marked.mp hnames arg harg y hy hset).1, rfl⟩

/-- A variable that is passed as a bare name is that of an argument as it is left. -/
theorem denotes_left {args : List Arg} {x : List UInt8} (h : ∃ arg ∈ args, ∃ y, arg.bare = some y ∧ fold y = x) :
    ∃ left ∈ resolved state args modes, ∃ y, left.denotes = some y ∧ fold y = x := by
  obtain ⟨arg, harg, y, hy, rfl⟩ := h
  obtain ⟨left, hleft, heq⟩ := exists_resolved harg modes
  exact ⟨left, hleft, y, heq.trans (denotes_of_bare hy), rfl⟩

/-- The first analysis met a parameter that is OUT. -/
theorem exists_out {args : List Written}
    (h : declareArgs false modes (args.map fun arg => (arg, false)) scope 0 = .ok (declared, n)) (hn : n ≠ 0) :
    ∃ mode ∈ modes, mode.isIn = false := by
  have hcount := declareArgs_count h
  obtain ⟨p, hp⟩ := List.exists_mem_of_length_pos (l := outNames modes (args.map fun arg => (arg, false))) (by omega)
  obtain ⟨line, improved, mode, hmem, hout⟩ := mem_outNames hp
  exact ⟨mode, (List.of_mem_zip hmem).2, hout⟩

/-- What the second analysis adds. -/
theorem missingAgain_iff {args : List Written} {declares : List UInt8 → Bool}
    (hloop : declareArgs false modes (args.map fun arg => (arg, false)) scope 0 = .ok (declared, n))
    (hafter : undecorate (marked found (expand args)) declared = some after) (x : List UInt8) :
    (after.afterRest declares x = none ∧ ∃ p ∈ outNames modes (again found (expand args)), fold p.1 = x) ↔
      MissingAgain declares modes args scope x := by
  have hfirst := first_scope hloop x
  have hdeclared : declared x = none ↔ scope x = none ∧ ¬Missing modes args scope x := by
    by_cases hflagged : Flagged modes args scope x
    · have hset := hfirst.1.mpr hflagged
      have hor : ¬(scope x = none ∧ ¬Missing modes args scope x) := by
        rintro ⟨hnone, hnot⟩
        rcases hflagged with hx | hx
        · simp [hnone] at hx
        · exact hnot hx
      simp [hset, hor]
    · have hnot : ¬Missing modes args scope x := fun h => hflagged (Or.inr h)
      simp [hfirst.2 hflagged, hnot]
  have hwalk := undecorate_scope hafter x
  have hkept : after x = none ↔ declared x = none := by
    by_cases hflag : OnFlag (marked found (expand args)) x
    · have hset : declared x ≠ none := by
        obtain ⟨p, hp, hf, y, hy, rfl⟩ := hflag
        obtain ⟨z, hz, hown⟩ := (undecorate_isSome.mp (by rw [hafter]; rfl)).1 p hp hf
        obtain rfl := Option.some.inj (hz.symm.trans hy)
        simp [hown]
      simp [hwalk.1 hflag, hset]
    · rw [hwalk.2 hflag]
  have hrest : after.afterRest declares x = none ↔ after x = none ∧ declares x = false := by
    unfold Scope.afterRest
    cases after x <;> cases declares x <;> simp
  rw [hrest, hkept, hdeclared, MissingAgain, stillOut_iff]
  simp only [and_assoc]

/-- The second analysis reports something exactly if it does so of an argument; else it aborts or leaves the flags on bare names of different
variables. -/
theorem Ready.second (q : QSort) (others : LoopState → Arg → Mode → Bool) {args : List Written}
    (hready : Ready globals declared scope (expand args) modes) (hdiffer : NamesDiffer (expand args) modes)
    (hout : ∃ mode ∈ modes, mode.isIn = false)
    (hnotExpr : ∀ p ∈ (expand args).zip modes, p.2.isOut = true → ∀ x, p.1 ≠ .expr x) : (¬AcceptedAgain (others .reanalyze) modes args →
        ∃ e, declareOutCallStmt q others .reanalyze globals modes (again (find globals declared) (expand args)) scope = .error (.error e)) ∧
      (AcceptedAgain (others .reanalyze) modes args → ∃ declared' n,
        declareArgs true modes (again (find globals declared) (expand args)) scope 0 = .ok (declared', n) ∧
          declareOutCallStmt q others .reanalyze globals modes (again (find globals declared) (expand args)) scope =
            match undecorate (marked (find globals declared') (resolved .reanalyze (expand args) modes)) declared' with
            | none => .error .aborted
            | some after => .ok (after, marked (find globals declared') (resolved .reanalyze (expand args) modes))) := by
  have hexpand : expand ((again (find globals declared) (expand args)).map Prod.fst) = expand args := expand_again _ (expand args)
  constructor
  · intro hnot
    rcases hloop : declareArgs true modes (again (find globals declared) (expand args)) scope 0 with (_ | e) | ⟨declared', n⟩
    · exact absurd hloop hready.ends.1
    · exact ⟨e, by simp only [declareOutCallStmt, decide_true, hloop]⟩
    · by_cases hn : n = 0
      · exact ⟨.noMissingOut, by simp [declareOutCallStmt, hloop, hn]⟩
      · cases hcall : validateArgsVsFormals q (find globals declared') (others .reanalyze) .reanalyze false (expand args) modes with
        | some e => exact ⟨e, by simp only [declareOutCallStmt, decide_true, hloop, hn, if_false, hexpand, hcall]⟩
        | none =>
          obtain ⟨⟨-, hvalid⟩, -⟩ := validate_eq_none.mp hcall
          refine absurd (fun p hp => ⟨?_, Ready.bare hloop p hp⟩) hnot
          exact (validateArgVsFormal_eq_true.mp (hvalid p hp)).2
  · intro hagain
    obtain ⟨declared', n, hloop⟩ := hready.ends.2 fun p hp => (hagain p hp).2
    have hn : n ≠ 0 := by
      obtain ⟨mode, hmode, hin⟩ := hout
      rw [← List.map_snd_zip hready.length.ge, List.mem_map] at hmode
      obtain ⟨p, hp, rfl⟩ := hmode
      obtain ⟨x, hx⟩ := Ready.bare hloop p hp hin
      have hmem : (x, p.1.implicit (find globals declared)) ∈ outNames modes (again (find globals declared) (expand args)) :=
        mem_outNames_map.mpr ⟨p, hp, hin, hx, rfl⟩
      have hpos := List.length_pos_of_mem hmem
      have hcount := declareArgs_count hloop
      omega
    have hcall : validateArgsVsFormals q (find globals declared') (others .reanalyze) .reanalyze false (expand args) modes = none := by
      refine validate_eq_none.mpr ⟨⟨hready.length, fun p hp => ?_⟩, namesDiffer_resolved hdiffer⟩
      refine validateArgVsFormal_eq_true.mpr ⟨fun hout => ⟨hnotExpr p hp hout, fun x hx => ?_⟩, (hagain p hp).1⟩
      have hscope := declareArgs_scope hloop (fold x)
      have hknown := hready.known p hp hout x hx
      by_cases hadded : Added (outNames modes (again (find globals declared) (expand args))) scope (fold x)
      · simp [find, hscope.1 hadded]
      · rwa [find, hscope.2 hadded, ← find]
    refine ⟨declared', n, hloop, ?_⟩
    cases hafter : undecorate (marked (find globals declared') (resolved .reanalyze (expand args) modes)) declared' <;>
      simp only [declareOutCallStmt, decide_true, hloop, hn, if_false, hexpand, hcall, hafter]

/-- In a loop, behind an accepted first analysis. -/
theorem loopRight_iff {q : QSort} {others : LoopState → Arg → Mode → Bool} {declares : List UInt8 → Bool} {args : List Written}
    (hloop : declareArgs false modes (args.map fun arg => (arg, false)) scope 0 = .ok (declared, n)) (hn : n ≠ 0)
    (hcall : validateArgsVsFormals q (find globals declared) (others .analyze) .analyze false (expand args) modes = none)
    (hnames : OnNames (marked (find globals declared) (expand args)) declared)
    (hdiff : OnDifferent (marked (find globals declared) (expand args)))
    (hafter : undecorate (marked (find globals declared) (expand args)) declared = some after)
    (hanalyze : analyze q others (.loop declares) globals modes args scope =
      declareOutCallStmt q others .reanalyze globals modes (again (find globals declared) (expand args)) (after.afterRest declares)) :
    DeclareRight q others (.loop declares) globals modes args scope ↔
      (AcceptedAgain (others .reanalyze) modes args → PassedOnceAgain declares modes args scope ∧ StillOut modes args scope) := by
  have hready := ready_of_first declares hcall hnames hdiff hafter
  obtain ⟨⟨-, hvalid⟩, hdiffer⟩ := validate_eq_none.mp hcall
  rw [resolved_analyze] at hdiffer
  obtain ⟨hnot, hyes⟩ := hready.second q others hdiffer (exists_out hloop hn)
    fun p hp hout => ((validateArgVsFormal_eq_true.mp (hvalid p hp)).1 hout).1
  by_cases hagain : AcceptedAgain (others .reanalyze) modes args
  · obtain ⟨declared', n', hloop', hsecond⟩ := hyes hagain
    have honce := hready.ends_again hloop'
    simp only [missingAgain_iff hloop hafter] at honce
    simp only [hagain, true_imp_iff]
    by_cases hpassed : PassedOnceAgain declares modes args scope
    · obtain ⟨hnames', hdiff'⟩ := honce.mpr hpassed
      obtain ⟨after', hafter'⟩ := Option.isSome_iff_exists.mp (undecorate_isSome.mpr ⟨hnames', hdiff'⟩)
      have hleft : ∀ x, (Place.loop declares).Missing modes args scope x →
          ∃ arg ∈ resolved .reanalyze (expand args) modes, ∃ y, arg.denotes = some y ∧ fold y = x := by
        rintro x (hmissing | ⟨_, ⟨⟩, -, p, hp, rfl⟩)
        · exact denotes_left (bare_of_missing hmissing)
        · obtain ⟨r, hr, -, hb, -⟩ := mem_outNames_map.mp hp
          exact denotes_left ⟨r.1, (List.of_mem_zip hr).1, p.1, hb, rfl⟩
      have hset : ∀ arg ∈ expand args, ∀ x, arg.denotes = some x → (find globals declared' (fold x) = some true ↔
          (declared (fold x) = some true ∨ after.afterRest declares (fold x) = none) ∧
            ∃ p ∈ outNames modes (again (find globals declared) (expand args)), fold p.1 = fold x) := fun arg harg x hx =>
        (hready.own_again hloop' harg hx).trans (hready.after_eq_true hloop' harg hx)
      have hdeclares : (∀ x, (Place.loop declares).Missing modes args scope x →
          ((declarations (marked (find globals declared') (resolved .reanalyze (expand args) modes))).map fold).count x = 1) ↔
            StillOut modes args scope := by
        rw [declares_iff hnames' hdiff' hleft]
        constructor
        · intro h x hmissing
          obtain ⟨arg, harg, y, hy, rfl⟩ := bare_of_missing hmissing
          exact stillOut_iff.mp ((hset arg harg y (denotes_of_bare hy)).mp (h _ (Or.inl hmissing))).2
        · rintro hstill x (hmissing | ⟨_, ⟨⟩, hmissing⟩)
          · obtain ⟨arg, harg, y, hy, rfl⟩ := bare_of_missing hmissing
            refine (hset arg harg y (denotes_of_bare hy)).mpr ⟨Or.inl ?_, stillOut_iff.mpr (hstill _ hmissing)⟩
            exact (first_scope hloop _).1.mpr (Or.inr hmissing)
          · obtain ⟨hnone, hout⟩ := (missingAgain_iff hloop hafter x).mpr hmissing
            obtain ⟨p, hp, rfl⟩ := hout
            obtain ⟨r, hr, -, hb, -⟩ := mem_outNames_map.mp hp
            exact (hset r.1 (List.of_mem_zip hr).1 p.1 (denotes_of_bare hb)).mpr ⟨Or.inr hnone, p, hp, rfl⟩
      simp only [DeclareRight, hanalyze, hsecond, hafter', Except.ok.injEq, Prod.mk.injEq, hpassed, true_and, ← hdeclares]
      simp
    · have habort : undecorate (marked (find globals declared') (resolved .reanalyze (expand args) modes)) declared' = none := by
        rw [← Option.not_isSome_iff_eq_none, undecorate_isSome]
        exact fun h => hpassed (honce.mp h)
      simp [DeclareRight, hanalyze, hsecond, habort, hpassed]
  · obtain ⟨e, he⟩ := hnot hagain
    simp [DeclareRight, hanalyze, he, hagain]

/-- DECLARE OUT CALL. -/
theorem declareRight_iff (q : QSort) (others : LoopState → Arg → Mode → Bool) (place : Place) (globals : Scope) (modes : List Mode)
    (args : List Written) (scope : Scope) : DeclareRight q others place globals modes args scope ↔
      (CallAccepted q (others place.first) place.first globals modes args scope → PassedOnce place.first globals modes args scope ∧
        ∀ declares, place = .loop declares → AcceptedAgain (others .reanalyze) modes args →
          PassedOnceAgain declares modes args scope ∧ StillOut modes args scope) := by
  by_cases hacc : CallAccepted q (others place.first) place.first globals modes args scope
  · simp only [hacc, true_imp_iff]
    obtain ⟨declared, n, hloop, hn, hcall, habort, hok⟩ := first_of_accepted hacc
    by_cases honce : PassedOnce place.first globals modes args scope
    · obtain ⟨after, hafter, hfirst⟩ := hok honce
      obtain ⟨hnames, hdiff⟩ := (passedOnce_iff hloop).mp honce
      simp only [honce, true_and]
      cases place with
      | outside =>
        have hanalyze : analyze q others .outside globals modes args scope =
            .ok (after, marked (find globals declared) (resolved .none (expand args) modes)) := by
          rw [analyze, hfirst]
          rfl
        have hmissing : ∀ x, Place.outside.Missing modes args scope x → find globals declared x = some true := by
          rintro x (h | ⟨_, h, -⟩)
          · exact (first_found hloop x).mpr (Or.inr h)
          · cases h
        have hdeclares := (declares_iff hnames hdiff fun x hx => by
          rcases hx with h | ⟨_, h, -⟩
          · exact denotes_left (bare_of_missing h)
          · cases h).mpr hmissing
        simp only [DeclareRight, hanalyze, Except.ok.injEq, Prod.mk.injEq]
        simpa [Place.first] using hdeclares
      | loop declares =>
        have hfirst' : Place.first (.loop declares) = .analyze := rfl
        rw [hfirst'] at hcall hfirst
        rw [hfirst', resolved_analyze] at hnames hdiff hafter
        rw [resolved_analyze] at hfirst
        have hanalyze : analyze q others (.loop declares) globals modes args scope =
            declareOutCallStmt q others .reanalyze globals modes (again (find globals declared) (expand args)) (after.afterRest declares) := by
          simp [analyze, hfirst', hfirst, marked, again, Function.comp_def]
        rw [loopRight_iff hloop hn hcall hnames hdiff hafter hanalyze]
        exact ⟨fun h _ heq => by cases heq; exact h, fun h => h _ rfl⟩
    · simp [DeclareRight, analyze, habort honce, honce]
  · obtain ⟨e, he⟩ := refused_of_not hacc
    simp [DeclareRight, analyze, he, hacc]

end Aux

open Aux

/-- The arguments do not alias, and what does not alias is accepted, exactly where each variable that is passed twice is passed under names that are
spelled alike and no improved ones; and DECLARE OUT CALL is right exactly where a variable with the flag is one of its own table and passed once, by
its bare name, and for OUT again when the statement is analysed for the second time. -/
theorem outArgs_right_iff (q : QSort) : (∀ scope others state procAsFunc args modes, CallRight q scope others state procAsFunc args modes ↔
      (procAsFunc = false → validateArgs scope others false args modes 1 = .ok ([], []) → ¬Unaliased args modes →
        ¬NamesDiffer (resolved state args modes) modes)) ∧
    ∀ others place globals modes args scope, DeclareRight q others place globals modes args scope ↔
      (CallAccepted q (others place.first) place.first globals modes args scope → PassedOnce place.first globals modes args scope ∧
        ∀ declares, place = .loop declares → AcceptedAgain (others .reanalyze) modes args →
          PassedOnceAgain declares modes args scope ∧ StillOut modes args scope) :=
  ⟨callRight_iff q, declareRight_iff q⟩

namespace Aux

/-- `X` -/
def upperX : Name := ⟨[88], by decide⟩

theorem zero_notMem_lowerX : (0 : UInt8) ∉ [120] := by decide

/-- `x` -/
def lowerX : Name := ⟨[120], zero_notMem_lowerX⟩

theorem clash_xs : ¬Unaliased [.id upperX 1 false, .id lowerX 1 false] [.out, .out] := by
  intro h
  exact (List.pairwise_pair.mp h).1 ⟨rfl, upperX, lowerX, rfl, rfl, by decide⟩

theorem differ_xs : NamesDiffer [.id upperX 1 false, .id lowerX 1 false] [.out, .out] := by
  rw [← pairwise_differ]
  simp [taggedIds, Differ, upperX, lowerX]

end Aux

/-- `CALL p(X, x)` for two OUT parameters passes one variable twice, and `DECLARE OUT CALL p(X, x)` aborts. -/
theorem outArgs_right_false : (¬∀ q scope others state procAsFunc args modes, CallRight q scope others state procAsFunc args modes) ∧
      ¬∀ q others place globals modes args scope, DeclareRight q others place globals modes args scope := by
  constructor
  · intro h
    have hcall := (callRight_iff mergeSort _ _ _ _ _ _).mp
      (h mergeSort (fun _ => some false) (fun _ _ => true) .none false [.id upperX 1 false, .id lowerX 1 false] [.out, .out])
    exact hcall rfl rfl clash_xs differ_xs
  · intro h
    have hdeclare := (declareRight_iff mergeSort _ _ _ _ _ _).mp
      (h mergeSort (fun _ _ _ => true) .outside (fun _ => none) [.out, .out] [.arg (.id upperX 1 false), .arg (.id lowerX 1 false)] fun _ => none)
    have haccepted : CallAccepted mergeSort (fun _ _ => true) .none (fun _ => none) [.out, .out]
        [.arg (.id upperX 1 false), .arg (.id lowerX 1 false)] fun _ => none :=
      ⟨Scope.set (fun _ => none) upperX true, 2, rfl, by decide, validateArgsVsFormals_eq_none.mpr ⟨rfl, differ_xs⟩⟩
    have honce := List.pairwise_pair.mp (hdeclare haccepted).1.2
    exact honce upperX lowerX rfl rfl (Or.inr ⟨rfl, (upperX, false), by simp [outNames, Mode.isIn], rfl⟩) (by decide)

end CgSql.OutArgs
