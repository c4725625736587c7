import CgSql.Printf

/-!
# The iterator over format strings

`printf_iterator_next` accepts the format strings of the grammar, and returns the types of their arguments: runs of the iterator to the
end, state by state.
-/

namespace CgSql.Printf

namespace PrintfAux

variable {it it' : Iterator} {types : List SemType} {more : List Flag} {spec : TypeSpec}

/-! ## Runs to the end -/

/-- The rest of a call that is in its loop, and the calls after it. -/
def resume (fuel rounds count : Nat) (it : Iterator) : Option (List SemType × SemType) := do
  let (semType, it) ← loop fuel it
  if semType = .ok ∨ semType = .error then return ([], semType)
  else do
    let (types, done) ← calls rounds count it
    return (semType :: types, done)

/-- The iterator, in its loop, gets to the end: it returns the types before the end. -/
def Drives (it : Iterator) (types : List SemType) (done : SemType) : Prop :=
  ∃ n, ∀ fuel ≥ n, ∀ rounds ≥ n, ∀ count ≥ n, resume fuel rounds count it = some (types, done)

/-- The contract of `printf_iterator_next`. -/
def Callable (it : Iterator) : Prop := it.semType = .pending ∧ (it.state = .start ∨ it.width = .star)

/-- A call resumes the loop. -/
theorem calls_succ {rounds count : Nat} (h : Callable it) : calls rounds (count + 1) it = resume rounds rounds count it := by
  rw [calls, next, if_pos ⟨h.1, h.2⟩]
  rfl

/-- A round of the loop goes on, or returns a type. -/
theorem resume_succ (fuel rounds count : Nat) (it : Iterator) : resume (fuel + 1) rounds count it = (round it).bind fun
      | .again it => resume fuel rounds count it
      | .ret semType it => if semType = .ok ∨ semType = .error then some ([], semType)
        else (calls rounds count it).map fun (types, done) => (semType :: types, done) := by
  rw [resume, loop]
  cases round it with
  | none => rfl
  | some r =>
    cases r with
    | again it => rfl
    | ret semType it =>
      show (if _ then _ else _) = _
      simp only [Option.bind_some]
      split
      · rfl
      · cases calls rounds count it <;> rfl

/-- A round that goes on. -/
theorem Drives.again {done : SemType} (hround : round it = some (.again it')) (h : Drives it' types done) : Drives it types done := by
  obtain ⟨n, hn⟩ := h
  refine ⟨n + 1, fun fuel hfuel rounds hrounds count hcount => ?_⟩
  obtain ⟨fuel, rfl⟩ := Nat.exists_eq_add_of_le' (Nat.le_of_add_left_le hfuel)
  rw [resume_succ, hround]
  exact hn fuel (by omega) rounds (by omega) count (by omega)

/-- A round that ends the run. -/
theorem Drives.done {done : SemType} (hdone : done = .ok ∨ done = .error) (hround : round it = some (.ret done it')) : Drives it [] done := by
  refine ⟨1, fun fuel hfuel rounds hrounds count hcount => ?_⟩
  obtain ⟨fuel, rfl⟩ := Nat.exists_eq_add_of_le' hfuel
  rw [resume_succ, hround]
  exact if_pos hdone

/-- A round that returns a type. -/
theorem Drives.ret {semType : SemType} {done : SemType}
    (hround : round it = some (.ret semType it')) (htype : ¬(semType = .ok ∨ semType = .error)) (hcall : Callable it')
    (h : Drives it' types done) : Drives it (semType :: types) done := by
  obtain ⟨n, hn⟩ := h
  refine ⟨n + 1, fun fuel hfuel rounds hrounds count hcount => ?_⟩
  obtain ⟨fuel, rfl⟩ := Nat.exists_eq_add_of_le' (Nat.le_of_add_left_le hfuel)
  obtain ⟨count, rfl⟩ := Nat.exists_eq_add_of_le' (Nat.le_of_add_left_le hcount)
  rw [resume_succ, hround]
  show (if _ then _ else _) = _
  rw [if_neg htype, calls_succ hcall, hn rounds (by omega) rounds (by omega) count (by omega)]
  rfl

/-- An error is returned in the next round. -/
theorem Drives.failed (hround : round it = some (.again it')) (herror : it'.semType = .error) : Drives it [] .error := by
  have hdone : round it' = some (.ret .error it') := by
    rw [round, if_pos (by rw [herror]; decide), herror]
  exact Drives.again hround (Drives.done (.inr rfl) hdone)

/-- A run has one result. -/
theorem Drives.unique {types' : List SemType} {done done' : SemType} (h : Drives it types done)
    (h' : Drives it types' done') : types = types' ∧ done = done' := by
  obtain ⟨n, hn⟩ := h
  obtain ⟨m, hm⟩ := h'
  have heq := (hn (max n m) (Nat.le_max_left _ _) (max n m) (Nat.le_max_left _ _) (max n m) (Nat.le_max_left _ _)).symm.trans
    (hm (max n m) (Nat.le_max_right _ _) (max n m) (Nat.le_max_right _ _) (max n m) (Nat.le_max_right _ _))
  exact Prod.mk.inj (Option.some.inj heq)

/-! ## The states -/

/-- The iterator in a state, before a text. -/
def mid (state : State) (flags : List Flag) (width : Width) (length : Length) (text : List Char) : Iterator :=
  { flags, formatString := text ++ [nul], length, semType := .pending, state, width, report := none }

/-- The iterator outside of substitutions. -/
def start (text : List Char) : Iterator := mid .start [] .none .default text

variable {state : State} {flags : List Flag} {width : Width} {length : Length} {text : List Char} {types : List SemType}
  {done : SemType} {c : Char}

/-- A text that ends within a substitution is an error. -/
theorem drives_incomplete (h : state ≠ .start) : Drives (mid state flags width length []) [] .error :=
  Drives.done (.inr rfl) (by simp [round, mid, h]; rfl)

/-- A text that ends outside of one is not. -/
theorem drives_end : Drives (start []) [] .ok := Drives.done (.inl rfl) (by simp [round, start, mid]; rfl)

/-- A character outside of substitutions is passed over. -/
theorem drives_char (hc : c ≠ nul) (hpercent : c ≠ '%') (h : Drives (start text) types done) : Drives (start (c :: text)) types done :=
  h.again (by simp [round, start, mid, hc, hpercent, consume, advance])

/-- A `%` starts a substitution. -/
theorem drives_percent (h : Drives (mid .percent [] .none .default text) types done) : Drives (start ('%' :: text)) types done :=
  h.again (by simp [round, start, mid, consume, advance, show '%' ≠ nul by decide])

/-- A doubled one stands for itself. -/
theorem drives_percentPercent (h : Drives (start text) types done) : Drives (mid .percent [] .none .default ('%' :: text)) types done :=
  h.again (by simp [round, start, mid, consume, advance, show '%' ≠ nul by decide])

/-- Any other character behind it is read as a flag. -/
theorem drives_toFlag (hc : c ≠ nul) (hpercent : c ≠ '%') (h : Drives (mid .flag [] .none .default (c :: text)) types done) :
    Drives (mid .percent [] .none .default (c :: text)) types done :=
  h.again (by simp [round, mid, hc, hpercent])

/-! ### Flags -/

/-- Flags that go together. -/
def Fine (flags : List Flag) : Prop := flags.Nodup ∧ ¬(.plus ∈ flags ∧ .space ∈ flags)

/-- A flag is read from its character. -/
theorem flagOfChar_char (f : Flag) : flagOfChar f.char = some f := by cases f <;> decide

/-- No flag is the null character. -/
theorem flag_char_ne (f : Flag) : f.char ≠ nul := by cases f <;> decide

/-- A character is read as the flag that it stands for. -/
theorem char_flagOfChar {f : Flag} (h : flagOfChar c = some f) : c = f.char := by
  unfold flagOfChar at h
  split_ifs at h <;> · obtain rfl := Option.some.inj h; assumption

/-- Flags that go together go together so far. -/
theorem fine_of_append (h : Fine (flags ++ more)) : Fine flags := by
  refine ⟨(List.nodup_append.mp h.1).1, fun hboth => h.2 ?_⟩
  exact ⟨List.mem_append_left _ hboth.1, List.mem_append_left _ hboth.2⟩

/-- A flag is added, or does not go with the others. -/
theorem addFlagChar_mid (width : Width) (length : Length) (text : List Char) (f : Flag) (hfine : Fine flags) :
    ∃ it, addFlagChar (mid .flag flags width length text) f.char = some it ∧
      (Fine (flags ++ [f]) → it = mid .flag (flags ++ [f]) width length text) ∧
      (¬Fine (flags ++ [f]) → ∃ msg subject, it = (mid .flag flags width length text).error msg subject) := by
  have hadd : addFlagChar (mid .flag flags width length text) f.char =
      some (if f ∈ flags then (mid .flag flags width length text).error "CQL0411: duplicate flag in substitution" (String.singleton f.char)
        else if flags.any plusOrSpace ∧ plusOrSpace f then
          (mid .flag flags width length text).error "CQL0412: cannot combine '+' flag with space flag" ""
        else mid .flag (flags ++ [f]) width length text) := by
    rw [addFlagChar, if_pos ⟨rfl, rfl⟩, flagOfChar_char]
    rfl
  refine ⟨_, hadd, fun h => ?_, fun h => ?_⟩
  · have hnotMem : f ∉ flags := fun hin => by
      have := h.1
      simp only [List.nodup_append, List.mem_singleton] at this
      exact this.2.2 f hin f rfl rfl
    have hnotBoth : ¬(flags.any plusOrSpace = true ∧ plusOrSpace f = true) := by
      rintro ⟨hany, hf⟩
      obtain ⟨g, hg, hgp⟩ := List.any_eq_true.mp hany
      have hboth := h.2
      simp only [plusOrSpace, decide_eq_true_eq] at hf hgp
      rcases hf with rfl | rfl <;> rcases hgp with rfl | rfl <;> simp_all
    rw [if_neg hnotMem, if_neg hnotBoth]
  · split_ifs with hmem hboth
    · exact ⟨_, _, rfl⟩
    · exact ⟨_, _, rfl⟩
    · refine absurd ⟨?_, ?_⟩ h
      · simp only [List.nodup_append, List.mem_singleton, hfine.1, true_and]
        refine ⟨by simp, fun a ha b hb heq => hmem ?_⟩
        rwa [← hb, ← heq]
      · rintro ⟨hplus, hspace⟩
        simp only [List.mem_append, List.mem_singleton] at hplus hspace
        simp only [List.any_eq_true, plusOrSpace, decide_eq_true_eq] at hboth
        have hold := hfine.2
        rcases hplus with hplus | rfl <;> rcases hspace with hspace | hspace
        · exact hold ⟨hplus, hspace⟩
        · exact hboth ⟨⟨_, hplus, .inl rfl⟩, .inr hspace.symm⟩
        · exact hboth ⟨⟨_, hspace, .inr rfl⟩, .inl rfl⟩
        · cases hspace

/-- The round that reads a flag. -/
theorem round_flag (f : Flag) : round (mid .flag flags width length (f.char :: text)) =
    (addFlagChar (mid .flag flags width length (f.char :: text)) f.char).bind consume := by
  simp [round, mid, flag_char_ne, flagOfChar_char]

/-- Flags that go together are read. -/
theorem drives_flags (hfine : Fine (flags ++ more)) (h : Drives (mid .flag (flags ++ more) width length text) types done) :
    Drives (mid .flag flags width length (more.map Flag.char ++ text)) types done := by
  induction more generalizing flags with
  | nil => rwa [List.append_nil] at h
  | cons f more ih =>
    rw [List.append_cons] at hfine h
    obtain ⟨it, hadd, hit, -⟩ := addFlagChar_mid width length (f.char :: (more.map Flag.char ++ text)) f (fine_of_append (fine_of_append hfine))
    obtain rfl := hit (fine_of_append hfine)
    refine (ih hfine h).again ?_
    rw [List.map_cons, List.cons_append, round_flag, hadd]
    rfl

/-- A flag that does not go with those before is an error. -/
theorem drives_flags_error (hfine : Fine flags) (h : ¬Fine (flags ++ more)) :
    Drives (mid .flag flags width length (more.map Flag.char ++ text)) [] .error := by
  induction more generalizing flags with
  | nil => exact absurd hfine (by rwa [List.append_nil] at h)
  | cons f more ih =>
    rw [List.append_cons] at h
    obtain ⟨it, hadd, hit, herror⟩ := addFlagChar_mid width length (f.char :: (more.map Flag.char ++ text)) f hfine
    have hround : round (mid .flag flags width length ((f :: more).map Flag.char ++ text)) = consume it := by
      rw [List.map_cons, List.cons_append, round_flag, hadd]
      rfl
    by_cases hf : Fine (flags ++ [f])
    · obtain rfl := hit hf
      exact (ih hf h).again hround
    · obtain ⟨msg, subject, rfl⟩ := herror hf
      exact Drives.failed hround rfl

/-- What is no flag is read as a width. -/
theorem drives_toWidth (hc : c ≠ nul) (hflag : flagOfChar c = none) (h : Drives (mid .width flags width length (c :: text)) types done) :
    Drives (mid .flag flags width length (c :: text)) types done :=
  h.again (by simp [round, mid, hc, hflag])

/-! ### Width, precision and length -/

/-- No digit is the null character. -/
theorem digit_ne (h : isDigit c = true) : c ≠ nul := by
  rintro rfl
  exact absurd h (by decide)

/-- A digit starts a width. -/
theorem drives_digit (hc : isDigit c = true) (h : Drives (mid .widthNumeric flags .numeric length text) types done) :
    Drives (mid .width flags .none length (c :: text)) types done :=
  h.again (by simp [round, mid, digit_ne hc, hc, setWidth, consume, advance])

/-- Further digits belong to a width, as digits do to a precision. -/
theorem drives_digits (hstate : state = .widthNumeric ∨ state = .precision) {ds : List Char} (hds : ds.all isDigit = true)
    (h : Drives (mid state flags width length text) types done) : Drives (mid state flags width length (ds ++ text)) types done := by
  induction ds with
  | nil => exact h
  | cons c ds ih =>
    rw [List.all_cons, Bool.and_eq_true] at hds
    refine (ih hds.2).again ?_
    rcases hstate with rfl | rfl <;> simp [round, mid, digit_ne hds.1, hds.1, consume, advance]

/-- What is no digit ends it. -/
theorem drives_digitsDot (hc : c ≠ nul) (hdigit : isDigit c = false) (h : Drives (mid .dot flags width length (c :: text)) types done) :
    Drives (mid .widthNumeric flags width length (c :: text)) types done :=
  h.again (by simp [round, mid, hc, hdigit])

/-- The call returns before the star's substitution is read. -/
theorem drives_star (h : Drives (mid .dot flags .star length text) types done) :
    Drives (mid .width flags .none length ('*' :: text)) (.integer :: types) done := by
  refine Drives.ret ?_ (by decide) ⟨rfl, .inr rfl⟩ h
  simp [round, mid, suspendForStar, setWidth, advance, show '*' ≠ nul by decide, show isDigit '*' = false by decide]

/-- The flags that a width is needed for. -/
def NeedsWidth (flags : List Flag) : Prop := .minus ∈ flags ∨ .zero ∈ flags

/-- There may be no width where no flag needs one. -/
theorem drives_noWidth (hc : c ≠ nul) (hdigit : isDigit c = false) (hstar : c ≠ '*') (hflags : ¬NeedsWidth flags)
    (h : Drives (mid .dot flags .none length (c :: text)) types done) : Drives (mid .width flags .none length (c :: text)) types done := by
  have hneeds : ¬(.minus ∈ flags ∨ .zero ∈ flags) := hflags
  exact h.again (by simp [round, mid, hc, hdigit, hstar, setWidth, hneeds])

/-- It is an error where a flag needs one. -/
theorem drives_noWidth_error (hc : c ≠ nul) (hdigit : isDigit c = false) (hstar : c ≠ '*') (hflags : NeedsWidth flags) :
    Drives (mid .width flags .none length (c :: text)) [] .error := by
  have hneeds : .minus ∈ flags ∨ .zero ∈ flags := hflags
  have hset : ∃ it, setWidth (mid .width flags .none length (c :: text)) .none = some it ∧ it.semType = .error :=
    ⟨_, by rw [setWidth, if_pos ⟨rfl, rfl, rfl⟩, if_pos ⟨rfl, hneeds⟩], rfl⟩
  obtain ⟨it, hset, herror⟩ := hset
  refine Drives.failed (?_ : _ = some (Round.again { it with state := .dot })) herror
  have hround : round (mid .width flags .none length (c :: text)) =
      (setWidth (mid .width flags .none length (c :: text)) .none).bind fun it => some (.again { it with state := .dot }) := by
    simp [round, mid, hc, hdigit, hstar]
  rw [hround, hset]
  rfl

/-- A point starts a precision. -/
theorem drives_dot (h : Drives (mid .precision flags width length text) types done) :
    Drives (mid .dot flags width length ('.' :: text)) types done :=
  h.again (by simp [round, mid, consume, advance, show '.' ≠ nul by decide])

/-- There may be none. -/
theorem drives_noDot (hc : c ≠ nul) (hdot : c ≠ '.') (h : Drives (mid .lengthLong flags width length (c :: text)) types done) :
    Drives (mid .dot flags width length (c :: text)) types done :=
  h.again (by simp [round, mid, hc, hdot])

/-- What is no digit ends it. -/
theorem drives_toLength (hc : c ≠ nul) (hdigit : isDigit c = false) (h : Drives (mid .lengthLong flags width length (c :: text)) types done) :
    Drives (mid .precision flags width length (c :: text)) types done :=
  h.again (by simp [round, mid, hc, hdigit])

/-- An `l` starts a length. -/
theorem drives_l (h : Drives (mid .lengthLongLong flags width length text) types done) :
    Drives (mid .lengthLong flags width length ('l' :: text)) types done :=
  h.again (by simp [round, mid, consume, advance, show 'l' ≠ nul by decide])

/-- There may be none. -/
theorem drives_noLength (hc : c ≠ nul) (hl : c ≠ 'l') (h : Drives (mid .type flags width .default (c :: text)) types done) :
    Drives (mid .lengthLong flags width length (c :: text)) types done :=
  h.again (by simp [round, mid, hc, hl, setLength])

/-- A second `l` ends it. -/
theorem drives_ll (hflags : .bang ∉ flags) (h : Drives (mid .type flags width .longLong text) types done) :
    Drives (mid .lengthLongLong flags width length ('l' :: text)) types done :=
  h.again (by simp [round, mid, consume, advance, setLength, hflags, show 'l' ≠ nul by decide])

/-- It is an error behind the flag `!`. -/
theorem drives_ll_error (hflags : .bang ∈ flags) : Drives (mid .lengthLongLong flags width length ('l' :: text)) [] .error := by
  have hround : round (mid .lengthLongLong flags width length ('l' :: text)) =
      some (.again ((mid .type flags width length text).error "CQL0415: length specifier cannot be combined with '!' flag" "")) := by
    simp [round, mid, consume, advance, setLength, hflags, Iterator.error, show 'l' ≠ nul by decide]
  exact Drives.failed hround rfl

/-- One `l` alone is an error. -/
theorem drives_l_error (hc : c ≠ nul) (hl : c ≠ 'l') : Drives (mid .lengthLongLong flags width length (c :: text)) [] .error := by
  have hround : round (mid .lengthLongLong flags width length (c :: text)) = some (.again
      ((mid .type flags width length (c :: text)).error "CQL0414: 'l' length specifier has no effect; consider 'll' instead" "")) := by
    simp [round, mid, hc, hl, setLength, Iterator.error]
  exact Drives.failed hround rfl

/-! ### Types -/

/-- The rules for a type, the flags and the length. -/
def Fits (spec : TypeSpec) (flags : List Flag) (length : Length) : Prop :=
  (∀ f ∈ flags, f ∈ spec.validFlags) ∧ (length ≠ .default → spec.allowsLength = true)

instance (spec : TypeSpec) (flags : List Flag) (length : Length) : Decidable (Fits spec flags length) :=
  inferInstanceAs (Decidable (_ ∧ _))

/-- The characters of types. -/
theorem typeSpec_mem (h : typeSpec c = some spec) : c ∈ ['d', 'i', 'u', 'f', 'e', 'E', 'g', 'G', 'x', 'X', 'o', 's'] := by
  unfold typeSpec at h
  split_ifs at h <;> simp only [List.mem_cons, List.not_mem_nil] <;> tauto

/-- A type is one of a value. -/
theorem semType_typeSpec (h : typeSpec c = some spec) (length : Length) :
    spec.semType length = .integer ∨ spec.semType length = .longInteger ∨ spec.semType length = .real ∨ spec.semType length = .text := by
  unfold typeSpec at h
  split_ifs at h <;> obtain rfl := Option.some.inj h <;> cases length <;> decide

/-- The round that reads a type. -/
theorem round_type (hc : c ≠ nul) : round (mid .type flags width length (c :: text)) =
    (setTypeChar (mid .type flags width length (c :: text)) c).bind fun it =>
      if it.semType ≠ .error then (reset it).map (.ret it.semType) else some (.ret it.semType it) := by
  simp only [round, mid, List.cons_append, List.head?_cons, Option.bind_eq_bind, Option.bind_some, hc, if_false, ne_eq, not_true_eq_false]
  cases setTypeChar _ c with
  | none => rfl
  | some it =>
    simp only [Option.bind_some]
    split_ifs
    · rfl
    · cases reset it <;> rfl

/-- A type is accepted where flags and length fit it. -/
theorem setTypeChar_mid (flags : List Flag) (width : Width) (length : Length) (text : List Char) (hspec : typeSpec c = some spec) :
    ∃ msg, setTypeChar (mid .type flags width length (c :: text)) c =
      some (if Fits spec flags length then { mid .type flags width length (c :: text) with semType := spec.semType length }
        else { mid .type flags width length (c :: text) with semType := .error, report := some (msg, String.singleton c) }) := by
  rw [setTypeChar, if_pos ⟨rfl, rfl⟩, hspec]
  by_cases hall : flags.all (· ∈ spec.validFlags) = true
  · have hvalid : ∀ f ∈ flags, f ∈ spec.validFlags := fun f hf => of_decide_eq_true (List.all_eq_true.mp hall f hf)
    by_cases hlength : length ≠ .default ∧ ¬spec.allowsLength = true
    · have hnot : ¬Fits spec flags length := fun hfits => hlength.2 (hfits.2 hlength.1)
      refine ⟨"CQL0419: type specifier cannot be combined with length specifier", ?_⟩
      rw [if_neg hnot]
      exact (if_neg (not_not.mpr hall)).trans (if_pos hlength)
    · have hfits : Fits spec flags length := ⟨hvalid, fun hne => not_not.mp fun hnot => hlength ⟨hne, hnot⟩⟩
      refine ⟨"", ?_⟩
      rw [if_pos hfits]
      exact (if_neg (not_not.mpr hall)).trans (if_neg hlength)
  · have hnot : ¬Fits spec flags length := fun hfits => hall (List.all_eq_true.mpr fun f hf => decide_eq_true (hfits.1 f hf))
    refine ⟨"CQL0418: type specifier combined with inappropriate flags", ?_⟩
    rw [if_neg hnot]
    exact if_pos hall

/-- A type that fits is returned. -/
theorem drives_type (hc : c ≠ nul) (hspec : typeSpec c = some spec) (hfits : Fits spec flags length)
    (h : Drives (start text) types done) : Drives (mid .type flags width length (c :: text)) (spec.semType length :: types) done := by
  have htype := semType_typeSpec hspec length
  obtain ⟨msg, hset⟩ := setTypeChar_mid flags width length text hspec
  rw [if_pos hfits] at hset
  have hcall : Callable (start text) := ⟨rfl, .inl rfl⟩
  refine Drives.ret ?_ ?_ hcall h
  · rw [round_type hc, hset, Option.bind_some]
    rcases htype with ht | ht | ht | ht <;> rw [ht] <;> rfl
  · rcases htype with ht | ht | ht | ht <;> rw [ht] <;> decide

/-- One that does not fit is an error. -/
theorem drives_type_error (hc : c ≠ nul) (h : ∀ spec, typeSpec c = some spec → ¬Fits spec flags length) :
    Drives (mid .type flags width length (c :: text)) [] .error := by
  have hset : ∃ it, setTypeChar (mid .type flags width length (c :: text)) c = some it ∧ it.semType = .error := by
    cases hspec : typeSpec c with
    | none =>
      rw [setTypeChar, if_pos ⟨rfl, rfl⟩, hspec]
      exact ⟨_, rfl, rfl⟩
    | some spec =>
      obtain ⟨msg, hset⟩ := setTypeChar_mid flags width length text hspec
      rw [if_neg (h spec hspec)] at hset
      exact ⟨_, hset, rfl⟩
  obtain ⟨it, hset, herror⟩ := hset
  have hround : round (mid .type flags width length (c :: text)) = some (.ret .error it) := by
    rw [round_type hc, hset, Option.bind_some, if_neg (by rw [herror]; decide), herror]
  exact Drives.done (.inr rfl) hround

/-! ## Strings of the grammar -/

/-- A character that no part of a substitution before its end continues with. -/
def Ends (c : Char) : Prop := c ≠ nul ∧ flagOfChar c = none ∧ isDigit c = false ∧ c ≠ '*' ∧ c ≠ '%'

instance (c : Char) : Decidable (Ends c) := inferInstanceAs (Decidable (_ ∧ _))

/-- A type ends what stands before it. -/
theorem ends_type (h : typeSpec c = some spec) : Ends c ∧ c ≠ '.' ∧ c ≠ 'l' := by
  have hall : ['d', 'i', 'u', 'f', 'e', 'E', 'g', 'G', 'x', 'X', 'o', 's'].all fun c => decide (Ends c ∧ c ≠ '.' ∧ c ≠ 'l') := by decide
  exact of_decide_eq_true (List.all_eq_true.mp hall c (typeSpec_mem h))

variable {s : Substitution}

/-- What is behind the precision. -/
def lengthText (s : Substitution) (text : List Char) : List Char := (if s.longLong then ['l', 'l'] else []) ++ s.type :: text

/-- The text of length and type is not empty. -/
theorem lengthText_cons (hs : s.Valid) (text : List Char) : ∃ c rest, lengthText s text = c :: rest ∧ Ends c ∧ c ≠ '.' := by
  obtain ⟨spec, hspec, -⟩ := hs.typeFlags
  rw [lengthText]
  cases s.longLong
  · exact ⟨_, _, rfl, (ends_type hspec).1, (ends_type hspec).2.1⟩
  · exact ⟨'l', _, rfl, by decide, by decide⟩

/-- The text behind the width is that of precision, length and type. -/
theorem tailText_eq : s.tailText ++ text = (s.precision.map ('.' :: ·)).getD [] ++ lengthText s text := by
  simp [Substitution.tailText, lengthText]

/-- It is not empty. -/
theorem tailText_cons (hs : s.Valid) (text : List Char) : ∃ c rest, s.tailText ++ text = c :: rest ∧ Ends c := by
  rw [tailText_eq]
  cases s.precision with
  | none =>
    obtain ⟨c, rest, heq, hc, -⟩ := lengthText_cons hs text
    exact ⟨c, rest, heq, hc⟩
  | some ds => exact ⟨'.', _, rfl, by decide⟩

/-- Length and type are read. -/
theorem drives_lengthText (hs : s.Valid) (h : Drives (start text) types done) :
    Drives (mid .lengthLong s.flags width .default (lengthText s text))
      (((typeSpec s.type).map fun spec => spec.semType s.length).toList ++ types) done := by
  obtain ⟨spec, hspec, hflags, hlength⟩ := hs.typeFlags
  obtain ⟨hends, -, hl⟩ := ends_type hspec
  have hfits : Fits spec s.flags s.length := by
    refine ⟨hflags, fun hne => hlength ?_⟩
    by_contra hnot
    exact hne (if_neg hnot)
  have htype : Drives (mid .type s.flags width s.length (s.type :: text)) (spec.semType s.length :: types) done :=
    drives_type hends.1 hspec hfits h
  rw [hspec, lengthText]
  cases hll : s.longLong with
  | false =>
    have hdefault : s.length = .default := if_neg (by rw [hll]; decide)
    rw [hdefault] at htype ⊢
    exact drives_noLength hends.1 hl htype
  | true =>
    have hlong : s.length = .longLong := if_pos hll
    rw [hlong] at htype ⊢
    exact drives_l (drives_ll (hs.lengthNotBang hll) htype)

/-- What stands behind the width is read. -/
theorem drives_tailText (width : Width) (hs : s.Valid) (h : Drives (start text) types done) :
    Drives (mid .dot s.flags width .default (s.tailText ++ text))
      (((typeSpec s.type).map fun spec => spec.semType s.length).toList ++ types) done := by
  obtain ⟨c, rest, heq, hends, hdot⟩ := lengthText_cons hs text
  have hlength : Drives (mid .lengthLong s.flags width .default (lengthText s text)) _ done := drives_lengthText hs h
  rw [heq] at hlength
  rw [tailText_eq, heq]
  cases hprecision : s.precision with
  | none => exact drives_noDot hends.1 hdot hlength
  | some ds => exact drives_dot (drives_digits (.inr rfl) (hs.precisionDigits ds hprecision) (drives_toLength hends.1 hends.2.2.1 hlength))

/-- The width is read, and a star takes an argument. -/
theorem drives_widthText (hs : s.Valid) (h : Drives (start text) types done) :
    Drives (mid .width s.flags .none .default (s.width.text ++ (s.tailText ++ text))) (s.types ++ types) done := by
  obtain ⟨c, rest, heq, hends⟩ := tailText_cons hs text
  have hwidth := hs.widthDigits
  have hneeds := hs.widthRequired
  have htail := fun width => drives_tailText width hs h
  rw [Substitution.types]
  cases hw : s.width with
  | none =>
    rw [hw] at hneeds
    have hnone := htail .none
    simp only [WidthText.text, List.nil_append, reduceCtorEq, if_false]
    rw [heq] at hnone ⊢
    exact drives_noWidth hends.1 hends.2.2.1 hends.2.2.2.1 (fun hn => hneeds hn rfl) hnone
  | digits ds =>
    rw [hw] at hwidth
    obtain ⟨hhead, hall⟩ := hwidth
    have hnumeric := htail .numeric
    simp only [WidthText.text, reduceCtorEq, if_false, List.nil_append]
    cases ds with
    | nil => cases hhead
    | cons d ds =>
      rw [List.all_cons, Bool.and_eq_true] at hall
      rw [heq] at hnumeric ⊢
      exact drives_digit hall.1 (drives_digits (.inl rfl) hall.2 (drives_digitsDot hends.1 hends.2.2.1 hnumeric))
  | star =>
    simp only [WidthText.text, if_true, List.append_assoc]
    exact drives_star (htail .star)

/-- The only digit that is a flag is zero. -/
theorem flagOfChar_digit (hdigit : isDigit c = true) (hzero : c ≠ '0') : flagOfChar c = none := by
  cases hflag : flagOfChar c with
  | none => rfl
  | some f =>
    obtain rfl := char_flagOfChar hflag
    cases f with
    | zero => exact absurd rfl hzero
    | minus | plus | space | hash | comma | bang => exact absurd hdigit (by decide)

/-- The text from the width on is not empty. -/
theorem widthText_cons (hs : s.Valid) (text : List Char) :
    ∃ c rest, s.width.text ++ (s.tailText ++ text) = c :: rest ∧ c ≠ nul ∧ flagOfChar c = none ∧ c ≠ '%' := by
  have hwidth := hs.widthDigits
  cases hw : s.width with
  | none =>
    obtain ⟨c, rest, heq, hnul, hflag, -, -, hpercent⟩ := tailText_cons hs text
    exact ⟨c, rest, heq, hnul, hflag, hpercent⟩
  | digits ds =>
    rw [hw] at hwidth
    cases ds with
    | nil => cases hwidth.1
    | cons d ds =>
      obtain ⟨hdigit, hzero⟩ := of_decide_eq_true hwidth.1
      refine ⟨d, _, rfl, digit_ne hdigit, flagOfChar_digit hdigit hzero, ?_⟩
      rintro rfl
      exact absurd hdigit (by decide)
  | star => exact ⟨'*', _, rfl, by decide, by decide, by decide⟩

/-- A valid substitution is read, and its types are returned. -/
theorem drives_substitution (hs : s.Valid) (h : Drives (start text) types done) : Drives (start (s.text ++ text)) (s.types ++ types) done := by
  have hwidth := drives_widthText hs h
  have hfine : Fine ([] ++ s.flags) := ⟨hs.flagsDistinct, hs.notPlusAndSpace⟩
  obtain ⟨c, rest, heq, hnul, hflag, hpercent⟩ := widthText_cons hs text
  have htext : s.text ++ text = '%' :: (s.flags.map Flag.char ++ (s.width.text ++ (s.tailText ++ text))) := by
    simp [Substitution.text]
  rw [heq] at hwidth htext
  have hflags := drives_flags hfine (drives_toWidth hnul hflag hwidth)
  rw [htext]
  refine drives_percent ?_
  cases hlist : s.flags with
  | nil =>
    rw [hlist] at hflags
    exact drives_toFlag hnul hpercent hflags
  | cons f fs =>
    rw [hlist] at hflags
    exact drives_toFlag (flag_char_ne f) (by cases f <;> decide) hflags

/-- Strings of the grammar are read to their end. -/
theorem drives_format (hnul : nul ∉ text) (h : Format text types) : Drives (start text) types .ok := by
  induction h with
  | nil => exact drives_end
  | char hc _ ih =>
    rw [List.mem_cons, not_or] at hnul
    exact drives_char (Ne.symm hnul.1) hc (ih hnul.2)
  | percent _ ih =>
    simp only [List.mem_cons, not_or] at hnul
    exact drives_percent (drives_percentPercent (ih hnul.2.2))
  | substitution hs _ ih =>
    rw [List.mem_append, not_or] at hnul
    exact drives_substitution hs (ih hnul.2)

/-! ## Other strings -/

/-- The iterator gets to an error. -/
def Errs (it : Iterator) : Prop := ∃ types, Drives it types .error

/-- The text starts with flags, and then with a character that is none. -/
theorem exists_flags (text : List Char) :
    ∃ (flags : List Flag) (rest : List Char), text = flags.map Flag.char ++ rest ∧ ∀ c ∈ rest.head?, flagOfChar c = none := by
  induction text with
  | nil => exact ⟨[], [], rfl, fun c hc => by cases hc⟩
  | cons c text ih =>
    cases hflag : flagOfChar c with
    | none =>
      refine ⟨[], c :: text, rfl, fun d hd => ?_⟩
      obtain rfl := Option.some.inj hd
      exact hflag
    | some f =>
      obtain ⟨flags, rest, rfl, hrest⟩ := ih
      obtain rfl := char_flagOfChar hflag
      exact ⟨f :: flags, rest, rfl, hrest⟩

/-- The text starts with digits, and then with a character that is none. -/
theorem exists_digits (text : List Char) : ∃ ds rest, text = ds ++ rest ∧ ds.all isDigit = true ∧ ∀ c ∈ rest.head?, isDigit c = false := by
  refine ⟨text.takeWhile isDigit, text.dropWhile isDigit, List.takeWhile_append_dropWhile.symm, List.all_takeWhile, fun c hc => ?_⟩
  have := List.head?_dropWhile_not isDigit text
  rw [Option.mem_def.mp hc] at this
  simpa using this

/-- A text goes on behind flags that go together, or it is an error. -/
theorem flags_cases (hnul : nul ∉ text) :
    Errs (mid .flag [] .none .default text) ∨ ∃ flags rest, Fine flags ∧ text = flags.map Flag.char ++ rest ∧
      (∀ c ∈ rest.head?, flagOfChar c = none) ∧ (Errs (mid .width flags .none .default rest) → Errs (mid .flag [] .none .default text)) := by
  obtain ⟨flags, rest, rfl, hrest⟩ := exists_flags text
  by_cases hfine : Fine flags
  · refine .inr ⟨flags, rest, hfine, rfl, hrest, fun ⟨types, herr⟩ => ?_⟩
    have hflags : Fine ([] ++ flags) := hfine
    cases rest with
    | nil => exact ⟨[], drives_flags hflags (drives_incomplete (by decide))⟩
    | cons c rest =>
      have hc : c ≠ nul := fun heq => hnul (List.mem_append_right _ (heq ▸ List.mem_cons_self))
      exact ⟨types, drives_flags hflags (drives_toWidth hc (hrest c rfl) herr)⟩
  · exact .inl ⟨[], drives_flags_error ⟨List.nodup_nil, fun h => nomatch h.1⟩ hfine⟩

/-- It goes on behind a width, or it is an error. -/
theorem width_cases (flags : List Flag) (hnul : nul ∉ text) (hhead : ∀ c ∈ text.head?, flagOfChar c = none) :
    Errs (mid .width flags .none .default text) ∨ ∃ (written : WidthText) (width : Width) (rest : List Char),
      Substitution.WidthValid written ∧ (NeedsWidth flags → written ≠ .none) ∧ text = written.text ++ rest ∧
      (Errs (mid .dot flags width .default rest) → Errs (mid .width flags .none .default text)) := by
  cases text with
  | nil => exact .inl ⟨[], drives_incomplete (by decide)⟩
  | cons c text =>
    simp only [List.mem_cons, not_or] at hnul
    have hc : c ≠ nul := Ne.symm hnul.1
    have hflag : flagOfChar c = none := hhead c rfl
    by_cases hdigit : isDigit c = true
    · obtain ⟨ds, rest, rfl, hds, hrest⟩ := exists_digits text
      have hzero : c ≠ '0' := by
        rintro rfl
        exact absurd hflag (by decide)
      refine .inr ⟨.digits (c :: ds), .numeric, rest, ⟨decide_eq_true ⟨hdigit, hzero⟩, ?_⟩, fun _ => by simp, rfl,
        fun h => h.elim fun types herr => ?_⟩
      · rw [List.all_cons, hdigit, hds]
        rfl
      · cases rest with
        | nil => exact ⟨[], drives_digit hdigit (drives_digits (.inl rfl) hds (drives_incomplete (by decide)))⟩
        | cons d rest =>
          have hd : d ≠ nul := fun heq => hnul.2 (List.mem_append_right _ (heq ▸ List.mem_cons_self))
          exact ⟨types, drives_digit hdigit (drives_digits (.inl rfl) hds (drives_digitsDot hd (hrest d rfl) herr))⟩
    · rw [Bool.not_eq_true] at hdigit
      by_cases hstar : c = '*'
      · subst hstar
        exact .inr ⟨.star, .star, text, trivial, fun _ => by simp, rfl, fun h => h.elim fun types herr => ⟨_, drives_star herr⟩⟩
      · by_cases hneeds : NeedsWidth flags
        · exact .inl ⟨[], drives_noWidth_error hc hdigit hstar hneeds⟩
        · exact .inr ⟨.none, .none, c :: text, trivial, fun h => absurd h hneeds, rfl,
            fun h => h.imp fun types herr => drives_noWidth hc hdigit hstar hneeds herr⟩

/-- It goes on behind a precision. -/
theorem dot_cases (flags : List Flag) (width : Width) (hnul : nul ∉ text) :
    ∃ (precision : Option (List Char)) (rest : List Char), (∀ ds ∈ precision, ds.all isDigit = true) ∧
      text = (precision.map ('.' :: ·)).getD [] ++ rest ∧
      (Errs (mid .lengthLong flags width .default rest) → Errs (mid .dot flags width .default text)) := by
  cases text with
  | nil => exact ⟨none, [], fun ds => by simp, rfl, fun _ => ⟨[], drives_incomplete (by decide)⟩⟩
  | cons c text =>
    simp only [List.mem_cons, not_or] at hnul
    by_cases hdot : c = '.'
    · subst hdot
      obtain ⟨ds, rest, rfl, hds, hrest⟩ := exists_digits text
      refine ⟨some ds, rest, fun ds' h => by obtain rfl := Option.some.inj h; exact hds, rfl, fun h => h.elim fun types herr => ?_⟩
      cases rest with
      | nil => exact ⟨[], drives_dot (drives_digits (.inr rfl) hds (drives_incomplete (by decide)))⟩
      | cons d rest =>
        have hd : d ≠ nul := fun heq => hnul.2 (List.mem_append_right _ (heq ▸ List.mem_cons_self))
        exact ⟨types, drives_dot (drives_digits (.inr rfl) hds (drives_toLength hd (hrest d rfl) herr))⟩
    · exact ⟨none, c :: text, fun ds => by simp, rfl, fun h => h.imp fun types herr => drives_noDot (Ne.symm hnul.1) hdot herr⟩

/-- It goes on behind a length, or it is an error. -/
theorem length_cases (flags : List Flag) (width : Width) (hnul : nul ∉ text) :
    Errs (mid .lengthLong flags width .default text) ∨ ∃ (longLong : Bool) (rest : List Char), (longLong = true → .bang ∉ flags) ∧
      text = (if longLong then ['l', 'l'] else []) ++ rest ∧
      (Errs (mid .type flags width (if longLong then .longLong else .default) rest) → Errs (mid .lengthLong flags width .default text)) := by
  cases text with
  | nil => exact .inl ⟨[], drives_incomplete (by decide)⟩
  | cons c text =>
    simp only [List.mem_cons, not_or] at hnul
    by_cases hl : c = 'l'
    · subst hl
      cases text with
      | nil => exact .inl ⟨[], drives_l (drives_incomplete (by decide))⟩
      | cons d text =>
        simp only [List.mem_cons, not_or] at hnul
        by_cases hll : d = 'l'
        · subst hll
          by_cases hbang : .bang ∈ flags
          · exact .inl ⟨[], drives_l (drives_ll_error hbang)⟩
          · exact .inr ⟨true, text, fun _ => hbang, rfl, fun h => h.imp fun types herr => drives_l (drives_ll hbang herr)⟩
        · exact .inl ⟨[], drives_l (drives_l_error (Ne.symm hnul.2.1) hll)⟩
    · exact .inr ⟨false, c :: text, fun h => by simp at h, rfl, fun h => h.imp fun types herr => drives_noLength (Ne.symm hnul.1) hl herr⟩

/-- It goes on behind a type that fits, or it is an error. -/
theorem type_cases (flags : List Flag) (width : Width) (length : Length) (hnul : nul ∉ text) :
    Errs (mid .type flags width length text) ∨ ∃ (type : Char) (rest : List Char) (spec : TypeSpec), typeSpec type = some spec ∧
      Fits spec flags length ∧ text = type :: rest := by
  cases text with
  | nil => exact .inl ⟨[], drives_incomplete (by decide)⟩
  | cons c text =>
    have hc : c ≠ nul := fun heq => hnul (heq ▸ List.mem_cons_self)
    by_cases hfits : ∃ spec, typeSpec c = some spec ∧ Fits spec flags length
    · obtain ⟨spec, hspec, hfits⟩ := hfits
      exact .inr ⟨c, text, spec, hspec, hfits, rfl⟩
    · exact .inl ⟨[], drives_type_error hc fun spec hspec h => hfits ⟨spec, hspec, h⟩⟩

/-- What starts with no valid substitution ends in an error. -/
theorem substitution_cases (hnul : nul ∉ text) :
    Errs (mid .flag [] .none .default text) ∨ ∃ (s : Substitution) (rest : List Char), s.Valid ∧ '%' :: text = s.text ++ rest := by
  rcases flags_cases hnul with herr | ⟨flags, rest₁, hfine, rfl, hhead, hflags⟩
  · exact .inl herr
  have hnul₁ : nul ∉ rest₁ := fun hin => hnul (List.mem_append_right _ hin)
  rcases width_cases flags hnul₁ hhead with herr | ⟨written, width, rest₂, hwritten, hneeds, rfl, hwidth⟩
  · exact .inl (hflags herr)
  have hnul₂ : nul ∉ rest₂ := fun hin => hnul₁ (List.mem_append_right _ hin)
  obtain ⟨precision, rest₃, hprecision, rfl, hdot⟩ := dot_cases flags width hnul₂
  have hnul₃ : nul ∉ rest₃ := fun hin => hnul₂ (List.mem_append_right _ hin)
  rcases length_cases flags width hnul₃ with herr | ⟨longLong, rest₄, hbang, rfl, hlength⟩
  · exact .inl (hflags (hwidth (hdot herr)))
  have hnul₄ : nul ∉ rest₄ := fun hin => hnul₃ (List.mem_append_right _ hin)
  rcases type_cases flags width (if longLong then .longLong else .default) hnul₄ with
    herr | ⟨type, rest, spec, hspec, hfits, rfl⟩
  · exact .inl (hflags (hwidth (hdot (hlength herr))))
  refine .inr ⟨⟨flags, written, precision, longLong, type⟩, rest,
    ⟨hfine.1, hfine.2, hwritten, hneeds, hprecision, hbang, spec, hspec, hfits.1, fun hll => hfits.2 ?_⟩, ?_⟩
  · have hlong : longLong = true := hll
    rw [hlong]
    decide
  · simp [Substitution.text, Substitution.tailText]

/-- The iterator gets to the end of every string, with an error or by the grammar. -/
theorem drives_total (hnul : nul ∉ text) : Errs (start text) ∨ ∃ types, Format text types := by
  induction hn : text.length using Nat.strongRecOn generalizing text with
  | ind n ih =>
    subst hn
    cases text with
    | nil => exact .inr ⟨[], .nil⟩
    | cons c text =>
      have hc : c ≠ nul := fun heq => hnul (heq ▸ List.mem_cons_self)
      have hrest : nul ∉ text := fun hin => hnul (List.mem_cons_of_mem _ hin)
      by_cases hpercent : c = '%'
      · subst hpercent
        cases text with
        | nil => exact .inl ⟨[], drives_percent (drives_incomplete (by decide))⟩
        | cons d text =>
          by_cases hsecond : d = '%'
          · subst hsecond
            have hrest' : nul ∉ text := fun hin => hrest (List.mem_cons_of_mem _ hin)
            rcases ih text.length (by simp only [List.length_cons]; omega) hrest' rfl with ⟨types, herr⟩ | ⟨types, hformat⟩
            · exact .inl ⟨types, drives_percent (drives_percentPercent herr)⟩
            · exact .inr ⟨types, .percent hformat⟩
          · have hd : d ≠ nul := fun heq => hrest (heq ▸ List.mem_cons_self)
            rcases substitution_cases hrest with ⟨types, herr⟩ | ⟨s, rest, hs, htext⟩
            · exact .inl ⟨types, drives_percent (drives_toFlag hd hsecond herr)⟩
            · have hrest' : nul ∉ rest := fun hin => hnul (htext ▸ List.mem_append_right _ hin)
              have hlength : rest.length < ('%' :: d :: text).length := by
                rw [htext, List.length_append, Substitution.text, List.length_cons]
                omega
              rw [htext]
              rcases ih rest.length hlength hrest' rfl with ⟨types, herr⟩ | ⟨types, hformat⟩
              · exact .inl ⟨_, drives_substitution hs herr⟩
              · exact .inr ⟨_, .substitution hs hformat⟩
      · rcases ih text.length (by simp only [List.length_cons]; omega) hrest rfl with ⟨types, herr⟩ | ⟨types, hformat⟩
        · exact .inl ⟨types, drives_char hc hpercent herr⟩
        · exact .inr ⟨types, .char hpercent hformat⟩

/-- A run is the result of enough calls. -/
theorem calls_of_drives (h : Drives (init (text ++ [nul])) types done) :
    ∃ n, ∀ rounds ≥ n, ∀ count ≥ n, calls rounds count (init (text ++ [nul])) = some (types, done) := by
  obtain ⟨n, hn⟩ := h
  refine ⟨n + 1, fun rounds hrounds count hcount => ?_⟩
  obtain ⟨count, rfl⟩ := Nat.exists_eq_add_of_le' (Nat.le_of_add_left_le hcount)
  rw [calls_succ ⟨rfl, .inl rfl⟩]
  exact hn rounds (by omega) rounds (by omega) count (by omega)

end PrintfAux

open PrintfAux

/-- Calls of `printf_iterator_next` on a string come to an end, without a failed contract and without a read behind the null: for the
strings of the grammar, and only for these, the end is `SEM_TYPE_OK`, and the types are those of their arguments. -/
theorem printfIteratorNext_format {text : List Char} (hnul : nul ∉ text) :
    ∃ types done n, (∀ rounds ≥ n, ∀ count ≥ n, calls rounds count (init (text ++ [nul])) = some (types, done)) ∧
      (done = .ok ∨ done = .error) ∧ (done = .ok ↔ ∃ types', Format text types') ∧ ∀ types', Format text types' → types = types' := by
  rcases drives_total hnul with ⟨types, herr⟩ | ⟨types, hformat⟩
  · have hnot : ¬∃ types', Format text types' := fun ⟨types', hformat⟩ =>
      nomatch (herr.unique (drives_format hnul hformat)).2
    obtain ⟨n, hn⟩ := calls_of_drives herr
    exact ⟨types, .error, n, hn, .inr rfl, iff_of_false (by decide) hnot, fun types' h => absurd ⟨types', h⟩ hnot⟩
  · have hdrives := drives_format hnul hformat
    obtain ⟨n, hn⟩ := calls_of_drives hdrives
    exact ⟨types, .ok, n, hn, .inl rfl, iff_of_true rfl ⟨types, hformat⟩, fun types' h => (hdrives.unique (drives_format hnul h)).1⟩

/-- A string with a star, and a percent sign. -/
theorem printfIteratorNext_format_star :
    ∃ types done n, (∀ rounds ≥ n, ∀ count ≥ n, calls rounds count (init ("%-*lld 100%%".toList ++ [nul])) = some (types, done)) ∧
      (done = .ok ∨ done = .error) ∧ (done = .ok ↔ ∃ types', Format "%-*lld 100%%".toList types') ∧
      ∀ types', Format "%-*lld 100%%".toList types' → types = types' :=
  printfIteratorNext_format (by decide)

/-- The width is an argument of its own. -/
example : calls 20 20 (init ("%-*lld 100%%".toList ++ [nul])) = some ([.integer, .longInteger], .ok) := by decide

end CgSql.Printf
