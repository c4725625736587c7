import CgSql.SymbolTable
import CgSql.Lemmas.HashTab
import Mathlib.Data.Finset.Option

/-!
# The symbol table is a finite map

Names that are equal under the table's comparison have equal hashes, so that a symbol table answers as a finite map from folded names
does, as long as it can double. Its sorted copy has each entry once.
-/

namespace CgSql.SymbolTable

open Hashing (Lawful HashTab)

variable {ν : Type} {tab : Case}

namespace SymtabAux

/-! ## Names -/

theorem toLower_eq_zero : ∀ c : UInt8, toLower c = 0 → c = 0 := by
  have h : ∀ i : Fin 256, toLower (UInt8.ofNat i) = 0 → UInt8.ofNat i = 0 := by decide +kernel
  intro c hc
  have hlt := c.toNat_lt
  have hof : UInt8.ofNat c.toNat = c := UInt8.ofNat_toNat
  have hstep := h ⟨c.toNat, hlt⟩
  rw [hof] at hstep
  exact hstep hc

/-- A byte and its lower case are the same with the bit 32. -/
theorem or_toLower (c : UInt8) : toLower c ||| 0x20 = c ||| 0x20 := by
  have h : ∀ i : Fin 256, toLower (UInt8.ofNat i) ||| 0x20 = UInt8.ofNat i ||| 0x20 := by decide +kernel
  have hof : UInt8.ofNat c.toNat = c := UInt8.ofNat_toNat
  have hstep := h ⟨c.toNat, c.toNat_lt⟩
  rwa [hof] at hstep

theorem charValue_inj {c₁ c₂ : UInt8} : charValue c₁ - charValue c₂ = 0 ↔ c₁ = c₂ := by
  constructor
  · intro h
    have heq : c₁.toInt8.toInt = c₂.toInt8.toInt := by unfold charValue at h; omega
    have hbits := Int8.toInt_inj.mp heq
    have hbytes := congrArg Int8.toUInt8 hbits
    simpa using hbytes
  · rintro rfl
    exact Int.sub_self _

theorem strCaseCmp_eq_zero {s₁ s₂ : List UInt8} (h₁ : 0 ∉ s₁) (h₂ : 0 ∉ s₂) : strCaseCmp s₁ s₂ = 0 ↔ s₁.map toLower = s₂.map toLower := by
  induction s₁ generalizing s₂ with
  | nil =>
    cases s₂ with
    | nil => exact iff_of_true rfl rfl
    | cons c₂ s₂ =>
      rw [strCaseCmp, charValue_inj]
      refine ⟨fun h => ?_, nofun⟩
      have hzero := toLower_eq_zero c₂ h.symm
      rw [hzero] at h₂
      exact absurd List.mem_cons_self h₂
  | cons c₁ s₁ ih =>
    cases s₂ with
    | nil =>
      rw [strCaseCmp, charValue_inj]
      refine ⟨fun h => ?_, nofun⟩
      have hzero := toLower_eq_zero c₁ h
      rw [hzero] at h₁
      exact absurd List.mem_cons_self h₁
    | cons c₂ s₂ =>
      have hrest := ih (fun hin => h₁ (List.mem_cons_of_mem _ hin)) (fun hin => h₂ (List.mem_cons_of_mem _ hin))
      rw [strCaseCmp, List.map_cons, List.map_cons, List.cons.injEq]
      by_cases heq : charValue (toLower c₁) - charValue (toLower c₂) = 0
      · rw [if_pos heq, hrest]
        exact ⟨fun h => ⟨charValue_inj.mp heq, h⟩, And.right⟩
      · rw [if_neg heq]
        exact ⟨fun h => absurd h heq, fun h => absurd (charValue_inj.mpr h.1) heq⟩

theorem strCmp_eq_zero {s₁ s₂ : List UInt8} : strCmp s₁ s₂ = 0 ↔ s₁ = s₂ := by
  induction s₁ generalizing s₂ with
  | nil => cases s₂ <;> simp [strCmp]
  | cons c₁ s₁ ih =>
    cases s₂ with
    | nil => simp [strCmp]
    | cons c₂ s₂ =>
      rw [strCmp, List.cons.injEq]
      by_cases hlt : c₁ < c₂
      · rw [if_pos hlt]
        exact ⟨nofun, fun h => absurd hlt (h.1 ▸ UInt8.lt_irrefl c₁)⟩
      · rw [if_neg hlt]
        by_cases hgt : c₂ < c₁
        · rw [if_pos hgt]
          exact ⟨nofun, fun h => absurd hgt (h.1 ▸ UInt8.lt_irrefl c₁)⟩
        · rw [if_neg hgt, ih]
          have heq : c₁ = c₂ := UInt8.le_antisymm (UInt8.not_lt.mp hgt) (UInt8.not_lt.mp hlt)
          simp [heq]

/-- The comparison of a table tells names apart by what they are folded to. -/
theorem cmp_eq_zero (tab : Case) (sym₁ sym₂ : Name) : tab.cmp sym₁.1 sym₂.1 = 0 ↔ tab.fold sym₁ = tab.fold sym₂ := by
  cases tab with
  | insens => exact strCaseCmp_eq_zero sym₁.2 sym₂.2
  | sens => exact strCmp_eq_zero

/-- The hash of a name is that of what it is folded to. -/
theorem hash_fold (tab : Case) (sym : Name) : tab.hash (tab.fold sym) = tab.hash sym.1 := by
  cases tab with
  | sens => rfl
  | insens =>
    have hloop : hashLoop (· ||| 0x20) (sym.1.map toLower) = hashLoop (· ||| 0x20) sym.1 := by
      unfold hashLoop
      rw [List.foldl_map]
      simp only [or_toLower]
    show hashCaseInsens (sym.1.map toLower) = hashCaseInsens sym.1
    rw [hashCaseInsens, hashCaseInsens, hloop]

/-- A table of names does with its functions what it relies on. -/
theorem lawful (tab : Case) : Lawful (tab.callbacks : Hashing.Callbacks Name ν Unit) tab.fold
    (fun t => (tab.hash t).toNat) (fun _ _ => True) (fun _ _ => True) (fun _ _ => True) (fun _ _ => True) where
  hashKey := by
    intro sym s _
    refine ⟨_, rfl, ?_⟩
    rw [hash_fold, UInt32.toUInt32_toUInt64]
  compareKeys := by
    intro sym₁ sym₂ s _ _
    show some (decide (tab.cmp sym₁.1 sym₂.1 = 0)) = _
    simp only [cmp_eq_zero]
  ready _ _ := ⟨trivial, trivial⟩
  perm _ _ := trivial
  room _ _ := trivial
  retain _ _ _ _ := ⟨(), (), rfl, rfl, trivial⟩
  full _ hfull := absurd trivial hfull
  release _ := ⟨(), (), rfl, rfl, trivial⟩

/-! ## Operations -/

open Hashing.HashTab

/-- A table and the finite map that it is. -/
structure Refines (tab : Case) (syms : HashTab Name ν) (m : Model ν) : Prop where
  good : Good tab.fold (fun t => (tab.hash t).toNat) syms
  /-- The entries are those of the map. -/
  map : ∀ t e, m t = some e ↔ e ∈ syms.entries ∧ tab.fold e.1 = t

variable {syms : HashTab Name ν} {m : Model ν}

theorem Refines.absent (h : Refines tab syms m) {t : List UInt8} (hm : m t = none) : syms.Absent tab.fold t := by
  intro e he htext
  rw [(h.map t e).mpr ⟨he, htext⟩] at hm
  cases hm

theorem Refines.find (h : Refines tab syms m) (sym : Name) : symtabFind tab syms sym = some (m (tab.fold sym)) := by
  obtain ⟨hsome, hnone⟩ := find_spec (lawful tab) h.good (s := ()) trivial trivial
  unfold symtabFind
  cases hm : m (tab.fold sym) with
  | none => rw [hnone (h.absent hm)]; rfl
  | some e =>
    obtain ⟨hmem, htext⟩ := (h.map _ _).mp hm
    obtain ⟨i, hfind, -⟩ := hsome e hmem htext
    rw [hfind]
    rfl

/-- An add of a name that is there changes nothing. -/
theorem Refines.add_present (h : Refines tab syms m) {sym : Name} {e : Name × ν} (hm : m (tab.fold sym) = some e) (val : ν)
    (depth : Nat) : symtabAdd tab (depth + 1) syms sym val = some (false, syms) := by
  obtain ⟨hmem, htext⟩ := (h.map _ _).mp hm
  obtain ⟨i, hseek, -⟩ := seek_present (lawful tab) h.good.shape (s := ()) trivial (fun _ _ => trivial) hmem htext
  simp [symtabAdd, add, hseek]

/-- An add of a new name. -/
theorem Refines.add_absent (h : Refines tab syms m) {sym : Name} (hm : m (tab.fold sym) = none) (val : ν) (depth : Nat) :
    (syms.count < maxCount → ∃ syms', symtabAdd tab (depth + 2) syms sym val = some (true, syms') ∧
      Refines tab syms' (Function.update m (tab.fold sym) (some (sym, val)))) ∧
    (maxCount ≤ syms.count → symtabAdd tab (depth + 2) syms sym val = none) := by
  have hadd : (syms.count < maxCount → ∃ syms' s', add tab.callbacks (depth + 2) syms sym val () = some (true, syms', s') ∧
      Good tab.fold (fun t => (tab.hash t).toNat) syms' ∧ syms'.count = syms.count + 1 ∧ syms'.entries.Perm ((sym, val) :: syms.entries) ∧ True) ∧
      (maxCount ≤ syms.count → add tab.callbacks (depth + 2) syms sym val () = none) := by
    obtain ⟨hroom, hfull⟩ := add_spec (lawful tab) (s := ()) h.good trivial (trivial : (fun (_ : Unit) (_ : ν) => True) () val) trivial
      (h.absent hm) depth
    exact ⟨fun hless => hroom ⟨hless, trivial, fun _ _ _ => trivial⟩, fun hle => hfull fun hfits => absurd hfits.1 (Nat.not_lt.mpr hle)⟩
  obtain ⟨hroom, hfull⟩ := hadd
  unfold symtabAdd
  constructor
  · intro hless
    obtain ⟨syms', s', hadd, hgood, -, hperm, -⟩ := hroom hless
    refine ⟨syms', by rw [hadd]; rfl, hgood, fun t e => ?_⟩
    rw [hperm.mem_iff, List.mem_cons]
    by_cases ht : t = tab.fold sym
    · subst ht
      rw [Function.update_self, Option.some.injEq]
      constructor
      · rintro rfl
        exact ⟨.inl rfl, rfl⟩
      · rintro ⟨rfl | hin, heq⟩
        · rfl
        · exact absurd heq (h.absent hm e hin)
    · rw [Function.update_of_ne ht, h.map]
      constructor
      · rintro ⟨hin, heq⟩
        exact ⟨.inr hin, heq⟩
      · rintro ⟨rfl | hin, heq⟩
        · exact absurd heq.symm ht
        · exact ⟨hin, heq⟩
  · intro hmore
    rw [hfull hmore]
    rfl

/-- An operation answers as the map does. Only a new name in a table with `maxCount` entries is undefined behaviour. -/
theorem Refines.step (h : Refines tab syms m) (op : SymOp ν) (depth : Nat) : (¬(syms.count = maxCount ∧ ∃ t ∈ op.addedName tab, m t = none) →
      ∃ syms', op.step tab (depth + 2) syms = some (op.answer tab m, syms') ∧ Refines tab syms' (op.after tab m)) ∧
    (syms.count = maxCount → (∃ t ∈ op.addedName tab, m t = none) → op.step tab (depth + 2) syms = none) := by
  cases op with
  | find sym =>
    refine ⟨fun _ => ⟨syms, ?_, h⟩, fun _ hnew => ?_⟩
    · rw [SymOp.step, h.find]
      rfl
    · obtain ⟨t, ht, -⟩ := hnew
      cases ht
  | add sym val =>
    have hload := h.good.load
    have hbound := h.good.shape.bound
    have hmax : syms.count ≤ maxCount := by unfold maxCount; omega
    cases hm : m (tab.fold sym) with
    | some e =>
      refine ⟨fun _ => ⟨syms, ?_, ?_⟩, fun _ hnew => ?_⟩
      · rw [SymOp.step, h.add_present hm, SymOp.answer, hm]
        rfl
      · rw [SymOp.after, if_neg (by rw [hm]; exact nofun)]
        exact h
      · obtain ⟨t, ht, hnone⟩ := hnew
        obtain rfl := Option.some.inj ht
        rw [hm] at hnone
        cases hnone
    | none =>
      obtain ⟨hroom, hfull⟩ := h.add_absent hm val depth
      constructor
      · intro hno
        have hless : syms.count < maxCount := by
          rcases Nat.lt_or_ge syms.count maxCount with hlt | hge
          · exact hlt
          · exact absurd ⟨Nat.le_antisymm hmax hge, tab.fold sym, rfl, hm⟩ hno
        obtain ⟨syms', hadd, hrefines⟩ := hroom hless
        refine ⟨syms', ?_, ?_⟩
        · rw [SymOp.step, hadd, SymOp.answer, hm]
          rfl
        · rw [SymOp.after, if_pos hm]
          exact hrefines
      · intro hcount _
        rw [SymOp.step, hfull (Nat.le_of_eq hcount.symm)]
        rfl

/-! ## Runs -/

theorem names_cons (op : SymOp ν) (ops : List (SymOp ν)) : SymOp.names tab (op :: ops) = (op.addedName tab).toFinset ∪ SymOp.names tab ops := by
  unfold SymOp.names
  cases h : op.addedName tab with
  | none => rw [List.filterMap_cons_none h]; simp
  | some t => rw [List.filterMap_cons_some h, List.toFinset_cons]; rfl

/-- The names of the map behind an operation. -/
theorem names_after {names : Finset (List UInt8)} (hnames : ∀ t, t ∈ names ↔ ∃ e, m t = some e) (op : SymOp ν) (t : List UInt8) :
    t ∈ (op.addedName tab).toFinset ∪ names ↔ ∃ e, op.after tab m t = some e := by
  cases op with
  | find sym => simpa [SymOp.addedName, SymOp.after] using hnames t
  | add sym val =>
    cases hm : m (tab.fold sym) with
    | none =>
      by_cases ht : t = tab.fold sym
      · subst ht
        simp [SymOp.addedName, SymOp.after, hm]
      · simp [SymOp.addedName, SymOp.after, hm, ht, hnames]
    | some e =>
      have hin : tab.fold sym ∈ names := (hnames _).mpr ⟨e, hm⟩
      rw [SymOp.after, if_neg (by rw [hm]; exact nofun), ← hnames, SymOp.addedName]
      constructor
      · intro h
        rcases Finset.mem_union.mp h with h | h
        · obtain rfl : t = tab.fold sym := by simpa using h
          exact hin
        · exact h
      · exact fun h => Finset.mem_union_right _ h

/-- A run answers as the map does, if and only if the table has room for the names. -/
theorem run_spec (ops : List (SymOp ν)) (depth : Nat) (h : Refines tab syms m) {names : Finset (List UInt8)}
    (hnames : ∀ t, t ∈ names ↔ ∃ e, m t = some e) :
    ((names ∪ SymOp.names tab ops).card ≤ maxCount → ∃ syms', SymOp.run tab (depth + 2) syms ops = some (SymOp.answers tab m ops, syms') ∧
        Refines tab syms' (SymOp.final tab m ops)) ∧
    (maxCount < (names ∪ SymOp.names tab ops).card → SymOp.run tab (depth + 2) syms ops = none) := by
  induction ops generalizing syms m names with
  | nil =>
    refine ⟨fun _ => ⟨syms, rfl, h⟩, fun hmore => ?_⟩
    have hload := h.good.load
    have hbound := h.good.shape.bound
    have hcount := count_eq_card h.good.shape fun t => (hnames t).trans (exists_congr fun e => h.map t e)
    have hnil : SymOp.names tab ([] : List (SymOp ν)) = ∅ := rfl
    rw [hnil, Finset.union_empty, maxCount] at hmore
    omega
  | cons op ops ih =>
    obtain ⟨hstep, hfull⟩ := h.step op depth
    have hcount := count_eq_card h.good.shape fun t => (hnames t).trans (exists_congr fun e => h.map t e)
    have hunion : names ∪ SymOp.names tab (op :: ops) = (op.addedName tab).toFinset ∪ names ∪ SymOp.names tab ops := by
      rw [names_cons, ← Finset.union_assoc, Finset.union_comm names]
    rw [hunion]
    by_cases hover : syms.count = maxCount ∧ ∃ t ∈ op.addedName tab, m t = none
    · -- one name more than the table has room for
      obtain ⟨hmax, t, hadded, hnone⟩ := hover
      have hnew : t ∉ names := by
        rw [hnames, hnone]
        rintro ⟨e, he⟩
        cases he
      have hsub : insert t names ⊆ (op.addedName tab).toFinset ∪ names ∪ SymOp.names tab ops := by
        intro q hq
        rw [Option.mem_def.mp hadded]
        rcases Finset.mem_insert.mp hq with rfl | hq
        · simp
        · simp [hq]
      have hcard := Finset.card_le_card hsub
      rw [Finset.card_insert_of_notMem hnew] at hcard
      refine ⟨fun hless => absurd hless (by omega), fun _ => ?_⟩
      rw [SymOp.run, hfull hmax ⟨t, hadded, hnone⟩]
      rfl
    · obtain ⟨syms₁, hrun, h₁⟩ := hstep hover
      obtain ⟨hroom, hno⟩ := ih h₁ (names_after hnames op)
      constructor
      · intro hless
        obtain ⟨syms₂, hrest, h₂⟩ := hroom hless
        refine ⟨syms₂, ?_, h₂⟩
        simp [SymOp.run, hrun, hrest, SymOp.answers]
      · intro hmore
        simp [SymOp.run, hrun, hno hmore]

theorem refines_new (tab : Case) : Refines tab (HashTab.new : HashTab Name ν) fun _ => none := by
  refine ⟨good_new, fun t e => ?_⟩
  rw [entries_new]
  constructor
  · rintro h
    cases h
  · rintro ⟨h, -⟩
    cases h

/-- A run from an empty table. -/
theorem run_new (tab : Case) (ops : List (SymOp ν)) (depth : Nat) : ((SymOp.names tab ops).card ≤ maxCount →
      ∃ syms, SymOp.run tab (depth + 2) HashTab.new ops = some (SymOp.answers tab (fun _ => none) ops, syms) ∧
        Refines tab syms (SymOp.final tab (fun _ => none) ops)) ∧
    (maxCount < (SymOp.names tab ops).card → SymOp.run tab (depth + 2) HashTab.new ops = none) := by
  have hnames : ∀ t, t ∈ (∅ : Finset (List UInt8)) ↔ ∃ e, (none : Option (Name × ν)) = some e := fun t => by simp
  have h := run_spec ops depth (refines_new tab) hnames
  rwa [Finset.empty_union] at h

/-! ## The sorted copy -/

theorem copyEntries_spec (count : Nat) (payload : List (Option (Name × ν))) (sorted : List (Name × ν))
    (h : sorted.length + (payload.filterMap id).length ≤ count) :
    copyEntries count payload sorted = some (sorted ++ payload.filterMap id) := by
  induction payload generalizing sorted with
  | nil => rw [copyEntries, List.filterMap_nil, List.append_nil]
  | cons o payload ih =>
    cases o with
    | none => exact ih sorted h
    | some e =>
      have hcons : ((some e :: payload : List (Option (Name × ν))).filterMap id) = e :: payload.filterMap id := rfl
      rw [hcons, List.length_cons] at h
      rw [copyEntries, if_pos (by omega), ih _ (by rw [List.length_append, List.length_singleton]; omega), hcons, List.append_assoc]
      rfl

/-- The sorted copy has the entries of the table. -/
theorem copy_spec (h : Refines tab syms m) (comparator : Name × ν → Name × ν → Int) :
    symtabCopySortedPayload syms comparator = some (syms.entries.mergeSort fun e₁ e₂ => comparator e₁ e₂ ≤ 0) := by
  have hcount : syms.count = syms.entries.length := by rw [h.good.shape.count, used_slots]
  have hcopy := copyEntries_spec syms.count syms.payload [] (by rw [hcount, List.length_nil, Nat.zero_add]; rfl)
  rw [symtabCopySortedPayload, hcopy, List.nil_append, Option.bind_eq_bind, Option.bind_some]
  exact if_pos hcount.symm

/-- A table has no room for more than `maxCount` names. -/
theorem exists_full (tab : Case) : ∃ ops : List (SymOp Unit), ∀ depth, SymOp.run tab (depth + 2) HashTab.new ops = none := by
  have hn : maxCount < maxCount + 1 := Nat.lt_succ_self _
  generalize maxCount + 1 = n at hn
  have hname : ∀ r : Nat, (0 : UInt8) ∉ List.replicate r 1 := fun r h => by
    have hone := List.eq_of_mem_replicate h
    revert hone
    decide
  refine ⟨(List.range n).map fun r => .add ⟨List.replicate r 1, hname r⟩ (), fun depth => (run_new tab _ depth).2 ?_⟩
  have hfold : ∀ r, tab.fold ⟨List.replicate r 1, hname r⟩ = List.replicate r 1 := by
    intro r
    cases tab with
    | sens => rfl
    | insens => exact List.map_replicate.trans (congrArg _ (by decide))
  have hnames : SymOp.names tab ((List.range n).map fun r => SymOp.add ⟨List.replicate r 1, hname r⟩ ()) =
      (Finset.range n).image (List.replicate · 1) := by
    ext t
    simp [SymOp.names, SymOp.addedName, hfold]
  rw [hnames, Finset.card_image_of_injective _ (List.replicate_left_injective 1), Finset.card_range]
  exact hn

end SymtabAux

open Hashing.HashTab SymtabAux

/-- Adds and finds on a new table answer as a finite map does, with the entries of that map, each of them once, a free slot for the
loops to stop at, and a sorted copy with each entry once in the order of any comparator: if and only if at most `3 * 2 ^ 29` different
names are added. With one more the capacity doubles to zero. -/
theorem symtab_iff (tab : Case) (ops : List (SymOp ν)) (depth : Nat) :
    (∃ syms, SymOp.run tab (depth + 2) HashTab.new ops = some (SymOp.answers tab (fun _ => none) ops, syms) ∧ none ∈ syms.payload ∧
      (∀ t e, SymOp.final tab (fun _ => none) ops t = some e ↔ e ∈ syms.entries ∧ tab.fold e.1 = t) ∧
      (syms.entries.map fun e => tab.fold e.1).Nodup ∧
      ∀ comparator : Name × ν → Name × ν → Int, ∃ sorted, symtabCopySortedPayload syms comparator = some sorted ∧ sorted.Perm syms.entries ∧
        ((∀ e₁ e₂ e₃, comparator e₁ e₂ ≤ 0 → comparator e₂ e₃ ≤ 0 → comparator e₁ e₃ ≤ 0) →
          (∀ e₁ e₂, comparator e₁ e₂ ≤ 0 ∨ comparator e₂ e₁ ≤ 0) → sorted.Pairwise fun e₁ e₂ => comparator e₁ e₂ ≤ 0)) ↔
    (SymOp.names tab ops).card ≤ 3 * 2 ^ 29 := by
  obtain ⟨hroom, hfull⟩ := run_new tab ops depth
  constructor
  · rintro ⟨syms, hrun, -⟩
    rcases Nat.lt_or_ge maxCount (SymOp.names tab ops).card with hlt | hge
    · rw [hfull hlt] at hrun
      cases hrun
    · exact hge
  · intro hless
    obtain ⟨syms, hrun, h⟩ := hroom hless
    refine ⟨syms, hrun, free_mem h.good, h.map, nodup_texts h.good.shape, fun comparator => ?_⟩
    refine ⟨_, copy_spec h comparator, List.mergeSort_perm _ _, fun htrans htotal => ?_⟩
    have htrans' : ∀ e₁ e₂ e₃, decide (comparator e₁ e₂ ≤ 0) → decide (comparator e₂ e₃ ≤ 0) → decide (comparator e₁ e₃ ≤ 0) := by
      intro e₁ e₂ e₃ h₁ h₂
      simp only [decide_eq_true_eq] at *
      exact htrans e₁ e₂ e₃ h₁ h₂
    have htotal' : ∀ e₁ e₂, decide (comparator e₁ e₂ ≤ 0) || decide (comparator e₂ e₁ ≤ 0) := by
      intro e₁ e₂
      simpa using htotal e₁ e₂
    exact (List.pairwise_mergeSort htrans' htotal' syms.entries).imp fun h => by simpa using h

/-- One name more than the table has room for. -/
theorem symtab_false : ¬∀ ops : List (SymOp Unit), ∃ depth syms,
    SymOp.run .insens (depth + 2) HashTab.new ops = some (SymOp.answers .insens (fun _ => none) ops, syms) := by
  intro h
  obtain ⟨ops, hnone⟩ := exists_full .insens
  obtain ⟨depth, syms, hrun⟩ := h ops
  rw [hnone depth] at hrun
  cases hrun

end CgSql.SymbolTable
