import CgSql.GroupDeps
import CgSql.Theorems.SymbolTable

/-!
# The dependencies between recreate groups

The walk over the stored graph ends because the graph has no cycle, and the graph has no cycle because the walk refuses the edges that would
close one.
-/

namespace CgSql.GroupDeps

open Cascade (Edge Acyclic addEdge acyclic_addEdge_iff height height_le height_lt)
open Hashing.HashTab (maxCount count_eq_card)
open Relation (ReflTransGen)
open SymbolTable (Name Case Model strCaseCmp)
open SymbolTable.SymtabAux (Refines refines_new strCaseCmp_eq_zero)

namespace GraphAux

variable {t : List UInt8} {name : Name} {fuel : Nat}

/-- A name in lower case. -/
abbrev folded (name : Name) : List UInt8 := Case.insens.fold name

/-- What holds between two calls: `m` is the finite map that the table is, all names are among `names`, and the edges start at `sources`. -/
structure Inv (names : Finset (List UInt8)) (sources : List (List UInt8)) (deps : Deps) (m : Model Nat) : Prop where
  refines : Refines .insens deps.syms m
  address : ∀ t e, m t = some e → e.2 < deps.buffers.length
  /-- No two names share a buffer. -/
  apart : ∀ t t' e e', m t = some e → m t' = some e' → e.2 = e'.2 → t = t'
  known : ∀ t e, m t = some e → t ∈ names
  /-- What is in a buffer is in the table. -/
  target : ∀ buf ∈ deps.buffers, ∀ name ∈ buf.names, ∃ e, m (folded name) = some e
  size : ∀ buf ∈ deps.buffers, buf.max % 1032 = 0 ∧ 8 * buf.names.length ≤ buf.max ∧ buf.names.length ≤ sources.length
  source : ∀ t, deps.graph t ≠ [] → t ∈ sources

variable {names : Finset (List UInt8)} {sources : List (List UInt8)} {deps : Deps} {m : Model Nat}

/-- The graph, read from the map. -/
theorem graph_eq (h : Refines .insens deps.syms m) (t : List UInt8) :
    deps.graph t = (((m t).bind fun e => deps.buffers[e.2]?).map fun buf => buf.names.map folded).getD [] := by
  have hfind : deps.syms.entries.find? (fun entry => decide (folded entry.1 = t)) = m t := by
    cases hm : m t with
    | none =>
      rw [List.find?_eq_none]
      intro e he
      simpa using h.absent hm e he
    | some e =>
      obtain ⟨hmem, htext⟩ := (h.map t e).mp hm
      obtain ⟨e', he'⟩ : ∃ e', deps.syms.entries.find? (fun entry => decide (folded entry.1 = t)) = some e' := by
        rw [← Option.isSome_iff_exists, List.find?_isSome]
        exact ⟨e, hmem, by simpa using htext⟩
      have hfold : folded e'.1 = t := by simpa using List.find?_some he'
      rw [he', ← hm, eq_comm, h.map]
      exact ⟨List.mem_of_find?_eq_some he', hfold⟩
  rw [Deps.graph, hfind]
  cases m t with
  | none => rfl
  | some e => rfl

/-- What depends on a group is in the table. -/
theorem Inv.neighbor (h : Inv names sources deps m) {b : List UInt8} (hb : b ∈ deps.graph t) : ∃ e, m b = some e := by
  rw [graph_eq h.refines] at hb
  cases hbuf : (m t).bind fun e => deps.buffers[e.2]? with
  | none => simp [hbuf] at hb
  | some buf =>
    simp only [hbuf, Option.map_some, Option.getD_some, List.mem_map] at hb
    obtain ⟨name, hname, rfl⟩ := hb
    obtain ⟨e, -, he⟩ := Option.bind_eq_some_iff.mp hbuf
    exact h.target buf (List.mem_of_getElem? he) name hname

theorem inv_new (names : Finset (List UInt8)) : Inv names [] .new fun _ => none where
  refines := refines_new .insens
  address := by simp
  apart := by simp
  known := by simp
  target := by simp [Deps.new]
  size := by simp [Deps.new]
  source := by
    intro t ht
    rw [graph_eq (refines_new .insens)] at ht
    simp at ht

/-! ### The buffer of a name -/

/-- A table to which a name is added has room, if there is room for all names. -/
theorem Inv.room (h : Inv names sources deps m) (hcard : names.card ≤ maxCount) (ht : t ∈ names) (hm : m t = none) :
    deps.syms.count < maxCount := by
  have hcount : deps.syms.count = (names.filter fun t => (m t).isSome).card := by
    refine count_eq_card h.refines.good.shape fun t => ?_
    rw [Finset.mem_filter, Option.isSome_iff_exists]
    constructor
    · rintro ⟨-, e, he⟩
      exact ⟨e, (h.refines.map t e).mp he⟩
    · rintro ⟨e, he⟩
      have hsome := (h.refines.map t e).mpr he
      exact ⟨h.known t e hsome, e, hsome⟩
  have hlt : (names.filter fun t => (m t).isSome).card < names.card := by
    refine Finset.card_lt_card (Finset.filter_ssubset.mpr ⟨t, ht, ?_⟩)
    simp [hm]
  omega

/-- A map keeps its entries when a new one is added. -/
theorem update_of_present {t' : List UInt8} {e e' : Name × Nat} (hm : m t' = none) (ht : m t = some e) :
    Function.update m t' (some e') t = some e := by
  rw [Function.update_of_ne, ht]
  rintro rfl
  rw [hm] at ht
  cases ht

/-- A name in the table has a buffer, with what depends on it. -/
theorem ensure_present (h : Inv names sources deps m) {e : Name × Nat} (hm : m (folded name) = some e) :
    symtabEnsureBytebuf deps name = some (e.2, deps) ∧
      ∃ buf, deps.buffers[e.2]? = some buf ∧ buf.names.map folded = deps.graph (folded name) := by
  have hlt := h.address _ _ hm
  have hget : deps.buffers[e.2]? = some deps.buffers[e.2] := List.getElem?_eq_getElem hlt
  refine ⟨?_, deps.buffers[e.2], hget, ?_⟩
  · rw [symtabEnsureBytebuf, h.refines.find, hm]
    rfl
  · rw [graph_eq h.refines, hm]
    simp [hget]

/-- A name that is not in the table gets an empty buffer, and the graph is as it was. -/
theorem ensure_absent (h : Inv names sources deps m) (hcard : names.card ≤ maxCount) (hname : folded name ∈ names) (hm : m (folded name) = none) :
    ∃ deps', symtabEnsureBytebuf deps name = some (deps.buffers.length, deps') ∧
      Inv names sources deps' (Function.update m (folded name) (some (name, deps.buffers.length))) ∧
      deps'.graph = deps.graph ∧ deps'.buffers[deps.buffers.length]? = some .open := by
  obtain ⟨syms', hadd, hrefines⟩ := (h.refines.add_absent hm deps.buffers.length 0).1 (h.room hcard hname hm)
  have hsplit : ∀ {t e}, Function.update m (folded name) (some (name, deps.buffers.length)) t = some e →
      (t = folded name ∧ e = (name, deps.buffers.length)) ∨ (t ≠ folded name ∧ m t = some e) := by
    intro t e ht
    by_cases heq : t = folded name
    · subst heq
      rw [Function.update_self] at ht
      exact .inl ⟨rfl, (Option.some.inj ht).symm⟩
    · rw [Function.update_of_ne heq] at ht
      exact .inr ⟨heq, ht⟩
  have hgraph : ({ syms := syms', buffers := deps.buffers ++ [.open] } : Deps).graph = deps.graph := by
    funext t
    rw [graph_eq hrefines, graph_eq h.refines]
    by_cases heq : t = folded name
    · subst heq
      simp [hm, NameBuffer.open]
    · rw [Function.update_of_ne heq]
      cases ht : m t with
      | none => rfl
      | some e =>
        have hlt := h.address t e ht
        simp [List.getElem?_append_left hlt]
  refine ⟨{ syms := syms', buffers := deps.buffers ++ [.open] }, ?_, ?_, hgraph, by simp⟩
  · rw [symtabEnsureBytebuf, h.refines.find, hm]
    simp only [Option.bind_eq_bind, Option.bind_some, hadd]
    rfl
  · refine ⟨hrefines, ?_, ?_, ?_, ?_, ?_, ?_⟩
    · intro t e ht
      rw [List.length_append, List.length_singleton]
      rcases hsplit ht with ⟨-, rfl⟩ | ⟨-, ht⟩
      · exact Nat.lt_succ_self _
      · exact Nat.lt_succ_of_lt (h.address t e ht)
    · intro t t' e e' ht ht' haddress
      rcases hsplit ht with ⟨rfl, rfl⟩ | ⟨-, ht⟩ <;> rcases hsplit ht' with ⟨rfl, rfl⟩ | ⟨-, ht'⟩
      · rfl
      · exact absurd haddress.symm (Nat.ne_of_lt (h.address t' e' ht'))
      · exact absurd haddress (Nat.ne_of_lt (h.address t e ht))
      · exact h.apart t t' e e' ht ht' haddress
    · intro t e ht
      rcases hsplit ht with ⟨rfl, -⟩ | ⟨-, ht⟩
      · exact hname
      · exact h.known t e ht
    · intro buf hbuf n hn
      rcases List.mem_append.mp hbuf with hbuf | hbuf
      · obtain ⟨e, he⟩ := h.target buf hbuf n hn
        exact ⟨e, update_of_present hm he⟩
      · obtain rfl := List.mem_singleton.mp hbuf
        simp [NameBuffer.open] at hn
    · intro buf hbuf
      rcases List.mem_append.mp hbuf with hbuf | hbuf
      · exact h.size buf hbuf
      · obtain rfl := List.mem_singleton.mp hbuf
        simp [NameBuffer.open]
    · rw [hgraph]
      exact h.source

/-- Every name has a buffer, with what depends on it, and no other is lost. -/
theorem ensure_spec (h : Inv names sources deps m) (hcard : names.card ≤ maxCount) (hname : folded name ∈ names) :
    ∃ address deps' m' buf sym, symtabEnsureBytebuf deps name = some (address, deps') ∧ Inv names sources deps' m' ∧
      deps'.graph = deps.graph ∧ deps'.buffers[address]? = some buf ∧ m' (folded name) = some (sym, address) ∧
      buf.names.map folded = deps.graph (folded name) ∧ ∀ t e, m t = some e → m' t = some e := by
  cases hm : m (folded name) with
  | some e =>
    obtain ⟨hensure, buf, hbuf, hnames⟩ := ensure_present h hm
    exact ⟨e.2, deps, m, buf, e.1, hensure, h, rfl, hbuf, hm, hnames, fun _ _ ht => ht⟩
  | none =>
    obtain ⟨deps', hensure, h', hgraph, hbuf⟩ := ensure_absent h hcard hname hm
    refine ⟨_, deps', _, .open, name, hensure, h', hgraph, hbuf, Function.update_self .., ?_, fun t e ht => update_of_present hm ht⟩
    rw [graph_eq h.refines, hm]
    rfl

/-- A buffer takes a name, up to `2 ^ 29 - 2` of them. -/
theorem append_spec {buf : NameBuffer} (hmod : buf.max % 1032 = 0) (hle : 8 * buf.names.length ≤ buf.max)
    (hroom : buf.names.length < 2 ^ 29 - 2) (name : Name) :
    ∃ buf', buf.append name = some buf' ∧ buf'.names = buf.names ++ [name] ∧ buf'.max % 1032 = 0 ∧ 8 * buf'.names.length ≤ buf'.max := by
  rw [NameBuffer.append]
  by_cases hfits : 8 ≤ buf.max - 8 * buf.names.length
  · refine ⟨{ buf with names := buf.names ++ [name] }, if_pos hfits, rfl, hmod, ?_⟩
    simp only [List.length_append, List.length_singleton]
    omega
  · have hgrow : buf.max + 8 + 1024 < 2 ^ 32 := by omega
    refine ⟨{ names := buf.names ++ [name], max := buf.max + 8 + 1024 }, ?_, rfl, ?_, ?_⟩
    · rw [if_neg hfits, if_pos hgrow]
    · show (buf.max + 8 + 1024) % 1032 = 0
      omega
    · simp only [List.length_append, List.length_singleton]
      omega

/-- An append adds an edge. -/
theorem appendBytes_spec (h : Inv names sources deps m) (hcard : names.card ≤ maxCount) {name' : Name}
    (hname : folded name ∈ names) {e' : Name × Nat} (hname' : m (folded name') = some e') (hroom : sources.length < 2 ^ 29 - 2) :
    ∃ deps' m', symtabAppendBytes deps name name' = some deps' ∧ Inv names (folded name :: sources) deps' m' ∧
      deps'.graph = addEdge deps.graph (folded name) (folded name') := by
  obtain ⟨address, deps₁, m₁, buf, sym, hensure, h₁, hgraph, hbuf, hsym, hnames, hkeep⟩ := ensure_spec h hcard hname
  have hmem := List.mem_of_getElem? hbuf
  have hlt : address < deps₁.buffers.length := h₁.address _ _ hsym
  obtain ⟨hmod, hle, hlen⟩ := h₁.size buf hmem
  obtain ⟨buf', happend, hnames', hmod', hle'⟩ := append_spec hmod hle (by omega) name'
  have hrefines : Refines .insens ({ deps₁ with buffers := deps₁.buffers.set address buf' } : Deps).syms m₁ := h₁.refines
  have hgraph' : ({ deps₁ with buffers := deps₁.buffers.set address buf' } : Deps).graph = addEdge deps.graph (folded name) (folded name') := by
    funext t
    rw [graph_eq hrefines]
    by_cases heq : t = folded name
    · subst heq
      simp [hsym, List.getElem?_set_self hlt, hnames', hnames, addEdge]
    · rw [addEdge, Function.update_of_ne heq, ← hgraph, graph_eq h₁.refines]
      cases ht : m₁ t with
      | none => rfl
      | some e =>
        have hne : address ≠ e.2 := fun haddress => heq (h₁.apart _ _ _ _ ht hsym haddress.symm)
        simp [List.getElem?_set_ne hne]
  refine ⟨{ deps₁ with buffers := deps₁.buffers.set address buf' }, m₁, ?_, ?_, hgraph'⟩
  · simp only [symtabAppendBytes, hensure, hbuf, happend, Option.bind_eq_bind, Option.bind_some]
    rfl
  · refine ⟨h₁.refines, ?_, h₁.apart, h₁.known, ?_, ?_, ?_⟩
    · intro t e ht
      rw [List.length_set]
      exact h₁.address t e ht
    · intro b hb n hn
      rcases List.mem_or_eq_of_mem_set hb with hb | rfl
      · exact h₁.target b hb n hn
      · rw [hnames', List.mem_append, List.mem_singleton] at hn
        rcases hn with hn | rfl
        · exact h₁.target buf hmem n hn
        · exact ⟨e', hkeep _ _ hname'⟩
    · intro b hb
      rw [List.length_cons]
      rcases List.mem_or_eq_of_mem_set hb with hb | rfl
      · obtain ⟨hm, hl, hlen⟩ := h₁.size b hb
        exact ⟨hm, hl, Nat.le_succ_of_le hlen⟩
      · refine ⟨hmod', hle', ?_⟩
        rw [hnames', List.length_append, List.length_singleton]
        omega
    · intro t ht
      rw [hgraph'] at ht
      by_cases heq : t = folded name
      · exact heq ▸ List.mem_cons_self
      · rw [addEdge, Function.update_of_ne heq] at ht
        exact List.mem_cons_of_mem _ (h.source t ht)

/-! ### The walk -/

/-- The loop over neighbors finds what the walk from one of them finds. -/
theorem walkNeighbors_spec {walk : Deps → Name → Option (Bool × Deps)} {P : Name → Prop} {l : List Name}
    (hwalk : ∀ start ∈ l, ∃ found, walk deps start = some (found, deps) ∧ (found = true ↔ P start)) :
    ∃ found, walkNeighbors walk deps l = some (found, deps) ∧ (found = true ↔ ∃ start ∈ l, P start) := by
  induction l with
  | nil => exact ⟨false, rfl, by simp⟩
  | cons start l ih =>
    obtain ⟨found, hfirst, hfound⟩ := hwalk start (by simp)
    cases found with
    | true =>
      refine ⟨true, ?_, iff_of_true rfl ⟨start, by simp, hfound.mp rfl⟩⟩
      rw [walkNeighbors, hfirst]
      rfl
    | false =>
      obtain ⟨found, hloop, hfound₂⟩ := ih fun start hstart => hwalk start (by simp [hstart])
      refine ⟨found, ?_, ?_⟩
      · rw [walkNeighbors, hfirst]
        exact hloop
      · have hno : ¬P start := fun hpath => absurd (hfound.mpr hpath) (by simp)
        simp [hfound₂, hno]

/-- With fuel for the height of its start, the walk from a name in the table ends and finds the paths. All that it comes to is in the table,
so that it changes nothing. -/
theorem walk_present (h : Inv names sources deps m) (stop : Name) (hacyclic : Acyclic deps.graph) (fuel : Nat) :
    ∀ start, (∃ e, m (folded start) = some e) → height deps.graph sources (folded start) < fuel →
      ∃ found, walkRecreateGroupDeps stop fuel deps start = some (found, deps) ∧
        (found = true ↔ ReflTransGen (Edge deps.graph) (folded start) (folded stop)) := by
  induction fuel with
  | zero =>
    intro start _ hheight
    exact absurd hheight (Nat.not_lt_zero _)
  | succ fuel ih =>
    intro start hstart hheight
    obtain ⟨e, he⟩ := hstart
    rw [walkRecreateGroupDeps]
    by_cases hend : strCaseCmp start.1 stop.1 = 0
    · have hsame : folded start = folded stop := (strCaseCmp_eq_zero start.2 stop.2).mp hend
      rw [if_pos hend]
      exact ⟨true, rfl, iff_of_true rfl (hsame ▸ .refl)⟩
    · have hne : folded start ≠ folded stop := fun hsame => hend ((strCaseCmp_eq_zero start.2 stop.2).mpr hsame)
      obtain ⟨hensure, buf, hbuf, hnames⟩ := ensure_present h he
      have hnext : ∀ name ∈ buf.names, folded name ∈ deps.graph (folded start) := by
        intro name hname
        rw [← hnames]
        exact List.mem_map_of_mem hname
      have hwalk : ∀ name ∈ buf.names, ∃ found, walkRecreateGroupDeps stop fuel deps name = some (found, deps) ∧
          (found = true ↔ ReflTransGen (Edge deps.graph) (folded name) (folded stop)) := by
        intro name hname
        have hlower := height_lt hacyclic h.source (hnext name hname)
        exact ih name (h.neighbor (hnext name hname)) (by omega)
      obtain ⟨found, hloop, hfound⟩ := walkNeighbors_spec hwalk
      refine ⟨found, ?_, ?_⟩
      · rw [if_neg hend]
        simp only [hensure, hbuf, Option.bind_eq_bind, Option.bind_some]
        exact hloop
      · rw [hfound]
        constructor
        · rintro ⟨name, hname, hpath⟩
          exact .head (hnext name hname) hpath
        · intro hpath
          rcases ReflTransGen.cases_head hpath with hsame | ⟨b, hb, hpath⟩
          · exact absurd hsame hne
          · have hb : b ∈ deps.graph (folded start) := hb
            rw [← hnames, List.mem_map] at hb
            obtain ⟨name, hname, rfl⟩ := hb
            exact ⟨name, hname, hpath⟩

/-- The walk ends and finds the paths. Only the start may be new, and then no edge leads on. -/
theorem walk_spec (h : Inv names sources deps m) (hcard : names.card ≤ maxCount) (hacyclic : Acyclic deps.graph)
    (hfuel : sources.length < fuel) (stop : Name) {start : Name} (hstart : folded start ∈ names) :
    ∃ found deps' m', walkRecreateGroupDeps stop fuel deps start = some (found, deps') ∧ Inv names sources deps' m' ∧
      deps'.graph = deps.graph ∧ (found = true ↔ ReflTransGen (Edge deps.graph) (folded start) (folded stop)) ∧
      (found = true → deps' = deps) ∧ (folded start ≠ folded stop → ∃ e, m' (folded start) = some e) := by
  cases hm : m (folded start) with
  | some e =>
    obtain ⟨found, hwalk, hfound⟩ := walk_present h stop hacyclic fuel start ⟨e, hm⟩ ((height_le _).trans_lt hfuel)
    exact ⟨found, deps, m, hwalk, h, rfl, hfound, fun _ => rfl, fun _ => ⟨e, hm⟩⟩
  | none =>
    obtain ⟨fuel, rfl⟩ : ∃ k, fuel = k + 1 := ⟨fuel - 1, by omega⟩
    rw [walkRecreateGroupDeps]
    by_cases hend : strCaseCmp start.1 stop.1 = 0
    · have hsame : folded start = folded stop := (strCaseCmp_eq_zero start.2 stop.2).mp hend
      rw [if_pos hend]
      exact ⟨true, deps, m, rfl, h, rfl, iff_of_true rfl (hsame ▸ .refl), fun _ => rfl, fun hne => absurd hsame hne⟩
    · have hne : folded start ≠ folded stop := fun hsame => hend ((strCaseCmp_eq_zero start.2 stop.2).mpr hsame)
      obtain ⟨deps', hensure, h', hgraph, hbuf⟩ := ensure_absent h hcard hstart hm
      refine ⟨false, deps', _, ?_, h', hgraph, iff_of_false (by simp) ?_, by simp, fun _ => ⟨_, Function.update_self ..⟩⟩
      · rw [if_neg hend]
        simp only [hensure, hbuf, Option.bind_eq_bind, Option.bind_some]
        rfl
      · intro hpath
        rcases ReflTransGen.cases_head hpath with hsame | ⟨b, hb, -⟩
        · exact hne hsame
        · have hb : b ∈ deps.graph (folded start) := hb
          rw [graph_eq h.refines, hm] at hb
          simp at hb

/-! ### Calls -/

/-- A call: a self reference does nothing, an edge that would close a cycle is refused, and any other is added. -/
theorem add_spec (h : Inv names sources deps m) (hcard : names.card ≤ maxCount) (hacyclic : Acyclic deps.graph) {u v : Name}
    (hu : folded u ∈ names) (hv : folded v ∈ names) (hroom : sources.length < 2 ^ 29 - 2) (hfuel : sources.length < fuel) :
    (folded u = folded v → addGroupDependencyToRecreateGroup fuel deps u v = some (true, deps)) ∧
      (folded u ≠ folded v → ReflTransGen (Edge deps.graph) (folded v) (folded u) →
        addGroupDependencyToRecreateGroup fuel deps u v = some (false, deps)) ∧
      (folded u ≠ folded v → ¬ReflTransGen (Edge deps.graph) (folded v) (folded u) → ∃ deps' m',
        addGroupDependencyToRecreateGroup fuel deps u v = some (true, deps') ∧ Inv names (folded u :: sources) deps' m' ∧
          deps'.graph = addEdge deps.graph (folded u) (folded v)) := by
  have hself : strCaseCmp u.1 v.1 = 0 ↔ folded u = folded v := strCaseCmp_eq_zero u.2 v.2
  obtain ⟨found, deps₁, m₁, hwalk, h₁, hgraph, hfound, hkeep, hentry⟩ := walk_spec h hcard hacyclic hfuel u hv
  refine ⟨?_, ?_, ?_⟩
  · intro hsame
    rw [addGroupDependencyToRecreateGroup, if_pos (hself.mpr hsame)]
  · intro hne hpath
    obtain rfl := hfound.mpr hpath
    obtain rfl := hkeep rfl
    rw [addGroupDependencyToRecreateGroup, if_neg (fun hs => hne (hself.mp hs)), hwalk]
    rfl
  · intro hne hpath
    have hno : found = false := by
      rw [← Bool.not_eq_true]
      exact fun hyes => hpath (hfound.mp hyes)
    subst hno
    obtain ⟨e, he⟩ := hentry (Ne.symm hne)
    obtain ⟨deps₂, m₂, happend, h₂, hgraph₂⟩ := appendBytes_spec h₁ hcard hu he hroom
    refine ⟨deps₂, m₂, ?_, h₂, hgraph ▸ hgraph₂⟩
    rw [addGroupDependencyToRecreateGroup, if_neg (fun hs => hne (hself.mp hs)), hwalk]
    simp only [Option.bind_eq_bind, Option.bind_some, happend]
    rfl

/-- Between calls the invariant holds, and the graph has no cycle. -/
theorem addAll_spec (hcard : names.card ≤ maxCount) {calls : List (Name × Name)}
    (hnames : ∀ call ∈ calls, folded call.1 ∈ names ∧ folded call.2 ∈ names) :
    ∀ {sources deps m}, Inv names sources deps m → Acyclic deps.graph → sources.length + calls.length ≤ 2 ^ 29 - 2 →
      sources.length + calls.length ≤ fuel → ∃ sources' deps' m', addAll fuel deps calls = some deps' ∧ Inv names sources' deps' m' ∧
        Acyclic deps'.graph ∧ sources'.length ≤ sources.length + calls.length := by
  induction calls with
  | nil =>
    intro sources deps m h hacyclic _ _
    exact ⟨sources, deps, m, rfl, h, hacyclic, Nat.le_refl _⟩
  | cons call calls ih =>
    intro sources deps m h hacyclic hroom hfuel
    obtain ⟨u, v⟩ := call
    obtain ⟨hu, hv⟩ := hnames (u, v) (by simp)
    have hrest : ∀ call ∈ calls, folded call.1 ∈ names ∧ folded call.2 ∈ names := fun call hcall => hnames call (by simp [hcall])
    rw [List.length_cons] at hroom hfuel
    have hsources : sources.length < fuel := by omega
    obtain ⟨hself, hrefused, hadded⟩ := add_spec h hcard hacyclic hu hv (by omega) hsources
    have hstep : ∃ found sources₁ deps₁ m₁, addGroupDependencyToRecreateGroup fuel deps u v = some (found, deps₁) ∧
        Inv names sources₁ deps₁ m₁ ∧ Acyclic deps₁.graph ∧ sources₁.length ≤ sources.length + 1 := by
      by_cases hsame : folded u = folded v
      · exact ⟨true, sources, deps, m, hself hsame, h, hacyclic, Nat.le_succ _⟩
      · by_cases hpath : ReflTransGen (Edge deps.graph) (folded v) (folded u)
        · exact ⟨false, sources, deps, m, hrefused hsame hpath, h, hacyclic, Nat.le_succ _⟩
        · obtain ⟨deps₁, m₁, hcall, h₁, hgraph⟩ := hadded hsame hpath
          exact ⟨true, folded u :: sources, deps₁, m₁, hcall, h₁, hgraph ▸ (acyclic_addEdge_iff hacyclic _ _).mpr hpath, Nat.le_refl _⟩
    obtain ⟨found, sources₁, deps₁, m₁, hcall, h₁, hacyclic₁, hlen⟩ := hstep
    obtain ⟨sources₂, deps₂, m₂, hrun, h₂, hacyclic₂, hlen₂⟩ := ih hrest h₁ hacyclic₁ (by omega) (by omega)
    refine ⟨sources₂, deps₂, m₂, ?_, h₂, hacyclic₂, ?_⟩
    · rw [addAll, hcall]
      exact hrun
    · rw [List.length_cons]
      omega

/-- The names of calls, and two more. -/
def namesOf (calls : List (Name × Name)) (u v : Name) : Finset (List UInt8) :=
  (folded u :: folded v :: (calls.map fun call => folded call.1) ++ calls.map fun call => folded call.2).toFinset

theorem card_namesOf (calls : List (Name × Name)) (u v : Name) : (namesOf calls u v).card ≤ 2 * calls.length + 2 := by
  refine (List.toFinset_card_le _).trans ?_
  simp only [List.cons_append, List.length_cons, List.length_append, List.length_map]
  omega

/-- A run of calls, and the names that come next. -/
theorem addAll_new {calls : List (Name × Name)} (hcalls : calls.length < 2 ^ 29 - 2) (hfuel : calls.length < fuel) (u v : Name) :
    ∃ sources deps m, addAll fuel .new calls = some deps ∧ Inv (namesOf calls u v) sources deps m ∧ Acyclic deps.graph ∧
      sources.length ≤ calls.length ∧ (namesOf calls u v).card ≤ maxCount ∧ folded u ∈ namesOf calls u v ∧ folded v ∈ namesOf calls u v := by
  have hcard : (namesOf calls u v).card ≤ maxCount := by
    have := card_namesOf calls u v
    unfold maxCount
    omega
  have hnames : ∀ call ∈ calls, folded call.1 ∈ namesOf calls u v ∧ folded call.2 ∈ namesOf calls u v := by
    intro call hcall
    have h₁ : folded call.1 ∈ calls.map fun call => folded call.1 := List.mem_map_of_mem hcall
    have h₂ : folded call.2 ∈ calls.map fun call => folded call.2 := List.mem_map_of_mem hcall
    constructor
    · rw [namesOf, List.mem_toFinset]
      simp only [List.cons_append, List.mem_cons, List.mem_append, h₁, true_or, or_true]
    · rw [namesOf, List.mem_toFinset]
      simp only [List.cons_append, List.mem_cons, List.mem_append, h₂, or_true]
  have hempty : Acyclic Deps.new.graph := by
    refine Cascade.acyclic_of_lt (fun _ => 0) fun a b hb => ?_
    rw [graph_eq (refines_new .insens)] at hb
    simp at hb
  have hall : ([] : List (List UInt8)).length + calls.length ≤ fuel := by
    rw [List.length_nil]
    omega
  obtain ⟨sources, deps, m, hrun, h, hacyclic, hlen⟩ :=
    addAll_spec hcard hnames (inv_new _) hempty (by rw [List.length_nil]; omega) hall
  refine ⟨sources, deps, m, hrun, h, hacyclic, by simpa using hlen, hcard, ?_, ?_⟩
  · simp [namesOf]
  · simp [namesOf]

/-! ### Identifiers -/

theorem folded_withSuffix (name : Name) (suffix : String) (h : 0 ∉ bytesOf suffix) :
    folded (withSuffix name suffix h) = folded name ++ (bytesOf suffix).map SymbolTable.toLower := by
  simp [folded, Case.fold, withSuffix]

/-- Identifiers tell groups and ungrouped tables apart. -/
theorem createGroupId_inj (groupName groupName' : Option Name) (tableName tableName' : Name) :
    folded (createGroupId groupName tableName) = folded (createGroupId groupName' tableName') ↔
      SameUnit (unitOf groupName tableName) (unitOf groupName' tableName') := by
  have hid : ∀ (g : Option Name) (t : Name), folded (createGroupId g t) = match unitOf g t with
      | .inl group => folded group ++ (bytesOf "_group").map SymbolTable.toLower
      | .inr table => folded table ++ (bytesOf "_table").map SymbolTable.toLower := by
    intro g t
    unfold createGroupId unitOf
    cases g with
    | none => exact folded_withSuffix _ _ _
    | some group =>
      by_cases hempty : group.1 = []
      · simp only [hempty, ne_eq, not_true_eq_false, if_false]
        exact folded_withSuffix _ _ _
      · simp only [hempty, ne_eq, not_false_eq_true, if_true]
        exact folded_withSuffix _ _ _
  rw [hid, hid]
  have hlength : ((bytesOf "_group").map SymbolTable.toLower).length = ((bytesOf "_table").map SymbolTable.toLower).length := by decide
  have hne : (bytesOf "_group").map SymbolTable.toLower ≠ (bytesOf "_table").map SymbolTable.toLower := by decide
  rcases unitOf groupName tableName with group | table <;> rcases unitOf groupName' tableName' with group' | table'
  · exact List.append_left_inj _
  · exact iff_of_false (fun h => hne (List.append_inj' h hlength).2) (fun h => h)
  · exact iff_of_false (fun h => hne (List.append_inj' h hlength.symm).2.symm) (fun h => h)
  · exact List.append_left_inj _

end GraphAux

open GraphAux in
/-- Behind any calls the stored graph has no cycle, and the walk ends and finds the paths. The next call answers false, and changes nothing,
exactly when its edge would close a cycle, and else adds the edge; a self reference is left out. Identifiers tell groups and ungrouped tables
apart. The bound on the calls is that of the buffer of one name. -/
theorem recreateGroupDeps_acyclic (calls : List (Name × Name)) (hcalls : calls.length < 2 ^ 29 - 2) (fuel : Nat) (hfuel : calls.length < fuel) :
    (∃ deps, addAll fuel .new calls = some deps ∧ Acyclic deps.graph ∧
      (∀ start stop, ∃ found deps', walkRecreateGroupDeps stop fuel deps start = some (found, deps') ∧ deps'.graph = deps.graph ∧
        (found = true ↔ ReflTransGen (Edge deps.graph) (Case.insens.fold start) (Case.insens.fold stop))) ∧
      ∀ u v, ∃ answer deps', addGroupDependencyToRecreateGroup fuel deps u v = some (answer, deps') ∧
        (Case.insens.fold u = Case.insens.fold v → answer = true ∧ deps' = deps) ∧
        (Case.insens.fold u ≠ Case.insens.fold v → (answer = false ↔ ¬Acyclic (addEdge deps.graph (Case.insens.fold u) (Case.insens.fold v))) ∧
          (answer = false → deps' = deps) ∧
          (answer = true → deps'.graph = addEdge deps.graph (Case.insens.fold u) (Case.insens.fold v)))) ∧
    ∀ groupName groupName' tableName tableName',
      Case.insens.fold (createGroupId groupName tableName) = Case.insens.fold (createGroupId groupName' tableName') ↔
        SameUnit (unitOf groupName tableName) (unitOf groupName' tableName') := by
  refine ⟨?_, createGroupId_inj⟩
  have hany : Name := ⟨[], by simp⟩
  obtain ⟨-, deps, -, hrun, -, hacyclic, -⟩ := addAll_new hcalls hfuel hany hany
  refine ⟨deps, hrun, hacyclic, ?_, ?_⟩
  · intro start stop
    obtain ⟨sources, deps', m, hrun', h, -, hlen, hcard, hstart, -⟩ := addAll_new hcalls hfuel start stop
    obtain rfl := Option.some.inj (hrun.symm.trans hrun')
    obtain ⟨found, deps₁, -, hwalk, -, hgraph, hfound, -⟩ := walk_spec h hcard hacyclic (Nat.lt_of_le_of_lt hlen hfuel) stop hstart
    exact ⟨found, deps₁, hwalk, hgraph, hfound⟩
  · intro u v
    obtain ⟨sources, deps', m, hrun', h, -, hlen, hcard, hu, hv⟩ := addAll_new hcalls hfuel u v
    obtain rfl := Option.some.inj (hrun.symm.trans hrun')
    obtain ⟨hself, hrefused, hadded⟩ :=
      add_spec h hcard hacyclic hu hv (Nat.lt_of_le_of_lt hlen hcalls) (Nat.lt_of_le_of_lt hlen hfuel)
    by_cases hsame : folded u = folded v
    · exact ⟨true, deps, hself hsame, fun _ => ⟨rfl, rfl⟩, fun hne => absurd hsame hne⟩
    · have hcycle : ¬Acyclic (addEdge deps.graph (folded u) (folded v)) ↔ ReflTransGen (Edge deps.graph) (folded v) (folded u) := by
        rw [acyclic_addEdge_iff hacyclic, not_not]
      by_cases hpath : ReflTransGen (Edge deps.graph) (folded v) (folded u)
      · refine ⟨false, deps, hrefused hsame hpath, fun heq => absurd heq hsame, fun _ => ⟨?_, fun _ => rfl, by simp⟩⟩
        exact iff_of_true rfl (hcycle.mpr hpath)
      · obtain ⟨deps₁, -, hcall, -, hgraph⟩ := hadded hsame hpath
        refine ⟨true, deps₁, hcall, fun heq => absurd heq hsame, fun _ => ⟨?_, by simp, fun _ => hgraph⟩⟩
        exact iff_of_false (by simp) (fun hclose => hpath (hcycle.mp hclose))

/-- The group `u`, and the table `v` in no group. -/
def groupU : Name := createGroupId (some ⟨[117], by decide⟩) ⟨[119], by decide⟩
def tableV : Name := createGroupId none ⟨[118], by decide⟩

/-- The law behind two calls: the second one would close a cycle and is refused. -/
theorem recreateGroupDeps_acyclic_call : [(groupU, tableV), (tableV, groupU)].length < 2 ^ 29 - 2 ∧
    ((addAll 3 .new [(groupU, tableV)]).bind fun deps => (addGroupDependencyToRecreateGroup 3 deps tableV groupU).map Prod.fst) =
      some false ∧ ∃ deps, addAll 3 .new [(groupU, tableV), (tableV, groupU)] = some deps ∧ Acyclic deps.graph := by
  obtain ⟨⟨deps, hrun, hacyclic, -⟩, -⟩ :=
    recreateGroupDeps_acyclic [(groupU, tableV), (tableV, groupU)] (by decide) 3 (by decide)
  exact ⟨by decide, by decide +kernel, deps, hrun, hacyclic⟩

/-- A self reference: its edge would close a cycle, and the call does not answer false. -/
theorem recreateGroupDeps_false : addGroupDependencyToRecreateGroup 1 .new groupU groupU = some (true, .new) ∧
    ¬Acyclic (addEdge Deps.new.graph (Case.insens.fold groupU) (Case.insens.fold groupU)) := by
  refine ⟨rfl, ?_⟩
  intro hacyclic
  exact hacyclic _ (.single (Cascade.edge_addEdge_iff.mpr (.inr ⟨rfl, rfl⟩)))

end CgSql.GroupDeps
