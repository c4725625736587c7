import Mathlib.Data.List.Basic

/-!
# Who wrote a variable last

Code as the paths through it, where a path writes variables and reads them. Each write says who writes, and each read says whose value
it expects. A triple says that no path reads what somebody else wrote; code misreads when some path does.
-/

namespace Writers

/-- What happens to variables: whose value is expected in some of them, or who writes one. -/
inductive Event (V O : Type)
  | read (held : List (V × O))
  | write (v : V) (o : O)
  deriving DecidableEq

/-- Who wrote a variable last. -/
abbrev Tags (V O : Type) := V → Option O

/-- The paths through code. -/
abbrev Code (V O : Type) := List (List (Event V O))

variable {V O : Type}

namespace Code

variable {a b : Code V O} {p : List (Event V O)}

/-- No statement. -/
def skip : Code V O := [[]]

/-- One statement. -/
def one (e : Event V O) : Code V O := [[e]]

/-- One part after the other. -/
def seq (a b : Code V O) : Code V O := a.flatMap fun p => b.map (p ++ ·)

/-- Either part. -/
def choice (a b : Code V O) : Code V O := a ++ b

/-- A path of a sequence is a path of the one and then of the other. -/
theorem mem_seq : p ∈ a.seq b ↔ ∃ q ∈ a, ∃ r ∈ b, q ++ r = p := by
  simp [seq, List.mem_flatMap]

/-- Nothing follows. -/
theorem seq_skip (a : Code V O) : a.seq skip = a := by
  simp [seq, skip, List.flatMap_singleton']

/-- Code that does nothing has a path. -/
@[simp] theorem skip_ne_nil : (skip : Code V O) ≠ [] := List.cons_ne_nil _ _

/-- An event has a path. -/
@[simp] theorem one_ne_nil (e : Event V O) : one e ≠ [] := List.cons_ne_nil _ _

/-- An event is not nothing. -/
@[simp] theorem one_ne_skip (e : Event V O) : one e ≠ skip := by simp [one, skip]

/-- A sequence has a path if both parts have. -/
theorem seq_ne_nil (ha : a ≠ []) (hb : b ≠ []) : a.seq b ≠ [] := by
  obtain ⟨p, hp⟩ := List.exists_mem_of_ne_nil a ha
  obtain ⟨q, hq⟩ := List.exists_mem_of_ne_nil b hb
  exact List.ne_nil_of_mem (mem_seq.2 ⟨p, hp, q, hq, rfl⟩)

/-- A choice has a path if the first part has. -/
theorem choice_ne_nil (ha : a ≠ []) : a.choice b ≠ [] := by
  intro h
  exact ha (List.append_eq_nil_iff.1 h).1

/-- A sequence does nothing only if both parts do. -/
theorem eq_skip_of_seq (h : a.seq b = skip) : a = skip ∧ b = skip := by
  have hlen : a.length * b.length = 1 := by
    have hmap : (a.seq b).length = a.length * b.length := by simp [seq, List.length_flatMap]
    rw [← hmap, h]
    rfl
  have ha := Nat.eq_one_of_mul_eq_one_right hlen
  have hb := Nat.eq_one_of_mul_eq_one_left hlen
  obtain ⟨p, rfl⟩ := List.length_eq_one_iff.1 ha
  obtain ⟨q, rfl⟩ := List.length_eq_one_iff.1 hb
  simp only [seq, List.flatMap_cons, List.flatMap_nil, List.map_cons, List.map_nil, List.append_nil, skip, List.cons.injEq,
    List.append_eq_nil_iff, and_true] at h
  rw [h.1, h.2]
  exact ⟨rfl, rfl⟩

/-- A choice with paths of both parts is not nothing. -/
theorem choice_ne_skip (ha : a ≠ []) (hb : b ≠ []) : a.choice b ≠ skip := by
  intro h
  have hlen : a.length + b.length = 1 := by
    rw [← List.length_append]
    exact congrArg List.length h
  have := List.length_pos_iff.2 ha
  have := List.length_pos_iff.2 hb
  omega

end Code

/-! ## Writers of code -/

section

variable {a b : Code V O}
variable {o : O}

/-- All that write are of one kind. -/
def Owned (S : O → Prop) (c : Code V O) : Prop := ∀ p ∈ c, ∀ v o, Event.write v o ∈ p → S o

/-- What is owned is owned by more. -/
theorem Owned.mono {S' : O → Prop} {c : Code V O} (h : Owned S c) (hs : ∀ o, S o → S' o) : Owned S' c :=
  fun p hp v o hw => hs o (h p hp v o hw)

/-- Nothing is written. -/
theorem owned_skip (S : O → Prop) : Owned S (Code.skip : Code V O) := by
  intro p hp v o hw
  rw [List.mem_singleton.1 hp] at hw
  nomatch hw

/-- Reading writes nothing. -/
theorem owned_read (S : O → Prop) (held : List (V × O)) : Owned S (Code.one (.read held)) := by
  intro p hp v o hw
  rw [List.mem_singleton.1 hp, List.mem_singleton] at hw
  nomatch hw

/-- A write is owned by its writer. -/
theorem owned_write (h : S o) : Owned S (Code.one (.write v o)) := by
  intro p hp w o' hw
  rw [List.mem_singleton.1 hp, List.mem_singleton] at hw
  cases hw
  exact h

/-- A sequence is owned where both parts are. -/
theorem Owned.seq (ha : Owned S a) (hb : Owned S b) : Owned S (a.seq b) := by
  intro p hp v o hw
  obtain ⟨q, hq, r, hr, rfl⟩ := Code.mem_seq.1 hp
  rcases List.mem_append.1 hw with hw | hw
  · exact ha q hq v o hw
  · exact hb r hr v o hw

/-- A choice is owned where both parts are. -/
theorem Owned.choice (ha : Owned S a) (hb : Owned S b) : Owned S (a.choice b) := by
  intro p hp v o hw
  rcases List.mem_append.1 hp with hp | hp
  · exact ha p hp v o hw
  · exact hb p hp v o hw

/-- Some path writes the variable. -/
def Writes (c : Code V O) (v : V) : Prop := ∃ p ∈ c, ∃ o, Event.write v o ∈ p

/-- A write writes. -/
theorem writes_write (v : V) (o : O) : Writes (Code.one (.write v o)) v :=
  ⟨_, List.mem_singleton.2 rfl, o, List.mem_singleton.2 rfl⟩

/-- The first part writes on a path of both. -/
theorem Writes.seq_left (h : Writes a v) (hb : b ≠ []) : Writes (a.seq b) v := by
  obtain ⟨p, hp, o, hw⟩ := h
  obtain ⟨q, hq⟩ := List.exists_mem_of_ne_nil b hb
  exact ⟨p ++ q, Code.mem_seq.2 ⟨p, hp, q, hq, rfl⟩, o, List.mem_append_left _ hw⟩

/-- So does the second part. -/
theorem Writes.seq_right (h : Writes b v) (ha : a ≠ []) : Writes (a.seq b) v := by
  obtain ⟨q, hq, o, hw⟩ := h
  obtain ⟨p, hp⟩ := List.exists_mem_of_ne_nil a ha
  exact ⟨p ++ q, Code.mem_seq.2 ⟨p, hp, q, hq, rfl⟩, o, List.mem_append_right _ hw⟩

/-- The first part of a choice writes. -/
theorem Writes.choice_left (h : Writes a v) : Writes (a.choice b) v := by
  obtain ⟨p, hp, hw⟩ := h
  exact ⟨p, List.mem_append_left _ hp, hw⟩

/-- So does the second. -/
theorem Writes.choice_right (h : Writes b v) : Writes (a.choice b) v := by
  obtain ⟨p, hp, hw⟩ := h
  exact ⟨p, List.mem_append_right _ hp, hw⟩

/-- Some path writes the variable, or expects the value of some writer in it. -/
def Touches (c : Code V O) (v : V) (o : O) : Prop :=
  ∃ p ∈ c, (∃ w, Event.write v w ∈ p) ∨ ∃ held, Event.read held ∈ p ∧ (v, o) ∈ held

end

/-! ## Runs -/

/-- Values that are still there. -/
def Holds (held : List (V × O)) (σ : Tags V O) : Prop := ∀ u ∈ held, σ u.1 = some u.2

instance [DecidableEq O] (held : List (V × O)) (σ : Tags V O) : Decidable (Holds held σ) :=
  inferInstanceAs (Decidable (∀ u ∈ held, _))

variable {σ : Tags V O} {held : List (V × O)}

/-- Two lists hold together. -/
theorem holds_append {held' : List (V × O)} : Holds (held ++ held') σ ↔ Holds held σ ∧ Holds held' σ := List.forall_mem_append

/-- Nothing always holds. -/
theorem holds_nil (σ : Tags V O) : Holds [] σ := fun _ h => absurd h List.not_mem_nil

section

variable [DecidableEq V] {v : V}

/-- After a write. -/
def Tags.set (σ : Tags V O) (v : V) (o : O) : Tags V O := fun w => if w = v then some o else σ w

/-- A variable has the tag of its last writer. -/
theorem Tags.set_self (σ : Tags V O) (v : V) (o : O) : σ.set v o v = some o := if_pos rfl

/-- Other variables keep their tags. -/
theorem Tags.set_of_ne {w : V} (h : w ≠ v) : σ.set v o w = σ w := if_neg h

end

variable [DecidableEq V] [DecidableEq O]

/-- A read fails when somebody else wrote the variable. -/
def Event.run : Event V O → Tags V O → Option (Tags V O)
  | .read held, σ => if Holds held σ then some σ else none
  | .write v o, σ => some (σ.set v o)

/-- A path from who wrote the variables before it. -/
def run : List (Event V O) → Tags V O → Option (Tags V O)
  | [], σ => some σ
  | e :: p, σ => (e.run σ).bind (run p)

/-- Two paths run one after the other. -/
theorem run_append (p q : List (Event V O)) (σ : Tags V O) : run (p ++ q) σ = (run p σ).bind (run q) := by
  induction p generalizing σ with
  | nil => rfl
  | cons e p ih =>
    rw [List.cons_append, run, run]
    rcases e.run σ with _ | σ'
    · rfl
    · exact ih σ'

/-! ## Code that reads what it should -/

/-- From where the precondition holds, all reads of a path are as expected, and the postcondition holds after it. -/
def Triple (P : Tags V O → Prop) (c : Code V O) (Q : Tags V O → Prop) : Prop :=
  ∀ p ∈ c, ∀ σ, P σ → ∃ σ', run p σ = some σ' ∧ Q σ'

variable {P Q R : Tags V O → Prop} {a b : Code V O} {S : O → Prop} {σ' : Tags V O}

/-- The rule of consequence. -/
theorem Triple.weaken {P' Q' : Tags V O → Prop} (h : Triple P a Q) (hp : ∀ σ, P' σ → P σ) (hq : ∀ σ, Q σ → Q' σ) : Triple P' a Q' := by
  intro p hmem σ hpre
  obtain ⟨σ', hrun, hpost⟩ := h p hmem σ (hp σ hpre)
  exact ⟨σ', hrun, hq σ' hpost⟩

/-- Nothing keeps everything. -/
theorem triple_skip (P : Tags V O → Prop) : Triple P Code.skip P := by
  intro p hp σ h
  rw [List.mem_singleton.1 hp]
  exact ⟨σ, rfl, h⟩

/-- The rule of sequences. -/
theorem Triple.seq (ha : Triple P a Q) (hb : Triple Q b R) : Triple P (a.seq b) R := by
  intro p hp σ h
  obtain ⟨q, hq, r, hr, rfl⟩ := Code.mem_seq.1 hp
  obtain ⟨σ1, hrun1, h1⟩ := ha q hq σ h
  obtain ⟨σ2, hrun2, h2⟩ := hb r hr σ1 h1
  exact ⟨σ2, by rw [run_append, hrun1]; exact hrun2, h2⟩

/-- The rule of choices. -/
theorem Triple.choice (ha : Triple P a Q) (hb : Triple P b Q) : Triple P (a.choice b) Q := by
  intro p hp σ h
  rcases List.mem_append.1 hp with hp | hp
  · exact ha p hp σ h
  · exact hb p hp σ h

/-- A read keeps everything where it finds what it wants. -/
theorem triple_read (h : ∀ σ, P σ → Holds held σ) : Triple P (Code.one (.read held)) P := by
  intro p hp σ hpre
  rw [List.mem_singleton.1 hp]
  exact ⟨σ, by simp [run, Event.run, h σ hpre], hpre⟩

/-- The rule of assignments. -/
theorem triple_write (h : ∀ σ, P σ → Q (σ.set v o)) : Triple P (Code.one (.write v o)) Q := by
  intro p hp σ hpre
  rw [List.mem_singleton.1 hp]
  exact ⟨σ.set v o, rfl, h σ hpre⟩

/-! ## Code that does not -/

/-- Wherever it starts, some path reads what somebody else wrote. -/
def Misreads (c : Code V O) : Prop := ∀ σ, ∃ p ∈ c, run p σ = none

/-- The first part misreads on a path of both. -/
theorem Misreads.seq_left (h : Misreads a) (hb : b ≠ []) : Misreads (a.seq b) := by
  intro σ
  obtain ⟨p, hp, hrun⟩ := h σ
  obtain ⟨q, hq⟩ := List.exists_mem_of_ne_nil b hb
  exact ⟨p ++ q, Code.mem_seq.2 ⟨p, hp, q, hq, rfl⟩, by rw [run_append, hrun]; rfl⟩

/-- So does the second part. -/
theorem Misreads.seq_right (h : Misreads b) (ha : a ≠ []) : Misreads (a.seq b) := by
  intro σ
  obtain ⟨p, hp⟩ := List.exists_mem_of_ne_nil a ha
  rcases hrun : run p σ with _ | σ'
  · obtain ⟨q, hq, -⟩ := h σ
    exact ⟨p ++ q, Code.mem_seq.2 ⟨p, hp, q, hq, rfl⟩, by rw [run_append, hrun]; rfl⟩
  · obtain ⟨q, hq, hrun'⟩ := h σ'
    exact ⟨p ++ q, Code.mem_seq.2 ⟨p, hp, q, hq, rfl⟩, by rw [run_append, hrun]; exact hrun'⟩

/-- The first part of a choice misreads. -/
theorem Misreads.choice_left (h : Misreads a) : Misreads (a.choice b) := by
  intro σ
  obtain ⟨p, hp, hrun⟩ := h σ
  exact ⟨p, List.mem_append_left _ hp, hrun⟩

/-- So does the second. -/
theorem Misreads.choice_right (h : Misreads b) : Misreads (a.choice b) := by
  intro σ
  obtain ⟨p, hp, hrun⟩ := h σ
  exact ⟨p, List.mem_append_right _ hp, hrun⟩

/-- Code with a triple does not misread. -/
theorem Triple.not_misreads (h : Triple P a Q) (hp : P σ) : ¬Misreads a := by
  intro hmisreads
  obtain ⟨p, hmem, hnone⟩ := hmisreads σ
  obtain ⟨σ', hsome, -⟩ := h p hmem σ hp
  rw [hnone] at hsome
  nomatch hsome

/-- When all that write are of one kind, what one of them wrote is theirs after that. -/
theorem run_keeps_owner (hown : ∀ v o, Event.write v o ∈ p → S o)
    (hrun : run p σ = some σ') (h : ∃ o, σ v = some o ∧ S o) : ∃ o, σ' v = some o ∧ S o := by
  induction p generalizing σ with
  | nil =>
    cases hrun
    exact h
  | cons e p ih =>
    have htail := fun v o hw => hown v o (List.mem_cons_of_mem _ hw)
    obtain ⟨σ1, he, hrun⟩ := Option.bind_eq_some_iff.1 hrun
    refine ih htail hrun ?_
    rcases e with held | ⟨w, o⟩
    · simp only [Event.run] at he
      split at he
      · cases he
        exact h
      · nomatch he
    · cases he
      by_cases hv : v = w
      · subst hv
        exact ⟨o, Tags.set_self .., hown _ _ List.mem_cons_self⟩
      · rw [Tags.set_of_ne hv]
        exact h

/-- A variable that is written ends with an owner. -/
theorem run_owner_of_write (hown : ∀ v o, Event.write v o ∈ p → S o)
    (hw : Event.write v o ∈ p) (hrun : run p σ = some σ') : ∃ o, σ' v = some o ∧ S o := by
  induction p generalizing σ with
  | nil => nomatch hw
  | cons e p ih =>
    have htail := fun v o hw => hown v o (List.mem_cons_of_mem _ hw)
    obtain ⟨σ1, he, hrun⟩ := Option.bind_eq_some_iff.1 hrun
    rcases List.mem_cons.1 hw with rfl | hw
    · cases he
      exact run_keeps_owner htail hrun ⟨o, Tags.set_self .., hown _ _ List.mem_cons_self⟩
    · exact ih htail hw hrun

/-- So does a variable that is read of an owner. -/
theorem run_owner_of_read (hown : ∀ v o, Event.write v o ∈ p → S o) (ho : S o)
    (hr : Event.read held ∈ p) (hmem : (v, o) ∈ held) (hrun : run p σ = some σ') : ∃ o, σ' v = some o ∧ S o := by
  induction p generalizing σ with
  | nil => nomatch hr
  | cons e p ih =>
    have htail := fun v o hw => hown v o (List.mem_cons_of_mem _ hw)
    obtain ⟨σ1, he, hrun⟩ := Option.bind_eq_some_iff.1 hrun
    rcases List.mem_cons.1 hr with rfl | hr
    · simp only [Event.run] at he
      split at he
      · rename_i hholds
        cases he
        exact run_keeps_owner htail hrun ⟨o, hholds _ hmem, ho⟩
      · nomatch he
    · exact ih htail hr hrun

/-- Code that touches a variable and leaves it to others, between a write of one of them and the read of that value. -/
theorem misreads_of_touches {o' : O} (hown : Owned S a) (ht : Touches a v o) (ho : S o)
    (ho' : ¬S o') (hmem : (v, o') ∈ held) : Misreads (a.seq (Code.one (.read held))) := by
  intro σ
  obtain ⟨p, hp, hevent⟩ := ht
  refine ⟨p ++ [.read held], Code.mem_seq.2 ⟨p, hp, _, List.mem_singleton.2 rfl, rfl⟩, ?_⟩
  rw [run_append]
  rcases hrun : run p σ with _ | σ'
  · rfl
  · obtain ⟨o1, htag, hs⟩ : ∃ o, σ' v = some o ∧ S o := by
      rcases hevent with ⟨w, hw⟩ | ⟨held', hr, hmem'⟩
      · exact run_owner_of_write (hown p hp) hw hrun
      · exact run_owner_of_read (hown p hp) ho hr hmem' hrun
    have hnot : ¬Holds held σ' := fun h => by
      have heq := h _ hmem
      rw [htag] at heq
      cases heq
      exact ho' hs
    simp [run, Event.run, hnot]

/-- Code that writes a variable, between a write of somebody else and the read of that value. -/
theorem misreads_of_writes (hown : Owned S a) (hw : Writes a v) (ho : ¬S o)
    (hmem : (v, o) ∈ held) : Misreads (a.seq (Code.one (.read held))) := by
  obtain ⟨p, hp, w, hwrite⟩ := hw
  have htouches : Touches a v w := ⟨p, hp, .inl ⟨w, hwrite⟩⟩
  exact misreads_of_touches hown htouches (hown p hp v w hwrite) ho hmem

end Writers
