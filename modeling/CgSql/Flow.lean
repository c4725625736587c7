import CgSql.Lib.DeltaLog

/-!
# Flow contexts

The machine of `flow.c`: a stack of contexts over the type words of the program's names. Improvements are flags on type words;
every context records the sets and un-sets made in it, and popping a context reverts, moves or merges what it recorded. Failed
`Contract`s and `Invariant`s are explicit outcomes.
-/

namespace CgSql

open DeltaLog

/-- The improvements flow analysis tracks: the flags `SEM_TYPE_INFERRED_NOTNULL`, `SEM_TYPE_INIT_COMPLETE` and
`SEM_TYPE_HAS_ROW` of a type word. -/
inductive SemFlag
  | inferredNotnull
  | initComplete
  | hasRow
  deriving DecidableEq

/-- The address of a type word (`sem_t *`). -/
abbrev SemPtr := Nat

/-- A flag of a type word: what a history item names. -/
abbrev Key := SemPtr × SemFlag

/-- A `flow_history`, newest item first. The delta of an item is its direction. -/
abbrev History := List (Delta Key)

/-- The flags of all type words. -/
abbrev Flags := Key → Bool

/-- How a branch of a branch group ended: it ran to its end, it always jumps, or it was added empty. -/
inductive BranchExit
  | falls
  | jumps
  | empty
  deriving DecidableEq

/-- The flags a branch was entered with and the flags at its end. Bookkeeping of the model, which no function reads. -/
structure BranchEnd where
  exit : BranchExit
  entry : Flags
  stop : Flags

/-- The `flow_context_kind`s with the members each kind has. Every item of a jump context's `unset_histories` is an un-set, so
its key says all. -/
inductive ContextKind
  | normal
  | branchGroup (branchHistories : History) (branchCount : Nat) (coversAllCases : Bool)
  | branch (alwaysJumps : Bool)
  | jump (unsetHistories : List Key)

/-- Is the context a jump context. -/
def ContextKind.isJump : ContextKind → Bool
  | .jump _ => true
  | _ => false

/-- A `flow_context`. The last three fields are bookkeeping of the model: the flags and the un-set counts when the context was
pushed, and how the branches of a branch group ended. -/
structure FlowContext where
  kind : ContextKind
  history : History := []
  entry : Flags
  entryUnsets : Key → Nat
  branches : List BranchEnd := []

/-- The state of flow analysis: the type words, the context stack with `current_context` first, and, as bookkeeping, how often
each flag was un-set so far. `top_jump_context` is the first jump context of the stack. -/
structure Flow where
  flags : Flags
  contexts : List FlowContext
  unsets : Key → Nat

/-- The `Contract`s and `Invariant`s of `flow.c`, in the order they are met there. -/
inductive FlowAssertion
  | historyItemComparator
  | currentContext
  | setFlagIsUnset
  | unsetFlagIsSet
  | invariantDeltaSum
  | contextKind
  | branchCountPositive
  | positiveSumIsUnset
  | negativeSumIsSet
  | deltaSumBound
  deriving DecidableEq

namespace Flow

/-! ## Setting and un-setting a flag -/

/-- `flow_set_flag_for_type`. -/
def setFlag (k : Key) (s : Flow) : Except FlowAssertion Flow :=
  match s.contexts with
  | [] => .error .currentContext
  | c :: ps =>
    if s.flags k then .error .setFlagIsUnset
    else .ok { s with
      flags := Function.update s.flags k true
      contexts := { c with history := ⟨k, true⟩ :: c.history } :: ps }

/-- Record an un-set in the `unset_histories` of the topmost jump context, if there is one. -/
def recordUnset (k : Key) : List FlowContext → List FlowContext
  | [] => []
  | c :: ps =>
    match c.kind with
    | .jump u => { c with kind := .jump (k :: u) } :: ps
    | _ => c :: recordUnset k ps

/-- `flow_unset_flag_for_type`. The topmost jump context records the un-set too, unless it is the current context. -/
def unsetFlag (k : Key) (s : Flow) : Except FlowAssertion Flow :=
  match s.contexts with
  | [] => .error .currentContext
  | c :: ps =>
    if s.flags k then .ok {
      flags := Function.update s.flags k false
      contexts := { c with history := ⟨k, false⟩ :: c.history } :: if c.kind.isJump then ps else recordUnset k ps
      unsets := Function.update s.unsets k (s.unsets k + 1) }
    else .error .unsetFlagIsSet

/-! ## Sums of a history -/

/-- `with_delta_sums_of_history`: sort the items by type, then sum each run. The comparator asserts that items of one type
have one flag; any sort compares two of them. -/
def deltaSumsOfHistory (h : History) : Except FlowAssertion (List (Key × Int)) :=
  if ∀ a ∈ h, ∀ b ∈ h, a.key.1 = b.key.1 → a.key.2 = b.key.2 then
    .ok (deltaSums (h.insertionSort fun a b => a.key.1 ≤ b.key.1))
  else .error .historyItemComparator

/-- `with_delta_sums_of_history` with `invariant_delta_sum`. -/
def checkDeltaSums (h : History) : Except FlowAssertion Unit :=
  match deltaSumsOfHistory h with
  | .error a => .error a
  | .ok sums => if ∀ p ∈ sums, -1 ≤ p.2 ∧ p.2 ≤ 1 then .ok () else .error .invariantDeltaSum

/-! ## Leaving a context -/

/-- `move_history_to_parent`, and the step of `current_context` to its parent that always follows it. -/
def moveHistoryToParent (s : Flow) : Except FlowAssertion Flow :=
  match s.contexts with
  | [] => .error .currentContext
  | [c] => (checkDeltaSums c.history).map fun _ => { s with contexts := [] }
  | c :: p :: ps =>
    (checkDeltaSums (c.history ++ p.history)).map fun _ =>
      { s with contexts := { p with history := c.history ++ p.history } :: ps }

/-- Un-set each of the keys that is set. -/
def unsetKeys : List Key → Flow → Except FlowAssertion Flow
  | [], s => .ok s
  | k :: ks, s => if s.flags k then (s.unsetFlag k).bind (unsetKeys ks) else unsetKeys ks s

/-- The keys a history sets. -/
def setKeys (h : History) : List Key := (h.filter (·.up)).map (·.key)

/-- `unset_all_improvements`. -/
def unsetAllImprovements (s : Flow) : Except FlowAssertion Flow :=
  match s.contexts with
  | [] => .error .currentContext
  | c :: _ => unsetKeys (setKeys c.history) s

/-- `push_context_with_kind`. -/
def pushContext (kind : ContextKind) (s : Flow) : Flow :=
  { s with contexts := { kind, entry := s.flags, entryUnsets := s.unsets } :: s.contexts }

/-! ## Normal contexts -/

/-- `_flow_push_context_normal`. -/
def pushNormal (s : Flow) : Flow := s.pushContext .normal

/-- `_flow_pop_context_normal`. -/
def popNormal (s : Flow) : Except FlowAssertion Flow :=
  match s.contexts with
  | { kind := .normal, .. } :: _ => s.unsetAllImprovements.bind moveHistoryToParent
  | _ => .error .contextKind

/-! ## Branch groups -/

/-- `_flow_push_context_branch_group`. -/
def pushBranchGroup (s : Flow) : Flow := s.pushContext (.branchGroup [] 0 false)

/-- `flow_set_context_branch_group_covers_all_cases`. -/
def setCoversAllCases (covers : Bool) (s : Flow) : Except FlowAssertion Flow :=
  match s.contexts with
  | c :: ps =>
    match c.kind with
    | .branchGroup hs n _ => .ok { s with contexts := { c with kind := .branchGroup hs n covers } :: ps }
    | _ => .error .contextKind
  | [] => .error .contextKind

/-- `flow_context_branch_group_add_empty_branch`. -/
def addEmptyBranch (s : Flow) : Except FlowAssertion Flow :=
  match s.contexts with
  | c :: ps =>
    match c.kind with
    | .branchGroup hs n covers => .ok { s with
        contexts := { c with kind := .branchGroup hs (n + 1) covers, branches := ⟨.empty, s.flags, s.flags⟩ :: c.branches } :: ps }
    | _ => .error .contextKind
  | [] => .error .contextKind

/-- `merge_effects` on a branch group with the given count and coverage. -/
def mergeEffects (n : Nat) (covers : Bool) (k : Key) (sum : Int) (s : Flow) : Except FlowAssertion Flow :=
  if n = 0 then .error .branchCountPositive
  else if 0 < sum ∧ s.flags k then .error .positiveSumIsUnset
  else if sum < 0 ∧ s.flags k = false then .error .negativeSumIsSet
  else if n < sum.natAbs then .error .deltaSumBound
  else if covers ∧ sum = n then s.setFlag k
  else if sum < 0 then s.unsetFlag k
  else .ok s

/-- Call `merge_effects` on every sum. -/
def mergeAll (n : Nat) (covers : Bool) : List (Key × Int) → Flow → Except FlowAssertion Flow
  | [], s => .ok s
  | (k, sum) :: sums, s => (s.mergeEffects n covers k sum).bind (mergeAll n covers sums)

/-- Zero out the current history. -/
def clearHistory (s : Flow) : Flow :=
  match s.contexts with
  | c :: ps => { s with contexts := { c with history := [] } :: ps }
  | [] => s

/-- `_flow_pop_context_branch_group`. -/
def popBranchGroup (s : Flow) : Except FlowAssertion Flow :=
  match s.contexts with
  | { kind := .branchGroup hs n covers, .. } :: _ =>
    s.unsetAllImprovements.bind fun s₁ =>
      (deltaSumsOfHistory hs).bind fun sums =>
        (mergeAll n covers sums s₁.clearHistory).bind moveHistoryToParent
  | _ => .error .contextKind

/-! ## Branches -/

/-- `_flow_push_context_branch`: the history of the group so far is cloned into the histories of its branches. -/
def pushBranch (s : Flow) : Except FlowAssertion Flow :=
  match s.contexts with
  | c :: ps =>
    match c.kind with
    | .branchGroup hs n covers => .ok <|
        pushContext (.branch false) { s with contexts := { c with kind := .branchGroup (c.history ++ hs) (n + 1) covers } :: ps }
    | _ => .error .contextKind
  | [] => .error .contextKind

/-- `flow_set_context_always_jumps`. -/
def setAlwaysJumps (jumps : Bool) (s : Flow) : Except FlowAssertion Flow :=
  match s.contexts with
  | c :: ps =>
    match c.kind with
    | .branch _ => .ok { s with contexts := { c with kind := .branch jumps } :: ps }
    | _ => .ok s
  | [] => .error .currentContext

/-- `_flow_pop_context_branch`: revert the flags; an always-jumping branch is un-counted, any other leaves its history to the
group. -/
def popBranch (s : Flow) : Except FlowAssertion Flow :=
  match s.contexts with
  | c :: p :: ps =>
    match c.kind, p.kind with
    | .branch true, .branchGroup hs n covers => .ok { s with
        flags := rewind s.flags c.history
        contexts := { p with
          kind := .branchGroup hs (n - 1) covers
          branches := ⟨.jumps, c.entry, s.flags⟩ :: p.branches } :: ps }
    | .branch false, .branchGroup hs n covers => .ok { s with
        flags := rewind s.flags c.history
        contexts := { p with
          kind := .branchGroup (c.history ++ hs) n covers
          branches := ⟨.falls, c.entry, s.flags⟩ :: p.branches } :: ps }
    | _, _ => .error .contextKind
  | _ => .error .contextKind

/-! ## Jump contexts -/

/-- `_flow_push_context_jump`. -/
def pushJump (s : Flow) : Flow := s.pushContext (.jump [])

/-- `_flow_pop_context_jump`. The un-sets made here are recorded in the history of the jump context alone, which is still the
topmost one. -/
def popJump (s : Flow) : Except FlowAssertion Flow :=
  match s.contexts with
  | { kind := .jump u, .. } :: _ =>
    ((unsetKeys u s).bind unsetAllImprovements).bind moveHistoryToParent
  | _ => .error .contextKind

end Flow

end CgSql
