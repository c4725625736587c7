import CgSql.Lib.Exits

/-!
# Structured programs

Blocks of actions with branches, loops, breaks and handlers, over any state and any actions, and procedures of such blocks that call
one another. The state is observed before every statement and at the end of every block. What every action and every test keeps, a
whole run keeps, whichever way it leaves.
-/

namespace Blocks

open Exits

/-- The ways to leave a block. -/
inductive Jump
  | throw
  | return
  | leave
  | continue
  deriving DecidableEq

mutual

/-- Statements over the actions `α`. A scope ends where it is left; the loop is given with the update after its body. -/
inductive Stmt (α : Type)
  | act (a : α)
  | jump (k : Jump)
  | branch (l r : Block α)
  | scope (b : Block α)
  | loop (body update : Block α)
  | attempt (body handler : Block α)

inductive Block (α : Type)
  | nil
  | cons (t : Stmt α) (rest : Block α)

end

/-- What runs a block: the actions and the tests, which are told whether an error is caught, and what is asked of every state. -/
structure Machine (σ α : Type) where
  act : Bool → α → Prog σ Jump Unit
  test : Bool → Prog σ Jump Bool
  watch : σ → Bool

variable {σ α : Type}

/-- Fault in a state that is not as asked. -/
def Machine.observe (M : Machine σ α) : Prog σ Jump Unit := do
  if M.watch (← Prog.state) then pure () else Prog.fault

def scopeHandler : Jump → Option (Prog σ Jump Unit)
  | .leave => some (pure ())
  | _ => none

def roundHandler : Jump → Option (Prog σ Jump Bool)
  | .leave => some (pure false)
  | .continue => some (pure true)
  | _ => none

def throwHandler (handler : Prog σ Jump Unit) : Jump → Option (Prog σ Jump Unit)
  | .throw => some handler
  | _ => none

/-- One round of a loop. -/
def round (test : Prog σ Jump Bool) (body update : Prog σ Jump Unit) : Prog σ Jump Bool := do
  if ← test then
    if ← (do body; return true).handle roundHandler then
      update
      return true
    else return false
  else return false

mutual

/-- Run a statement, every loop for at most `fuel` rounds. -/
def Stmt.exec (M : Machine σ α) (fuel : Nat) (caught : Bool) : Stmt α → Prog σ Jump Unit
  | .act a => M.act caught a
  | .jump k => Prog.leave k
  | .branch l r => do
    if ← M.test caught then l.exec M fuel caught else r.exec M fuel caught
  | .scope b => (b.exec M fuel caught).handle scopeHandler
  | .loop body update => Prog.loop fuel (round (M.test caught) (body.exec M fuel caught) (update.exec M fuel caught))
  | .attempt body handler => (body.exec M fuel true).handle (throwHandler (handler.exec M fuel caught))

/-- Run a block. -/
def Block.exec (M : Machine σ α) (fuel : Nat) (caught : Bool) : Block α → Prog σ Jump Unit
  | .nil => M.observe
  | .cons t rest => do
    M.observe
    t.exec M fuel caught
    rest.exec M fuel caught

end

/-- What a procedure does not hand on to its caller: everything but a throw. -/
def procHandler : Jump → Option (Prog σ Jump Unit)
  | .throw => none
  | _ => some (pure ())

/-- Run a procedure, whose actions may call procedures, to a depth. -/
def callProc (M : (Bool → Nat → Prog σ Jump Unit) → Machine σ α) (procs : Nat → Block α) (fuel : Nat) :
    (depth : Nat) → Bool → Nat → Prog σ Jump Unit
  | 0, _, _ => Prog.cutOff
  | depth + 1, caught, p => ((procs p).exec (M (callProc M procs fuel depth)) fuel caught).handle procHandler

/-! ## Invariants -/

/-- The invariant holds wherever control goes on, but not after an error that is not caught. -/
def Escapes (I : σ → Prop) (caught : Bool) (k : Jump) (s : σ) : Prop := (k = .throw → caught = true) → I s

/-- Every action and every test keeps the invariant, and its states are as asked. -/
structure Machine.Keeps (M : Machine σ α) (I : σ → Prop) : Prop where
  act : ∀ caught a, Triple I (M.act caught a) (fun _ => I) (Escapes I caught)
  test : ∀ caught, Triple I (M.test caught) (fun _ => I) (Escapes I caught)
  watch : ∀ s, I s → M.watch s = true

variable {M : Machine σ α} {I : σ → Prop} {caught : Bool}

theorem Machine.Keeps.observe {E : Jump → σ → Prop} (hM : M.Keeps I) : Triple I M.observe (fun _ => I) E := by
  refine .read fun s hs => ?_
  rw [if_pos (hM.watch s hs)]
  exact .pure fun _ e => e ▸ hs

theorem Escapes.of_handled {k : Jump} {s : σ} (h : Escapes I caught k s) (hk : k ≠ .throw) : I s := h fun e => absurd e hk

/-- A round keeps what its parts keep. -/
theorem round_keeps {test : Prog σ Jump Bool} {body update : Prog σ Jump Unit} (htest : Triple I test (fun _ => I) (Escapes I caught))
    (hbody : Triple I body (fun _ => I) (Escapes I caught)) (hupdate : Triple I update (fun _ => I) (Escapes I caught)) :
    Triple I (round test body update) (fun _ => I) (Escapes I caught) := by
  refine .bind htest fun b => ?_
  split
  · refine .bind (Q := fun _ => I) (.handle (.bind hbody fun _ => .pure fun _ => id) ?_ fun _ _ _ => id) fun more => ?_
    · intro k p hp
      cases k <;> cases hp <;> exact .pure fun s hs => hs.of_handled nofun
    · split
      · exact .bind hupdate fun _ => .pure fun _ => id
      · exact .pure fun _ => id
  · exact .pure fun _ => id

mutual

/-- A statement keeps what every action and every test keeps. -/
theorem Stmt.exec_keeps (hM : M.Keeps I) (fuel : Nat) : ∀ (t : Stmt α) {caught : Bool},
    Triple I (t.exec M fuel caught) (fun _ => I) (Escapes I caught)
  | .act a, caught => hM.act caught a
  | .jump k, caught => .leave fun s hs _ => hs
  | .branch l r, caught => by
    refine .bind (hM.test caught) fun b => ?_
    split
    · exact Block.exec_keeps hM fuel l
    · exact Block.exec_keeps hM fuel r
  | .scope b, caught => by
    refine .handle (Block.exec_keeps hM fuel b) ?_ fun _ _ _ => id
    intro k p hp
    cases k <;> cases hp
    exact .pure fun s hs => hs.of_handled nofun
  | .loop body update, caught => by
    refine Triple.loop ((round_keeps (hM.test caught) (Block.exec_keeps hM fuel body) (Block.exec_keeps hM fuel update)).weakenPost
      fun more s hs => ?_) fuel
    split <;> exact hs
  | .attempt body handler, caught => by
    refine .handle (Block.exec_keeps hM fuel body) ?_ fun k s hk hs _ => hs fun _ => rfl
    intro k p hp
    cases k <;> cases hp
    exact (Block.exec_keeps hM fuel handler).strengthenPre fun s hs => hs fun _ => rfl

/-- A block keeps what every action and every test keeps. -/
theorem Block.exec_keeps (hM : M.Keeps I) (fuel : Nat) : ∀ (b : Block α) {caught : Bool},
    Triple I (b.exec M fuel caught) (fun _ => I) (Escapes I caught)
  | .nil, _ => hM.observe
  | .cons t rest, _ =>
    .bind hM.observe fun _ => .bind (Stmt.exec_keeps hM fuel t) fun _ => Block.exec_keeps hM fuel rest

end

/-- The calls of procedures keep the invariant. -/
def CallsKeep (I : σ → Prop) (call : Bool → Nat → Prog σ Jump Unit) : Prop :=
  ∀ caught p, Triple I (call caught p) (fun _ => I) (Escapes I caught)

/-- A call keeps what actions and tests keep whose own calls do. -/
theorem callProc_keeps {M : (Bool → Nat → Prog σ Jump Unit) → Machine σ α} (hM : ∀ call, CallsKeep I call → (M call).Keeps I)
    (procs : Nat → Block α) (fuel : Nat) : ∀ depth, CallsKeep I (callProc M procs fuel depth)
  | 0, _, _ => .cutOff
  | depth + 1, caught, p => by
    refine .handle (Block.exec_keeps (hM _ (callProc_keeps hM procs fuel depth)) fuel (procs p)) ?_ ?_
    · intro k handler hk
      cases k <;> cases hk <;> exact .pure fun s hs => hs.of_handled nofun
    · intro k s hk hs
      exact hs

/-- A run from a state with the invariant meets only states that are as asked. -/
theorem Block.exec_ne_fault (hM : M.Keeps I) (fuel : Nat) (b : Block α) {s : σ} (hs : I s) : b.exec M fuel false s ≠ .fault := by
  intro h
  have ht : Triple I (b.exec M fuel false) (fun _ => I) (Escapes I false) := Block.exec_keeps hM fuel b
  have ht := ht s hs
  rw [h] at ht
  exact ht

end Blocks
