import Mathlib.Algebra.Order.Ring.Int
import Mathlib.Data.BitVec

/-!
# SWITCH with ALL VALUES

`sem_check_all_values_condition` of `sem.c`, with the buffer of its enum values and the order that `sem_switch_cases` gives the values of
the cases, whose buffer is taken to be large enough. `none` is a read or a write outside of an array, or a failed invariant.
-/

namespace CgSql.Switch

/-! ## Values -/

/-- `case_val`: a value and where it comes from. -/
structure CaseVal (σ : Type) where
  value : Int
  source : σ

/-- A member of an enum, with its value as a long. The cast of the values of a REAL enum is left out. -/
structure EnumMember where
  name : String
  value : Int

/-- `enum_member[0] != '_'`. -/
def EnumMember.isPublic (m : EnumMember) : Bool := m.name.toList.head? ≠ some '_'

/-- What is reported, and where. -/
inductive Report (ε : Type)
  | notAnEnum
  | notInEnum (source : ε) (errant : String)
  | notInSwitch (member : String)
  deriving DecidableEq

variable {σ ε : Type}

/-- `qsort` with `case_val_comparator`. -/
def sortVals (vals : List (CaseVal σ)) : List (CaseVal σ) := vals.mergeSort fun v₁ v₂ => v₁.value ≤ v₂.value

/-! ## The buffer -/

/-- A `bytebuf` of values of 16 bytes. -/
structure ValBuffer (σ : Type) where
  vals : List (CaseVal σ)
  max : Nat

/-- `bytebuf_open`. -/
def ValBuffer.open : ValBuffer σ := { vals := [], max := 0 }

/-- `bytebuf_append`: it is undefined when the size does not fit `uint32_t`. -/
def ValBuffer.append (b : ValBuffer σ) (val : CaseVal σ) : Option (ValBuffer σ) :=
  if 16 ≤ b.max - 16 * b.vals.length then some { b with vals := b.vals ++ [val] }
  else if b.max + 16 + 1024 < 2 ^ 32 then some { vals := b.vals ++ [val], max := b.max + 16 + 1024 }
  else none

/-- The values of the members of an enum whose names do not start with an underscore. -/
def enumBuffer (members : List EnumMember) : Option (ValBuffer EnumMember) :=
  (members.filter EnumMember.isPublic).foldlM (fun b m => b.append { value := m.value, source := m }) .open

/-! ## Removing aliases -/

/-- The loop that removes adjacent equal values in place, for as many steps: the array, and both indexes. -/
def dedupe : (steps i j : Nat) → List (CaseVal σ) → Option (List (CaseVal σ) × Nat × Nat)
  | 0, i, j, vals => some (vals, i, j)
  | steps + 1, i, j, vals =>
    if j ≤ i then do
      let val ← vals[i]?
      let next ← vals[i + 1]?
      if val.value = next.value then dedupe steps (i + 1) j vals
      else dedupe steps (i + 1) (j + 1) (vals.set j val)
    else none

/-- `enum_count - 1`, in `size_t`. -/
def lastIndex (count : Nat) : Nat := (2 ^ 64 - 1 + count) % 2 ^ 64

/-- The sorted values without aliases: the array, and how many there are. -/
def distinctVals (vals : List (CaseVal σ)) : Option (List (CaseVal σ) × Nat) := do
  let (vals', i, j) ← dedupe (lastIndex vals.length) 0 0 vals
  if j < vals.length then do
    let last ← vals'[i]?
    return (vals'.set j last, j + 1)
  else none

/-! ## Merging -/

section Merge

variable (enumVals : List (CaseVal EnumMember)) (enumCount : Nat) (caseVals : List (CaseVal ε))

/-- What is left over on one side. -/
def leftOver (i : Nat) : Option (Option (Report ε)) :=
  if i < caseVals.length then
    if i = enumCount then do
      let val ← caseVals[i]?
      return some (.notInEnum val.source (toString val.value))
    else none
  else if i < enumCount then
    if i = caseVals.length then do
      let val ← enumVals[i]?
      return some (.notInSwitch val.source.name)
    else none
  else return none

/-- The loop over both arrays with one index, for as many steps. -/
def mergeFrom : (steps i : Nat) → Option (Option (Report ε))
  | 0, i => leftOver enumVals enumCount caseVals i
  | steps + 1, i => do
    let caseVal ← caseVals[i]?
    let enumVal ← enumVals[i]?
    if caseVal.value < enumVal.value then return some (.notInEnum caseVal.source (toString caseVal.value))
    else if caseVal.value > enumVal.value then return some (.notInSwitch enumVal.source.name)
    else mergeFrom steps (i + 1)

end Merge

/-- `sem_check_all_values_condition`, with what `find_enum` finds and the sorted values of the cases: what is reported, if anything. -/
def semCheckAllValuesCondition (findEnum : Option (List EnumMember)) (caseVals : List (CaseVal ε)) : Option (Option (Report ε)) :=
  match findEnum with
  | none => some (some .notAnEnum)
  | some members => do
    let buffer ← enumBuffer members
    let (enumVals, enumCount) ← distinctVals (sortVals buffer.vals)
    mergeFrom enumVals enumCount caseVals (min caseVals.length enumCount) 0

end CgSql.Switch
