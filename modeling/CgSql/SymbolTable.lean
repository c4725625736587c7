import CgSql.HashTab
import Mathlib.Data.UInt

/-!
# The symbol table of the compiler

`symtab.c`: a hash table from names to values, with the two ways of comparing names. Its loops, its rehash and its load factor are those
of `cql_hashtab`, without anything to retain.
-/

namespace CgSql.SymbolTable

open Hashing (Callbacks HashTab noOp)

/-! ## Names -/

/-- A C string, without its null. -/
abbrev Name := { bytes : List UInt8 // 0 ∉ bytes }

/-- `ToLower`, of a byte. -/
def toLower (c : UInt8) : UInt8 := if 65 ≤ c ∧ c ≤ 90 then c - 65 + 97 else c

/-- A `char` as a number. -/
def charValue (c : UInt8) : Int := c.toInt8.toInt

/-- `StrCaseCmp`: the difference of the first characters that differ. -/
def strCaseCmp : List UInt8 → List UInt8 → Int
  | [], [] => 0
  | [], c₂ :: _ => charValue 0 - charValue (toLower c₂)
  | c₁ :: _, [] => charValue (toLower c₁) - charValue 0
  | c₁ :: s₁, c₂ :: s₂ =>
    if charValue (toLower c₁) - charValue (toLower c₂) = 0 then strCaseCmp s₁ s₂
    else charValue (toLower c₁) - charValue (toLower c₂)

/-- `strcmp`: by the first bytes that differ. -/
def strCmp : List UInt8 → List UInt8 → Int
  | [], [] => 0
  | [], _ :: _ => -1
  | _ :: _, [] => 1
  | c₁ :: s₁, c₂ :: s₂ => if c₁ < c₂ then -1 else if c₂ < c₁ then 1 else strCmp s₁ s₂

/-- The loop of both hash functions, with what they do to a byte. -/
def hashLoop (f : UInt8 → UInt8) (bytes : List UInt8) : UInt64 :=
  bytes.foldl (fun hash c => ((hash <<< 5) ||| (hash >>> 27)) ^^^ (f c).toUInt64) 0

/-- `hash_case_insens`. -/
def hashCaseInsens (sym : List UInt8) : UInt32 := (hashLoop (· ||| 0x20) sym ^^^ (hashLoop (· ||| 0x20) sym >>> 32)).toUInt32

/-- `hash_case_sens`. -/
def hashCaseSens (sym : List UInt8) : UInt32 := (hashLoop id sym ^^^ (hashLoop id sym >>> 32)).toUInt32

/-! ## Tables -/

/-- `symtab_new` and `symtab_new_case_sens`. -/
inductive Case
  | insens
  | sens
  deriving DecidableEq

/-- `syms->hash`. -/
def Case.hash : Case → List UInt8 → UInt32
  | .insens => hashCaseInsens
  | .sens => hashCaseSens

/-- `syms->cmp`. -/
def Case.cmp : Case → List UInt8 → List UInt8 → Int
  | .insens => strCaseCmp
  | .sens => strCmp

variable {ν : Type}

/-- The functions of a table of names: nothing is retained. -/
def Case.callbacks (tab : Case) : Callbacks Name ν Unit where
  hashKey sym _ := some (tab.hash sym.1).toUInt64
  compareKeys sym₁ sym₂ _ := some (tab.cmp sym₁.1 sym₂.1 = 0)
  retainKey := noOp
  retainVal := noOp
  releaseKey := noOp
  releaseVal := noOp

/-- `symtab_add`. -/
def symtabAdd (tab : Case) (depth : Nat) (syms : HashTab Name ν) (symNew : Name) (valNew : ν) : Option (Bool × HashTab Name ν) :=
  (syms.add tab.callbacks depth symNew valNew ()).map fun (added, syms, _) => (added, syms)

/-- `symtab_find`: the entry, or `NULL`. -/
def symtabFind (tab : Case) (syms : HashTab Name ν) (symNeeded : Name) : Option (Option (Name × ν)) :=
  (syms.find tab.callbacks symNeeded ()).map (Option.map Prod.snd)

/-- The loop of `symtab_copy_sorted_payload`: the entries, if the array has a place for each. -/
def copyEntries (count : Nat) : List (Option (Name × ν)) → List (Name × ν) → Option (List (Name × ν))
  | [], sorted => some sorted
  | none :: payload, sorted => copyEntries count payload sorted
  | some entry :: payload, sorted => if sorted.length < count then copyEntries count payload (sorted ++ [entry]) else none

/-- `symtab_copy_sorted_payload`. All places of the array are filled, or else `qsort` would read null entries. -/
def symtabCopySortedPayload (syms : HashTab Name ν) (comparator : Name × ν → Name × ν → Int) : Option (List (Name × ν)) := do
  let sorted ← copyEntries syms.count syms.payload []
  if sorted.length = syms.count then return sorted.mergeSort fun entry₁ entry₂ => comparator entry₁ entry₂ ≤ 0
  else none

/-- `default_symtab_comparator`. -/
def defaultSymtabComparator (entry₁ entry₂ : Name × ν) : Int := strCmp entry₁.1.1 entry₂.1.1

/-! ## Runs -/

/-- An operation of a table. -/
inductive SymOp (ν : Type)
  | add (sym : Name) (val : ν)
  | find (sym : Name)

/-- What an operation returns. -/
inductive Answer (ν : Type)
  | added (new : Bool)
  | entry (e : Option (Name × ν))

/-- An operation. -/
def SymOp.step (tab : Case) (depth : Nat) (syms : HashTab Name ν) : SymOp ν → Option (Answer ν × HashTab Name ν)
  | .add sym val => (symtabAdd tab depth syms sym val).map fun (added, syms) => (.added added, syms)
  | .find sym => (symtabFind tab syms sym).map fun e => (.entry e, syms)

/-- Operations one after another, and what they return. -/
def SymOp.run (tab : Case) (depth : Nat) (syms : HashTab Name ν) : List (SymOp ν) → Option (List (Answer ν) × HashTab Name ν)
  | [] => some ([], syms)
  | op :: ops => do
    let (answer, syms) ← op.step tab depth syms
    let (answers, syms) ← SymOp.run tab depth syms ops
    return (answer :: answers, syms)

/-! ## The finite map -/

/-- What names are told apart by: their bytes, in lower case or as they are. -/
def Case.fold : Case → Name → List UInt8
  | .insens, sym => sym.1.map toLower
  | .sens, sym => sym.1

/-- A finite map from folded names to entries. -/
abbrev Model (ν : Type) := List UInt8 → Option (Name × ν)

/-- Only the first add with a name changes the map. -/
def SymOp.after (tab : Case) (m : Model ν) : SymOp ν → Model ν
  | .add sym val => if m (tab.fold sym) = none then Function.update m (tab.fold sym) (some (sym, val)) else m
  | .find _ => m

/-- What an operation on the map returns. -/
def SymOp.answer (tab : Case) (m : Model ν) : SymOp ν → Answer ν
  | .add sym _ => .added (m (tab.fold sym)).isNone
  | .find sym => .entry (m (tab.fold sym))

/-- What operations on the map return. -/
def SymOp.answers (tab : Case) (m : Model ν) : List (SymOp ν) → List (Answer ν)
  | [] => []
  | op :: ops => op.answer tab m :: SymOp.answers tab (op.after tab m) ops

/-- The map behind operations. -/
def SymOp.final (tab : Case) (m : Model ν) (ops : List (SymOp ν)) : Model ν := ops.foldl (SymOp.after tab) m

/-- The name that an operation adds, folded. -/
def SymOp.addedName (tab : Case) : SymOp ν → Option (List UInt8)
  | .add sym _ => some (tab.fold sym)
  | .find _ => none

/-- The names that operations add, folded. -/
def SymOp.names (tab : Case) (ops : List (SymOp ν)) : Finset (List UInt8) := (ops.filterMap (SymOp.addedName tab)).toFinset

end CgSql.SymbolTable
