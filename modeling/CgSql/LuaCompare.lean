import CgSql.Pieces

/-!
# Comparing cursors in Lua

`cql_cursors_equal`, `cql_cursor_diff_index` and `cql_cursor_diff_col` of `cqlrt.lua`. The first walks the entries of a table, where a
column that is `nil` has none, the others walk the names of the columns.

Where a function raises an error or leaves by `exit_on_error` the model gives `none`.
-/

namespace CgSql.LuaCompare

/-! ## Values -/

/-- The values of Lua that columns hold; objects are told apart by where they are. `nil` is not a value. -/
inductive Value (R : Type)
  | boolean (b : Bool)
  | integer (n : Int)
  | number (x : R)
  | string (bytes : Bytes)
  | object (address : Nat)
  deriving DecidableEq

/-- Equality of floating point numbers with each other and with integers. That of numbers need not be reflexive, for NaN. -/
structure FloatEq (R : Type) where
  eq : R → R → Bool
  ofInt : Int → R → Bool
  comm : ∀ x y, eq x y = eq y x

variable {R : Type}

/-- `==`, of values. -/
def Value.rawEqual (F : FloatEq R) : Value R → Value R → Bool
  | .boolean b, .boolean c => b = c
  | .integer n, .integer m => n = m
  | .integer n, .number x | .number x, .integer n => F.ofInt n x
  | .number x, .number y => F.eq x y
  | .string s, .string t => s = t
  | .object a, .object b => a = b
  | _, _ => false

/-- `==`, where either side may be `nil`. -/
def rawEqual (F : FloatEq R) : Option (Value R) → Option (Value R) → Bool
  | none, none => true
  | some v, some w => v.rawEqual F w
  | _, _ => false

/-- What a test takes for true: all but `nil` and `false`. -/
def truthy : Option (Value R) → Bool
  | none | some (.boolean false) => false
  | _ => true

/-! ## Tables -/

/-- A table: its entries in the order in which `pairs` visits them, each key once. -/
structure Table (R : Type) where
  entries : List (String × Value R)
  nodup : (entries.map Prod.fst).Nodup

/-- `t[k]`. -/
def Table.get (t : Table R) (k : String) : Option (Value R) := t.entries.lookup k

/-- `#t`: no key is an integer. -/
def Table.border (_ : Table R) : Nat := 0

/-- The field that tells whether the cursor has a row. -/
def hasRow : String := "_has_row_"

/-- A cursor of a shape, given by the types and the names of its columns. The variable is `nil` or holds a table: the declaration puts the flag
there, and only columns are ever added. -/
structure Cursor (R : Type) (fields : List String) where
  table : Option (Table R)
  flag : ∀ t, table = some t → ∃ b, t.get hasRow = some b
  keys : ∀ t, table = some t → ∀ k, t.get k ≠ none → k = hasRow ∨ k ∈ fields

/-! ## Comparisons -/

/-- `cql_cursors_equal`. -/
def cqlCursorsEqual (F : FloatEq R) (k1 : Option (Table R)) (types1 : Bytes) (k2 : Option (Table R)) (types2 : Bytes) : Bool :=
  if types1 ≠ types2 then false
  else
    match k1, k2 with
    | none, none => true
    | none, some _ | some _, none => false
    | some k1, some k2 =>
      if !truthy (k1.get hasRow) && !truthy (k2.get hasRow) then true
      else if !truthy (k1.get hasRow) || !truthy (k2.get hasRow) then false
      else if k1.border ≠ k2.border then false
      else k1.entries.all fun (k, v) => rawEqual F (some v) (k2.get k)

/-- The loop of `cql_cursor_diff_index`, from field `i` on. -/
def diffIndexLoop (F : FloatEq R) (k1 k2 : Table R) : Nat → List String → List String → Option Int
  | i, k :: fields1, k' :: fields2 =>
    if k' ≠ k then none
    else if !rawEqual F (k1.get k) (k2.get k) then some i
    else diffIndexLoop F k1 k2 (i + 1) fields1 fields2
  | _, _ :: _, [] => none
  | _, [], _ => some (-1)

/-- `cql_cursor_diff_index`. -/
def cqlCursorDiffIndex (F : FloatEq R) (k1 : Option (Table R)) (fields1 : List String) (k2 : Option (Table R)) (fields2 : List String) :
    Option Int := do
  let k1 ← k1
  let k2 ← k2
  if !rawEqual F (k1.get hasRow) (k2.get hasRow) then return -2
  else if !truthy (k1.get hasRow) then return -1
  else if k1.border ≠ k2.border then none
  else diffIndexLoop F k1 k2 0 fields1 fields2

/-- The loop of `cql_cursor_diff_col`. -/
def diffColLoop (F : FloatEq R) (k1 k2 : Table R) : List String → List String → Option String
  | k :: fields1, fields2 =>
    if fields2.head? ≠ some k then some "$error_field_names_differ"
    else if !rawEqual F (k1.get k) (k2.get k) then some k
    else diffColLoop F k1 k2 fields1 fields2.tail
  | [], _ => none

/-- `cql_cursor_diff_col`: the name, or `nil`. -/
def cqlCursorDiffCol (F : FloatEq R) (k1 : Option (Table R)) (fields1 : List String) (k2 : Option (Table R)) (fields2 : List String) :
    Option (Option String) := do
  let k1 ← k1
  let k2 ← k2
  if !truthy (k1.get hasRow) && !truthy (k2.get hasRow) then return none
  else if !rawEqual F (k1.get hasRow) (k2.get hasRow) then return some hasRow
  else if k1.border ≠ k2.border then return some "$error_field_counts_do_not_match"
  else return diffColLoop F k1 k2 fields1 fields2

/-! ## Agreement -/

variable {fields : List String}

/-- Equality does not depend on the order, and says what the two searches for a difference say. -/
def Agrees (F : FloatEq R) (types : Bytes) (a b : Cursor R fields) : Prop :=
  cqlCursorsEqual F a.table types b.table types = cqlCursorsEqual F b.table types a.table types ∧
    ∃ index col, cqlCursorDiffIndex F a.table fields b.table fields = some index ∧ cqlCursorDiffCol F a.table fields b.table fields = some col ∧
      (cqlCursorsEqual F a.table types b.table types = true ↔ index = -1 ∧ col = none)

/-- Two rows where the first is the second with columns set to `nil`, one at least. -/
def Blanked (F : FloatEq R) (fields : List String) (s t : Table R) : Prop :=
  truthy (s.get hasRow) = true ∧ (∀ k v, s.get k = some v → rawEqual F (some v) (t.get k) = true) ∧ ∃ k ∈ fields, s.get k = none ∧ t.get k ≠ none

end CgSql.LuaCompare
