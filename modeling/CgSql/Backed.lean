import CgSql.Nullability

/-!
# Backed tables

The columns of a backed table are fields of two blobs, of the key and of the others. `gen_sql.c` addresses a field by its place in the
key, by its offset, by its name in a JSON object or by the hash of a description of it, wherever the blob is created, updated or read,
from the name of the column as it is spelled there.
-/

namespace CgSql.Backed

open Nullability (sameName)

/-! ## Tables -/

/-- The types of the columns. -/
inductive FieldType
  | bool
  | integer
  | longInteger
  | real
  | text
  | blob
  deriving DecidableEq

/-- A column of a backed table. -/
structure Column where
  name : String
  type : FieldType
  nullable : Bool
  deriving DecidableEq

/-- A backed table: its key columns and its value columns in the order of `table_info`, and what the backing table says about blobs. -/
structure BackedTable where
  keyCols : List Column
  valueCols : List Column
  keyUseOffsets : Bool
  valUseOffsets : Bool
  useJson : Bool

namespace BackedTable

variable (t : BackedTable)

/-- The columns of the key blob, or of the value blob. -/
def cols (searchForKeys : Bool) : List Column := if searchForKeys then t.keyCols else t.valueCols

/-- No two columns have one name, there is a key and a value, and JSON holds no blobs. -/
structure Accepted : Prop where
  distinct : (t.keyCols ++ t.valueCols).Pairwise fun c d => sameName c.name d.name = false
  hasKey : t.keyCols ≠ []
  hasValue : t.valueCols ≠ []
  noBlob : t.useJson = true → ∀ c ∈ t.keyCols ++ t.valueCols, c.type ≠ .blob

/-- `get_table_col_offset`: the place of a column among those of its blob, or -1. -/
def getTableColOffset (name : String) (searchForKeys : Bool) : Int :=
  match (t.cols searchForKeys).findIdx? fun c => sameName name c.name with
  | some i => i
  | none => -1

/-- The column of that name. -/
def findColumn (name : String) : Option Column := (t.keyCols ++ t.valueCols).find? fun c => sameName name c.name

/-- The name is one of a column of the blob. -/
def HasColumn (isPk : Bool) (name : String) : Prop := ∃ c ∈ t.cols isPk, sameName name c.name = true

end BackedTable

/-! ## Descriptions -/

/-- `cg_sym_name` in camel case: no underscores, and a capital after each. -/
def camelCase : Bool → List Char → List Char
  | _, [] => []
  | shouldUpper, c :: cs =>
    if c = '_' then camelCase true cs
    else if shouldUpper then c.toUpper :: camelCase false cs
    else c :: camelCase false cs

/-- What the type of a column adds to its description. -/
def typeDesc (c : Column) : List Char :=
  (if c.nullable then ['?'] else []) ++
    match c.type with
    | .bool => "Bool".toList
    | .integer => "Int32".toList
    | .longInteger => "Int64".toList
    | .text => "String".toList
    | .real => "Float64".toList
    | .blob => "Blob".toList

/-- `gen_append_field_desc`, for a column under the name it is given. -/
def fieldDesc (cName : String) (c : Column) : List Char := camelCase false cName.toList ++ ':' :: typeDesc c

/-! ## Addresses -/

/-- Where a field is: an element of a JSON array, a member of a JSON object, an offset, or the field with the hash of a
description. -/
inductive Address
  | element (i : Int)
  | member (name : String)
  | offset (i : Int)
  | field (desc : Option (List Char))
  deriving DecidableEq

namespace BackedTable

variable (t : BackedTable)

/-- The description that `gen_field_hash` hashes. -/
def fieldHash (cName : String) : Address := .field ((t.findColumn cName).map (fieldDesc cName))

/-- The address in `gen_cql_blob_get`. -/
def blobGet (cName : String) : Address :=
  let pkColOffset := t.getTableColOffset cName true
  if t.useJson then
    if pkColOffset ≥ 0 then .element (pkColOffset + 1) else .member cName
  else if (if pkColOffset ≥ 0 then t.keyUseOffsets else t.valUseOffsets) then
    .offset (if pkColOffset < 0 then t.getTableColOffset cName false else pkColOffset)
  else t.fieldHash cName

/-- The address in `gen_cql_blob_create` of the argument at place `i`: key blobs are made of all their columns in order. -/
def blobCreate (isPk : Bool) (i : Nat) (cName : String) : Address :=
  if t.useJson then
    if isPk then .element (i + 1) else .member cName
  else if (if isPk then t.keyUseOffsets else t.valUseOffsets) then
    .offset (if isPk then i else t.getTableColOffset cName false)
  else t.fieldHash cName

/-- The address in `gen_cql_blob_update`. -/
def blobUpdate (isPk : Bool) (cName : String) : Address :=
  if t.useJson then
    if isPk then .element (t.getTableColOffset cName true + 1) else .member cName
  else if (if isPk then t.keyUseOffsets else t.valUseOffsets) then .offset (t.getTableColOffset cName isPk)
  else t.fieldHash cName

end BackedTable

/-- A write of a field: by the argument at some place of `cql_blob_create`, or by `cql_blob_update`. -/
inductive Write
  | create (i : Nat)
  | update
  deriving DecidableEq

/-- The address of a write of the blob of keys or of values. -/
def Write.address (t : BackedTable) (isPk : Bool) (cName : String) : Write → Address
  | .create i => t.blobCreate isPk i cName
  | .update => t.blobUpdate isPk cName

/-- The argument stands where `rewrite_create_blob_args` puts it: a key blob is made of all the key columns in order. -/
def Write.InPlace (t : BackedTable) (isPk : Bool) (cName : String) : Write → Prop
  | .create i => isPk = true → (i : Int) = t.getTableColOffset cName true
  | .update => True

/-- What is written under one name is read under another exactly if they are names of one column. -/
def WellAddressed (t : BackedTable) (isPk : Bool) (write : Write) (w r : String) : Prop :=
  write.address t isPk w = t.blobGet r ↔ sameName w r = true

/-! ## Ways to address -/

/-- How the fields of a blob are addressed. -/
inductive Addressing
  | place
  | offset
  | name
  | code

/-- The way of each blob of a table. -/
def BackedTable.addressing (t : BackedTable) (isPk : Bool) : Addressing :=
  if isPk then if t.useJson || t.keyUseOffsets then .place else .code
  else if t.useJson then .name else if t.valUseOffsets then .offset else .code

/-- The two names are spelled so that they have one address exactly if they are one column's: in the same letters in a JSON object,
and for hashed fields in one camel case, with no other column of the type that has the same. An argument that makes a key is at the
place of its column. -/
def SpelledWell (t : BackedTable) (isPk : Bool) (write : Write) (w r : String) : Prop :=
  match t.addressing isPk with
  | .place => ∀ i, write = .create i → ((i : Int) = t.getTableColOffset r true ↔ sameName w r = true)
  | .offset => True
  | .name => sameName w r = true → w = r
  | .code => (sameName w r = true → camelCase false w.toList = camelCase false r.toList) ∧
      (sameName w r = false → camelCase false w.toList = camelCase false r.toList →
        (t.findColumn w).map (fun c => (c.type, c.nullable)) ≠ (t.findColumn r).map fun c => (c.type, c.nullable))

end CgSql.Backed
