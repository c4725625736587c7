import CgSql.Previous

/-!
# What passes against the previous schema

A table that passes keeps its columns and constraints, and what it gains comes last. A table that had no versions can leave this plan for
`@recreate`, where nothing is kept.
-/

namespace CgSql.Previous

open Nullability (sameName)

/-! ## Changes that can be followed -/

/-- The versions of an object stay, but for a `@delete` where there was none. -/
def VersionInfo.PersistsAs (prev cur : VersionInfo) : Prop :=
  cur.createVersion = prev.createVersion ∧ cur.createProc = prev.createProc ∧
    (prev.deleteVersion = -1 ∨ cur.deleteVersion = prev.deleteVersion ∧ cur.deleteProc = prev.deleteProc)

/-- The column is still the same. -/
structure Column.PersistsAs (prev cur : Column) : Prop where
  name : cur.name = prev.name
  type : cur.checkedType = prev.checkedType
  default : cur.default = prev.default
  text : cur.text = prev.text
  versions : ∃ p c, semValidateVersionAttrs .column prev.name prev.versions = .ok p ∧
    semValidateVersionAttrs .column cur.name cur.versions = .ok c ∧ p.PersistsAs c

/-- The column is created at the version or a later one, and is not deleted. -/
def Column.AddedFrom (version : Int) (c : Column) : Prop :=
  ∃ info, semValidateVersionAttrs .column c.name c.versions = .ok info ∧
    1 ≤ info.createVersion ∧ version ≤ info.createVersion ∧ info.deleteVersion = -1

/-- The rows of the table can be kept. -/
structure Table.PersistsAs (version : Int) (prev cur : Table) : Prop where
  versions : ∃ p c, semValidateVersionAttrs .table prev.name prev.attrs = .ok p ∧
    semValidateVersionAttrs .table cur.name cur.attrs = .ok c ∧ p.PersistsAs c
  columns : ∃ kept added, cur.cols = kept ++ added ∧ List.Forall₂ Column.PersistsAs prev.cols kept ∧ ∀ c ∈ added, c.AddedFrom version
  facets : cur.facets = prev.facets
  flags : cur.flags = prev.flags

/-- The table has no versions: there is no plan for it. -/
def Table.Unplanned (t : Table) : Prop :=
  ∃ info, semValidateVersionAttrs .table t.name t.attrs = .ok info ∧ info.createVersion = -1 ∧ info.deleteVersion = -1

namespace PreviousAux

variable {α ε : Type} {target : AnnotationTarget} {attrs : List VersionAttr} {info : VersionInfo} {name : String}

/-! ## Checks that passed -/

/-- What follows a check that passed ran. -/
theorem require_bind {condition : Bool} {message : String} {subject : Option String} {f : Unit → Except SchemaError α} {a : α}
    (h : (require condition message subject >>= f) = .ok a) : condition = true ∧ f () = .ok a := by
  cases condition with
  | true => exact ⟨rfl, h⟩
  | false => cases h

theorem require_ok {condition : Bool} {message : String} {subject : Option String} {u : Unit}
    (h : require condition message subject = .ok u) : condition = true := by
  cases condition with
  | true => rfl
  | false => cases h

/-- What follows a computation that succeeded ran on its result. -/
theorem bind_ok {β : Type} {x : Except ε α} {f : α → Except ε β} {b : β} (h : (x >>= f) = .ok b) : ∃ a, x = .ok a ∧ f a = .ok b := by
  cases x with
  | ok a => exact ⟨a, rfl, h⟩
  | error e => cases h

/-- Where a check of every element passed, each of them passes. -/
theorem forM_ok {f : α → Except ε Unit} {l : List α} {u : Unit} (h : l.forM f = .ok u) : ∀ a ∈ l, f a = .ok () := by
  induction l with
  | nil => intro a ha; cases ha
  | cons b l ih =>
    have h : (f b >>= fun _ => l.forM f) = .ok u := h
    obtain ⟨_, hb, hl⟩ := bind_ok h
    intro a ha
    rcases List.mem_cons.mp ha with rfl | ha
    · exact hb
    · exact ih hl a ha

/-- Where every element has a result, that of each is among the results. -/
theorem mapM_ok {β : Type} {f : α → Except ε β} {l : List α} {bs : List β} (h : l.mapM f = .ok bs) : ∀ a ∈ l, ∃ b ∈ bs, f a = .ok b := by
  induction l generalizing bs with
  | nil => intro a ha; cases ha
  | cons c l ih =>
    rw [List.mapM_cons] at h
    obtain ⟨b, hb, h⟩ := bind_ok h
    obtain ⟨bs', hbs, h⟩ := bind_ok h
    cases h
    intro a ha
    rcases List.mem_cons.mp ha with rfl | ha
    · exact ⟨b, by simp, hb⟩
    · obtain ⟨b', hb', h'⟩ := ih hbs a ha
      exact ⟨b', by simp [hb'], h'⟩

/-! ## Versions -/

/-- There is no version, or a positive one. -/
def Proper (info : VersionInfo) : Prop :=
  (info.createVersion = -1 ∨ 1 ≤ info.createVersion) ∧ (info.deleteVersion = -1 ∨ 1 ≤ info.deleteVersion)

theorem semValidateVersion_ok {isCreate : Bool} {vers version v : Int} {proc : Option MigrationProc}
    (h : semValidateVersion target isCreate vers proc version = .ok v) : 1 ≤ v := by
  obtain ⟨hpos, h⟩ := require_bind h
  obtain ⟨-, h⟩ := require_bind h
  obtain ⟨-, -, h⟩ := bind_ok h
  cases h
  simpa using hpos

theorem proper_of_collected {start : VersionInfo} (hs : Proper start) (h : collectVersionAttrs target attrs start = .ok info) : Proper info := by
  induction attrs generalizing start with
  | nil => cases h; exact hs
  | cons a attrs ih =>
    cases a with
    | create vers proc =>
      obtain ⟨v, hv, h⟩ := bind_ok h
      refine ih ?_ h
      exact ⟨.inr (semValidateVersion_ok hv), hs.2⟩
    | delete vers proc =>
      obtain ⟨v, hv, h⟩ := bind_ok h
      refine ih ?_ h
      exact ⟨hs.1, .inr (semValidateVersion_ok hv)⟩
    | recreate groupName deleted =>
      cases h
      refine ⟨hs.1, ?_⟩
      cases deleted with
      | true => exact .inr (by simp)
      | false => exact hs.2

theorem recreate_of_collected {start : VersionInfo} (hs : start.recreate = false) (h : collectVersionAttrs target attrs start = .ok info) :
    info.recreate = attrs.any fun | .recreate _ _ => true | _ => false := by
  induction attrs generalizing start with
  | nil => cases h; exact hs
  | cons a attrs ih =>
    cases a with
    | create vers proc =>
      obtain ⟨v, hv, h⟩ := bind_ok h
      refine (ih ?_ h).trans rfl
      exact hs
    | delete vers proc =>
      obtain ⟨v, hv, h⟩ := bind_ok h
      refine (ih ?_ h).trans rfl
      exact hs
    | recreate groupName deleted =>
      cases h
      rfl

theorem collected_of_validated (h : semValidateVersionAttrs target name attrs = .ok info) : collectVersionAttrs target attrs {} = .ok info := by
  obtain ⟨i, hi, h⟩ := bind_ok h
  obtain ⟨-, h⟩ := require_bind h
  cases h
  exact hi

theorem proper_of_validated (h : semValidateVersionAttrs target name attrs = .ok info) : Proper info :=
  proper_of_collected ⟨.inl rfl, .inl rfl⟩ (collected_of_validated h)

/-- The annotations say that a table is recreated where it is marked so. -/
theorem recreate_of_validated {t : Table} (h : semValidateVersionAttrs .table t.name t.attrs = .ok info) : info.recreate = t.isRecreate :=
  recreate_of_collected rfl (collected_of_validated h)

/-- A version that is not positive is none. -/
theorem deleteVersion_of_proper (hp : Proper info) (h : info.deleteVersion < 1) : info.deleteVersion = -1 := by
  rcases hp.2 with h' | h' <;> omega

theorem createVersion_of_proper (hp : Proper info) (h : info.createVersion < 1) : info.createVersion = -1 := by
  rcases hp.1 with h' | h' <;> omega

/-! ## Columns -/

theorem persists_of_validated {cur prev : Column} (h : semValidateColDefPrevCur cur prev = .ok ()) : prev.PersistsAs cur := by
  obtain ⟨hname, h⟩ := require_bind h
  obtain ⟨htype, h⟩ := require_bind h
  obtain ⟨c, hc, h⟩ := bind_ok h
  obtain ⟨p, hp, h⟩ := bind_ok h
  obtain ⟨hcreate, h⟩ := require_bind h
  obtain ⟨hdelete, h⟩ := require_bind h
  obtain ⟨hdeleteProc, h⟩ := require_bind h
  obtain ⟨hcreateProc, h⟩ := require_bind h
  obtain ⟨hdefault, h⟩ := require_bind h
  have htext := require_ok h
  refine ⟨of_decide_eq_true hname, of_decide_eq_true htype, of_decide_eq_true hdefault, of_decide_eq_true htext, p, c, hp, hc, ?_⟩
  refine ⟨(of_decide_eq_true hcreate).symm, (of_decide_eq_true hcreateProc).symm, ?_⟩
  have hproper := proper_of_validated hp
  by_cases hnone : p.deleteVersion < 1
  · exact .inl (deleteVersion_of_proper hproper hnone)
  · simp only [semValidateDeletePrevCur, Bool.or_eq_true, decide_eq_true_eq] at hdelete hdeleteProc
    refine .inr ⟨?_, ?_⟩
    · rcases hdelete with h' | h'
      · omega
      · exact h'.symm
    · rcases hdeleteProc with h' | h'
      · omega
      · exact h'.symm

/-- The columns of the previous table come first, as they were. -/
theorem kept_of_validated {curs prevs rest : List Column} (h : validateColumns curs prevs = .ok rest) :
    ∃ kept, curs = kept ++ rest ∧ List.Forall₂ Column.PersistsAs prevs kept := by
  induction prevs generalizing curs with
  | nil =>
    simp only [validateColumns] at h
    cases h
    exact ⟨[], rfl, .nil⟩
  | cons prev prevs ih =>
    cases curs with
    | nil => cases h
    | cons cur curs =>
      obtain ⟨_, hcol, h⟩ := bind_ok h
      obtain ⟨kept, hkept, hall⟩ := ih h
      exact ⟨cur :: kept, by rw [hkept, List.cons_append], .cons (persists_of_validated hcol) hall⟩

/-- A column that is left is a created one, at the greatest version of the previous schema or a later one. -/
theorem addedFrom_of_validated {prev : Schema} {tableName : String} {c : Column} (hcreated : validateCreatedColumn tableName c = .ok ())
    (hnew : validateColumnNotInPrevious prev c = .ok ()) : c.AddedFrom prev.maxVersion := by
  obtain ⟨info, hinfo, h⟩ := bind_ok hcreated
  obtain ⟨hcreate, h⟩ := require_bind h
  have hdelete := require_ok h
  obtain ⟨info', hinfo', h⟩ := bind_ok hnew
  have hversion := require_ok h
  rw [hinfo] at hinfo'
  cases hinfo'
  have hproper := proper_of_validated hinfo
  simp only [decide_eq_true_eq] at hcreate hdelete hversion
  refine ⟨info, hinfo, ?_, hversion, deleteVersion_of_proper hproper (by omega)⟩
  rcases hproper.1 with h' | h' <;> omega

theorem facets_of_validated {tableName : String} {curs prevs : List String} (h : validateFacets tableName curs prevs = .ok ()) :
    curs = prevs := by
  induction prevs generalizing curs with
  | nil =>
    cases curs with
    | nil => rfl
    | cons cur curs => cases h
  | cons prev prevs ih =>
    cases curs with
    | nil => cases h
    | cons cur curs =>
      obtain ⟨heq, h⟩ := require_bind h
      rw [of_decide_eq_true heq, ih h]

/-! ## Tables -/

/-- A table that stays off `@recreate` keeps its versions. -/
theorem versions_of_validated {prev cur : VersionInfo} (hproper : Proper prev) (hrecreate : prev.recreate = false)
    (h : semValidateAttrsPrevCur prev cur name = .ok ()) :
    prev.PersistsAs cur ∧ (cur.recreate = true → prev.createVersion = -1 ∧ prev.deleteVersion = -1) := by
  simp only [semValidateAttrsPrevCur, hrecreate, Bool.false_eq_true, if_false] at h
  obtain ⟨hback, h⟩ := require_bind h
  obtain ⟨hcreate, h⟩ := require_bind h
  obtain ⟨hcreateProc, h⟩ := require_bind h
  obtain ⟨hdelete, h⟩ := require_bind h
  have hdeleteProc := require_ok h
  refine ⟨⟨(of_decide_eq_true hcreate).symm, (of_decide_eq_true hcreateProc).symm, ?_⟩, ?_⟩
  · simp only [semValidateDeletePrevCur, Bool.or_eq_true, decide_eq_true_eq] at hdelete hdeleteProc
    rcases hproper.2 with h' | h'
    · exact .inl h'
    · exact .inr ⟨by omega, (hdeleteProc.resolve_left (by omega)).symm⟩
  · intro hcur
    simp [hcur] at hback
    exact ⟨createVersion_of_proper hproper (by omega), deleteVersion_of_proper hproper (by omega)⟩

/-- A table that is still there is recreated now, or it is the one of before with the new columns that are left to check. -/
theorem table_of_validated {schema : Schema} {prev : Table} {pending : Pending} (hrecreate : prev.isRecreate = false)
    (htemp : prev.flags.temp = false) (hbacked : prev.isBacked = false) (h : semValidatePreviousTable schema prev = .ok pending) :
    ∃ cur, schema.find prev.name = some (.table cur) ∧ (cur.isRecreate = true ∧ prev.Unplanned ∨ cur.isRecreate = false ∧ ∀ version,
        (∀ c ∈ pending.createdColumns, validateCreatedColumn cur.name c = .ok () → c.AddedFrom version) → prev.PersistsAs version cur) := by
  unfold semValidatePreviousTable at h
  split at h
  · simp [htemp, hbacked] at h
  · cases h
  · rename_i cur hfind
    refine ⟨cur, hfind, ?_⟩
    rw [if_neg (by simp [hbacked])] at h
    obtain ⟨p, hp, h⟩ := bind_ok h
    obtain ⟨c, hc, h⟩ := bind_ok h
    obtain ⟨_, hattrs, h⟩ := bind_ok h
    obtain ⟨-, h⟩ := require_bind h
    have hprec : p.recreate = false := (recreate_of_validated hp).trans hrecreate
    obtain ⟨hversions, hplan⟩ := versions_of_validated (proper_of_validated hp) hprec hattrs
    by_cases hcrec : c.recreate = true
    · exact .inl ⟨(recreate_of_validated hc).symm.trans hcrec, p, hp, hplan hcrec⟩
    · have hcrec : c.recreate = false := by simpa using hcrec
      rw [if_neg (by simp [hprec, hcrec])] at h
      obtain ⟨rest, hcols, h⟩ := bind_ok h
      obtain ⟨_, hcreated, h⟩ := bind_ok h
      obtain ⟨_, hfacets, h⟩ := bind_ok h
      obtain ⟨hflags, h⟩ := require_bind h
      cases h
      obtain ⟨kept, hkept, hall⟩ := kept_of_validated hcols
      refine .inr ⟨(recreate_of_validated hc).symm.trans hcrec, fun version hadded => ?_⟩
      refine ⟨⟨p, c, hp, hc, hversions⟩, ⟨kept, rest, hkept, hall, ?_⟩, facets_of_validated hfacets, of_decide_eq_true hflags⟩
      intro col hcol
      exact hadded col hcol (forM_ok hcreated col hcol)

end PreviousAux

/-! ## Schemas -/

/-- Where a schema passes against the previous one, every previous table that is not `@recreate`, temporary or backed is still there. It
keeps its columns, constraints and versions, or it had no versions and is `@recreate` now. -/
theorem upgradable_of_validated (cur prev : Schema) (h : validatePreviousSchema cur prev = .ok ()) (t : Table) (ht : t ∈ prev.tables)
    (hrecreate : t.isRecreate = false) (htemp : t.flags.temp = false) (hbacked : t.isBacked = false) :
    ∃ c, cur.find t.name = some (.table c) ∧ (c.isRecreate = true ∧ t.Unplanned ∨ c.isRecreate = false ∧ t.PersistsAs prev.maxVersion c) := by
  obtain ⟨pending, hpending, h⟩ := PreviousAux.bind_ok h
  obtain ⟨-, -, h⟩ := PreviousAux.bind_ok h
  obtain ⟨_, hcolumns, h⟩ := PreviousAux.bind_ok h
  obtain ⟨p, hp, hvalid⟩ := PreviousAux.mapM_ok hpending t ht
  obtain ⟨c, hfind, hc⟩ := PreviousAux.table_of_validated hrecreate htemp hbacked hvalid
  refine ⟨c, hfind, ?_⟩
  rcases hc with hc | ⟨hc, hpersists⟩
  · exact .inl hc
  · refine .inr ⟨hc, hpersists _ fun col hcol hcreated => ?_⟩
    have hmem : col ∈ pending.flatMap Pending.createdColumns := List.mem_flatMap.mpr ⟨p, hp, hcol⟩
    exact PreviousAux.addedFrom_of_validated hcreated (PreviousAux.forM_ok hcolumns col hmem)

/-- An integer column with the versions. -/
def integerColumn (name : String) (versions : List VersionAttr) : Column where
  name := name
  core := .integer
  notNull := false
  autoinc := false
  primaryKey := false
  uniqueKey := false
  hidden := false
  sensitive := false
  default := none
  versions := versions
  text := name ++ " INTEGER"

/-- A table of integer columns with the annotations. -/
def integerTable (attrs : List VersionAttr) (cols : List Column) : Table where
  name := "t"
  flags := ⟨false, false, false⟩
  isVirtual := false
  isBacked := false
  attrs := attrs
  items := cols.map .column
  excludedRegion := false

/-- The schema of one table. -/
def schemaOf (t : Table) : Schema := ⟨[.table t], []⟩

/-- Some changes that pass: a new column, another column under `@recreate`, a column as new as one of before, and a delete at an older
version. -/
theorem validated_changes : let onlyA := integerTable [] [integerColumn "a" []]
    ∀ change ∈ [(integerTable [] [integerColumn "a" [], integerColumn "b" [.create 2 none]], onlyA),
        (integerTable [.recreate none false] [integerColumn "b" []], onlyA),
        (integerTable [] [integerColumn "a" [.create 2 none], integerColumn "b" [.create 2 none]],
          integerTable [] [integerColumn "a" [.create 2 none]]),
        (integerTable [.delete 2 none] [integerColumn "a" [.create 5 none]], integerTable [] [integerColumn "a" [.create 5 none]])],
      validatePreviousSchema (schemaOf change.1) (schemaOf change.2) = .ok () := by
  decide +kernel

/-- A column that is added at a new version passes, so the table is the one of before. -/
theorem upgradable_of_validated_added :
    ∃ c, (schemaOf (integerTable [] [integerColumn "a" [], integerColumn "b" [.create 2 none]])).find "t" = some (.table c) ∧
      (c.isRecreate = true ∧ (integerTable [] [integerColumn "a" []]).Unplanned ∨
        c.isRecreate = false ∧ (integerTable [] [integerColumn "a" []]).PersistsAs
          (schemaOf (integerTable [] [integerColumn "a" []])).maxVersion c) :=
  upgradable_of_validated (schemaOf (integerTable [] [integerColumn "a" [], integerColumn "b" [.create 2 none]]))
    (schemaOf (integerTable [] [integerColumn "a" []])) (validated_changes _ (.head _)) (integerTable [] [integerColumn "a" []])
    (by simp [schemaOf, Schema.tables]) rfl rfl rfl

theorem find_schemaOf (attrs attrs' : List VersionAttr) (cols cols' : List Column) :
    (schemaOf (integerTable attrs cols)).find (integerTable attrs' cols').name = some (.table (integerTable attrs cols)) := by
  simp [schemaOf, Schema.find, SchemaObject.name, integerTable, sameName]

/-- A table that passes need not keep its columns, what it gains need not be newer than the previous schema, and it can be deleted at an
older version. -/
theorem upgradable_false :
    (¬ ∀ cur prev, validatePreviousSchema cur prev = .ok () → ∀ t ∈ prev.tables, t.isRecreate = false → t.flags.temp = false →
      t.isBacked = false → ∃ c, cur.find t.name = some (.table c) ∧ ∀ col ∈ t.cols, ∃ col' ∈ c.cols, col'.name = col.name) ∧
    (¬ ∀ cur prev, validatePreviousSchema cur prev = .ok () → ∀ t ∈ prev.tables, t.isRecreate = false → t.flags.temp = false →
      t.isBacked = false → ∃ c, cur.find t.name = some (.table c) ∧ ∀ col ∈ c.cols.drop t.cols.length,
        ∃ info, semValidateVersionAttrs .column col.name col.versions = .ok info ∧ prev.maxVersion < info.createVersion) ∧
    (¬ ∀ cur prev, validatePreviousSchema cur prev = .ok () → ∀ t ∈ prev.tables, t.isRecreate = false → t.flags.temp = false →
      t.isBacked = false → ∃ c, cur.find t.name = some (.table c) ∧ ∃ info, semValidateVersionAttrs .table c.name c.attrs = .ok info ∧
          (info.deleteVersion = -1 ∨ prev.maxVersion ≤ info.deleteVersion)) := by
  refine ⟨fun h => ?_, fun h => ?_, fun h => ?_⟩
  · obtain ⟨c, hfind, hcols⟩ := h (schemaOf (integerTable [.recreate none false] [integerColumn "b" []]))
      (schemaOf (integerTable [] [integerColumn "a" []])) (validated_changes _ (.tail _ (.head _))) (integerTable [] [integerColumn "a" []])
      (by simp [schemaOf, Schema.tables]) rfl rfl rfl
    rw [find_schemaOf] at hfind
    cases hfind
    revert hcols
    decide
  · obtain ⟨c, hfind, hcols⟩ := h (schemaOf (integerTable [] [integerColumn "a" [.create 2 none], integerColumn "b" [.create 2 none]]))
      (schemaOf (integerTable [] [integerColumn "a" [.create 2 none]])) (validated_changes _ (.tail _ (.tail _ (.head _))))
      (integerTable [] [integerColumn "a" [.create 2 none]]) (by simp [schemaOf, Schema.tables]) rfl rfl rfl
    rw [find_schemaOf] at hfind
    cases hfind
    obtain ⟨info, hinfo, hversion⟩ := hcols (integerColumn "b" [.create 2 none]) (by decide)
    have hinfo' : semValidateVersionAttrs .column "b" [.create 2 none] = .ok { createVersion := 2 } := by decide
    cases hinfo.symm.trans hinfo'
    revert hversion
    decide
  · obtain ⟨c, hfind, hcols⟩ := h (schemaOf (integerTable [.delete 2 none] [integerColumn "a" [.create 5 none]]))
      (schemaOf (integerTable [] [integerColumn "a" [.create 5 none]])) (validated_changes _ (.tail _ (.tail _ (.tail _ (.head _)))))
      (integerTable [] [integerColumn "a" [.create 5 none]]) (by simp [schemaOf, Schema.tables]) rfl rfl rfl
    rw [find_schemaOf] at hfind
    cases hfind
    obtain ⟨info, hinfo, hversion⟩ := hcols
    have hinfo' : semValidateVersionAttrs .table "t" [.delete 2 none] = .ok { deleteVersion := 2 } := by decide
    cases hinfo.symm.trans hinfo'
    revert hversion
    decide

end CgSql.Previous
