import CgSql.DynCursor
import CgSql.Theorems.CursorBytes

/-!
# References of a cursor that is read

Before the loop over the columns the cursor holds no references. In the loop it holds what was made, each once, and every way to the
label `error` gives up exactly that.
-/

namespace CgSql.DynCursor

open Serial

/-! ## Balance -/

/-- The references that fields hold. -/
def heldBy {α : Type} (fields : List (Field α)) : List α := fields.filterMap Field.held

/-- How often an object was created by the call. -/
def Call.created (call : Call) (r : Ref) : Nat := call.log.count (.create r)

/-- How often it was released. -/
def Call.released (call : Call) (r : Ref) : Nat := call.log.count (.release r)

/-- How many fields hold it. -/
def Call.owns (call : Call) (r : Ref) : Nat := (heldBy call.fields).count r

/-- The references balance: the old ones are released once for each field that held them, an object is created at most once, and what
was created is released again on an error and else held by one field. -/
structure Balanced {sh : Shape} (cursor : Cursor sh) (out : Bool × Call) : Prop where
  old : ∀ o, out.2.released (.old o) = (heldBy cursor.fields).count o
  created : ∀ k, out.2.created (.made k) = if k < out.2.made.length then 1 else 0
  failed : out.1 = false → out.2.hasRow = false ∧ (∀ f ∈ out.2.fields, f.held = none) ∧ ∀ k, out.2.released (.made k) = out.2.created (.made k)
  ok : out.1 = true → out.2.hasRow = true ∧ (∀ o, out.2.owns (.old o) = 0) ∧
    ∀ k, out.2.released (.made k) = 0 ∧ out.2.owns (.made k) = out.2.created (.made k)

/-- The value of a field. -/
def Call.content (call : Call) : Field Ref → Option Value
  | .scalar v => v
  | .ref none => none
  | .ref (some (.old _)) => none
  | .ref (some (.made k)) => call.made[k]?

/-- The row that the cursor has. -/
def Call.row (call : Call) : List (Option Value) := call.fields.map call.content

/-- What a call returns: a row, or `none` for an error. -/
def outcome (out : Bool × Call) : Option (List (Option Value)) := if out.1 then some out.2.row else none

namespace DynAux

variable {α : Type} {call : Call} {before after : List (Field Ref)}

/-! ## Clearing -/

theorem heldBy_append (xs ys : List (Field α)) : heldBy (xs ++ ys) = heldBy xs ++ heldBy ys :=
  List.filterMap_append

theorem held_cleared (f : Field α) : f.cleared.held = none := by
  cases f <;> rfl

theorem held_map {β : Type} (g : α → β) (f : Field α) : (f.map g).held = f.held.map g := by
  cases f <;> rfl

theorem heldBy_cleared (fields : List (Field α)) : heldBy (fields.map Field.cleared) = [] := by
  rw [heldBy, List.filterMap_eq_nil_iff]
  intro f hf
  obtain ⟨f, -, rfl⟩ := List.mem_map.mp hf
  exact held_cleared f

theorem heldBy_map {β : Type} (g : α → β) (fields : List (Field α)) : heldBy (fields.map (Field.map g)) = (heldBy fields).map g := by
  rw [heldBy, heldBy, List.filterMap_map, List.map_filterMap]
  exact List.filterMap_congr fun f _ => held_map g f

theorem held_eq_none_of_heldBy {fields : List (Field α)} (h : heldBy fields = []) : ∀ f ∈ fields, f.held = none :=
  List.filterMap_eq_nil_iff.mp h

/-! ## The loop -/

/-- The releases at the start of the call. -/
def oldReleases {sh : Shape} (cursor : Cursor sh) : List Event := ((heldBy cursor.fields).map Ref.old).map .release

/-- What was made, in order. -/
def madeRefs (m : Nat) : List Ref := (List.range m).map .made

theorem madeRefs_succ (m : Nat) : madeRefs (m + 1) = madeRefs m ++ [.made m] := by
  rw [madeRefs, madeRefs, List.range_succ, List.map_append, List.map_singleton]

/-- In the loop: the fields in front hold what was made, and the `n` fields behind them hold nothing. -/
structure Midway {sh : Shape} (cursor : Cursor sh) (call : Call) (before after : List (Field Ref)) : Prop where
  fields : call.fields = before ++ after
  hasRow : call.hasRow = false
  log : call.log = oldReleases cursor ++ (madeRefs call.made.length).map .create
  before : heldBy before = madeRefs call.made.length
  after : heldBy after = []

variable {sh : Shape} {cursor : Cursor sh}

/-- The fields hold what was made. -/
theorem Midway.held (h : Midway cursor call before after) : heldBy call.fields = madeRefs call.made.length := by
  rw [h.fields, heldBy_append, h.before, h.after, List.append_nil]

/-- After the start no field holds anything. -/
theorem midway_start (cursor : Cursor sh) :
    ∃ after, Midway cursor { cursor.start with hasRow := false }.clearReferences [] after ∧ after.length = sh.columns.length := by
  refine ⟨_, ⟨rfl, rfl, ?_, rfl, heldBy_cleared _⟩, ?_⟩
  · show [] ++ (heldBy (cursor.fields.map (Field.map .old))).map Event.release = _
    rw [heldBy_map, List.nil_append]
    exact (List.append_nil _).symm
  · rw [List.length_map]
    exact (List.length_map _).trans cursor.shaped.length_eq.symm

/-- What a field in front holds was made. -/
theorem Midway.content_append (h : Midway cursor call before after) (v : Value)
    {f : Field Ref} (hf : f ∈ before) : { call with made := call.made ++ [v] }.content f = call.content f := by
  cases f with
  | scalar => rfl
  | ref r =>
    cases r with
    | none => rfl
    | some r =>
      cases r with
      | old => rfl
      | made k =>
        have hmem : Ref.made k ∈ heldBy before := List.mem_filterMap.mpr ⟨_, hf, rfl⟩
        rw [h.before, madeRefs] at hmem
        have hk : k < call.made.length := by simpa using hmem
        exact List.getElem?_append_left hk

/-- A column is stored in the next field. -/
theorem Midway.store {f : Field Ref} (h : Midway cursor call before (f :: after)) (c : Column) (v : Option Value) :
    ∃ g, Midway cursor (call.store before.length c v) (before ++ [g]) after ∧
      (before ++ [g]).map (call.store before.length c v).content = before.map call.content ++ [v] := by
  have hset : ∀ g, call.fields.set before.length g = before ++ [g] ++ after := by
    intro g
    rw [h.fields, List.set_append_right _ _ (Nat.le_refl _), Nat.sub_self, List.append_assoc]
    rfl
  have hafter : heldBy after = [] := by
    have hcons := held_eq_none_of_heldBy h.after
    exact List.filterMap_eq_nil_iff.mpr fun g hg => hcons g (List.mem_cons_of_mem _ hg)
  have hkeep : ∀ g : Field Ref, g.held = none → heldBy (before ++ [g]) = heldBy before := by
    intro g hg
    simp [heldBy, hg]
  unfold Call.store
  split
  · cases v with
    | some v =>
      refine ⟨.ref (some (.made call.made.length)), ⟨hset _, h.hasRow, ?_, ?_, hafter⟩, ?_⟩
      · show call.log ++ [Event.create (.made call.made.length)] = _
        rw [h.log, List.length_append, List.length_singleton, madeRefs_succ, List.map_append, List.append_assoc]
        rfl
      · show heldBy (before ++ [.ref (some (.made call.made.length))]) = madeRefs (call.made ++ [v]).length
        rw [heldBy_append, h.before, List.length_append, List.length_singleton, madeRefs_succ]
        rfl
      · rw [List.map_append, List.map_singleton]
        congr 1
        · exact List.map_congr_left fun f hf => h.content_append v hf
        · exact congrArg (fun v => [v]) List.getElem?_concat_length
    | none =>
      refine ⟨.ref none, ⟨hset _, h.hasRow, h.log, (hkeep _ rfl).trans h.before, hafter⟩, ?_⟩
      rw [List.map_append, List.map_singleton]
      rfl
  · refine ⟨.scalar v, ⟨hset _, h.hasRow, h.log, (hkeep _ rfl).trans h.before, hafter⟩, ?_⟩
    rw [List.map_append, List.map_singleton]
    rfl

/-- The loop stays midway, wherever it ends. -/
theorem Midway.columns (beyond : Beyond) (bytes bits : List Byte) (n : Counts) {cols : List Column} {r : Reader}
    (h : Midway cursor call before after) (hlen : after.length = cols.length) :
    ∃ before' after', Midway cursor (call.columns beyond bytes bits n before.length cols r).2 before' after' := by
  induction cols generalizing r call before after with
  | nil => exact ⟨before, after, h⟩
  | cons c cols ih =>
    obtain ⟨f, after, rfl⟩ := List.exists_cons_of_length_eq_add_one hlen
    rw [Call.columns]
    cases readColumn beyond bytes bits n before.length c r with
    | none => exact ⟨before, f :: after, h⟩
    | some x =>
      obtain ⟨v, r⟩ := x
      obtain ⟨g, hstore, -⟩ := h.store c v
      have hrest := ih (r := r) hstore (Nat.succ.inj hlen)
      rwa [List.length_append, List.length_singleton] at hrest

/-! ## Counting -/

theorem count_oldReleases (cursor : Cursor sh) (o : Nat) : (oldReleases cursor).count (.release (.old o)) = (heldBy cursor.fields).count o := by
  rw [oldReleases, List.map_map]
  exact List.count_map_of_injective _ _ (fun a b hab => Ref.old.inj (Event.release.inj hab)) _

theorem count_oldReleases_made (cursor : Cursor sh) (k : Nat) : (oldReleases cursor).count (.release (.made k)) = 0 := by
  rw [List.count_eq_zero, oldReleases, List.map_map]
  simp

theorem count_oldReleases_create (cursor : Cursor sh) (r : Ref) : (oldReleases cursor).count (.create r) = 0 := by
  rw [List.count_eq_zero, oldReleases, List.map_map]
  simp

theorem count_madeRefs (m k : Nat) : (madeRefs m).count (.made k) = if k < m then 1 else 0 := by
  rw [madeRefs, List.count_map_of_injective _ _ (fun _ _ => Ref.made.inj), List.count_range]

theorem count_madeRefs_old (m o : Nat) : (madeRefs m).count (.old o) = 0 := by
  rw [List.count_eq_zero, madeRefs]
  simp

theorem count_create (m : Nat) (r : Ref) : ((madeRefs m).map Event.create).count (.create r) = (madeRefs m).count r :=
  List.count_map_of_injective _ _ (fun _ _ => Event.create.inj) _

theorem count_release (m : Nat) (r : Ref) : ((madeRefs m).map Event.release).count (.release r) = (madeRefs m).count r :=
  List.count_map_of_injective _ _ (fun _ _ => Event.release.inj) _

theorem count_create_release (refs : List Ref) (r : Ref) : (refs.map Event.create).count (.release r) = 0 := by
  rw [List.count_eq_zero]
  simp

theorem count_release_create (refs : List Ref) (r : Ref) : (refs.map Event.release).count (.create r) = 0 := by
  rw [List.count_eq_zero]
  simp

/-! ## The ends -/

variable {call : Call} {before after : List (Field Ref)}

section

variable (h : Midway cursor call before after)

include h

theorem Midway.created (k : Nat) : call.created (.made k) = if k < call.made.length then 1 else 0 := by
  rw [Call.created, h.log, List.count_append, count_oldReleases_create, count_create, count_madeRefs, Nat.zero_add]

theorem Midway.released_old (o : Nat) : call.released (.old o) = (heldBy cursor.fields).count o := by
  rw [Call.released, h.log, List.count_append, count_oldReleases, count_create_release, Nat.add_zero]

theorem Midway.released_made (k : Nat) : call.released (.made k) = 0 := by
  rw [Call.released, h.log, List.count_append, count_oldReleases_made, count_create_release]

/-- What the label `error` adds to the log. -/
theorem Midway.error_log : call.error.log = call.log ++ (madeRefs call.made.length).map .release := by
  show call.log ++ (heldBy call.fields).map .release = _
  rw [h.held]

/-- The label `error` balances what was made. -/
theorem Midway.error : Balanced cursor (false, call.error) := by
  have hreleased : ∀ r, call.error.released r = call.released r + (madeRefs call.made.length).count r := by
    intro r
    rw [Call.released, h.error_log, List.count_append, count_release]
    rfl
  have hcreated : ∀ r, call.error.created r = call.created r := by
    intro r
    rw [Call.created, h.error_log, List.count_append, count_release_create]
    rfl
  refine ⟨fun o => ?_, fun k => ?_, fun _ => ⟨rfl, held_eq_none_of_heldBy (heldBy_cleared _), fun k => ?_⟩, nofun⟩
  · rw [hreleased, h.released_old, count_madeRefs_old, Nat.add_zero]
  · rw [hcreated, h.created]
    rfl
  · rw [hreleased, hcreated, h.released_made, h.created, count_madeRefs, Nat.zero_add]

/-- At the end of the loop every field holds its own reference. -/
theorem Midway.done : Balanced cursor (true, { call with hasRow := true }) := by
  refine ⟨h.released_old, h.created, nofun, fun _ => ⟨rfl, fun o => ?_, fun k => ⟨h.released_made k, ?_⟩⟩⟩
  · show (heldBy call.fields).count _ = 0
    rw [h.held, count_madeRefs_old]
  · show (heldBy call.fields).count _ = call.created _
    rw [h.held, count_madeRefs, h.created]

/-- However the loop ends, the references balance. -/
theorem Midway.finish (ok : Bool) : Balanced cursor (finish (ok, call)) := by
  cases ok with
  | false => exact h.error
  | true => exact h.done

end

theorem balanced_fromBytes (beyond : Beyond) (bytes : List Byte) (cursor : Cursor sh) :
    Balanced cursor (cursorFromBytes beyond bytes cursor) := by
  obtain ⟨fields, hstart, hlen⟩ := midway_start cursor
  unfold cursorFromBytes Call.fromBytes
  cases readHeader beyond sh.columns bytes with
  | none => exact hstart.finish false
  | some x =>
    obtain ⟨n, bits, input⟩ := x
    obtain ⟨before, after, hend⟩ := hstart.columns beyond bytes bits n (r := { input := input, nullableIndex := 0, boolIndex := 0 }) hlen
    exact hend.finish _

/-- Without a blob nothing is made. -/
theorem balanced_noBlob (cursor : Cursor sh) : Balanced cursor (false, cursor.start.error) := by
  obtain ⟨fields, hstart, -⟩ := midway_start cursor
  refine ⟨hstart.released_old, hstart.created, fun _ => ⟨rfl, held_eq_none_of_heldBy hstart.held, fun k => ?_⟩, nofun⟩
  exact (hstart.released_made k).trans (hstart.created k).symm

end DynAux

open DynAux in
/-- Whatever the bytes are, and whatever stands outside of the arrays, the references balance; and so they do for a blob. -/
theorem references_balance (beyond : Beyond) (needed : Shape) (cursor : Cursor needed) :
    (∀ bytes, Balanced cursor (cursorFromBytes beyond bytes cursor)) ∧ ∀ b, Balanced cursor (cursorFromBlob beyond b cursor) := by
  refine ⟨fun bytes => balanced_fromBytes beyond bytes cursor, fun b => ?_⟩
  cases b with
  | none => exact balanced_noBlob cursor
  | some bytes => exact balanced_fromBytes beyond bytes cursor

/-! ## What is read -/

namespace DynAux

variable {α : Type}

/-- Where the decoder stays inside of its arrays, the call reads what it reads. -/
structure Follows {α : Type} (x : Decode α) (y : Option α) : Prop where
  ok : ∀ a, x = pure a → y = some a
  error : x = Decode.error → y = none

theorem follows_pure (a : α) : Follows (pure a) (some a) := by
  refine ⟨fun b h => ?_, nofun⟩
  rw [Decode.pure_inj h]

theorem follows_error : Follows (Decode.error : Decode α) none := ⟨nofun, fun _ => rfl⟩

theorem follows_outside (y : Option α) : Follows (throw Fault.outOfBounds : Decode α) y := ⟨nofun, nofun⟩

theorem follows_checked (o : Option α) : Follows (Decode.checked o) o := by
  cases o with
  | none => exact follows_error
  | some a => exact follows_pure a

theorem Follows.bind {β : Type} {x : Decode α} {y : Option α} {f : α → Decode β} {g : α → Option β} (h : Follows x y)
    (hf : ∀ a, Follows (f a) (g a)) : Follows (x >>= f) (y >>= g) := by
  rcases x with _ | (e | a)
  · rw [h.error rfl]
    exact follows_error
  · exact ⟨nofun, nofun⟩
  · rw [h.ok a rfl]
    exact hf a

theorem follows_at (beyond : Beyond) (needed : List Column) (i : Nat) : Follows (Decode.at needed i) (beyond.typeAt needed i) := by
  rw [Decode.at, Beyond.typeAt]
  cases needed[i]? with
  | none => exact follows_outside _
  | some c => exact follows_pure c

theorem follows_getBit (beyond : Beyond) (bits : List Byte) (i : Nat) :
    Follows ((getBit? bits i).elim (throw .outOfBounds) pure) (some (beyond.getBit bits i)) := by
  rw [Beyond.getBit]
  cases getBit? bits i with
  | none => exact follows_outside _
  | some b => exact follows_pure b

theorem follows_readCodes (beyond : Beyond) (needed : List Column) (n : Counts) (input : List Byte) :
    Follows (Serial.readCodes needed n input) (readCodes beyond needed n input) := by
  induction input generalizing n with
  | nil => exact follows_error
  | cons code input ih =>
    rw [Serial.readCodes, readCodes]
    split
    · exact follows_pure _
    · dsimp only
      split
      · refine (follows_at beyond needed _).bind fun c => ?_
        split
        · exact ih _
        · exact follows_error
      · exact ih _

theorem follows_value (beyond : Beyond) (bits : List Byte) (nullables : Nat) (r : Reader) (t : DataType) :
    Follows (r.value bits nullables t) (readValue beyond bits nullables r t) := by
  cases t with
  | int32 => exact (follows_checked _).bind fun x => follows_pure _
  | int64 => exact (follows_checked _).bind fun x => follows_pure _
  | double => exact (follows_checked _).bind fun x => follows_pure _
  | bool => exact (follows_getBit beyond bits _).bind fun b => follows_pure _
  | string => exact (follows_checked _).bind fun x => follows_pure _
  | blob => exact (follows_checked _).bind fun size => (follows_checked _).bind fun x => follows_pure _

theorem follows_fetchData (beyond : Beyond) (bytes bits : List Byte) (actual i : Nat) (r : Reader) :
    Follows (r.fetchData bytes bits actual i) (some (fetchData beyond bytes bits actual i r)) := by
  rw [Reader.fetchData, fetchData]
  split
  · exact follows_pure _
  · rw [Decode.at, List.getD_eq_getElem?_getD]
    cases bytes[i]? with
    | none => exact follows_outside _
    | some code =>
      rw [Option.getD_some]
      show Follows (pure code >>= _) _
      rw [pure_bind]
      split
      · exact follows_pure _
      · exact (follows_getBit beyond bits _).bind fun b => follows_pure _

theorem follows_column (beyond : Beyond) (bytes bits : List Byte) (n : Counts) (i : Nat) (c : Column) (r : Reader) :
    Follows (r.column bytes bits n i c) (readColumn beyond bytes bits n i c r) := by
  show Follows (r.fetchData bytes bits n.actual i >>= fun x => if x.1 then do
      let v ← x.2.value bits n.nullables c.type
      return (some v.1, v.2)
    else return (none, { x.2 with boolIndex := nextBool c x.2.boolIndex }))
    (some (fetchData beyond bytes bits n.actual i r) >>= fun x => if x.1 then do
      let v ← readValue beyond bits n.nullables x.2 c.type
      return (some v.1, v.2)
    else return (none, { x.2 with boolIndex := nextBool c x.2.boolIndex }))
  refine (follows_fetchData beyond bytes bits n.actual i r).bind fun x => ?_
  split
  · exact (follows_value beyond bits n.nullables x.2 c.type).bind fun v => follows_pure _
  · exact follows_pure _

theorem follows_header (beyond : Beyond) (needed : List Column) (bytes : List Byte) : Follows (do
      let x ← Serial.readCodes needed { nullables := 0, bools := 0, actual := 0, next := 0 } bytes
      if (needed.drop x.1.next).any (·.notNull) then Decode.error
      else do
        let bits ← Decode.checked (inlineBytes x.2 ((x.1.nullables + x.1.bools + 7) / 8))
        pure (x.1, bits.1, bits.2)) (readHeader beyond needed bytes) := by
  refine (follows_readCodes beyond needed _ bytes).bind fun x => ?_
  split
  · exact follows_error
  · exact (follows_checked _).bind fun bits => follows_pure _

/-- The decoder reads the codes and bits first. -/
theorem cursorFromBytes_header (needed : Shape) (bytes : List Byte) : Serial.cursorFromBytes needed bytes = (do
      let x ← Serial.readCodes needed.columns { nullables := 0, bools := 0, actual := 0, next := 0 } bytes
      if (needed.columns.drop x.1.next).any (·.notNull) then Decode.error
      else do
        let bits ← Decode.checked (inlineBytes x.2 ((x.1.nullables + x.1.bools + 7) / 8))
        pure (x.1, bits.1, bits.2)) >>= fun h => Reader.columns bytes h.2.1 h.1 0 needed.columns
          { input := h.2.2, nullableIndex := 0, boolIndex := 0 } := by
  rw [Serial.cursorFromBytes, bind_assoc]
  congr 1
  funext x
  split
  · rfl
  · simp

/-- What a decoder that fails did first. -/
theorem bind_eq_error {β : Type} {x : Decode α} {f : α → Decode β} (h : (x >>= f) = Decode.error) :
    x = Decode.error ∨ ∃ a, x = pure a ∧ f a = Decode.error := by
  rcases x with _ | (e | a)
  · exact Or.inl rfl
  · nomatch h
  · exact Or.inr ⟨a, rfl, h⟩

variable {sh : Shape} {cursor : Cursor sh} {call : Call} {before after : List (Field Ref)}

/-- The loop of the call stores what the decoder reads, and ends where it fails. -/
theorem Midway.follows (beyond : Beyond) (bytes bits : List Byte) (n : Counts) {cols : List Column} {r : Reader}
    (h : Midway cursor call before after) (hlen : after.length = cols.length) :
    (∀ values, Reader.columns bytes bits n before.length cols r = pure values → (call.columns beyond bytes bits n before.length cols r).1 = true ∧
        (call.columns beyond bytes bits n before.length cols r).2.row = before.map call.content ++ values) ∧
    (Reader.columns bytes bits n before.length cols r = Decode.error → (call.columns beyond bytes bits n before.length cols r).1 = false) := by
  induction cols generalizing r call before after with
  | nil =>
    obtain rfl := List.length_eq_zero_iff.mp hlen
    refine ⟨fun values hread => ⟨rfl, ?_⟩, nofun⟩
    rw [← Decode.pure_inj hread, List.append_nil]
    show call.fields.map call.content = _
    rw [h.fields, List.append_nil]
  | cons c cols ih =>
    obtain ⟨f, after, rfl⟩ := List.exists_cons_of_length_eq_add_one hlen
    have hcolumn := follows_column beyond bytes bits n before.length c r
    have hrest : ∀ v r', readColumn beyond bytes bits n before.length c r = some (v, r') →
        call.columns beyond bytes bits n before.length (c :: cols) r =
          (call.store before.length c v).columns beyond bytes bits n (before.length + 1) cols r' := by
      intro v r' hv
      rw [Call.columns, hv]
    have hstep : ∀ v r', (∀ values, Reader.columns bytes bits n (before.length + 1) cols r' = pure values →
        ((call.store before.length c v).columns beyond bytes bits n (before.length + 1) cols r').1 = true ∧
          ((call.store before.length c v).columns beyond bytes bits n (before.length + 1) cols r').2.row =
            before.map call.content ++ v :: values) ∧
        (Reader.columns bytes bits n (before.length + 1) cols r' = Decode.error →
          ((call.store before.length c v).columns beyond bytes bits n (before.length + 1) cols r').1 = false) := by
      intro v r'
      obtain ⟨g, hstore, hcontent⟩ := h.store c v
      have hih := ih (r := r') hstore (Nat.succ.inj hlen)
      rw [List.length_append, List.length_singleton, hcontent] at hih
      simpa using hih
    constructor
    · intro values hread
      obtain ⟨x, hx, hread⟩ := Decode.bind_eq_pure hread
      obtain ⟨values', hvalues, hread⟩ := Decode.bind_eq_pure hread
      obtain rfl := Decode.pure_inj hread
      rw [hrest x.1 x.2 (hcolumn.ok x hx)]
      exact (hstep x.1 x.2).1 values' hvalues
    · intro hread
      rcases bind_eq_error hread with hx | ⟨x, hx, hread⟩
      · rw [Call.columns, hcolumn.error hx]
      · rcases bind_eq_error hread with hvalues | ⟨values', -, hread⟩
        · rw [hrest x.1 x.2 (hcolumn.ok x hx)]
          exact (hstep x.1 x.2).2 hvalues
        · nomatch hread

theorem outcome_finish (out : Bool × Call) : outcome (finish out) = outcome out := by
  rcases out with ⟨_ | _, call⟩ <;> rfl

/-- The call refines the decoder: where that reads a row, the cursor has the row, and where that fails, the call returns an error. -/
theorem follows_cursorFromBytes (beyond : Beyond) {needed : Shape} (bytes : List Byte) (cursor : Cursor needed) :
    Follows (Serial.cursorFromBytes needed bytes) (outcome (cursorFromBytes beyond bytes cursor)) := by
  obtain ⟨fields, hstart, hlen⟩ := midway_start cursor
  have hheader := follows_header beyond needed.columns bytes
  rw [cursorFromBytes_header]
  have hcall : ∀ h, readHeader beyond needed.columns bytes = some h → outcome (cursorFromBytes beyond bytes cursor) =
      outcome (Call.columns beyond bytes h.2.1 h.1 0 needed.columns { input := h.2.2, nullableIndex := 0, boolIndex := 0 }
        { cursor.start with hasRow := false }.clearReferences) := by
    intro h hh
    unfold cursorFromBytes Call.fromBytes
    rw [hh]
    exact outcome_finish _
  constructor
  · intro values hread
    obtain ⟨h, hh, hread⟩ := Decode.bind_eq_pure hread
    obtain ⟨hok, hrow⟩ := (hstart.follows beyond bytes h.2.1 h.1 hlen).1 values hread
    rw [hcall h (hheader.ok h hh)]
    exact (if_pos hok).trans (congrArg some hrow)
  · intro hread
    rcases bind_eq_error hread with hh | ⟨h, hh, hread⟩
    · unfold cursorFromBytes Call.fromBytes
      rw [hheader.error hh]
      rfl
    · rw [hcall h (hheader.ok h hh)]
      exact if_neg (ne_true_of_eq_false ((hstart.follows beyond bytes h.2.1 h.1 hlen).2 hread))

end DynAux

/-- Where the decoder reads a row, the call returns it, and where that fails, the call returns an error. -/
theorem cursorFromBytes_refines (beyond : Beyond) {needed : Shape} (bytes : List Byte) (cursor : Cursor needed) :
    (∀ values, Serial.cursorFromBytes needed bytes = pure values → outcome (cursorFromBytes beyond bytes cursor) = some values) ∧
    (Serial.cursorFromBytes needed bytes = Decode.error → outcome (cursorFromBytes beyond bytes cursor) = none) :=
  have h := DynAux.follows_cursorFromBytes beyond bytes cursor
  ⟨h.ok, h.error⟩

end CgSql.DynCursor
