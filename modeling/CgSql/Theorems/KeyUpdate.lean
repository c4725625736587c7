import CgSql.Lemmas.KeyUpdate

/-!
# The law of `bupdatekey`

An updated key blob is the key blob of the updated values, byte for byte. The size of the result is computed from the size of the
blob, and the bytes that are copied are those of the columns: the two agree exactly if the stored ranges of the columns, taken
together, are as long as what is behind the type codes. The validation checks each column on its own.
-/

namespace CgSql.Blobs

/-! ## Canonical updates -/

/-- The arguments of `bcreatekey` after the record type, with the value of one column changed. -/
def updateValue (vals : List SqlValue) (update : SqlValue × SqlValue) : List SqlValue :=
  match update.1 with
  | .integer icol => vals.set (2 * icol.toNat) update.2
  | _ => vals

namespace BlobAux

variable {vals : List SqlValue} {s : Sqlite} {cells : List Cell}

theorem pairs_set {i : Nat} (hi : i < (pairs vals).length) (v : SqlValue) :
    pairs (vals.set (2 * i) v) = (pairs vals).modify i fun p => (v, p.2) := by
  induction vals using pairs.induct generalizing i with
  | case1 a b vals ih =>
    rcases i with _ | i
    · rfl
    · have hset : (a :: b :: vals).set (2 * (i + 1)) v = a :: b :: vals.set (2 * i) v := rfl
      rw [hset, pairs, pairs, ih (Nat.lt_of_succ_lt_succ hi)]
      rfl
  | case2 vals hne =>
    rw [pairs] at hi
    · exact absurd hi (Nat.not_lt_zero i)
    · exact hne

/-- An updated value is accepted, and its cell is the updated cell. -/
theorem keyCells_updateValue (hok : ∀ spec ∈ pairs vals, KeySpecOk s spec)
    {u : SqlValue × SqlValue} (hint : u.1.isInteger = true) {c : Cell} (hc : (keyCells s (pairs vals))[target u]? = some c)
    {n : Nat} (hn : blobtypeVsArgtypeCompat u.2 c.type.code = some n) :
    (updateValue vals u).length = vals.length ∧ (∀ spec ∈ pairs (updateValue vals u), KeySpecOk s spec) ∧
      keyCells s (pairs (updateValue vals u)) = updateCell s (keyCells s (pairs vals)) u := by
  have hcode : ∀ spec ∈ pairs vals, (keyCell s spec).type.code = typeArg s spec.2 := by
    intro spec hspec
    obtain ⟨_, m, hm⟩ := hok spec hspec
    exact (cellOf_spec hm).2.2
  have hupdate : updateValue vals u = vals.set (2 * target u) u.2 := by
    obtain ⟨v, value⟩ := u
    cases v <;> first | rfl | nomatch hint
  obtain ⟨hi, hget⟩ := List.getElem?_eq_some_iff.1 hc
  have hi' : target u < (pairs vals).length := by
    rwa [keyCells, List.length_map] at hi
  have hmem : (pairs vals)[target u] ∈ pairs vals := List.getElem_mem hi'
  obtain rfl : keyCell s (pairs vals)[target u] = c := by
    rw [← hget]
    exact (List.getElem_map (keyCell s)).symm
  have hpairs : pairs (updateValue vals u) = (pairs vals).modify (target u) fun p => (u.2, p.2) := by
    rw [hupdate, pairs_set hi']
  rw [hpairs]
  refine ⟨by rw [hupdate, List.length_set], fun spec hspec => ?_, ?_⟩
  · obtain ⟨j, hj, rfl⟩ := List.mem_iff_getElem.1 hspec
    rw [List.getElem_modify]
    rw [List.length_modify] at hj
    split
    · rename_i heq
      subst heq
      refine ⟨(hok _ hmem).1, n, ?_⟩
      rw [← hcode _ hmem]
      exact hn
    · exact hok _ (List.getElem_mem hj)
  · refine List.ext_getElem? fun j => ?_
    rw [getElem?_updateCell, keyCells, keyCells, List.getElem?_map, List.getElem?_map, List.getElem?_modify, Option.map_eq_map, Option.map_map]
    by_cases heq : target u = j
    · subst heq
      rw [if_pos rfl, List.getElem?_eq_getElem hi']
      simp only [if_true, Option.map_some, Function.comp, hcode _ hmem]
      rfl
    · simp only [if_neg heq]
      rfl

/-- So are updated values. -/
theorem keyCells_updateValues {done : List Nat} {us : List (SqlValue × SqlValue)}
    (hok : ∀ spec ∈ pairs vals, KeySpecOk s spec) (h : Updatable (keyCells s (pairs vals)) done us) :
    (us.foldl updateValue vals).length = vals.length ∧ (∀ spec ∈ pairs (us.foldl updateValue vals), KeySpecOk s spec) ∧
      keyCells s (pairs (us.foldl updateValue vals)) = updateCells s (keyCells s (pairs vals)) us := by
  induction us generalizing vals done with
  | nil => exact ⟨rfl, hok, rfl⟩
  | cons u us ih =>
    obtain ⟨hint, _, ⟨c, hc, n, hn⟩, hrest⟩ := h
    obtain ⟨hlen, hok', hcells⟩ := keyCells_updateValue hok hint hc hn
    have hrest' := hrest.updateCell (s := s) List.mem_cons_self
    rw [← hcells] at hrest'
    obtain ⟨hlen', hok'', hcells'⟩ := ih hok' hrest'
    refine ⟨hlen'.trans hlen, hok'', hcells'.trans ?_⟩
    rw [hcells]
    rfl

/-- A key blob that was created, as areas and cells. -/
theorem sized_keyBlob {recordType : BitVec 64} (hwf : ∀ c ∈ cells, c.WellFormed)
    (hlt : (keyBlob recordType cells).length < 2 ^ 31) {args : List SqlValue} {u : KeyUpdate}
    (h : sizeKeyUpdate (.blob (keyBlob recordType cells) :: args) = .ok u) :
    Sized s (keyBlob recordType cells) (pairs args) u (headerBytes recordType cells.length)
      (words (16 + 9 * cells.length : Nat) cells) cells (extras cells) := by
  have hlen := length_keyBlob recordType hwf
  have hhead := length_headerBytes recordType cells.length
  have hl : Laid (keyShape cells.length 0) (headerBytes recordType cells.length) [] (words (16 + 9 * cells.length : Nat) cells)
      (codes cells) := by
    refine ⟨nofun, wordLength_words hwf _, by rw [length_words, length_codes], ?_, ?_, ?_, ?_⟩
    all_goals
      simp only [keyShape, hhead, length_words, length_codes, List.length_nil]
      omega
  have hstored : Stored (keyShape cells.length 0) (words (16 + 9 * cells.length : Nat) cells) (extras cells) cells := by
    refine ⟨length_words _ _, ?_⟩
    have hoffset : ((16 + 9 * cells.length : Nat) : Int) = (keyShape cells.length 0).variableOffset + ([] : List Byte).length := by
      simp only [keyShape, List.length_nil]
      omega
    have := refers_words hwf [] [] hoffset (by omega)
    simpa only [List.nil_append, List.append_nil] using this
  refine sized_of_layout s (readBlobHeader_layout recordType cells.length _) ?_ rfl hl hstored hwf h
  exact Nat.mod_eq_of_lt (by omega)

/-- What an update leaves is the key blob of the updated cells. -/
theorem updatedKey_eq {junk : Nat → Byte} {recordType : BitVec 64} (hwf : ∀ c ∈ cells, c.WellFormed)
    (hlt : (keyBlob recordType cells).length < 2 ^ 31) {updates : List SqlValue} {b : List Byte}
    (h : bupdatekey s junk (.blob (keyBlob recordType cells) :: updates) = .ok b) :
    Updatable cells [] (pairs updates) ∧ b = keyBlob recordType (updateCells s cells (pairs updates)) ∧ b.length < 2 ^ 31 := by
  unfold bupdatekey at h
  obtain ⟨u, hu, h⟩ := bind_eq_ok h
  obtain ⟨x, hx, h⟩ := bind_eq_ok h
  obtain rfl := Except.ok.inj h
  have hsized := sized_keyBlob (s := s) hwf hlt hu
  have ⟨result, hmalloc, _⟩ := bind_eq_ok hx
  have hmalloced := length_of_malloc hmalloc
  have hsmall := (malloc_ok hmalloc).2
  have htotal := hsized.totalBytes
  have hvariable := hsized.laid.variableOffset
  rw [length_words, length_codes, length_headerBytes, List.length_nil] at hvariable
  have hcells := length_updateCells s cells (pairs updates)
  obtain ⟨hcodes, hwf'⟩ := updateCells_spec (s := s) hsized.updatable
  rw [hsized.copyKeyUpdate_eq hmalloc, if_pos (by omega)] at hx
  obtain rfl := Except.ok.inj hx
  have hrest : (result.drop u.shape.variableOffset.toNat).drop (extras (updateCells s cells (pairs updates))).length = [] := by
    rw [List.drop_drop]
    exact List.drop_eq_nil_of_le (by omega)
  have hoffset : u.shape.variableOffset = 16 + 9 * (updateCells s cells (pairs updates)).length := by omega
  have hkey : areas (headerBytes recordType cells.length) [] (words u.shape.variableOffset (updateCells s cells (pairs updates)))
      (codes cells) (extras (updateCells s cells (pairs updates)) ++
        (result.drop u.shape.variableOffset.toNat).drop (extras (updateCells s cells (pairs updates))).length) =
      keyBlob recordType (updateCells s cells (pairs updates)) := by
    rw [hrest, List.append_nil, keyBlob, hcodes, hcells, hoffset, hcells]
  refine ⟨hsized.updatable, hkey, ?_⟩
  dsimp only
  rw [hkey, length_keyBlob recordType (hwf' hwf)]
  omega

end BlobAux

open BlobAux

/-- An updated key blob is the key blob of the updated values: the same bytes, whatever the order of the updates. -/
theorem bupdatekey_eq_bcreatekey {s : Sqlite} {junk junk' : Nat → Byte} {recordType : BitVec 64} {vals updates : List SqlValue}
    {b b' : List Byte} (h : bcreatekey s junk (.integer recordType :: vals) = .ok b)
    (h' : bupdatekey s junk' (.blob b :: updates) = .ok b') (junk'' : Nat → Byte) :
    bcreatekey s junk'' (.integer recordType :: (pairs updates).foldl updateValue vals) = .ok b' := by
  obtain ⟨_, _, hargv, hargc, hok, rfl, hlt⟩ := keyCreated_of_ok h
  cases hargv
  obtain ⟨hupdatable, hb', hlt'⟩ := updatedKey_eq (wellFormed_keyCells hok) hlt h'
  obtain ⟨hlen, hok', hcells⟩ := keyCells_updateValues hok hupdatable
  refine bcreatekey_eq junk'' ⟨recordType, _, rfl, ?_, hok', ?_, hlt'⟩
  · rw [List.length_cons, hlen]
    exact hargc
  · rw [hcells]
    exact hb'

/-- An SQLite that converts everything to zero. -/
def plain : Sqlite := { toInt64 := fun _ => 0, toDouble := fun _ => 0 }

/-- A key blob with the strings `a` and `c`. -/
def twoStrings : List Byte :=
  [0, 0, 0, 0, 0, 0, 0, 7, 0x52, 0x4d, 0x30, 0x30, 0, 0, 0, 2, 0, 0, 0, 34, 0, 0, 0, 1, 0, 0, 0, 36, 0, 0, 0, 1, 4, 4, 97, 0, 99, 0]

/-- Two strings whose lengths change, the second one first. -/
theorem bupdatekey_eq_bcreatekey_twoStrings : bcreatekey plain (fun _ => 0) [.integer 7, .text [], .integer 4, .text [98, 99], .integer 4] =
      .ok (keyBlob 7 [.string [], .string [98, 99]]) :=
  @bupdatekey_eq_bcreatekey plain (fun _ => 0) (fun _ => 1) 7 [.text [97], .integer 4, .text [99], .integer 4]
    [.integer 1, .text [98, 99], .integer 0, .text []] twoStrings _ rfl rfl (fun _ => 0)

/-! ## Sizes of updates -/

/-- The stored ranges of the columns of a key blob, taken together, are as long as what is behind its type codes. -/
def tiled (b : List Byte) : Udf Bool := do
  let header ← readBlobHeader b
  let shape ← computeKeyBlobShape header.columnCount.toNat 0
  let sizes ← (List.range header.columnCount.toNat).mapM fun (icol : Nat) => do
    let code ← loadByte b (shape.typeCodesOffset + icol)
    storedSize b code (shape.storageOffset + icol * 8)
  return decide (sizes.sum = b.length - shape.variableOffset)

namespace BlobAux

/-- What is found for each index of a list is the list. -/
theorem mapM_range {α : Type} {f : Nat → Udf α} {l : List α} (h : ∀ (i : Nat) (a : α), l[i]? = some a → f i = .ok a) :
    (List.range l.length).mapM f = .ok l := by
  have hrun : ∀ (k : Nat) (l' : List α), (∀ (i : Nat) (a : α), l'[i]? = some a → f (k + i) = .ok a) →
      (List.range' k l'.length).mapM f = .ok l' := by
    intro k l' h'
    induction l' generalizing k with
    | nil => rfl
    | cons a l' ih =>
      have hrest : ∀ (i : Nat) (b : α), l'[i]? = some b → f (k + 1 + i) = .ok b := by
        intro i b hb
        rw [Nat.add_assoc, Nat.add_comm 1 i]
        exact h' (i + 1) b (by simpa using hb)
      have hfirst : f k = .ok a := h' 0 a rfl
      rw [List.length_cons, List.range'_succ, List.mapM_cons, hfirst, ok_bind, ih (k + 1) hrest]
      rfl
  rw [List.range_eq_range']
  exact hrun 0 l fun i a hi => by rw [Nat.zero_add]; exact h i a hi

theorem sum_sizes (cells : List Cell) : (cells.map fun c => (c.extra.length : Int)).sum = (extras cells).length := by
  induction cells with
  | nil => rfl
  | cons c cells ih =>
    have hsplit : extras (c :: cells) = c.extra ++ extras cells := rfl
    rw [List.map_cons, List.sum_cons, ih, hsplit, List.length_append]
    push_cast
    rfl

/-- The ranges of a blob whose cells are known. -/
theorem tiled_eq {b : List Byte} {header : Header} {head rest : List Byte} {ws : List (List Byte)}
    (hheader : readBlobHeader b = .ok header) (hn : header.columnCount.toNat = cells.length) {shape : BlobShape}
    (hshape : computeKeyBlobShape cells.length 0 = .ok shape) (hb : b = areas head [] ws (codes cells) rest)
    (hl : Laid shape head [] ws (codes cells)) (hstored : Stored shape ws rest cells) :
    tiled b = .ok (decide ((extras cells).length = rest.length)) := by
  have hlen : (b.length : Int) - shape.variableOffset = rest.length := by
    have := hl.length_eq rest
    rw [← hb] at this
    omega
  have hsizes : (List.range cells.length).mapM (fun (icol : Nat) => do
      let code ← loadByte b (shape.typeCodesOffset + icol)
      storedSize b code (shape.storageOffset + icol * 8)) = .ok (cells.map fun c => (c.extra.length : Int)) := by
    have := @mapM_range _ (fun (icol : Nat) => do
      let code ← loadByte b (shape.typeCodesOffset + icol)
      storedSize b code (shape.storageOffset + icol * 8)) (cells.map fun c => (c.extra.length : Int)) ?_
    · rwa [List.length_map] at this
    · intro i size hsize
      rw [List.getElem?_map] at hsize
      obtain ⟨c, hc, rfl⟩ := Option.map_eq_some_iff.1 hsize
      obtain ⟨hi, hci⟩ := List.getElem?_eq_some_iff.1 hc
      have hw : i < ws.length := by rw [hstored.count]; exact hi
      have hcs : i < (codes cells).length := by rw [length_codes]; exact hi
      have hcode : (codes cells)[i] = c.type.code := by
        rw [← hci]
        exact List.getElem_map _
      rw [hb, hl.loadCode rest hcs, ok_bind, hcode]
      exact storedSize_eq hl hw (hstored.refers i c _ hc (List.getElem?_eq_getElem hw))
  unfold tiled
  rw [hheader, ok_bind, hn, hshape, ok_bind, hsizes, ok_bind, sum_sizes, hlen]
  simp only [Int.natCast_inj, pure_eq_ok]

end BlobAux

/-- The bytes that an update copies lie in the block that was sized for them, and fill it, exactly if the stored ranges of the columns
are as long as what is behind the type codes. -/
theorem copyKeyUpdate_iff (s : Sqlite) {junk : Nat → Byte} {b : List Byte} {args : List SqlValue} {u : KeyUpdate}
    (h : sizeKeyUpdate (.blob b :: args) = .ok u) {block : List Byte} (hblock : malloc junk u.totalBytes = .ok block) :
    (∃ result, copyKeyUpdate s junk (.blob b :: args) u = .ok (result, u.totalBytes)) ↔ tiled b = .ok true := by
  obtain ⟨header, ws, cells, rest, hheader, hn, hshape, hsized⟩ := sized_of_ok s h
  have htotal := hsized.totalBytes
  rw [tiled_eq hheader hn hshape hsized.blob hsized.laid hsized.stored, hsized.copyKeyUpdate_eq hblock]
  have hdecide : (Except.ok (decide ((extras cells).length = rest.length)) : Udf Bool) = .ok true ↔ (extras cells).length = rest.length := by
    rw [Except.ok.injEq, decide_eq_true_eq]
  rw [hdecide]
  constructor
  · rintro ⟨result, hresult⟩
    split at hresult
    · have := (Prod.mk.inj (Except.ok.inj hresult)).2
      omega
    · nomatch hresult
  · intro hsame
    rw [if_pos (by omega)]
    refine ⟨_, congrArg Except.ok (congrArg (Prod.mk _) ?_)⟩
    omega

/-- An update of a blob whose ranges are its variable bytes. -/
theorem copyKeyUpdate_iff_twoStrings : ∃ u, sizeKeyUpdate [.blob twoStrings, .integer 1, .text [98, 99]] = .ok u ∧
      ((∃ result, copyKeyUpdate plain (fun _ => 0) [.blob twoStrings, .integer 1, .text [98, 99]] u = .ok (result, u.totalBytes)) ↔
        tiled twoStrings = .ok true) := by
  have hmap : (sizeKeyUpdate [.blob twoStrings, .integer 1, .text [98, 99]]).map KeyUpdate.totalBytes = .ok 39 := rfl
  obtain ⟨u, hu, htotal⟩ := map_eq_ok hmap
  obtain ⟨block, hblock, _⟩ := malloc_eq (fun _ => 0) (show 0 < u.totalBytes by omega) (by omega)
  exact ⟨u, hu, copyKeyUpdate_iff plain hu hblock⟩

/-- A key blob with two strings that are the same two bytes. -/
def sharedString : List Byte :=
  [0, 0, 0, 0, 0, 0, 0, 7, 0x52, 0x4d, 0x30, 0x30, 0, 0, 0, 2, 0, 0, 0, 34, 0, 0, 0, 1, 0, 0, 0, 34, 0, 0, 0, 1, 4, 4, 97, 0]

/-- The blob passes the validation, and an update of the first string is sized at 36 bytes: the second string is copied behind them. -/
theorem copyKeyUpdate_false : (sizeKeyUpdate [.blob sharedString, .integer 0, .text [98]]).map KeyUpdate.totalBytes = .ok 36 ∧
      bupdatekey plain (fun _ => 0) [.blob sharedString, .integer 0, .text [98]] = .error .fault :=
  ⟨rfl, rfl⟩

end CgSql.Blobs
