import CgSql.LuaStream
import CgSql.Lemmas.Serial

/-!
# Blob streams in Lua

The check in front of the reads makes sure that the entry of a blob starts in the bytes, not that it ends there. And what is handed on for a
blob is one byte too long: it goes on with the first byte behind the blob. A blob that can be decoded does not see that byte.
-/

namespace CgSql.LuaStream

open Serial

namespace StreamAux

variable {α : Type} {x : Lua α} {rest str b : List Byte} {blobs : List (List Byte)}

/-! ### Errors -/

theorem check_eq_ok {rc : Int} {o : Option α} {a : α} : Lua.check rc o = .ok a ↔ o = some a := by
  cases o <;> simp [Lua.check]

theorem check_ne_raised (rc : Int) (o : Option α) : Lua.check rc o ≠ .error .raised := by
  cases o <;> simp [Lua.check]

theorem bind_eq_ok {β : Type} {f : α → Lua β} {b : β} : x >>= f = .ok b ↔ ∃ a, x = .ok a ∧ f a = .ok b := by
  cases x <;> simp [bind, Except.bind]

theorem bind_ne_raised {β : Type} {f : α → Lua β} (hx : x ≠ .error .raised) (hf : ∀ a, f a ≠ .error .raised) : x >>= f ≠ .error .raised := by
  cases x with
  | error e => simpa [bind, Except.bind] using hx
  | ok a => exact hf a

theorem value_ne_raised (bits : List Byte) (nullables : Nat) (r : LuaReader) (rc : Int × Int) (t : DataType) :
    r.value bits nullables rc t ≠ .error .raised := by
  cases t with
  | blob => exact bind_ne_raised (check_ne_raised _ _) fun _ => bind_ne_raised (check_ne_raised _ _) fun _ => nofun
  | _ => exact bind_ne_raised (check_ne_raised _ _) fun _ => nofun

theorem column_ne_raised (bits : List Byte) (nullables : Nat) (r : LuaReader) (default : Option LuaValue) (code : Byte) :
    r.column bits nullables default code ≠ .error .raised := by
  rw [LuaReader.column]
  split
  · simp
  · exact bind_ne_raised (value_ne_raised _ _ _ _ _) fun _ => nofun
  · refine bind_ne_raised (check_ne_raised _ _) fun bit => bind_ne_raised ?_ fun _ => nofun
    cases bit with
    | false => nofun
    | true => exact bind_ne_raised (value_ne_raised _ _ _ _ _) fun _ => nofun

theorem columns_ne_raised (bits : List Byte) (nullables : Nat) (types : List Byte) : ∀ (r : LuaReader) (cols : List Column),
    LuaReader.columns bits nullables r cols types ≠ .error .raised := by
  induction types with
  | nil =>
    intro r cols
    cases cols <;> nofun
  | cons code types ih =>
    intro r cols
    cases cols with
    | nil => nofun
    | cons c cols => exact bind_ne_raised (column_ne_raised _ _ _ _ _) fun x => bind_ne_raised (ih _ _) fun _ => nofun

theorem checkTypes_ne_raised (types : List Byte) : ∀ cols : List Column, luaCheckTypes cols types ≠ .error .raised := by
  induction types with
  | nil =>
    intro cols
    cases cols with
    | nil => simp [luaCheckTypes]
    | cons c cols =>
      rw [luaCheckTypes]
      split <;> nofun
  | cons code types ih =>
    intro cols
    cases cols with
    | nil => nofun
    | cons c cols =>
      rw [luaCheckTypes]
      split
      · exact ih cols
      · nofun

/-- The decoder raises no error. -/
theorem cursorFromBlob_ne_raised (needed : Shape) (buffer : List Byte) : cursorFromBlob needed buffer ≠ .error .raised :=
  bind_ne_raised (check_ne_raised _ _) fun _ => bind_ne_raised (checkTypes_ne_raised _ _) fun _ => columns_ne_raised _ _ _ _ _

/-! ### More bytes behind a blob -/

theorem varintDecodeLoop_append (more : List Byte) (lim : Nat) : ∀ (result : BitVec 64) (shift : Nat) (x : List Byte) (v : BitVec 64)
    (rest : List Byte), varintDecodeLoop lim result shift x = some (v, rest) →
      varintDecodeLoop lim result shift (x ++ more) = some (v, rest ++ more) := by
  induction lim with
  | zero =>
    intro result shift x v rest h
    simp [varintDecodeLoop] at h
  | succ lim ih =>
    intro result shift x v rest h
    cases x with
    | nil => simp [varintDecodeLoop] at h
    | cons b x =>
      rw [List.cons_append]
      rw [varintDecodeLoop] at h ⊢
      split at h
      · next hlast =>
        simp only [Option.some.injEq, Prod.mk.injEq] at h
        rw [if_pos hlast, h.1, h.2]
      · next hmore =>
        rw [if_neg hmore]
        exact ih _ _ _ _ _ h

theorem varintDecode_append {lim : Nat} {x : List Byte} {v : BitVec 64} (more : List Byte) (h : varintDecode lim x = some (v, rest)) :
    varintDecode lim (x ++ more) = some (v, rest ++ more) := by
  rw [varintDecode, Option.map_eq_some_iff] at h
  obtain ⟨⟨w, r⟩, hloop, heq⟩ := h
  simp only [Prod.mk.injEq] at heq
  rw [varintDecode, varintDecodeLoop_append more _ _ _ _ _ _ hloop, Option.map_some, heq.1, heq.2]

theorem pcall_eq_some {a : α} : pcall x = some a ↔ x = .ok a := by
  cases x <;> simp [pcall]

theorem unpackZ_eq {front : List Byte} (hfree : 0 ∉ front) (back : List Byte) : unpackZ (front ++ 0 :: back) = .ok (front, back) := by
  have hne : ∀ b ∈ front, decide (b ≠ 0) = true := by
    intro b hb
    simpa using fun h : b = 0 => hfree (h ▸ hb)
  rw [unpackZ, if_pos (by simp), List.takeWhile_append_of_pos hne, List.dropWhile_append_of_pos hne]
  simp

theorem unpackZ_append {a : List Byte} (more : List Byte) (h : unpackZ str = .ok (a, rest)) : unpackZ (str ++ more) = .ok (a, rest ++ more) := by
  have hzero : 0 ∈ str := by
    by_contra hnot
    rw [unpackZ, if_neg hnot] at h
    simp at h
  obtain ⟨front, back, rfl, hfree⟩ := List.eq_append_cons_of_mem hzero
  rw [unpackZ_eq hfree] at h
  simp only [Except.ok.injEq, Prod.mk.injEq] at h
  rw [List.append_assoc, List.cons_append, unpackZ_eq hfree, h.1, h.2]

theorem unpackD_append {v : BitVec 64} (more : List Byte) (h : unpackD str = .ok (v, rest)) : unpackD (str ++ more) = .ok (v, rest ++ more) := by
  rw [unpackD] at h ⊢
  split at h
  · next hlen =>
    simp only [Except.ok.injEq, Prod.mk.injEq] at h
    rw [if_pos (by rw [List.length_append]; omega), List.take_append_of_le_length hlen, List.drop_append_of_le_length hlen, h.1, h.2]
  · simp at h

theorem unpackC_append {a : List Byte} {size : BitVec 64} (more : List Byte) (h : unpackC str size = .ok (a, rest)) :
    unpackC (str ++ more) size = .ok (a, rest ++ more) := by
  rw [unpackC] at h ⊢
  split at h
  · simp at h
  · next hsign =>
    rw [if_neg hsign]
    split at h
    · next hlen =>
      simp only [Except.ok.injEq, Prod.mk.injEq] at h
      rw [if_pos (by rw [List.length_append]; omega), List.take_append_of_le_length hlen, List.drop_append_of_le_length hlen, h.1, h.2]
    · simp at h

/-- The reader with more bytes behind the rest. -/
def extend (r : LuaReader) (more : List Byte) : LuaReader := { r with rest := r.rest ++ more }

theorem getBit_append {bits : List Byte} {i : Nat} {b : Bool} (more : List Byte) (h : luaGetBit bits i = some b) :
    luaGetBit (bits ++ more) i = some b := by
  rw [luaGetBit] at h ⊢
  split at h
  · simp at h
  · next hlen =>
    have hlt : i / 8 < bits.length := by omega
    rw [List.getD_eq_getElem?_getD] at h ⊢
    rw [if_neg (by rw [List.length_append]; omega), List.getElem?_append_left hlt, h]

variable {bits more bits' : List Byte} {nullables : Nat}

/-- A value that is read is read with more bytes, too. -/
theorem value_append (t : DataType) {rc : Int × Int} {r r' : LuaReader} {v : LuaValue} (h : r.value bits nullables rc t = .ok (v, r')) :
    (extend r more).value (bits ++ bits') nullables rc t = .ok (v, extend r' more) := by
  cases t with
  | bool =>
    obtain ⟨b, hb, h⟩ := bind_eq_ok.mp h
    simp only [pure, Except.pure, Except.ok.injEq, Prod.mk.injEq] at h
    refine bind_eq_ok.mpr ⟨b, check_eq_ok.mpr (getBit_append bits' (check_eq_ok.mp hb)), ?_⟩
    rw [h.1, h.2]
    rfl
  | int32 =>
    obtain ⟨x, hx, h⟩ := bind_eq_ok.mp h
    simp only [pure, Except.pure, Except.ok.injEq, Prod.mk.injEq] at h
    refine bind_eq_ok.mpr ⟨(x.1, x.2 ++ more), check_eq_ok.mpr (varintDecode_append more (check_eq_ok.mp hx)), ?_⟩
    rw [← h.1, ← h.2]
    rfl
  | int64 =>
    obtain ⟨x, hx, h⟩ := bind_eq_ok.mp h
    simp only [pure, Except.pure, Except.ok.injEq, Prod.mk.injEq] at h
    refine bind_eq_ok.mpr ⟨(x.1, x.2 ++ more), check_eq_ok.mpr (varintDecode_append more (check_eq_ok.mp hx)), ?_⟩
    rw [← h.1, ← h.2]
    rfl
  | double =>
    obtain ⟨x, hx, h⟩ := bind_eq_ok.mp h
    simp only [pure, Except.pure, Except.ok.injEq, Prod.mk.injEq] at h
    have hread := unpackD_append more (pcall_eq_some.mp (check_eq_ok.mp hx))
    refine bind_eq_ok.mpr ⟨(x.1, x.2 ++ more), check_eq_ok.mpr (pcall_eq_some.mpr hread), ?_⟩
    rw [← h.1, ← h.2]
    rfl
  | string =>
    obtain ⟨x, hx, h⟩ := bind_eq_ok.mp h
    simp only [pure, Except.pure, Except.ok.injEq, Prod.mk.injEq] at h
    have hread := unpackZ_append more (pcall_eq_some.mp (check_eq_ok.mp hx))
    refine bind_eq_ok.mpr ⟨(x.1, x.2 ++ more), check_eq_ok.mpr (pcall_eq_some.mpr hread), ?_⟩
    rw [← h.1, ← h.2]
    rfl
  | blob =>
    obtain ⟨size, hsize, h⟩ := bind_eq_ok.mp h
    obtain ⟨x, hx, h⟩ := bind_eq_ok.mp h
    simp only [pure, Except.pure, Except.ok.injEq, Prod.mk.injEq] at h
    have hread := unpackC_append more (pcall_eq_some.mp (check_eq_ok.mp hx))
    refine bind_eq_ok.mpr ⟨(size.1, size.2 ++ more), check_eq_ok.mpr (varintDecode_append more (check_eq_ok.mp hsize)), ?_⟩
    refine bind_eq_ok.mpr ⟨(x.1, x.2 ++ more), check_eq_ok.mpr (pcall_eq_some.mpr hread), ?_⟩
    rw [← h.1, ← h.2]
    rfl

theorem column_append {r r' : LuaReader} {default v : Option LuaValue} {code : Byte} (h : r.column bits nullables default code = .ok (v, r')) :
    (extend r more).column (bits ++ bits') nullables default code = .ok (v, extend r' more) := by
  rw [LuaReader.column] at h ⊢
  split at h
  · simp only [Except.ok.injEq, Prod.mk.injEq] at h
    rw [h.1, h.2]
  · obtain ⟨x, hx, h⟩ := bind_eq_ok.mp h
    simp only [pure, Except.pure, Except.ok.injEq, Prod.mk.injEq] at h
    refine bind_eq_ok.mpr ⟨_, value_append _ hx, ?_⟩
    rw [← h.1, ← h.2]
    rfl
  · rename_i t hcode
    obtain ⟨bit, hbit, h⟩ := bind_eq_ok.mp h
    obtain ⟨x, hx, h⟩ := bind_eq_ok.mp h
    simp only [pure, Except.pure, Except.ok.injEq, Prod.mk.injEq] at h
    refine bind_eq_ok.mpr ⟨bit, check_eq_ok.mpr (getBit_append bits' (check_eq_ok.mp hbit)), ?_⟩
    have hoptional : ∃ r₁, (extend r more).optional (bits ++ bits') nullables default t bit = .ok (x.1, r₁) ∧ r₁ = extend x.2 more := by
      cases bit with
      | false =>
        obtain rfl := Except.ok.inj hx
        exact ⟨_, rfl, rfl⟩
      | true =>
        obtain ⟨y, hy, hx⟩ := bind_eq_ok.mp hx
        obtain rfl := Except.ok.inj hx
        exact ⟨_, bind_eq_ok.mpr ⟨_, value_append _ hy, rfl⟩, rfl⟩
    obtain ⟨r₁, hoptional, rfl⟩ := hoptional
    refine bind_eq_ok.mpr ⟨_, hoptional, ?_⟩
    rw [← h.1, ← h.2]
    rfl

theorem columns_append (types : List Byte) : ∀ {r : LuaReader} {cols : List Column} {row : List (Option LuaValue)},
    LuaReader.columns bits nullables r cols types = .ok row →
      LuaReader.columns (bits ++ bits') nullables (extend r more) cols types = .ok row := by
  induction types with
  | nil =>
    intro r cols row h
    cases cols <;> exact h
  | cons code types ih =>
    intro r cols row h
    cases cols with
    | nil => exact h
    | cons c cols =>
      obtain ⟨x, hx, h⟩ := bind_eq_ok.mp h
      obtain ⟨values, hvalues, h⟩ := bind_eq_ok.mp h
      exact bind_eq_ok.mpr ⟨_, column_append hx, bind_eq_ok.mpr ⟨values, ih hvalues, h⟩⟩

/-- A blob that is decoded is decoded with more bytes, too, to the same row. -/
theorem cursorFromBlob_append {needed : Shape} {blob : List Byte} {row : List (Option LuaValue)} (more : List Byte)
    (h : cursorFromBlob needed blob = .ok row) : cursorFromBlob needed (blob ++ more) = .ok row := by
  obtain ⟨x, hx, h⟩ := bind_eq_ok.mp h
  obtain ⟨_, htypes, h⟩ := bind_eq_ok.mp h
  have hread := unpackZ_append more (pcall_eq_some.mp (check_eq_ok.mp hx))
  refine bind_eq_ok.mpr ⟨(x.1, x.2 ++ more), check_eq_ok.mpr (pcall_eq_some.mpr hread), bind_eq_ok.mpr ⟨(), htypes, ?_⟩⟩
  dsimp only at h ⊢
  rw [List.take_append, List.drop_append]
  exact columns_append x.1 h

/-! ### Reading offsets -/

theorem unpackI4_eq {offset : Nat} (h : offset + 4 ≤ b.length) : unpackI4 b offset = .ok (intOfBytes ((b.drop offset).take 4)) :=
  if_pos h

theorem unpackI4_raised {offset : Nat} : unpackI4 b offset = .error .raised ↔ b.length < offset + 4 := by
  rw [unpackI4]
  split
  · next h => exact iff_of_false nofun (Nat.not_lt.mpr h)
  · next h => exact iff_of_true rfl (Nat.lt_of_not_le h)

/-- An error is raised exactly where the entry of the blob is cut. -/
theorem blobAt_raised_iff (b : List Byte) (index : Int) : blobAt b index = .error .raised ↔ OffsetCut b index := by
  rw [blobAt]
  by_cases hshort : b.length < 4
  · rw [if_pos hshort]
    refine iff_of_false (by simp) fun hcut => ?_
    have := hcut.header
    omega
  have hhead : 0 + 4 ≤ b.length := by omega
  have hcount := unpackI4_eq hhead
  rw [if_neg hshort, hcount, List.drop_zero]
  simp only [bind, Except.bind]
  by_cases hcheck : index < 0 ∨ index ≥ intOfBytes (b.take 4) ∨ (index + 1) * 4 ≥ b.length
  · rw [if_pos hcheck]
    refine iff_of_false (by simp) fun hcut => ?_
    have hcounted := hcut.counted
    have hstarts := hcut.starts
    omega
  rw [if_neg hcheck]
  have hnat : (((index + 1) * 4).toNat : Int) = (index + 1) * 4 := Int.toNat_of_nonneg (by omega)
  by_cases hlen : ((index + 1) * 4).toNat + 4 ≤ b.length
  · rw [unpackI4_eq hlen]
    simp only
    refine iff_of_false ?_ fun hcut => ?_
    · split
      · simp
      · by_cases hpos : index > 0
        · have hnat' : ((index * 4).toNat : Int) = index * 4 := Int.toNat_of_nonneg (by omega)
          rw [if_pos hpos, unpackI4_eq (by omega)]
          simp only
          split <;> simp [pure, Except.pure]
        · rw [if_neg hpos]
          simp only [pure, Except.pure]
          split <;> simp
    · have := hcut.cut
      omega
  · rw [unpackI4_raised.mpr (by omega)]
    refine iff_of_true rfl ⟨by omega, by omega, by omega, by omega⟩

/-! ### Streams that were made -/

/-- The offsets where the blobs end. -/
def offsetsOf : Int → List (List Byte) → List Int
  | _, [] => []
  | offset, blob :: blobs => (offset + blob.length) :: offsetsOf (offset + blob.length) blobs

/-- The four bytes of a number. -/
def wordOf (n : Int) : List Byte := littleEndian 4 (BitVec.ofInt 64 n)

/-- The numbers in front of the blobs. -/
def wordsOf (blobs : List (List Byte)) : List Int := blobs.length :: offsetsOf ((1 + blobs.length) * 4) blobs

theorem length_wordOf (n : Int) : (wordOf n).length = 4 := SerialAux.littleEndian_length 4 _

theorem intOfBytes_wordOf {n : Int} (h : 0 ≤ n) (h' : n < 2 ^ 31) : intOfBytes (wordOf n) = n := by
  obtain ⟨k, rfl⟩ := Int.eq_ofNat_of_zero_le h
  have hk : k < 2 ^ 31 := by omega
  have hword : (BitVec.ofInt 64 (k : Int)).toNat = k := by
    rw [BitVec.ofInt_natCast, BitVec.toNat_ofNat]
    omega
  rw [intOfBytes, wordOf, SerialAux.ofLittleEndian_littleEndian 4 _ (by rw [hword]; omega), BitVec.toInt_eq_toNat_cond,
    BitVec.toNat_setWidth, hword]
  split <;> omega

theorem packI4_eq_ok {n : Int} {word : List Byte} (h : packI4 n = .ok word) : n < 2 ^ 31 ∧ word = wordOf n := by
  rw [packI4] at h
  split at h
  · next hrange => exact ⟨hrange.2, (Except.ok.inj h).symm⟩
  · simp at h

theorem packOffsets_eq_ok : ∀ {offset : Int} {words : List Byte}, packOffsets offset blobs = .ok words →
    (∀ n ∈ offsetsOf offset blobs, n < 2 ^ 31) ∧ words = (offsetsOf offset blobs).flatMap wordOf := by
  induction blobs with
  | nil =>
    intro offset words h
    obtain rfl := Except.ok.inj h
    exact ⟨by simp [offsetsOf], rfl⟩
  | cons blob blobs ih =>
    intro offset words h
    obtain ⟨word, hword, h⟩ := bind_eq_ok.mp h
    obtain ⟨rest, hrest, h⟩ := bind_eq_ok.mp h
    obtain rfl := Except.ok.inj h
    obtain ⟨hlt, rfl⟩ := packI4_eq_ok hword
    obtain ⟨hall, rfl⟩ := ih hrest
    refine ⟨?_, rfl⟩
    intro n hn
    rcases List.mem_cons.mp hn with rfl | hn
    · exact hlt
    · exact hall n hn

theorem offsetsOf_nonneg : ∀ {offset : Int}, 0 ≤ offset → ∀ n ∈ offsetsOf offset blobs, 0 ≤ n := by
  induction blobs with
  | nil =>
    intro offset _ n hn
    simp [offsetsOf] at hn
  | cons blob blobs ih =>
    intro offset hoffset n hn
    rcases List.mem_cons.mp hn with rfl | hn
    · omega
    · exact ih (by omega) n hn

theorem offsetsOf_get : ∀ {offset : Int} {i : Nat}, i < blobs.length →
    (offsetsOf offset blobs)[i]? = some (offset + (blobs.take (i + 1)).flatten.length) := by
  induction blobs with
  | nil =>
    intro offset i hi
    simp at hi
  | cons blob blobs ih =>
    intro offset i hi
    rw [offsetsOf]
    cases i with
    | zero => simp
    | succ i =>
      rw [List.getElem?_cons_succ, ih (by simpa using hi), List.take_succ_cons, List.flatten_cons, List.length_append]
      simp only [Int.natCast_add, Int.add_assoc]

theorem length_offsetsOf (blobs : List (List Byte)) : ∀ offset : Int, (offsetsOf offset blobs).length = blobs.length := by
  induction blobs with
  | nil =>
    intro offset
    rfl
  | cons blob blobs ih =>
    intro offset
    rw [offsetsOf, List.length_cons, List.length_cons, ih]

theorem length_flatMap_wordOf (ws : List Int) : (ws.flatMap wordOf).length = 4 * ws.length := by
  induction ws with
  | nil => rfl
  | cons n ws ih =>
    rw [List.flatMap_cons, List.length_append, length_wordOf, ih, List.length_cons]
    omega

/-- A stream that is made. -/
theorem make_eq_ok (h : cqlMakeBlobStream blobs = .ok b) :
    (∀ n ∈ wordsOf blobs, 0 ≤ n ∧ n < 2 ^ 31) ∧ b = (wordsOf blobs).flatMap wordOf ++ blobs.flatten := by
  obtain ⟨count, hcount, h⟩ := bind_eq_ok.mp h
  obtain ⟨offsets, hoffsets, h⟩ := bind_eq_ok.mp h
  obtain rfl := Except.ok.inj h
  obtain ⟨hlt, rfl⟩ := packI4_eq_ok hcount
  obtain ⟨hall, rfl⟩ := packOffsets_eq_ok hoffsets
  refine ⟨?_, rfl⟩
  intro n hn
  rcases List.mem_cons.mp hn with rfl | hn
  · exact ⟨by omega, hlt⟩
  · exact ⟨offsetsOf_nonneg (by omega) n hn, hall n hn⟩

/-- The numbers are read at their places. -/
theorem unpackI4_words {ws : List Int} (rest : List Byte) (h : ∀ n ∈ ws, 0 ≤ n ∧ n < 2 ^ 31) : ∀ {k : Nat} {n : Int}, ws[k]? = some n →
    unpackI4 (ws.flatMap wordOf ++ rest) (4 * k) = .ok n := by
  induction ws with
  | nil =>
    intro k n hn
    simp at hn
  | cons w ws ih =>
    intro k n hn
    have hlen := length_wordOf w
    rw [List.flatMap_cons, List.append_assoc]
    cases k with
    | zero =>
      obtain rfl : w = n := by simpa using hn
      obtain ⟨hpos, hlt⟩ := h w (by simp)
      rw [unpackI4_eq (by rw [List.length_append, hlen]; omega), Nat.mul_zero, List.drop_zero, ← hlen, List.take_left, intOfBytes_wordOf hpos hlt]
    | succ k =>
      have hread := ih (fun n hn => h n (by simp [hn])) (by simpa using hn : ws[k]? = some n)
      have hle : 4 * k + 4 ≤ (ws.flatMap wordOf ++ rest).length := by
        by_contra hshort
        rw [unpackI4_raised.mpr (by omega)] at hread
        simp at hread
      have hdrop : (wordOf w ++ (ws.flatMap wordOf ++ rest)).drop (4 * (k + 1)) = (ws.flatMap wordOf ++ rest).drop (4 * k) := by
        rw [show 4 * (k + 1) = (wordOf w).length + 4 * k by omega, List.drop_append]
        simp
      rw [unpackI4_eq hle] at hread
      rw [unpackI4_eq (by rw [List.length_append]; omega), hdrop]
      exact hread

/-- A part of a string, up to one byte behind its end. -/
theorem stringSub_eq (s : List Byte) (start stop : Nat) : stringSub s (start + 1) (stop + 1) = (s.take (stop + 1)).drop start := by
  have hfirst : (0 : Int) < start + 1 := by omega
  simp only [stringSub, if_pos hfirst]
  have hstart : ((start : Int) + 1).toNat - 1 = start := by omega
  rw [hstart]
  split
  · next hlen =>
    rw [Int.toNat_natCast, List.take_length, List.take_of_length_le (by omega)]
  · have hnonneg : (0 : Int) ≤ stop + 1 := by omega
    have hstop : ((stop : Int) + 1).toNat = stop + 1 := by omega
    rw [if_pos hnonneg, hstop]

/-- What is handed on for a blob of a stream: the blob, and the first byte behind it. -/
theorem blobAt_make (h : cqlMakeBlobStream blobs = .ok b) {i : Nat} {blob : List Byte}
    (hi : blobs[i]? = some blob) : blobAt b i = .ok (blob ++ (blobs.drop (i + 1)).flatten.take 1) := by
  obtain ⟨hrange, rfl⟩ := make_eq_ok h
  obtain ⟨hlt, hget⟩ := List.getElem?_eq_some_iff.mp hi
  have hwords : (wordsOf blobs).length = blobs.length + 1 := by rw [wordsOf, List.length_cons, length_offsetsOf]
  have hsplit : blobs.flatten = (blobs.take i).flatten ++ (blob ++ (blobs.drop (i + 1)).flatten) := by
    rw [← List.flatten_cons, ← hget, List.getElem_cons_drop, ← List.flatten_append, List.take_append_drop]
  have htake : (blobs.take (i + 1)).flatten.length = (blobs.take i).flatten.length + blob.length := by
    rw [List.take_add_one, hi]
    simp
  have hlen : ((wordsOf blobs).flatMap wordOf ++ blobs.flatten).length = 4 * (blobs.length + 1) + blobs.flatten.length := by
    rw [List.length_append, length_flatMap_wordOf, hwords]
  have hflat : blobs.flatten.length = (blobs.take i).flatten.length + (blob.length + (blobs.drop (i + 1)).flatten.length) := by
    rw [hsplit, List.length_append, List.length_append]
  have hcount : unpackI4 ((wordsOf blobs).flatMap wordOf ++ blobs.flatten) 0 = .ok (blobs.length : Int) :=
    unpackI4_words blobs.flatten hrange (k := 0) (by simp [wordsOf])
  have hword : ∀ k, k < blobs.length → (wordsOf blobs)[k + 1]? =
      some (((4 * (blobs.length + 1) + (blobs.take (k + 1)).flatten.length : Nat) : Int)) := by
    intro k hk
    have hsum : (1 + (blobs.length : Int)) * 4 + (blobs.take (k + 1)).flatten.length =
        ((4 * (blobs.length + 1) + (blobs.take (k + 1)).flatten.length : Nat) : Int) := by omega
    rw [wordsOf, List.getElem?_cons_succ, offsetsOf_get hk, hsum]
  have hstop := unpackI4_words blobs.flatten hrange (hword i hlt)
  have hstart : (if (i : Int) > 0 then unpackI4 ((wordsOf blobs).flatMap wordOf ++ blobs.flatten) ((i : Int) * 4).toNat
      else pure (((blobs.length : Int) + 1) * 4)) = .ok ((4 * (blobs.length + 1) + (blobs.take i).flatten.length : Nat) : Int) := by
    cases i with
    | zero =>
      rw [if_neg (by omega)]
      simp only [pure, Except.pure, List.take_zero, List.flatten_nil, List.length_nil, Except.ok.injEq]
      omega
    | succ k =>
      rw [if_pos (by omega), show (((k + 1 : Nat) : Int) * 4).toNat = 4 * (k + 1) by omega]
      exact unpackI4_words blobs.flatten hrange (hword k (by omega))
  generalize hb : (wordsOf blobs).flatMap wordOf ++ blobs.flatten = b at *
  have hshort : ¬b.length < 4 := by omega
  have hcheck : ¬((i : Int) < 0 ∨ (i : Int) ≥ (blobs.length : Int) ∨ ((i : Int) + 1) * 4 ≥ b.length) := by omega
  have hend : ¬((4 * (blobs.length + 1) + (blobs.take (i + 1)).flatten.length : Nat) : Int) > b.length := by omega
  have horder : ¬((4 * (blobs.length + 1) + (blobs.take i).flatten.length : Nat) : Int) >
      ((4 * (blobs.length + 1) + (blobs.take (i + 1)).flatten.length : Nat) : Int) := by omega
  rw [blobAt, if_neg hshort, hcount]
  simp only [bind, Except.bind]
  rw [if_neg hcheck, show (((i : Int) + 1) * 4).toNat = 4 * (i + 1) by omega, hstop]
  simp only
  rw [if_neg hend, hstart]
  simp only
  rw [if_neg horder, stringSub_eq]
  have hfront : ((wordsOf blobs).flatMap wordOf ++ (blobs.take i).flatten).length = 4 * (blobs.length + 1) + (blobs.take i).flatten.length := by
    rw [List.length_append, length_flatMap_wordOf, hwords]
  have hbytes : b = ((wordsOf blobs).flatMap wordOf ++ (blobs.take i).flatten) ++ (blob ++ (blobs.drop (i + 1)).flatten) := by
    rw [← hb, List.append_assoc, ← hsplit]
  have hslice : (b.take (4 * (blobs.length + 1) + (blobs.take (i + 1)).flatten.length + 1)).drop
      (4 * (blobs.length + 1) + (blobs.take i).flatten.length) = blob ++ (blobs.drop (i + 1)).flatten.take 1 := by
    rw [hbytes, ← hfront, List.drop_take, List.drop_left, htake, show 4 * (blobs.length + 1) + ((blobs.take i).flatten.length + blob.length) + 1 -
        ((wordsOf blobs).flatMap wordOf ++ (blobs.take i).flatten).length = blob.length + 1 by omega, List.take_append]
    simp
  rw [hslice]
  rfl

/-- All that is behind a blob is empty where there is no byte behind it. -/
theorem flatten_take_one (blobs : List (List Byte)) : blobs.flatten.take 1 = [] ↔ ∀ later ∈ blobs, later = [] := by
  rw [List.take_eq_nil_iff, List.flatten_eq_nil_iff]
  simp

end StreamAux

open StreamAux in
/-- No error is raised exactly where the entry of the blob is not cut by the end of the bytes. In a stream that was made, exactly a blob with
nothing but empty blobs behind it is handed on as it is. A blob that can be decoded is decoded from the stream, to the same row; and only such a
blob is, except where the first byte behind the blob completes it. -/
theorem luaStream_iff (b : List Byte) :
    (∀ index : Int, (∀ needed, cursorFromBlobStream needed b index ≠ .error .raised) ↔ ¬OffsetCut b index) ∧
      ∀ blobs : List (List Byte), cqlMakeBlobStream blobs = .ok b → ∀ (i : Nat) (blob : List Byte), blobs[i]? = some blob →
        (blobAt b i = .ok blob ↔ ∀ later ∈ blobs.drop (i + 1), later = []) ∧
        ∀ needed, (∀ row, cursorFromBlob needed blob = .ok row → cursorFromBlobStream needed b i = .ok row) ∧
          (((∃ row, cursorFromBlobStream needed b i = .ok row) ↔ Decodes needed blob) ↔ ¬Completed needed blobs i) := by
  constructor
  · intro index
    rw [← blobAt_raised_iff]
    constructor
    · intro h hraised
      apply h ⟨[], by decide, by decide⟩
      rw [cursorFromBlobStream, hraised]
      rfl
    · intro h needed
      exact bind_ne_raised h fun blob => cursorFromBlob_ne_raised needed blob
  · intro blobs hmake i blob hi
    have hblob := blobAt_make hmake hi
    have hstream : ∀ needed, cursorFromBlobStream needed b i = cursorFromBlob needed (blob ++ (blobs.drop (i + 1)).flatten.take 1) := by
      intro needed
      rw [cursorFromBlobStream, hblob]
      rfl
    refine ⟨?_, ?_⟩
    · rw [hblob, ← flatten_take_one, Except.ok.injEq, List.append_right_eq_self]
    · intro needed
      refine ⟨fun row hrow => (hstream needed).trans (cursorFromBlob_append _ hrow), ?_⟩
      rw [hstream]
      constructor
      · rintro hiff ⟨blob', next, hi', hnext, hnot, hdecodes⟩
        obtain rfl := Option.some.inj (hi.symm.trans hi')
        obtain ⟨rest, hrest⟩ : ∃ rest, (blobs.drop (i + 1)).flatten = next :: rest := by
          cases hflat : (blobs.drop (i + 1)).flatten with
          | nil => simp [hflat] at hnext
          | cons a rest =>
            rw [hflat] at hnext
            exact ⟨rest, by rw [Option.some.inj hnext]⟩
        rw [hrest] at hiff
        exact hnot (hiff.mp hdecodes)
      · intro hnot
        constructor
        · intro hdecodes
          by_contra hno
          cases hflat : (blobs.drop (i + 1)).flatten with
          | nil =>
            rw [hflat, List.take_nil, List.append_nil] at hdecodes
            exact hno hdecodes
          | cons next rest =>
            rw [hflat] at hdecodes
            exact hnot ⟨blob, next, hi, by rw [hflat]; rfl, hno, hdecodes⟩
        · rintro ⟨row, hrow⟩
          exact ⟨row, cursorFromBlob_append _ hrow⟩

/-- One text column, NOT NULL. -/
def textShape : Shape := ⟨[⟨.string, true⟩], by decide, by decide⟩

/-- Both parts, for a stream of two blobs. -/
theorem luaStream_iff_two : (∀ needed, cursorFromBlobStream needed [1, 0, 0, 0] 0 ≠ .error .raised) ∧
    ∃ b, cqlMakeBlobStream [[83, 0, 97, 0], []] = .ok b ∧ blobAt b 0 = .ok [83, 0, 97, 0] := by
  refine ⟨((luaStream_iff [1, 0, 0, 0]).1 0).mpr ?_, _, rfl, ?_⟩
  · intro hcut
    exact absurd hcut.starts (by decide)
  · exact ((luaStream_iff _).2 [[83, 0, 97, 0], []] rfl 0 [83, 0, 97, 0] rfl).1.mpr (by simp)

/-- A count and one byte: the entry of the first blob is read, and an error is raised. And a text without its NUL is decoded with the first
byte of the next blob. -/
theorem blobStream_false : (∀ needed, cursorFromBlobStream needed [1, 0, 0, 0, 9] 0 = .error .raised) ∧
    ∃ b, cqlMakeBlobStream [[83, 0, 97], [0]] = .ok b ∧ cursorFromBlobStream textShape b 0 = .ok [some (.string [97])] ∧
      cursorFromBlob textShape [83, 0, 97] = .error (.code (-13)) :=
  ⟨fun _ => rfl, _, rfl, rfl, rfl⟩

end CgSql.LuaStream
