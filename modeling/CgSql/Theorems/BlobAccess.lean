import CgSql.Lemmas.Blobs

/-!
# Access to blobs

The four accessors on blobs of any kind. Behind the contract on the size that a header asks for, every read is within the blob: the
offsets of the columns because of the first check, and those of strings and blobs because of the validation.
-/

namespace CgSql.Blobs

/-! ## Answers -/

/-- A value, which is null only under a condition, or the error for invalid blobs and arguments. -/
def Answers (nullable : Prop) (x : Udf SqlValue) : Prop := (∃ v, x = .ok v ∧ (v = .null → nullable)) ∨ x = .error .invalid

/-- The size that a header asks for is one that the contract on key blobs lets pass. -/
def KeySized (h : Header) : Prop := 16 + 9 * h.columnCount.toNat < 2 ^ 32

/-- The same for value blobs. -/
def ValSized (h : Header) : Prop := 16 + 17 * h.columnCount.toNat < 2 ^ 31

instance (h : Header) : Decidable (KeySized h) := inferInstanceAs (Decidable (_ < _))

instance (h : Header) : Decidable (ValSized h) := inferInstanceAs (Decidable (_ < _))

/-- No column has the field id. -/
def Absent (b : List Byte) (h : Header) (fieldId : BitVec 64) : Prop :=
  ∀ icol < h.columnCount.toNat, loadU64 b (16 + icol * 8) ≠ .ok fieldId

namespace BlobAux

variable {b : List Byte} {shape : BlobShape} {h : Header} {nullable : Prop}

/-! ## Validation -/

/-- The columns of a shape are within the blob. -/
structure Roomy (b : List Byte) (shape : BlobShape) (n : Nat) : Prop where
  storage : 0 ≤ shape.storageOffset ∧ shape.storageOffset + n * 8 ≤ b.length
  typeCodes : 0 ≤ shape.typeCodesOffset ∧ shape.typeCodesOffset + n ≤ b.length

/-- The validation of a column ends. -/
theorem validateField_eq {n icol : Nat} (hr : Roomy b shape n) (hi : icol < n) : ∃ valid, validateField b shape icol = .ok valid := by
  obtain ⟨⟨hs0, hs⟩, ht0, ht⟩ := hr
  obtain ⟨code, hcode⟩ := loadByte_eq (b := b) (shape.typeCodesOffset + icol) (by omega) (by omega)
  obtain ⟨val, hval⟩ := loadU64_eq (b := b) (shape.storageOffset + icol * 8) (by omega) (by omega)
  unfold validateField
  rw [hcode]
  simp only [ok_bind]
  split
  · rw [hval]
    simp only [ok_bind]
    split
    · exact ⟨_, rfl⟩
    · obtain ⟨last, hlast⟩ := loadByte_eq (b := b) (infoOffset val + infoLen val) (by omega) (by omega)
      rw [hlast]
      exact ⟨_, rfl⟩
  · rw [hval]
    exact ⟨_, rfl⟩
  · exact ⟨_, rfl⟩
  · exact ⟨_, rfl⟩

/-- Tests that all end, end together. -/
theorem allM_eq {α : Type} {p : α → Udf Bool} {l : List α} (h : ∀ a ∈ l, ∃ x, p a = .ok x) : ∃ x, l.allM p = .ok x := by
  induction l with
  | nil => exact ⟨true, rfl⟩
  | cons a l ih =>
    obtain ⟨x, hx⟩ := h a List.mem_cons_self
    rw [List.allM, hx]
    rcases x with _ | _
    · exact ⟨false, rfl⟩
    · exact ih fun a ha => h a (List.mem_cons_of_mem _ ha)

/-- A blob is opened, or refused, if its shape is within the contract. -/
theorem openBlob_eq {compute : Int → Int → Udf BlobShape} (hshape : compute h.columnCount.toNat 0 = .ok shape)
    (hr : shape.variableOffset ≤ b.length → Roomy b shape h.columnCount.toNat) :
    (openBlob compute b h = .ok shape ∧ Roomy b shape h.columnCount.toNat) ∨ openBlob compute b h = .error .invalid := by
  unfold openBlob
  rw [hshape]
  simp only [ok_bind]
  by_cases hv : shape.variableOffset > b.length
  · exact Or.inr (if_pos hv)
  · rw [if_neg hv]
    have hroomy := hr (by omega)
    obtain ⟨valid, hvalid⟩ := allM_eq (p := validateField b shape) (l := List.range h.columnCount.toNat)
      fun icol hi => validateField_eq hroomy (List.mem_range.1 hi)
    rw [validateBlobVariableFields, hvalid]
    rcases valid with _ | _
    · exact Or.inr rfl
    · exact Or.inl ⟨rfl, hroomy⟩

/-! ## Shapes -/

theorem computeKeyBlobShape_eq (h : Header) : computeKeyBlobShape h.columnCount.toNat 0 =
      if KeySized h then .ok (keyShape h.columnCount.toNat 0) else .error .contract := by
  rw [computeKey_eq]
  by_cases hc : KeySized h
  · rw [if_pos hc]
    unfold KeySized at hc
    rw [if_pos (by simp only [keyShape]; omega)]
  · rw [if_neg hc]
    unfold KeySized at hc
    rw [if_neg (by simp only [keyShape]; omega)]

theorem computeValBlobShape_eq (h : Header) : computeValBlobShape h.columnCount.toNat 0 =
      if ValSized h then .ok (valShape h.columnCount.toNat 0) else .error .contract := by
  rw [computeVal_eq]
  by_cases hc : ValSized h
  · rw [if_pos hc]
    unfold ValSized at hc
    rw [if_pos (by simp only [valShape]; omega)]
  · rw [if_neg hc]
    unfold ValSized at hc
    rw [if_neg (by simp only [valShape]; omega)]

/-- A key blob is opened, or refused, exactly if the contract on its size holds. -/
theorem openKey (hs : KeySized h) : (openBlob computeKeyBlobShape b h = .ok (keyShape h.columnCount.toNat 0) ∧
      Roomy b (keyShape h.columnCount.toNat 0) h.columnCount.toNat) ∨ openBlob computeKeyBlobShape b h = .error .invalid := by
  refine openBlob_eq ?_ fun hv => ?_
  · rw [computeKeyBlobShape_eq, if_pos hs]
  · simp only [keyShape] at hv ⊢
    exact ⟨⟨by simp only; omega, by simp only; omega⟩, by simp only; omega, by simp only; omega⟩

theorem openKey_contract (hs : ¬KeySized h) : openBlob computeKeyBlobShape b h = .error .contract := by
  rw [openBlob, computeKeyBlobShape_eq, if_neg hs]
  rfl

/-- The same of value blobs, whose field ids are within the blob too. -/
theorem openVal (hs : ValSized h) : (openBlob computeValBlobShape b h = .ok (valShape h.columnCount.toNat 0) ∧
      Roomy b (valShape h.columnCount.toNat 0) h.columnCount.toNat) ∨ openBlob computeValBlobShape b h = .error .invalid := by
  refine openBlob_eq ?_ fun hv => ?_
  · rw [computeValBlobShape_eq, if_pos hs]
  · simp only [valShape] at hv ⊢
    exact ⟨⟨by simp only; omega, by simp only; omega⟩, by simp only; omega, by simp only; omega⟩

theorem openVal_contract (hs : ¬ValSized h) : openBlob computeValBlobShape b h = .error .contract := by
  rw [openBlob, computeValBlobShape_eq, if_neg hs]
  rfl

/-! ## Reads -/

theorem answers_invalid : Answers nullable (.error .invalid) := Or.inr rfl

theorem not_answers_contract : ¬Answers nullable (.error .contract) := by
  intro h
  rcases h with ⟨v, h, _⟩ | h
  · nomatch h
  · nomatch h

theorem answers_ok {v : SqlValue} (h : v ≠ .null) : Answers nullable (.ok v) :=
  Or.inl ⟨v, rfl, fun hv => absurd hv h⟩

/-- A column is read from within the blob. -/
theorem readField_answers (code : Byte) {storageOffset : Int} (h0 : 0 ≤ storageOffset)
    (h : storageOffset + 8 ≤ b.length) : Answers nullable (readField b code storageOffset) := by
  obtain ⟨val, hval⟩ := loadU64_eq _ h0 h
  obtain ⟨word, hword, _⟩ := load_eq _ 8 h0 h
  unfold readField
  rw [hval, hword]
  simp only [ok_bind]
  split
  · exact answers_ok nofun
  · exact answers_ok nofun
  · exact answers_ok nofun
  · exact answers_ok nofun
  · split
    · exact answers_invalid
    · obtain ⟨text, htext, _⟩ := load_eq (b := b) (infoOffset val) (infoLen val) (by omega) (by omega)
      rw [htext]
      exact answers_ok nofun
  · split
    · exact answers_invalid
    · obtain ⟨data, hdata, _⟩ := load_eq (b := b) (infoOffset val) (infoLen val) (by omega) (by omega)
      rw [hdata]
      exact answers_ok nofun
  · exact answers_invalid

/-- The search for a field ends with a column that has it, or with none if none has it. -/
theorem findField_eq (fieldId : BitVec 64) {icols : List Nat} (h : ∀ icol ∈ icols, ∃ v, loadU64 b (shape.fieldIdsOffset + icol * 8) = .ok v) :
    (∃ icol ∈ icols, findField b shape fieldId icols = .ok (some icol)) ∨ (findField b shape fieldId icols = .ok none ∧
        ∀ icol ∈ icols, loadU64 b (shape.fieldIdsOffset + icol * 8) ≠ .ok fieldId) := by
  induction icols with
  | nil => exact Or.inr ⟨rfl, nofun⟩
  | cons icol icols ih =>
    obtain ⟨v, hv⟩ := h icol List.mem_cons_self
    rw [findField, hv]
    simp only [ok_bind]
    by_cases heq : v = fieldId
    · rw [if_pos heq]
      exact Or.inl ⟨icol, List.mem_cons_self, rfl⟩
    · rw [if_neg heq]
      rcases ih fun icol hi => h icol (List.mem_cons_of_mem _ hi) with ⟨j, hj, hfind⟩ | ⟨hfind, hnone⟩
      · exact Or.inl ⟨j, List.mem_cons_of_mem _ hj, hfind⟩
      · refine Or.inr ⟨hfind, fun j hj => ?_⟩
        rcases List.mem_cons.1 hj with rfl | hj
        · rw [hv]
          exact fun he => heq (Except.ok.inj he)
        · exact hnone j hj

/-! ## The accessors -/

theorem bgetkey_iff (hh : readBlobHeader b = .ok h) (icol : BitVec 64) :
    Answers False (bgetkey [.blob b, .integer icol]) ↔ (h.magic = magic → icol.toNat < h.columnCount.toNat → KeySized h) := by
  simp only [bgetkey, hh, ok_bind]
  by_cases hbad : icol.toNat ≥ h.columnCount.toNat ∨ h.magic ≠ magic
  · rw [if_pos hbad]
    refine ⟨fun _ hm hi => ?_, fun _ => answers_invalid⟩
    rcases hbad with hbad | hbad
    · omega
    · exact absurd hm hbad
  · rw [if_neg hbad]
    have hi : icol.toNat < h.columnCount.toNat := by omega
    have hm : h.magic = magic := by
      by_contra hne
      exact hbad (Or.inr hne)
    by_cases hs : KeySized h
    · refine ⟨fun _ _ _ => hs, fun _ => ?_⟩
      rcases openKey (b := b) hs with ⟨hopen, hroomy⟩ | hopen
      · obtain ⟨⟨hs0, hs⟩, ht0, ht⟩ := hroomy
        obtain ⟨code, hcode⟩ := loadByte_eq (b := b) ((keyShape h.columnCount.toNat 0).typeCodesOffset + icol.toNat) (by omega) (by omega)
        simp only [hopen, ok_bind, hcode]
        exact readField_answers code (by omega) (by omega)
      · rw [hopen]
        exact answers_invalid
    · rw [openKey_contract hs]
      exact ⟨fun h => absurd h not_answers_contract, fun h => absurd (h hm hi) hs⟩

theorem bgetval_iff (hh : readBlobHeader b = .ok h) (fieldId : BitVec 64) :
    Answers (Absent b h fieldId) (bgetval [.blob b, .integer fieldId]) ↔ (h.magic = magic → ValSized h) := by
  simp only [bgetval, hh, ok_bind]
  by_cases hm : h.magic = magic
  · rw [if_neg (by simpa using hm)]
    by_cases hs : ValSized h
    · refine ⟨fun _ _ => hs, fun _ => ?_⟩
      rcases openVal (b := b) hs with ⟨hopen, hroomy⟩ | hopen
      · obtain ⟨⟨hs0, hs⟩, ht0, ht⟩ := hroomy
        simp only [hopen, ok_bind]
        have hids : ∀ icol ∈ List.range h.columnCount.toNat, ∃ v,
            loadU64 b ((valShape h.columnCount.toNat 0).fieldIdsOffset + icol * 8) = .ok v := by
          intro icol hi
          have hlt := List.mem_range.1 hi
          simp only [valShape] at hs ⊢
          exact loadU64_eq _ (by omega) (by omega)
        rcases findField_eq fieldId hids with ⟨icol, hi, hfind⟩ | ⟨hfind, hnone⟩
        · have hlt := List.mem_range.1 hi
          obtain ⟨code, hcode⟩ := loadByte_eq (b := b) ((valShape h.columnCount.toNat 0).typeCodesOffset + icol) (by omega) (by omega)
          simp only [hfind, ok_bind, hcode]
          exact readField_answers code (by omega) (by omega)
        · simp only [hfind, ok_bind]
          exact Or.inl ⟨.null, rfl, fun _ icol hi => hnone icol (List.mem_range.2 hi)⟩
      · rw [hopen]
        exact answers_invalid
    · rw [openVal_contract hs]
      exact ⟨fun h => absurd h not_answers_contract, fun h => absurd (h hm) hs⟩
  · rw [if_pos hm]
    exact ⟨fun _ h => absurd h hm, fun _ => answers_invalid⟩

theorem bgetkeyType_iff (hh : readBlobHeader b = .ok h) : Answers False (bgetkeyType [.blob b]) ↔ (h.magic = magic → KeySized h) := by
  simp only [bgetkeyType, hh, ok_bind]
  by_cases hm : h.magic = magic
  · rw [if_neg (by simpa using hm)]
    by_cases hs : KeySized h
    · refine ⟨fun _ _ => hs, fun _ => ?_⟩
      rcases openKey (b := b) hs with ⟨hopen, _⟩ | hopen
      · rw [hopen]
        exact answers_ok nofun
      · rw [hopen]
        exact answers_invalid
    · rw [openKey_contract hs]
      exact ⟨fun h => absurd h not_answers_contract, fun h => absurd (h hm) hs⟩
  · rw [if_pos hm]
    exact ⟨fun _ h => absurd h hm, fun _ => answers_invalid⟩

theorem bgetvalType_iff (hh : readBlobHeader b = .ok h) : Answers False (bgetvalType [.blob b]) ↔ (h.magic = magic → ValSized h) := by
  simp only [bgetvalType, hh, ok_bind]
  by_cases hm : h.magic = magic
  · rw [if_neg (by simpa using hm)]
    by_cases hs : ValSized h
    · refine ⟨fun _ _ => hs, fun _ => ?_⟩
      rcases openVal (b := b) hs with ⟨hopen, _⟩ | hopen
      · rw [hopen]
        exact answers_ok nofun
      · rw [hopen]
        exact answers_invalid
    · rw [openVal_contract hs]
      exact ⟨fun h => absurd h not_answers_contract, fun h => absurd (h hm) hs⟩
  · rw [if_pos hm]
    exact ⟨fun _ h => absurd h hm, fun _ => answers_invalid⟩

end BlobAux

/-- The accessors answer exactly if the size that the header asks for passes the contract, where they get so far. -/
theorem accessors_iff (b : List Byte) (i : BitVec 64) : ∃ h, readBlobHeader b = .ok h ∧
      (Answers False (bgetkey [.blob b, .integer i]) ↔ (h.magic = magic → i.toNat < h.columnCount.toNat → KeySized h)) ∧
      (Answers False (bgetkeyType [.blob b]) ↔ (h.magic = magic → KeySized h)) ∧
      (Answers (Absent b h i) (bgetval [.blob b, .integer i]) ↔ (h.magic = magic → ValSized h)) ∧
      (Answers False (bgetvalType [.blob b]) ↔ (h.magic = magic → ValSized h)) := by
  obtain ⟨h, hh⟩ := BlobAux.readBlobHeader_eq b
  exact ⟨h, hh, BlobAux.bgetkey_iff hh i, BlobAux.bgetkeyType_iff hh, BlobAux.bgetval_iff hh i, BlobAux.bgetvalType_iff hh⟩

/-- A header with the magic word that asks for 2 ^ 32 - 1 columns. -/
def wideHeader : List Byte := List.replicate 8 0 ++ [0x52, 0x4d, 0x30, 0x30] ++ List.replicate 4 0xff

/-- The contract on the size fails before the blob is found to be too short. -/
theorem accessors_false : ¬Answers False (bgetkey [.blob wideHeader, .integer 0]) ∧ ¬Answers False (bgetkeyType [.blob wideHeader]) ∧
      (∀ h, readBlobHeader wideHeader = .ok h → ¬Answers (Absent wideHeader h 0) (bgetval [.blob wideHeader, .integer 0])) ∧
      ¬Answers False (bgetvalType [.blob wideHeader]) := by
  have hh : readBlobHeader wideHeader = .ok { magic := magic, columnCount := 0xffffffff, recordType := 0 } := by rfl
  have hwide : ¬KeySized { magic := magic, columnCount := 0xffffffff, recordType := 0 } := by decide
  have hwide' : ¬ValSized { magic := magic, columnCount := 0xffffffff, recordType := 0 } := by decide
  refine ⟨?_, ?_, ?_, ?_⟩
  · exact fun h => hwide ((BlobAux.bgetkey_iff hh 0).1 h rfl (by decide))
  · exact fun h => hwide ((BlobAux.bgetkeyType_iff hh).1 h rfl)
  · intro h hread hanswers
    have heq := Except.ok.inj (hh.symm.trans hread)
    subst heq
    exact hwide' ((BlobAux.bgetval_iff hh 0).1 hanswers rfl)
  · exact fun h => hwide' ((BlobAux.bgetvalType_iff hh).1 h rfl)

end CgSql.Blobs
