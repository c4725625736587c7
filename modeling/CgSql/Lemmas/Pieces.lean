import CgSql.Lemmas.Literals
import Mathlib.Data.List.Chain

/-!
# The table of pieces

The pieces of a text make up the text, and in none of them does a digit follow a hexadecimal escape. Each piece is in the table once,
at the offset its text refers to it by.
-/

namespace CgSql

open Byte InLiteral Probing

/-! ## Pieces of a text -/

/-- The text from `start` to `cur` while a text is cut: no digit follows a hexadecimal escape, nor does it where a run of letters goes
on. -/
structure Pending (pending : Bytes) (prevState : Nat) : Prop where
  chain : pending.IsChain MayFollow
  last : prevState = 1 → ∀ c ∈ pending.getLast?, isHexEscaped c = false

/-- What is seen of the states by trying all characters. -/
theorem state_facts : ∀ c : Byte, (charState c ≠ 1 → hexValue c = none) ∧ (charState c = 1 → isHexEscaped c = false) ∧
    (isAlphaish c = true ∨ c = 95 → isHexEscaped c = false) := by
  decide +kernel

theorem hexValue_of_state (c : Byte) : charState c ≠ 1 → hexValue c = none := (state_facts c).1

theorem isHexEscaped_of_state (c : Byte) : charState c = 1 → isHexEscaped c = false := (state_facts c).2.1

theorem isHexEscaped_of_alphaish (c : Byte) : isAlphaish c = true ∨ c = 95 → isHexEscaped c = false := (state_facts c).2.2

/-- A character that goes on with the run, or is no letter, or starts a piece. -/
theorem Pending.snoc {pending : Bytes} {prevState : Nat} (h : Pending pending prevState) {ch : Byte} {state : Nat}
    (hch : prevState = 1 ∨ charState ch ≠ 1 ∨ pending = []) (hs : state = 1 → charState ch = 1) : Pending (pending ++ [ch]) state := by
  refine ⟨List.isChain_append.mpr ⟨h.chain, .singleton _, fun a ha b hb hx => ?_⟩, fun h₁ c hc => ?_⟩
  · obtain rfl : b = ch := by simpa [eq_comm] using hb
    rcases hch with hp | hn | rfl
    · rw [h.last hp a ha] at hx
      cases hx
    · exact hexValue_of_state b hn
    · cases ha
  · obtain rfl : c = ch := by simpa [eq_comm] using hc
    exact isHexEscaped_of_state c (hs h₁)

theorem Pending.start {ch : Byte} {state : Nat} (hs : state = 1 → isHexEscaped ch = false) : Pending [ch] state :=
  ⟨.singleton _, fun h c hc => by
    obtain rfl : c = ch := by simpa [eq_comm] using hc
    exact hs h⟩

/-- The pieces make up the text, and are fit to be written. -/
theorem statementPieces_spec (pending : Bytes) (prevState : Nat) (text : Bytes) (h : Pending pending prevState) :
    (statementPieces pending prevState text).flatten = pending ++ text ∧ ∀ p ∈ statementPieces pending prevState text, p.IsChain MayFollow := by
  fun_induction statementPieces pending prevState text with
  | case1 prevState => simp
  | case2 pending prevState hne => exact ⟨by simp, fun p hp => by rw [List.mem_singleton.mp hp]; exact h.chain⟩
  | case3 pending ch rest ih =>
    have hp : Pending (pending ++ [ch]) (charState ch) := h.snoc (by tauto) id
    simpa using ih hp
  | case4 pending prevState ch rest hne hle ih =>
    have hp : Pending (pending ++ [ch]) 0 := h.snoc (.inr (.inl (by rw [hle.2]; decide))) nofun
    simpa using ih hp
  | case5 pending prevState ch rest hne hnle hspace ih =>
    have hp : Pending (pending ++ [ch]) 0 := h.snoc (.inr (.inl (by rw [hspace]; decide))) nofun
    cases rest with
    | nil => exact ⟨by simp, fun p hmem => by rw [List.mem_singleton.mp hmem]; exact hp.chain⟩
    | cons ch' rest =>
      obtain ⟨hflat, hall⟩ := ih (.start fun hs => isHexEscaped_of_alphaish ch' (by
        by_contra hno
        rw [if_neg hno] at hs
        cases hs))
      refine ⟨by simp [hflat], fun p hmem => ?_⟩
      rcases List.mem_cons.mp hmem with rfl | hmem
      · exact hp.chain
      · exact hall p hmem
  | case6 prevState ch rest hne hnle hspace ih => exact ih (.start (isHexEscaped_of_state ch))
  | case7 pending prevState ch rest hne hnle hspace hpend ih =>
    obtain ⟨hflat, hall⟩ := ih (.start (isHexEscaped_of_state ch))
    refine ⟨by simp [hflat], fun p hmem => ?_⟩
    rcases List.mem_cons.mp hmem with rfl | hmem
    · exact h.chain
    · exact hall p hmem

theorem piecesOf_flatten (text : Bytes) : (piecesOf text).flatten = text :=
  (statementPieces_spec [] 0 text ⟨.nil, by decide⟩).1

theorem piecesOf_chain {text p : Bytes} (hp : p ∈ piecesOf text) : p.IsChain MayFollow :=
  (statementPieces_spec [] 0 text ⟨.nil, by decide⟩).2 p hp

/-! ## The symbol table -/

/-- Every name is found, and there are free slots. -/
structure Symtab.Ok (syms : Symtab) : Prop where
  found : Found hashCaseSens syms.payload
  count : used syms.payload = syms.count
  load : 4 * syms.count ≤ 3 * syms.payload.length
  pos : 0 < syms.payload.length

theorem symtabNew_ok : symtabNew.Ok := ⟨found_replicate 4, used_replicate 4, by decide, by decide⟩

theorem symtabFind_iff {syms : Symtab} (h : syms.Ok) {sym : Bytes} {v : Nat} : symtabFind syms sym = some v ↔ some (sym, v) ∈ syms.payload :=
  find_iff h.found (List.ne_nil_of_length_pos h.pos)

/-- The entries of a table have different names. -/
theorem nodup_entries {slots : Slots Bytes Nat} (h : Found hashCaseSens slots) : ((slots.filterMap id).map Prod.fst).Nodup := by
  rw [List.Nodup, List.pairwise_map, List.pairwise_filterMap]
  refine List.pairwise_iff_getElem.mpr fun i j hi hj hlt p hp q hq heq => ?_
  have hp' : slots[i]? = some (some (p.1, p.2)) := by rw [List.getElem?_eq_getElem hi]; exact congrArg some hp
  have hq' : slots[j]? = some (some (p.1, q.2)) := by rw [List.getElem?_eq_getElem hj, heq]; exact congrArg some hq
  have := Option.some.inj ((h i _ _ hp').symm.trans (h j _ _ hq'))
  omega

theorem length_entries (slots : Slots Bytes Nat) : (slots.filterMap id).length = used slots := by
  induction slots with
  | nil => rfl
  | cons o slots ih => cases o <;> simp_all [used]

/-- A table that is rehashed has the entries it had. -/
theorem symtabRehash_spec {syms : Symtab} (hf : Found hashCaseSens syms.payload) (hn : used syms.payload ≤ syms.payload.length)
    (hp : 0 < syms.payload.length) :
    (symtabRehash syms).Ok ∧ ∀ q, some q ∈ (symtabRehash syms).payload ↔ some q ∈ syms.payload := by
  have hnew : Found hashCaseSens (List.replicate (2 * syms.payload.length) (none : Option (Bytes × Nat))) := found_replicate _
  obtain ⟨h₁, h₂, h₃, h₄⟩ := placeAll_spec (syms.payload.filterMap id) hnew (nodup_entries hf)
    (fun p _ v hmem => by cases List.eq_of_mem_replicate hmem)
    (by rw [used_replicate, length_entries, List.length_replicate]; omega)
  refine ⟨⟨h₁, ?_, ?_, ?_⟩, fun q => ?_⟩
  · rw [symtabRehash, h₃, used_replicate, Nat.zero_add]
  · simp only [symtabRehash, h₂, List.length_replicate, length_entries]
    omega
  · simp only [symtabRehash, h₂, List.length_replicate]
    omega
  · rw [symtabRehash, h₄]
    constructor
    · rintro (h | h)
      · simpa using h
      · cases List.eq_of_mem_replicate h
    · exact fun h => .inl (by simpa using h)

/-- A new name is added. -/
theorem symtabAdd_spec {syms : Symtab} (h : syms.Ok) {sym : Bytes} {v : Nat} (hnew : symtabFind syms sym = none) :
    (symtabAdd syms sym v).Ok ∧ ∀ q, some q ∈ (symtabAdd syms sym v).payload ↔ q = (sym, v) ∨ some q ∈ syms.payload := by
  have hfree : used syms.payload < syms.payload.length := by
    have := h.count
    have := h.load
    have := h.pos
    omega
  have hno : ∀ v', some (sym, v') ∉ syms.payload := fun v' hmem => by
    rw [(symtabFind_iff h).mpr hmem] at hnew
    cases hnew
  obtain ⟨payload, hp⟩ := Option.isSome_iff_exists.mp (place_isSome hashCaseSens (p := (sym, v)) hfree hno)
  have hused := used_place hp
  have hlen := length_place hp
  have hpos := h.pos
  unfold symtabAdd
  simp only [hp]
  split
  · obtain ⟨hok, hmem⟩ := @symtabRehash_spec ⟨payload, syms.count + 1⟩ (h.found.place hp) (by simp only; omega) (by simp only; omega)
    exact ⟨hok, fun q => by rw [hmem, mem_place hp]⟩
  · next hload =>
    refine ⟨⟨h.found.place hp, ?_, ?_, ?_⟩, fun q => mem_place hp⟩
    · rw [hused, h.count]
    · simp only at hload ⊢
      omega
    · simp only
      omega

/-! ## The table -/

/-- The size of a table of pieces. -/
def tableSize (ps : List Bytes) : Nat := (ps.map fun p => p.length + 1).sum

/-- The pieces in the table, in order, and where the symbol table says they are. -/
structure Pieces.Holds (s : Pieces) (ps : List Bytes) : Prop where
  nodup : ps.Nodup
  output : s.output = ps.map fun p => p.flatMap cgEncodeCharAsCStringLiteral ++ [backslash, 48]
  last : s.lastOffset = int32 (tableSize ps)
  syms : s.textPieces.Ok
  stored : ∀ sym v, some (sym, v) ∈ s.textPieces.payload ↔
    ∃ as p bs, ps = as ++ p :: bs ∧ sym = p.flatMap cgEncodeCharAsCStringLiteral ∧ v = int32 (tableSize as)

theorem holds_new : Pieces.new.Holds [] where
  nodup := List.nodup_nil
  output := rfl
  last := rfl
  syms := symtabNew_ok
  stored sym v := by simp [Pieces.new, symtabNew]

/-- Different pieces are written differently. -/
theorem encode_injective {p q : Bytes} (hp : p.IsChain MayFollow) (hq : q.IsChain MayFollow)
    (h : p.flatMap cgEncodeCharAsCStringLiteral = q.flatMap cgEncodeCharAsCStringLiteral) : p = q := by
  have h₁ := readAll_piece hp noHexNext_nil
  rw [h, readAll_piece hq noHexNext_nil] at h₁
  simpa [readAll, finish] using h₁.symm

/-- A piece that is flushed is in the table after it, and is referred to by its offset. -/
theorem cgFlushPiece_spec {s : Pieces} {ps : List Bytes} (h : s.Holds ps) (hps : ∀ p ∈ ps, p.IsChain MayFollow) {p : Bytes}
    (hp : p.IsChain MayFollow) :
    ∃ ps' as bs, (cgFlushPiece p s).2.Holds ps' ∧ ps <+: ps' ∧ (∀ q ∈ ps', q ∈ ps ∨ q = p) ∧ ps' = as ++ p :: bs ∧
      (cgFlushPiece p s).1 = cgVarinteger (int32 (int32 (tableSize as) + 1)) := by
  unfold cgFlushPiece cgInternPiece
  cases hf : symtabFind s.textPieces (p.flatMap cgEncodeCharAsCStringLiteral) with
  | some v =>
    obtain ⟨as, q, bs, heq, hsym, rfl⟩ := (h.stored _ _).mp ((symtabFind_iff h.syms).mp hf)
    have hq : q ∈ ps := by rw [heq]; simp
    obtain rfl := encode_injective hp (hps q hq) hsym
    exact ⟨ps, as, bs, h, List.prefix_refl _, fun q hq => .inl hq, heq, rfl⟩
  | none =>
    have hsize : tableSize (ps ++ [p]) = tableSize ps + (p.length + 1) := by simp [tableSize]
    obtain ⟨hok, hmem⟩ := symtabAdd_spec (v := s.lastOffset) h.syms hf
    refine ⟨ps ++ [p], ps, [], ⟨?_, ?_, ?_, hok, fun sym v => ?_⟩, List.prefix_append _ _, fun q hq => by simpa using hq, rfl, ?_⟩
    · refine List.nodup_append.mpr ⟨h.nodup, List.nodup_singleton _, fun a ha b hb => ?_⟩
      rintro rfl
      obtain rfl := List.mem_singleton.mp hb
      obtain ⟨as, bs, heq⟩ := List.append_of_mem ha
      rw [(symtabFind_iff h.syms).mpr ((h.stored _ _).mpr ⟨as, a, bs, heq, rfl, rfl⟩)] at hf
      cases hf
    · simp [h.output]
    · simp only [h.last, hsize, int32, Nat.mod_add_mod]
    · simp only [hmem, h.stored, Prod.mk.injEq]
      constructor
      · rintro (⟨rfl, rfl⟩ | ⟨as, q, bs, rfl, rfl, rfl⟩)
        · exact ⟨ps, p, [], rfl, rfl, h.last⟩
        · exact ⟨as, q, bs ++ [p], by simp, rfl, rfl⟩
      · rintro ⟨as, q, bs, heq, rfl, rfl⟩
        rcases List.eq_nil_or_concat bs with rfl | ⟨bs, b, rfl⟩
        · obtain ⟨rfl, hq⟩ := List.append_inj' heq rfl
          obtain rfl := (List.cons.inj hq).1
          exact .inl ⟨rfl, h.last.symm⟩
        · refine .inr ⟨as, q, bs, ?_, rfl, rfl⟩
          rw [List.concat_eq_append, ← List.cons_append, ← List.append_assoc] at heq
          exact (List.append_inj' heq rfl).1
    · simp only [h.last]

end CgSql
