import CgSql.Lemmas.Pieces
import Mathlib.Algebra.Order.BigOperators.Group.List

/-!
# Compressed text round trip

What the runtime expands is the text that was compressed, for every sequence of texts of one compilation, where the C compiler reads no
trigraph in a piece.
-/

namespace CgSql

open Byte InLiteral

/-- Every text of a compilation is expanded to itself and a NUL, which fill the buffer of the declared size: the table and the literal
of the text are what a C compiler reads. -/
def RoundTrips (trigraphs : Bool) (texts : List Bytes) : Prop :=
  List.Forall₂ (fun text lit => ∃ base frags, readLiterals trigraphs (compressAll texts Pieces.new).2.output = some base ∧
      readLiteral trigraphs lit = some frags ∧ cqlUncompress base (frags ++ [0]) = some (text.length + 1, text ++ [0]))
    texts (compressAll texts Pieces.new).1

/-- A compiler that replaces trigraphs finds none in a piece, and the sizes are numbers an `int32_t` can hold. -/
structure Compressible (trigraphs : Bool) (texts : List Bytes) : Prop where
  noTrigraph : trigraphs = true → ∀ text ∈ texts, ∀ p ∈ piecesOf text, hasTrigraph p = false
  table : tableSize (texts.flatMap piecesOf).dedup < 2 ^ 31
  length : ∀ text ∈ texts, text.length + 1 < 2 ^ 31

namespace RoundTripAux

variable {ps : List Bytes} {p : Bytes}
variable {n : Nat}

/-- A number that refers to a piece of a table: the offset of the piece, plus one. -/
def Refers (ps : List Bytes) (p : Bytes) (n : Nat) : Prop :=
  ∃ as bs, ps = as ++ p :: bs ∧ n = int32 (int32 (tableSize as) + 1)

theorem Refers.mono {ps' : List Bytes} (h : Refers ps p n) (hps : ps <+: ps') : Refers ps' p n := by
  obtain ⟨as, bs, rfl, hn⟩ := h
  obtain ⟨cs, rfl⟩ := hps
  exact ⟨as, bs ++ cs, by simp, hn⟩

/-! ## Compression -/

/-- The literal of a text, as references to a table. -/
def Written (ps : List Bytes) (text lit : Bytes) : Prop :=
  ∃ ns, lit = cgVarinteger (int32 (text.length + 1)) ++ ns.flatMap cgVarinteger ∧ List.Forall₂ (Refers ps) (piecesOf text) ns

theorem cgFlushPieces_spec (pieces : List Bytes) {s : Pieces} (h : s.Holds ps) (hps : ∀ q ∈ ps, q.IsChain MayFollow)
    (hp : ∀ q ∈ pieces, q.IsChain MayFollow) : ∃ ps' ns, (cgFlushPieces pieces s).2.Holds ps' ∧ ps <+: ps' ∧ (∀ q ∈ ps', q ∈ ps ∨ q ∈ pieces) ∧
      (cgFlushPieces pieces s).1 = ns.flatMap cgVarinteger ∧ List.Forall₂ (Refers ps') pieces ns := by
  induction pieces generalizing s ps with
  | nil => exact ⟨ps, [], h, List.prefix_refl _, fun q hq => .inl hq, rfl, .nil⟩
  | cons p pieces ih =>
    obtain ⟨ps₁, as, bs, h₁, hpre₁, hmem₁, heq, hout⟩ := cgFlushPiece_spec h hps (hp p List.mem_cons_self)
    have hps₁ : ∀ q ∈ ps₁, q.IsChain MayFollow := by
      intro q hq
      rcases hmem₁ q hq with hq | rfl
      · exact hps q hq
      · exact hp q List.mem_cons_self
    obtain ⟨ps₂, ns, h₂, hpre₂, hmem₂, houts, hrefs⟩ := ih h₁ hps₁ fun q hq => hp q (List.mem_cons_of_mem _ hq)
    refine ⟨ps₂, int32 (int32 (tableSize as) + 1) :: ns, h₂, hpre₁.trans hpre₂, fun q hq => ?_, ?_, .cons ?_ hrefs⟩
    · rcases hmem₂ q hq with hq | hq
      · exact (hmem₁ q hq).imp_right fun hq => List.mem_cons.mpr (.inl hq)
      · exact .inr (List.mem_cons_of_mem _ hq)
    · rw [List.flatMap_cons, ← hout, ← houts]
      rfl
    · exact Refers.mono ⟨as, bs, heq, rfl⟩ hpre₂

theorem compressAll_spec (texts : List Bytes) {s : Pieces} (h : s.Holds ps) (hps : ∀ q ∈ ps, q.IsChain MayFollow) :
    ∃ ps', (compressAll texts s).2.Holds ps' ∧ ps <+: ps' ∧ (∀ q ∈ ps', q ∈ ps ∨ q ∈ texts.flatMap piecesOf) ∧
      List.Forall₂ (Written ps') texts (compressAll texts s).1 := by
  induction texts generalizing s ps with
  | nil => exact ⟨ps, h, List.prefix_refl _, fun q hq => .inl hq, .nil⟩
  | cons text texts ih =>
    obtain ⟨ps₁, ns, h₁, hpre₁, hmem₁, hout, hrefs⟩ :=
      cgFlushPieces_spec (piecesOf text) h hps fun q hq => piecesOf_chain hq
    have hps₁ : ∀ q ∈ ps₁, q.IsChain MayFollow := fun q hq => (hmem₁ q hq).elim (hps q) piecesOf_chain
    obtain ⟨ps₂, h₂, hpre₂, hmem₂, hall⟩ := ih (s := (cgStatementPieces text s).2) h₁ hps₁
    refine ⟨ps₂, h₂, hpre₁.trans hpre₂, fun q hq => ?_, .cons ⟨ns, ?_, ?_⟩ hall⟩
    · rw [List.flatMap_cons, List.mem_append]
      rcases hmem₂ q hq with hq | hq
      · exact (hmem₁ q hq).imp_right .inl
      · exact .inr (.inr hq)
    · rw [← hout]
    · exact hrefs.imp fun _ _ hr => hr.mono hpre₂

/-! ## Reading -/

/-- The bytes of the table. -/
def tableBytes (ps : List Bytes) : Bytes := ps.flatMap (· ++ [0]) ++ [0]

theorem readLiterals_pieces {trigraphs : Bool} (hps : ∀ q ∈ ps, q.IsChain MayFollow) (ht : trigraphs = true → ∀ q ∈ ps, hasTrigraph q = false) :
    readLiterals trigraphs (ps.map fun p => p.flatMap cgEncodeCharAsCStringLiteral ++ [backslash, 48]) = some (tableBytes ps) := by
  induction ps with
  | nil => rfl
  | cons p ps ih =>
    have hsrc : (if trigraphs then replaceTrigraphs (p.flatMap cgEncodeCharAsCStringLiteral ++ [backslash, 48])
        else p.flatMap cgEncodeCharAsCStringLiteral ++ [backslash, 48]) = p.flatMap cgEncodeCharAsCStringLiteral ++ [backslash, 48] := by
      split
      · next h =>
        refine replaceTrigraphs_eq ?_
        rw [hasTrigraph_encode (by decide) fun c hc => by obtain rfl := Option.some.inj hc; rfl]
        exact ht h p List.mem_cons_self
      · rfl
    have hlit : readLiteral trigraphs (p.flatMap cgEncodeCharAsCStringLiteral ++ [backslash, 48]) = some (p ++ [0]) := by
      rw [readLiteral, hsrc, readAll_piece (hps p List.mem_cons_self) (noHexNext_backslash _)]
      rfl
    rw [List.map_cons, readLiterals, hlit, ih (fun q hq => hps q (List.mem_cons_of_mem _ hq)) fun h q hq => ht h q (List.mem_cons_of_mem _ hq)]
    simp [tableBytes]

theorem readLiteral_numbers (trigraphs : Bool) (ns : List Nat) :
    readLiteral trigraphs (ns.flatMap cgVarinteger) = some (ns.flatMap varinteger) := by
  have hescape : ∀ b < 256, question ∉ hexEscape b := by decide +kernel
  have hflat : ns.flatMap cgVarinteger = (ns.flatMap (varintegerBytes 5)).flatMap hexEscape := by
    rw [List.flatMap_assoc]
    rfl
  have hlt : ∀ b ∈ ns.flatMap (varintegerBytes 5), b < 256 := fun b hb => by
    obtain ⟨n, -, hb⟩ := List.mem_flatMap.mp hb
    exact varintegerBytes_lt hb
  have hno : hasTrigraph ((ns.flatMap (varintegerBytes 5)).flatMap hexEscape) = false := by
    have hq : question ∉ (ns.flatMap (varintegerBytes 5)).flatMap hexEscape := fun hmem => by
      obtain ⟨b, hb, hmem⟩ := List.mem_flatMap.mp hmem
      exact hescape b (hlt b hb) hmem
    have := hasTrigraph_append hq []
    rwa [List.append_nil] at this
  have hread := (readAll_hexEscapes hlt noHexNext_nil).2
  rw [List.append_nil] at hread
  rw [readLiteral, hflat, replaceTrigraphs_eq hno, ite_self, hread]
  have hmap : ns.flatMap varinteger = (ns.flatMap (varintegerBytes 5)).map (Fin.ofNat 256) := by
    rw [List.map_flatMap]
    rfl
  rw [hmap]
  simp [readAll, finish]

/-! ## Expansion -/

theorem length_flatMap (ps : List Bytes) : (ps.flatMap (· ++ [0])).length = tableSize ps := by
  simp [tableSize, List.length_flatMap]

/-- A reference leads to its piece. -/
theorem cString_of_refers (h : Refers ps p n) (hz : 0 ∉ p) (hsize : tableSize ps < 2 ^ 31) :
    cString (tableBytes ps) (n - 1) = some p ∧ 0 < n ∧ n < 2 ^ 31 := by
  obtain ⟨as, bs, rfl, rfl⟩ := h
  have hsum : tableSize (as ++ p :: bs) = tableSize as + (p.length + 1 + tableSize bs) := by simp [tableSize]
  have hn : int32 (int32 (tableSize as) + 1) = tableSize as + 1 := by
    unfold int32
    omega
  have hdrop : (tableBytes (as ++ p :: bs)).drop (tableSize as) = p ++ 0 :: (bs.flatMap (· ++ [0]) ++ [0]) := by
    rw [tableBytes, List.flatMap_append, List.append_assoc, ← length_flatMap, List.drop_left]
    simp
  have htake : (p ++ 0 :: (bs.flatMap (· ++ [0]) ++ [0])).takeWhile (· ≠ 0) = p := by
    rw [List.takeWhile_append_of_pos (fun c hc => by simpa using fun h : c = 0 => hz (h ▸ hc))]
    simp
  rw [hn, Nat.add_sub_cancel]
  refine ⟨?_, Nat.succ_pos _, by omega⟩
  rw [cString, hdrop, if_pos ⟨by omega, by simp⟩, htake]

theorem varinteger_ne_nil (n : Nat) : varinteger n ≠ [] := by simp [varinteger, varintegerBytes]

/-- The references are expanded one after another. -/
theorem expandFrags_refers {pieces : List Bytes} {ns : List Nat} (h : List.Forall₂ (Refers ps) pieces ns)
    (hz : ∀ p ∈ pieces, 0 ∉ p) (hsize : tableSize ps < 2 ^ 31) {rounds : Nat} (hr : ns.length < rounds) :
    expandFrags (tableBytes ps) rounds (ns.flatMap varinteger ++ [0]) = some (pieces.flatten ++ [0]) := by
  induction h generalizing rounds with
  | nil =>
    obtain ⟨rounds, rfl⟩ := Nat.exists_eq_succ_of_ne_zero (Nat.ne_of_gt hr)
    rfl
  | @cons p n pieces ns href hrefs ih =>
    obtain ⟨rounds, rfl⟩ := Nat.exists_eq_succ_of_ne_zero (Nat.ne_of_gt (Nat.zero_lt_of_lt hr))
    obtain ⟨hstr, hpos, hlt⟩ := cString_of_refers href (hz p List.mem_cons_self) hsize
    have hrest := ih (fun q hq => hz q (List.mem_cons_of_mem _ hq)) (Nat.lt_of_succ_lt_succ hr)
    rw [List.flatMap_cons, List.append_assoc, expandFrags, cqlDecode_varinteger hlt]
    simp [Nat.ne_of_gt hpos, hstr, hrest]

theorem length_le_flatMap (ns : List Nat) : ns.length ≤ (ns.flatMap varinteger).length := by
  induction ns with
  | nil => exact Nat.zero_le _
  | cons n ns ih =>
    have := List.length_pos_iff.mpr (varinteger_ne_nil n)
    rw [List.flatMap_cons, List.length_append, List.length_cons]
    omega

/-- The first byte of a number is not NUL, unless the number is. -/
theorem head_varinteger (hpos : 0 < n) (hlt : n < 2 ^ 31) (rest : Bytes) : (varinteger n ++ rest).head? ≠ some 0 := by
  simp only [varinteger, varintegerBytes, List.map_cons, List.cons_append, List.head?_cons, ne_eq, Option.some.injEq]
  intro h
  have := congrArg Fin.val h
  simp only [Fin.val_ofNat, Fin.val_zero] at this
  split at this <;> omega

end RoundTripAux

open RoundTripAux

/-- Texts round trip when no piece has a trigraph, or the compiler replaces none, and the sizes are 32-bit numbers. -/
theorem round_trips_of_compressible (trigraphs : Bool) (texts : List Bytes) (hz : ∀ text ∈ texts, 0 ∉ text)
    (h : Compressible trigraphs texts) : RoundTrips trigraphs texts := by
  obtain ⟨ps, hholds, -, hmem, hall⟩ := compressAll_spec texts holds_new (fun q hq => by cases hq)
  have hpieces : ∀ q ∈ ps, ∃ text ∈ texts, q ∈ piecesOf text := fun q hq =>
    List.mem_flatMap.mp ((hmem q hq).resolve_left List.not_mem_nil)
  have hsize : tableSize ps < 2 ^ 31 := by
    refine lt_of_le_of_lt ?_ h.table
    have hsub : ps.Subperm (texts.flatMap piecesOf).dedup := List.subperm_of_subset hholds.nodup fun q hq => by
      rw [List.mem_dedup]
      exact List.mem_flatMap.mpr (hpieces q hq)
    obtain ⟨qs, hperm, hsubl⟩ := hsub
    rw [tableSize, ← (hperm.map _).sum_eq]
    exact (hsubl.map _).sum_le_sum fun _ _ => Nat.zero_le _
  have htable : readLiterals trigraphs (ps.map fun p => p.flatMap cgEncodeCharAsCStringLiteral ++ [backslash, 48]) =
      some (tableBytes ps) := readLiterals_pieces (fun q hq => by
    obtain ⟨text, -, hq⟩ := hpieces q hq
    exact piecesOf_chain hq) fun ht q hq => by
    obtain ⟨text, htext, hq⟩ := hpieces q hq
    exact h.noTrigraph ht text htext q hq
  rw [← hholds.output] at htable
  refine List.forall₂_iff_get.mpr ⟨hall.length_eq, fun i hi hi' => ?_⟩
  obtain ⟨ns, hlit, hrefs⟩ := hall.get hi hi'
  have htext := List.get_mem texts ⟨i, hi⟩
  have hlen := h.length _ htext
  have hint : int32 ((texts.get ⟨i, hi⟩).length + 1) = (texts.get ⟨i, hi⟩).length + 1 := by
    unfold int32
    omega
  refine ⟨_, (((texts.get ⟨i, hi⟩).length + 1) :: ns).flatMap varinteger, htable, ?_, ?_⟩
  · rw [hlit, hint, ← List.flatMap_cons]
    exact readLiteral_numbers _ _
  · have hz' : ∀ p ∈ piecesOf (texts.get ⟨i, hi⟩), 0 ∉ p := fun p hp h0 => hz _ htext (by
      rw [← piecesOf_flatten (texts.get ⟨i, hi⟩)]
      exact List.mem_flatten.mpr ⟨p, hp, h0⟩)
    have hrounds : ns.length < (ns.flatMap varinteger ++ [0]).length := by
      rw [List.length_append]
      exact Nat.lt_succ_of_le (length_le_flatMap ns)
    have hexp := expandFrags_refers hrefs hz' hsize hrounds
    rw [piecesOf_flatten] at hexp
    rw [List.flatMap_cons, List.append_assoc, cqlUncompress, if_neg (head_varinteger (Nat.succ_pos _) hlen _), cqlDecode_varinteger hlen]
    simp only [Option.bind_eq_bind, Option.bind_some, cqlExpandFrags, hexp]
    rfl

namespace RoundTripAux

/-- The bytes of a text, whose characters are below 256. -/
def bytes (text : String) : Bytes := text.toList.map fun c => Fin.ofNat 256 c.toNat

/-- Two statements that share pieces, with control characters and bytes from 128 on before digits. -/
def selects : List Bytes := [bytes "SELECT id FROM foo WHERE t = '\x01a\xc3b'", bytes "SELECT id\n  FROM foo\n  WHERE \"x\" = \\ "]

/-- What is computed of the two statements, and of a text with a trigraph. -/
theorem computed : ((∀ text ∈ selects, 0 ∉ text) ∧ (true = true → ∀ text ∈ selects, ∀ p ∈ piecesOf text, hasTrigraph p = false) ∧
      tableSize (selects.flatMap piecesOf).dedup < 2 ^ 31 ∧ ∀ text ∈ selects, text.length + 1 < 2 ^ 31) ∧
    (∀ text ∈ [bytes "SELECT '??!'"], text ≠ [] ∧ 0 ∉ text) ∧
    (do
      let base ← readLiterals true (compressAll [bytes "SELECT '??!'"] Pieces.new).2.output
      let frags ← readLiteral true ((compressAll [bytes "SELECT '??!'"] Pieces.new).1.headD [])
      cqlUncompress base (frags ++ [0])) = some (13, bytes "SELECT '|'" ++ [0]) ∧
    bytes "SELECT '??!'" ++ [0] ≠ bytes "SELECT '|'" ++ [0] := by
  decide +kernel

end RoundTripAux

/-- Two statements round trip. -/
theorem round_trips_of_compressible_selects : RoundTrips true selects := by
  obtain ⟨htexts, noTrigraph, table, length⟩ := computed.1
  exact round_trips_of_compressible true selects htexts ⟨noTrigraph, table, length⟩

/-- A text with a trigraph is not expanded to itself by a program compiled as C99: `SELECT '??!'` becomes `SELECT '|'`. -/
theorem round_trips_false : ¬ ∀ (trigraphs : Bool) (texts : List Bytes), (∀ text ∈ texts, text ≠ [] ∧ 0 ∉ text) → RoundTrips trigraphs texts := by
  intro h
  obtain ⟨htexts, hno, hne⟩ := computed.2
  have hall := h true [bytes "SELECT '??!'"] htexts
  rw [RoundTrips] at hall
  cases hlits : (compressAll [bytes "SELECT '??!'"] Pieces.new).1 with
  | nil => rw [hlits] at hall; cases hall
  | cons lit lits =>
    rw [hlits] at hall hno
    obtain ⟨base, frags, hbase, hfrags, hsame⟩ := (List.forall₂_cons.mp hall).1
    rw [hbase, List.headD_cons] at hno
    simp only [Option.bind_eq_bind, Option.bind_some, hfrags, hsame] at hno
    exact hne (Prod.mk.inj (Option.some.inj hno)).2

end CgSql
