import CgSql.Codecs
import CgSql.Lemmas.Literals

/-!
# The codecs are inverse

Decoding undoes encoding: of names, whatever is in the buffer, and of SQL and C string literals. Different names have different
encodings.
-/

namespace CgSql

namespace Codecs

open Byte

namespace CodecsAux

/-! ## Buffers -/

theorem bputc_charbuf (text : Bytes) (c : Byte) : bputc (charbuf text) c = charbuf (text ++ [c]) := by
  unfold bputc charbuf
  rw [List.dropLast_concat, List.append_assoc]
  rfl

theorem bprint_charbuf (out text : Bytes) : bprint (charbuf out) text = charbuf (out ++ text) := by
  induction text generalizing out with
  | nil => rw [bprint, List.foldl_nil, List.append_nil]
  | cons c text ih =>
    have h := ih (out ++ [c])
    rw [List.append_assoc] at h
    rw [bprint, List.foldl_cons, bputc_charbuf]
    exact h

/-- The last character of a buffer. -/
theorem last_charbuf (text : Bytes) (c : Byte) : (charbuf (text ++ [c]))[(charbuf (text ++ [c])).length - 2]? = some c := by
  have hlen : (charbuf (text ++ [c])).length - 2 = text.length := by
    simp only [charbuf, List.length_append, List.length_singleton]
    omega
  rw [hlen, charbuf, List.append_assoc, List.getElem?_append_right (Nat.le_refl _), Nat.sub_self]
  rfl

/-! ## Escapes -/

/-- What `cg_encode_qstr` writes for a character. -/
def escaped (c : Byte) : Bytes := if isKept c then [c] else [escapeX, hexDigit (c / 16), hexDigit (c % 16)]

/-- What it writes for a name, without the prefix. -/
def body (chars : Bytes) : Bytes := chars.flatMap escaped

theorem body_cons (c : Byte) (chars : Bytes) : body (c :: chars) = escaped c ++ body chars := List.flatMap_cons

theorem hexValue_digits : ∀ c : Byte, hexValue (hexDigit (c / 16)) = some (c / 16 : Nat) ∧ hexValue (hexDigit (c % 16)) = some (c % 16 : Nat) := by
  intro c
  exact ⟨hexValue_hexDigit _ (by omega), hexValue_hexDigit _ (by omega)⟩

/-- The two digits of a character are read back. -/
theorem decodeHexEscape_digits {c : Byte} (hc : c ≠ 0) (rest : Bytes) :
    decodeHexEscape (hexDigit (c / 16) :: hexDigit (c % 16) :: rest) = ([c], rest) := by
  obtain ⟨hi, lo⟩ := hexValue_digits c
  have hval : (c : Nat) / 16 * 16 + (c : Nat) % 16 = c := by omega
  have hne : (c : Nat) ≠ 0 := fun h => hc (Fin.ext h)
  simp only [decodeHexEscape, hi, lo, hval, if_neg hne]
  rw [Fin.ofNat_val_eq_self]

theorem hexDigit_kept : ∀ n < 16, isKept (hexDigit n) = true := by decide

/-- Escapes have the characters of identifiers. -/
theorem escaped_word (c : Byte) : ∀ x ∈ escaped c, isKept x = true ∨ x = escapeX := by
  intro x hx
  rw [escaped] at hx
  split at hx
  · next hkept =>
    obtain rfl := List.mem_singleton.mp hx
    exact .inl hkept
  · simp only [List.mem_cons, List.not_mem_nil, or_false] at hx
    obtain rfl | rfl | rfl := hx
    · exact .inr rfl
    · exact .inl (hexDigit_kept _ (by omega))
    · exact .inl (hexDigit_kept _ (by omega))

theorem kept_ne : ∀ c : Byte, isKept c = true → c ≠ escapeX ∧ c ≠ backQuote ∧ c ≠ 0 := by decide +kernel

/-! ## Encoding names -/

/-- The characters of a quoted name. -/
def doubled (chars : Bytes) : Bytes := chars.flatMap fun c => if c = backQuote then [c, c] else [c]

theorem doubled_cons (c : Byte) (chars : Bytes) :
    doubled (c :: chars) = (if c = backQuote then [c, c] else [c]) ++ doubled chars := List.flatMap_cons

theorem bputHex_charbuf (out : Bytes) (c : Byte) :
    bputHex (charbuf out) c = charbuf (out ++ [escapeX, hexDigit (c / 16), hexDigit (c % 16)]) := by
  rw [bputHex, bputc_charbuf, bputc_charbuf, bputc_charbuf, List.append_assoc, List.append_assoc]
  rfl

/-- The loop writes the escapes of the characters. -/
theorem encodeLoop_spec (chars out : Bytes) (usedHex : Bool) : encodeLoop (charbuf out) usedHex (doubled chars ++ [backQuote]) =
      some (charbuf (out ++ body chars), usedHex || chars.any fun c => !isKept c) := by
  induction chars generalizing out usedHex with
  | nil => simp [doubled, encodeLoop, body]
  | cons c chars ih =>
    obtain ⟨next, rest, hrest⟩ := List.exists_cons_of_ne_nil (l := doubled chars ++ [backQuote]) (by simp)
    rw [doubled_cons, List.append_assoc, body_cons, List.any_cons]
    by_cases hkept : isKept c = true
    · have hne := (kept_ne c hkept).2.1
      rw [if_neg hne, List.singleton_append, hrest, encodeLoop, if_pos hkept, ← hrest, bputc_charbuf, ih]
      simp [escaped, hkept]
    · by_cases hquote : c = backQuote
      · rw [if_pos hquote]
        show encodeLoop _ _ (c :: c :: (doubled chars ++ [backQuote])) = _
        rw [encodeLoop, if_neg hkept, if_pos hquote, if_pos hquote, bputHex_charbuf, ih]
        simp [escaped, hkept]
      · rw [if_neg hquote, List.singleton_append, hrest, encodeLoop, if_neg hkept, if_neg hquote, ← hrest, bputHex_charbuf, ih]
        simp [escaped, hkept]

/-- The text that was added is moved by two, and the prefix is put in front of it. -/
theorem memmove_prefix (out text : Bytes) : (memmove (charbuf (out ++ text ++ [36, 36])) ((charbuf out).length + 1) ((charbuf out).length - 1)
        ((charbuf (out ++ text ++ [36, 36])).length - (charbuf out).length - 2)).map
      (fun mem => (mem.set ((charbuf out).length - 1) escapeX).set (charbuf out).length underscore) =
    some (charbuf (out ++ [escapeX, underscore] ++ text)) := by
  have hused : (charbuf out).length = out.length + 1 := by rw [charbuf, List.length_append, List.length_singleton]
  have htotal : (charbuf (out ++ text ++ [36, 36])).length = out.length + text.length + 3 := by
    simp only [charbuf, List.length_append, List.length_cons, List.length_nil]
  obtain ⟨a, b, tail, hshift⟩ : ∃ a b tail, text ++ [36, 36] = a :: b :: tail := by
    match text with
    | [] => exact ⟨36, 36, [], rfl⟩
    | [x] => exact ⟨x, 36, [36], rfl⟩
    | x :: y :: text => exact ⟨x, y, text ++ [36, 36], rfl⟩
  have hmem : charbuf (out ++ text ++ [36, 36]) = out ++ (text ++ [36, 36] ++ [0]) := by simp [charbuf]
  rw [hused, htotal, Nat.add_sub_cancel, show out.length + text.length + 3 - (out.length + 1) - 2 = text.length by omega, memmove,
    if_pos ⟨by omega, by omega⟩, Option.map_some]
  congr 1
  have hfront : (charbuf (out ++ text ++ [36, 36])).take (out.length + 2) = out ++ [a, b] := by
    rw [hmem, hshift, List.take_append, List.take_of_length_le (by omega), Nat.add_sub_cancel_left]
    rfl
  have hmiddle : ((charbuf (out ++ text ++ [36, 36])).drop out.length).take text.length = text := by
    rw [hmem, List.drop_left, List.append_assoc, List.take_left]
  have hback : (charbuf (out ++ text ++ [36, 36])).drop (out.length + 2 + text.length) = [0] := by
    have hlen : out.length + 2 + text.length = (out ++ text ++ [36, 36]).length := by
      simp only [List.length_append, List.length_cons, List.length_nil]
      omega
    rw [charbuf, hlen, List.drop_left]
  rw [hfront, hmiddle, hback, List.append_assoc, List.append_assoc, List.set_append_right _ _ (Nat.le_refl _), Nat.sub_self,
    List.set_append_right _ _ (Nat.le_succ _), Nat.succ_sub (Nat.le_refl _), Nat.sub_self]
  simp [charbuf]

/-- The encoding of a name. -/
def encoded (chars : Bytes) : Bytes := (if chars.all isKept then [] else [escapeX, underscore]) ++ body chars

theorem cgEncodeQstr_spec (name : QName) (out : Bytes) : cgEncodeQstr (charbuf out) name.quoted = some (charbuf (out ++ encoded name.chars)) := by
  have hquoted : name.quoted = backQuote :: (doubled name.chars ++ [backQuote]) := rfl
  have hlen : 3 ≤ name.quoted.length := by
    obtain ⟨c, chars, hcons⟩ := List.exists_cons_of_ne_nil name.nonempty
    rw [hquoted, hcons, doubled_cons]
    simp only [List.length_cons, List.length_append, List.length_nil]
    split <;> simp only [List.length_cons, List.length_nil] <;> omega
  have hlast : name.quoted.getLast? = some backQuote := by
    rw [hquoted, ← List.cons_append, List.getLast?_append]
    rfl
  rw [cgEncodeQstr, if_pos ⟨rfl, hlen, hlast⟩, hquoted, List.drop_one, List.tail_cons, encodeLoop_spec]
  simp only [Option.bind_eq_bind, Option.bind_some, Bool.false_or]
  have hany : (name.chars.any fun c => !isKept c) = !name.chars.all isKept := by rw [List.all_eq_not_any_not, Bool.not_not]
  rw [hany]
  cases hall : name.chars.all isKept with
  | true => simp [encoded, hall]
  | false =>
    have hmove := memmove_prefix out (body name.chars)
    rw [Bool.not_false, if_pos rfl, bputc_charbuf, bputc_charbuf]
    have hdollars : out ++ body name.chars ++ [36] ++ [36] = out ++ body name.chars ++ [36, 36] := by simp
    rw [hdollars]
    cases hmem : memmove (charbuf (out ++ body name.chars ++ [36, 36])) ((charbuf out).length + 1) ((charbuf out).length - 1)
        ((charbuf (out ++ body name.chars ++ [36, 36])).length - (charbuf out).length - 2) with
    | none => rw [hmem] at hmove; cases hmove
    | some mem =>
      rw [hmem, Option.map_some] at hmove
      simp only [Option.bind_some]
      rw [encoded, hall]
      simpa using hmove

/-! ## Decoding names -/

theorem decodeLoop_spec (chars out : Bytes) (h : 0 ∉ chars) : decodeLoop (charbuf out) (body chars) = charbuf (out ++ doubled chars) := by
  induction chars generalizing out with
  | nil => rw [body, List.flatMap_nil, decodeLoop, doubled, List.flatMap_nil, List.append_nil]
  | cons c chars ih =>
    have hc : c ≠ 0 := fun heq => h (heq ▸ List.mem_cons_self)
    have hrest : 0 ∉ chars := fun hin => h (List.mem_cons_of_mem _ hin)
    rw [body_cons, doubled_cons, escaped]
    by_cases hkept : isKept c = true
    · obtain ⟨hx, hquote, -⟩ := kept_ne c hkept
      rw [if_pos hkept, if_neg hquote, List.singleton_append, decodeLoop, if_pos hx, bputc_charbuf, ih _ hrest, List.append_assoc]
    · rw [if_neg hkept]
      show decodeLoop _ (escapeX :: hexDigit (c / 16) :: hexDigit (c % 16) :: body chars) = _
      rw [decodeLoop, if_neg (by simp), decodeHexEscape_digits hc]
      simp only [List.foldl_cons, List.foldl_nil, bputc_charbuf, last_charbuf, Option.some.injEq]
      by_cases hquote : c = backQuote
      · rw [if_pos hquote, if_pos hquote, ih _ hrest, hquote]
        simp
      · rw [if_neg hquote, if_neg hquote, ih _ hrest]
        simp

theorem unquoteLoop_spec (chars out : Bytes) (h : 0 ∉ chars) : unquoteLoop (charbuf out) (body chars) = charbuf (out ++ chars) := by
  induction chars generalizing out with
  | nil => rw [body, List.flatMap_nil, unquoteLoop, List.append_nil]
  | cons c chars ih =>
    have hc : c ≠ 0 := fun heq => h (heq ▸ List.mem_cons_self)
    have hrest : 0 ∉ chars := fun hin => h (List.mem_cons_of_mem _ hin)
    rw [body_cons, escaped]
    by_cases hkept : isKept c = true
    · rw [if_pos hkept, List.singleton_append, unquoteLoop, if_pos (kept_ne c hkept).1, bputc_charbuf, ih _ hrest, List.append_assoc]
      rfl
    · rw [if_neg hkept]
      show unquoteLoop _ (escapeX :: hexDigit (c / 16) :: hexDigit (c % 16) :: body chars) = _
      rw [unquoteLoop, if_neg (by simp), decodeHexEscape_digits hc]
      simp only [List.foldl_cons, List.foldl_nil, bputc_charbuf]
      rw [ih _ hrest, List.append_assoc]
      rfl

/-- A name without escapes is its own encoding. -/
theorem body_kept {chars : Bytes} (h : chars.all isKept = true) : body chars = chars := by
  induction chars with
  | nil => rfl
  | cons c chars ih =>
    rw [List.all_cons, Bool.and_eq_true] at h
    rw [body_cons, escaped, if_pos h.1, ih h.2]
    rfl

/-- Only encodings with escapes have the prefix. -/
theorem hasPrefix_encoded (name : QName) : hasPrefix (encoded name.chars) = !name.chars.all isKept := by
  cases hall : name.chars.all isKept with
  | false => simp [encoded, hall, hasPrefix]
  | true =>
    rw [encoded, hall, if_pos rfl, List.nil_append, body_kept hall]
    obtain ⟨c, chars, hcons⟩ := List.exists_cons_of_ne_nil name.nonempty
    rw [hcons, List.all_cons, Bool.and_eq_true] at hall
    have hx := (kept_ne c hall.1).1
    simp [hasPrefix, hcons, hx]

theorem doubled_kept {chars : Bytes} (h : chars.all isKept = true) : doubled chars = chars := by
  induction chars with
  | nil => rfl
  | cons c chars ih =>
    rw [List.all_cons, Bool.and_eq_true] at h
    rw [doubled_cons, if_neg (kept_ne c h.1).2.1, ih h.2]
    rfl

theorem cgDecodeQstr_spec (name : QName) (out : Bytes) : cgDecodeQstr (charbuf out) (encoded name.chars) = charbuf (out ++ name.quoted) := by
  have hquoted : name.quoted = backQuote :: (doubled name.chars ++ [backQuote]) := rfl
  rw [cgDecodeQstr, hasPrefix_encoded, hquoted]
  cases hall : name.chars.all isKept with
  | true =>
    rw [encoded, hall, body_kept hall, doubled_kept hall]
    simp [bprint_charbuf]
  | false =>
    rw [encoded, hall]
    simp only [Bool.not_false, not_true_eq_false, if_false, Bool.false_eq_true]
    show bputc (decodeLoop (bputc (charbuf out) backQuote) (body name.chars)) backQuote = _
    rw [bputc_charbuf, decodeLoop_spec _ _ name.noNull, bputc_charbuf]
    simp

theorem cgUnquoteEncodedQstr_spec (name : QName) (out : Bytes) :
    cgUnquoteEncodedQstr (charbuf out) (encoded name.chars) = charbuf (out ++ name.chars) := by
  rw [cgUnquoteEncodedQstr, hasPrefix_encoded]
  cases hall : name.chars.all isKept with
  | true =>
    rw [encoded, hall, body_kept hall]
    simp [bprint_charbuf]
  | false =>
    rw [encoded, hall]
    simp only [Bool.not_false, not_true_eq_false, if_false, Bool.false_eq_true]
    exact unquoteLoop_spec _ _ name.noNull

theorem encoded_word (chars : Bytes) : ∀ c ∈ encoded chars, isKept c = true ∨ c = escapeX := by
  intro c hc
  rcases List.mem_append.mp hc with hc | hc
  · split at hc
    · cases hc
    · rcases List.mem_cons.mp hc with rfl | hc
      · exact .inr rfl
      · obtain rfl := List.mem_singleton.mp hc
        exact .inl (by decide)
  · obtain ⟨x, -, hx⟩ := List.mem_flatMap.mp hc
    exact escaped_word x c hx

/-! ## String literals -/

theorem decodeStringLoop_spec (text : Bytes) :
    decodeStringLoop (text.flatMap (fun c => if c = squote then [c, c] else [c]) ++ [squote]) = text := by
  induction text with
  | nil => simp [decodeStringLoop]
  | cons c text ih =>
    rw [List.flatMap_cons, List.append_assoc]
    by_cases hquote : c = squote
    · rw [if_pos hquote]
      show decodeStringLoop (c :: c :: (text.flatMap (fun c => if c = squote then [c, c] else [c]) ++ [squote])) = _
      rw [decodeStringLoop, if_pos ⟨hquote, by rw [hquote]; rfl⟩, List.drop_one, List.tail_cons, ih, hquote]
    · rw [if_neg hquote]
      show decodeStringLoop (c :: (text.flatMap (fun c => if c = squote then [c, c] else [c]) ++ [squote])) = _
      rw [decodeStringLoop, if_neg fun h => hquote h.1, if_neg hquote, ih]

/-- The letter of a simple escape is decoded to the character. -/
theorem decodeLetter_escapeLetter : ∀ c : Byte, cgEncodeCharAsCStringLiteral c = [backslash, escapeLetter c] →
    decodeLetter (escapeLetter c) = c := by decide +kernel

/-- A character is decoded, and what follows it is not looked at. -/
theorem decodeCLoop_encode {c : Byte} (hc : c ≠ 0) (rest : Bytes) :
    decodeCLoop (cgEncodeCharAsCStringLiteral c ++ rest) = (decodeCLoop rest).map (c :: ·) := by
  have hslash : backslash ≠ quote := by decide
  rcases encode_cases c with hx | ⟨he, hx, -⟩ | ⟨he, hb, hq, -⟩
  · have henc : cgEncodeCharAsCStringLiteral c = hexEscape c := by simpa [isHexEscaped] using hx
    rw [henc]
    show decodeCLoop (backslash :: 120 :: hexDigit (c / 16) :: hexDigit (c % 16) :: rest) = _
    rw [decodeCLoop.eq_def]
    simp only [if_neg hslash, ne_eq, not_true_eq_false, if_false, if_true, decodeHexEscape_digits hc, List.singleton_append]
  · rw [he]
    show decodeCLoop (backslash :: escapeLetter c :: rest) = _
    rw [decodeCLoop.eq_def]
    simp only [if_neg hslash, ne_eq, not_true_eq_false, if_false, if_neg hx, decodeLetter_escapeLetter c he]
  · rw [he, List.singleton_append, decodeCLoop.eq_def]
    simp only [if_neg hq, ne_eq, hb, not_false_eq_true, if_true]

theorem decodeCLoop_spec {text : Bytes} (h : 0 ∉ text) : decodeCLoop (text.flatMap cgEncodeCharAsCStringLiteral ++ [quote]) = some text := by
  induction text with
  | nil => simp [decodeCLoop]
  | cons c text ih =>
    have hc : c ≠ 0 := fun heq => h (heq ▸ List.mem_cons_self)
    rw [List.flatMap_cons, List.append_assoc, decodeCLoop_encode hc, ih fun hin => h (List.mem_cons_of_mem _ hin)]
    rfl

end CodecsAux

open CodecsAux

/-- Names have encodings, different ones for different names, of letters, digits and underscores only: `cg_encode_qstr` adds the
encoding to a buffer, `cg_decode_qstr` the quoted name and `cg_unquote_encoded_qstr` the name, whatever is in it. And what the two
encoders of string literals write is decoded to the string. -/
theorem codecs_inverse : (∃ enc : QName → Bytes, (∀ name₁ name₂, enc name₁ = enc name₂ → name₁.chars = name₂.chars) ∧
      (∀ name, ∀ c ∈ enc name, (97 ≤ c ∧ c ≤ 122) ∨ (65 ≤ c ∧ c ≤ 90) ∨ (48 ≤ c ∧ c ≤ 57) ∨ c = underscore) ∧
      ∀ name out, cgEncodeQstr (charbuf out) name.quoted = some (charbuf (out ++ enc name)) ∧
        cgDecodeQstr (charbuf out) (enc name) = charbuf (out ++ name.quoted) ∧
        cgUnquoteEncodedQstr (charbuf out) (enc name) = charbuf (out ++ name.chars)) ∧
    (∀ text : Bytes, cgDecodeStringLiteral (cgEncodeStringLiteral text) = text) ∧
    ∀ text : Bytes, 0 ∉ text → cgDecodeCStringLiteral (cgEncodeCStringLiteral text) = some text := by
  refine ⟨⟨fun name => encoded name.chars, fun name₁ name₂ heq => ?_, fun name c hc => ?_, fun name out =>
    ⟨cgEncodeQstr_spec name out, cgDecodeQstr_spec name out, cgUnquoteEncodedQstr_spec name out⟩⟩, fun text => ?_, fun text h => ?_⟩
  · have heq' : encoded name₁.chars = encoded name₂.chars := heq
    have h₁ := cgUnquoteEncodedQstr_spec name₁ []
    rw [heq', cgUnquoteEncodedQstr_spec name₂ []] at h₁
    exact (List.append_cancel_right h₁).symm
  · rcases encoded_word name.chars c hc with hkept | rfl
    · rw [isKept, decide_eq_true_eq] at hkept
      tauto
    · exact .inr (.inl (by decide))
  · exact decodeStringLoop_spec text
  · rw [cgDecodeCStringLiteral, cgEncodeCStringLiteral, List.cons_append, List.head?_cons, if_pos rfl, List.drop_one, List.tail_cons]
    exact decodeCLoop_spec h

end Codecs

end CgSql
