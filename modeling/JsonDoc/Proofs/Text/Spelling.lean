import JsonDoc.Proofs.Syntax.Content
import JsonDoc.Proofs.Syntax.Strict
import JsonDoc.Proofs.Text.Boundary

/-!
# Spellings of texts

A character may be spelled in several ways inside a string of JSON: as itself, by an escape of two
characters, by the digits of its code, or by those of a surrogate pair. `Spells` leaves the choice
open for each character. Every spelling is decoded to its text, `decode_of_spells`, and can stand
between quotes, `isContent_of_spells`; what is encoded is one of the spellings, `spells_encode`.
-/

namespace JsonDoc
namespace Escape

/-! ## Spellings -/

/-- A hexadecimal digit of either case, with its value. -/
inductive HexDigit : Nat → Char → Prop
  | lower {value : Nat} : value < 16 → HexDigit value (Nat.digitChar value)
  | upper {value : Nat} : value < 16 → HexDigit value (Nat.digitChar value).toUpper

/-- A code unit, spelled by four digits. -/
inductive SpellsUnit : Nat → List Char → Prop
  | mk {w x y z : Nat} {a b c d : Char} :
      HexDigit w a → HexDigit x b → HexDigit y c → HexDigit z d →
      SpellsUnit (((w * 16 + x) * 16 + y) * 16 + z) ['\\', 'u', a, b, c, d]

/-- What may stand after a backslash alone, each with the character that it means there. -/
def shortEscapes : List (Char × Char) :=
  [('"', '"'), ('\\', '\\'), ('/', '/'), ('b', '\x08'), ('f', '\x0c'), ('n', '\n'), ('r', '\r'),
    ('t', '\t')]

/-- The ways to spell a character. -/
inductive SpellsChar : Char → List Char → Prop
  | itself {c : Char} : c ≠ '"' → c ≠ '\\' → 0x20 ≤ c.toNat → SpellsChar c [c]
  | short {mark c : Char} : (mark, c) ∈ shortEscapes → SpellsChar c ['\\', mark]
  | unit {c : Char} {spelling : List Char} : SpellsUnit c.toNat spelling → SpellsChar c spelling
  | pair {c : Char} {high low : List Char} : 0x10000 ≤ c.toNat →
      SpellsUnit (0xD800 + (c.toNat - 0x10000) / 0x400) high →
      SpellsUnit (0xDC00 + (c.toNat - 0x10000) % 0x400) low → SpellsChar c (high ++ low)

/-- The spellings of a text: each of its characters in one of its ways. -/
inductive Spells : List Char → List Char → Prop
  | nil : Spells [] []
  | cons {c : Char} {text spelling more : List Char} :
      SpellsChar c spelling → Spells text more → Spells (c :: text) (spelling ++ more)

/-! ## Decoding -/

theorem HexDigit.digit?
    {value : Nat} {c : Char}
    (h : HexDigit value c) :
    Hex.digit? c = some value := by
  have each : ∀ value < 16, Hex.digit? (Nat.digitChar value) = some value ∧
      Hex.digit? (Nat.digitChar value).toUpper = some value := by decide
  cases h with
  | lower small =>
      exact (each value small).1
  | upper small =>
      exact (each value small).2

theorem SpellsUnit.readHex
    {code : Nat} {spelling : List Char}
    (h : SpellsUnit code spelling) :
    ∃ digits, spelling = '\\' :: 'u' :: digits ∧
      ∀ rest, readHex 4 0 (digits ++ rest) = (some code, rest) := by
  cases h with
  | mk ha hb hc hd =>
      refine ⟨_, rfl, fun rest => ?_⟩
      simp [Escape.readHex, ha.digit?, hb.digit?, hc.digit?, hd.digit?]

/-- The code of a character is no half of a surrogate pair. -/
theorem not_surrogate
    (c : Char) :
    isHighSurrogate c.toNat = false ∧ isLowSurrogate c.toNat = false := by
  have valid : c.toNat < 0xD800 ∨ 0xDFFF < c.toNat ∧ c.toNat < 0x110000 := c.valid
  simp only [isHighSurrogate, isLowSurrogate, Bool.and_eq_false_iff, decide_eq_false_iff_not]
  omega

theorem readUnit_of_spells
    {c : Char} {digits rest : List Char}
    (digitsAre : readHex 4 0 (digits ++ rest) = (some c.toNat, rest)) :
    readUnit (digits ++ rest) = (c, rest) := by
  obtain ⟨notHigh, notLow⟩ := not_surrogate c
  simp [readUnit, digitsAre, notHigh, notLow, Char.ofNat_toNat]

theorem decode_unit
    (digits : List Char) :
    decode ('\\' :: 'u' :: digits) = (readUnit digits).1 :: decode (readUnit digits).2 := by
  rw [decode]

theorem decode_short
    {mark c : Char}
    (h : (mark, c) ∈ shortEscapes)
    (rest : List Char) :
    decode ('\\' :: mark :: rest) = c :: decode rest := by
  have each : ∀ pair ∈ shortEscapes, pair.1 ≠ 'u' ∧ simple pair.1 = [pair.2] := by decide
  obtain ⟨notU, means⟩ := each _ h
  rw [decode, means, List.singleton_append]
  exact notU

theorem decode_itself
    {c : Char}
    (h : c ≠ '\\')
    (rest : List Char) :
    decode (c :: rest) = c :: decode rest := by
  rw [decode] <;> simp [h]

/-- The halves of a pair are read as one character. -/
theorem readUnit_pair
    {c : Char}
    (large : 0x10000 ≤ c.toNat)
    {high low rest : List Char}
    (highIs : ∀ rest, readHex 4 0 (high ++ rest) =
      (some (0xD800 + (c.toNat - 0x10000) / 0x400), rest))
    (lowIs : ∀ rest, readHex 4 0 (low ++ rest) =
      (some (0xDC00 + (c.toNat - 0x10000) % 0x400), rest)) :
    readUnit (high ++ '\\' :: 'u' :: (low ++ rest)) = (c, rest) := by
  have valid : c.toNat < 0xD800 ∨ 0xDFFF < c.toNat ∧ c.toNat < 0x110000 := c.valid
  have isHigh : isHighSurrogate (0xD800 + (c.toNat - 0x10000) / 0x400) = true := by
    simp only [isHighSurrogate, Bool.and_eq_true, decide_eq_true_eq]
    omega
  have isLow : isLowSurrogate (0xDC00 + (c.toNat - 0x10000) % 0x400) = true := by
    simp only [isLowSurrogate, Bool.and_eq_true, decide_eq_true_eq]
    omega
  have second : lowSurrogate? ('\\' :: 'u' :: (low ++ rest)) =
      some (0xDC00 + (c.toNat - 0x10000) % 0x400, rest) := by
    simp [lowSurrogate?, lowIs, isLow]
  have code : 0x10000 + (0xD800 + (c.toNat - 0x10000) / 0x400 - 0xD800) * 0x400 +
      (0xDC00 + (c.toNat - 0x10000) % 0x400 - 0xDC00) = c.toNat := by
    omega
  simp only [readUnit, highIs, isHigh, if_true, second, code, Char.ofNat_toNat]

/-- Whatever follows, a spelling is decoded to its character. -/
theorem decode_of_spellsChar
    {c : Char} {spelling : List Char}
    (h : SpellsChar c spelling)
    (rest : List Char) :
    decode (spelling ++ rest) = c :: decode rest := by
  cases h with
  | itself notQuote notBackslash printable =>
      exact decode_itself notBackslash rest
  | short isShort =>
      exact decode_short isShort rest
  | unit isUnit =>
      obtain ⟨digits, rfl, read⟩ := isUnit.readHex
      rw [List.cons_append, List.cons_append, decode_unit, readUnit_of_spells (read rest)]
  | pair large isHigh isLow =>
      obtain ⟨high, rfl, readHigh⟩ := isHigh.readHex
      obtain ⟨low, rfl, readLow⟩ := isLow.readHex
      simp only [List.cons_append, List.append_assoc]
      rw [decode_unit, readUnit_pair large readHigh readLow]

theorem decode_of_spells
    {text spelling : List Char}
    (h : Spells text spelling) :
    decode spelling = text := by
  induction h with
  | nil =>
      exact decode_nil
  | cons isChar _ ih =>
      rw [decode_of_spellsChar isChar, ih]

theorem decodeText_of_spells
    {text content : String}
    (spells : Spells text.toList content.toList) :
    decodeText content = text := by
  rw [decodeText, decode_of_spells spells, String.ofList_toList]

/-! ## Encoding -/

theorem spellsUnit_unit
    {code : Nat}
    (small : code < 0x10000) :
    SpellsUnit code (unit code) := by
  have digits := SpellsUnit.mk (.lower (Nat.mod_lt (code / 4096) (by decide : 0 < 16)))
    (.lower (Nat.mod_lt (code / 256) (by decide : 0 < 16)))
    (.lower (Nat.mod_lt (code / 16) (by decide : 0 < 16)))
    (.lower (Nat.mod_lt code (by decide : 0 < 16)))
  have same : ((code / 4096 % 16 * 16 + code / 256 % 16) * 16 + code / 16 % 16) * 16 + code % 16 =
      code := by
    omega
  rwa [same] at digits

theorem spells_encodeChar
    (c : Char) :
    SpellsChar c (encodeChar c) := by
  unfold encodeChar
  split
  · exact .short (by decide)
  · exact .short (by decide)
  · exact .short (by decide)
  · exact .short (by decide)
  · exact .short (by decide)
  · exact .short (by decide)
  · exact .short (by decide)
  · rename_i notQuote notBackslash _ _ _ _ _
    split
    · rename_i control
      exact .unit (spellsUnit_unit (by omega))
    · rename_i printable
      exact .itself notQuote notBackslash (by omega)

theorem spells_encode
    (text : List Char) :
    Spells text (encode text) := by
  induction text with
  | nil =>
      exact .nil
  | cons c text ih =>
      rw [encode_cons]
      exact .cons (spells_encodeChar c) ih

theorem spells_encodeText
    (text : String) :
    Spells text.toList (encodeText text).toList := by
  rw [encodeText, String.toList_ofList]
  exact spells_encode text.toList

/-- Decoding undoes encoding. -/
theorem decodeText_encodeText
    (text : String) :
    decodeText (encodeText text) = text :=
  decodeText_of_spells (spells_encodeText text)

/-! ## Contents of tokens -/

open Syntax

theorem HexDigit.byte
    {value : Nat} {c : Char}
    (h : HexDigit value c) :
    ∃ b, String.utf8EncodeChar c = [b] ∧ Byte.isHexDigit b := by
  have each : ∀ value < 16,
      (String.utf8EncodeChar (Nat.digitChar value) = [UInt8.ofNat (Nat.digitChar value).toNat] ∧
        Byte.isHexDigit (UInt8.ofNat (Nat.digitChar value).toNat)) ∧
      (String.utf8EncodeChar (Nat.digitChar value).toUpper =
          [UInt8.ofNat (Nat.digitChar value).toUpper.toNat] ∧
        Byte.isHexDigit (UInt8.ofNat (Nat.digitChar value).toUpper.toNat)) := by decide
  cases h with
  | lower small =>
      exact ⟨_, (each value small).1⟩
  | upper small =>
      exact ⟨_, (each value small).2⟩

theorem isContent_unit
    {code : Nat} {spelling : List Char}
    (h : SpellsUnit code spelling)
    {rest : List UInt8}
    (content : IsContent rest) :
    IsContent (Utf8.encode spelling ++ rest) := by
  cases h with
  | mk ha hb hc hd =>
      obtain ⟨a, aIs, aHex⟩ := ha.byte
      obtain ⟨b, bIs, bHex⟩ := hb.byte
      obtain ⟨c, cIs, cHex⟩ := hc.byte
      obtain ⟨d, dIs, dHex⟩ := hd.byte
      have start : String.utf8EncodeChar '\\' = [Byte.backslash] ∧
          String.utf8EncodeChar 'u' = [Byte.lowerU] := by decide
      simp only [Utf8.encode_cons, start, aIs, bIs, cIs, dIs, List.cons_append, List.nil_append]
      exact .unicode aHex bHex cHex dHex content

/-- A character that stands for itself is content. -/
theorem isContent_itself
    {c : Char}
    (notQuote : c ≠ '"')
    (notBackslash : c ≠ '\\')
    (printable : 0x20 ≤ c.toNat)
    {rest : List UInt8}
    (content : IsContent rest) :
    IsContent (String.utf8EncodeChar c ++ rest) := by
  by_cases low : c.val.toNat < 0x80
  · have value : (UInt8.ofNat c.val.toNat).toNat = c.val.toNat :=
      Utf8.toNat_ofNat_of_lt (by omega)
    have other {d : Char} (differs : c ≠ d) (small : d.val.toNat < 0x80) :
        UInt8.ofNat c.val.toNat ≠ UInt8.ofNat d.val.toNat := by
      intro same
      have same := congrArg UInt8.toNat same
      rw [value, Utf8.toNat_ofNat_of_lt (by omega)] at same
      exact differs (Char.ext (UInt32.toNat_inj.mp same))
    rw [Utf8.utf8EncodeChar_ascii low]
    refine .plain ?_ (other notQuote (by decide)) (other notBackslash (by decide)) content
    rw [UInt8.le_iff_toNat_le, value]
    exact printable
  · have high := Utf8.high_utf8EncodeChar (c := c) (by omega)
    have tail : Tail .plain (String.utf8EncodeChar c ++ rest) :=
      (tail_high high).mpr ⟨Or.inl rfl, content⟩
    exact tail

theorem isContent_spellsChar
    {c : Char} {spelling : List Char}
    (h : SpellsChar c spelling)
    {rest : List UInt8}
    (content : IsContent rest) :
    IsContent (Utf8.encode spelling ++ rest) := by
  cases h with
  | itself notQuote notBackslash printable =>
      rw [Utf8.encode_cons, List.append_assoc]
      exact isContent_itself notQuote notBackslash printable content
  | @short mark _ isShort =>
      have each : ∀ pair ∈ shortEscapes,
          Utf8.encode ['\\', pair.1] = [Byte.backslash, UInt8.ofNat pair.1.toNat] ∧
            UInt8.ofNat pair.1.toNat ≠ Byte.lowerU := by decide
      obtain ⟨bytes, notU⟩ := each _ isShort
      rw [bytes]
      exact .escape notU content
  | unit isUnit =>
      exact isContent_unit isUnit content
  | pair _ isHigh isLow =>
      rw [Utf8.encode_append, List.append_assoc]
      exact isContent_unit isHigh (isContent_unit isLow content)

/-- Every spelling can stand between quotes. -/
theorem isContent_of_spells
    {text spelling : List Char}
    (h : Spells text spelling) :
    IsContent (Utf8.encode spelling) := by
  induction h with
  | nil =>
      exact .nil
  | cons isChar _ ih =>
      rw [Utf8.encode_append]
      exact isContent_spellsChar isChar ih

theorem isContent_encodeText
    (text : String) :
    IsContent (Utf8.ofText (encodeText text)) := by
  rw [encodeText, Utf8.ofText, String.toList_ofList]
  exact isContent_of_spells (spells_encode text.toList)

/-- Content between quotes is a document. -/
theorem readTree_quoted
    {content : String}
    (isContent : IsContent (Utf8.ofText content)) :
    Document.readTree .strict ⟨none⟩ (quoted (Utf8.ofText content)) = .ok (.string content) := by
  have token := StrictScalar.string isContent
  rw [Utf8.toText_ofText] at token
  exact readTree_of_document (document_of_value (.scalar token))

/-- Every spelling of a text is decoded to it, whichever way each of its characters is spelled in.
What a text is encoded as is such a spelling, so that decoding undoes encoding, and between quotes
it is a string token wherever it stands. -/
theorem decodeText_spelling
    (text : String) :
    (∀ spelling : String, Spells text.toList spelling.toList → decodeText spelling = text) ∧
      Spells text.toList (encodeText text).toList ∧
      decodeText (encodeText text) = text ∧
      (∀ (s : Scanner) (rest : List UInt8),
        s.rest = quoted (Utf8.ofText (encodeText text)) ++ rest →
          Grammar.string s =
            Run.token .string s (s.advance (quoted (Utf8.ofText (encodeText text))).length)) ∧
      Document.readTree .strict ⟨none⟩ (quoted (Utf8.ofText (encodeText text))) =
        .ok (.string (encodeText text)) := by
  have isContent := isContent_encodeText text
  exact ⟨fun _ spells => decodeText_of_spells spells, spells_encodeText text,
    decodeText_encodeText text, fun _ _ ahead => string_eq ahead isContent,
    readTree_quoted isContent⟩

/-- A slash by its short escape, and a character beyond four digits by a pair in both cases. -/
theorem decodeText_spelling_pair :
    Spells ['/', '😀'] "\\/\\uD83d\\ude00".toList ∧
      decodeText "\\/\\uD83d\\ude00" = "/😀" := by
  have high : SpellsUnit 0xD83D ['\\', 'u', 'D', '8', '3', 'd'] := by
    have first : HexDigit 13 'D' := .upper (by decide)
    have second : HexDigit 8 '8' := .lower (by decide)
    have third : HexDigit 3 '3' := .lower (by decide)
    have last : HexDigit 13 'd' := .lower (by decide)
    exact .mk first second third last
  have low : SpellsUnit 0xDE00 ['\\', 'u', 'd', 'e', '0', '0'] := by
    have first : HexDigit 13 'd' := .lower (by decide)
    have second : HexDigit 14 'e' := .lower (by decide)
    have zero : HexDigit 0 '0' := .lower (by decide)
    exact .mk first second zero zero
  have slash : SpellsChar '/' ['\\', '/'] := .short (by decide)
  have face : SpellsChar '😀'
      (['\\', 'u', 'D', '8', '3', 'd'] ++ ['\\', 'u', 'd', 'e', '0', '0']) :=
    .pair (by decide) high low
  have spells : Spells ['/', '😀'] "\\/\\uD83d\\ude00".toList := .cons slash (.cons face .nil)
  exact ⟨spells, (decodeText_spelling "/😀").1 _ spells⟩

end Escape
end JsonDoc
