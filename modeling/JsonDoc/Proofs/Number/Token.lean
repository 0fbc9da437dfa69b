import JsonDoc.Proofs.Number.Spelling
import JsonDoc.Proofs.Syntax.Derivation
import JsonDoc.Proofs.Text.Encoding

/-!
# The values of number tokens

The strict numbers are the decimal spellings, as bytes. So every strict number has a value,
`value?_of_isNumber`.
-/

namespace JsonDoc
namespace Syntax

open NumberText Utf8

/-! ## From bytes to characters -/

variable {b : UInt8} {text : List UInt8}

theorem isDigit_asciiChar
    (h : Byte.isDigit b) :
    b.toNat < 0x80 ∧ (asciiChar b).isDigit := by
  obtain ⟨low, high⟩ : 48 ≤ b.toNat ∧ b.toNat ≤ 57 := by
    simpa [Byte.isDigit, UInt8.le_iff_toNat_le] using h
  have value := val_asciiChar (b := b) (by omega)
  refine ⟨by omega, ?_⟩
  simp [Char.isDigit, UInt32.le_iff_toNat_le, value, low, high]

theorem isExponentMark_asciiChar
    (h : Byte.isExponentMark b) :
    b.toNat < 0x80 ∧ NumberText.isExponentMark (asciiChar b) := by
  simp only [Byte.isExponentMark, Bool.or_eq_true, beq_iff_eq] at h
  rcases h with rfl | rfl <;> decide

/-- Bytes that stand for one character each. -/
def Ascii (text : List UInt8) : Prop := ∀ b ∈ text, b.toNat < 0x80

theorem ascii_nil :
    Ascii [] := by
  simp [Ascii]

theorem Ascii.cons
    (h : b.toNat < 0x80)
    (k : Ascii text) :
    Ascii (b :: text) := by
  intro c mem
  rcases List.mem_cons.mp mem with rfl | mem
  · exact h
  · exact k c mem

theorem Ascii.append
    {more : List UInt8}
    (h : Ascii text)
    (k : Ascii more) :
    Ascii (text ++ more) := by
  intro c mem
  rcases List.mem_append.mp mem with mem | mem
  · exact h c mem
  · exact k c mem

/-- A class of bytes below 0x80 with what it says of their characters. -/
theorem ascii_map
    {p : UInt8 → Bool} {P : Char → Prop}
    (each : ∀ b, p b → b.toNat < 0x80 ∧ P (asciiChar b))
    (all : ∀ b ∈ text, p b) :
    Ascii text ∧ ∀ c ∈ text.map asciiChar, P c := by
  refine ⟨fun b mem => (each b (all b mem)).1, ?_⟩
  intro c mem
  obtain ⟨b, here, rfl⟩ := List.mem_map.mp mem
  exact (each b (all b here)).2

theorem isDigit_map
    (all : ∀ b ∈ text, Byte.isDigit b) :
    Ascii text ∧ ∀ c ∈ text.map asciiChar, c.isDigit :=
  ascii_map (fun _ => isDigit_asciiChar) all

theorem IsInteger.whole
    (h : IsInteger text) :
    Ascii text ∧ Whole (text.map asciiChar) := by
  cases h with
  | zero =>
      exact ⟨ascii_nil.cons (by decide), .zero⟩
  | @positive first more positive digits =>
      have digit : Byte.isDigit first := by
        simp only [Byte.isPositiveDigit, Byte.isDigit, Bool.and_eq_true, decide_eq_true_eq] at *
        exact ⟨UInt8.le_trans (by decide) positive.1, positive.2⟩
      obtain ⟨small, isDigit⟩ := isDigit_asciiChar digit
      obtain ⟨ascii, all⟩ := isDigit_map digits
      refine ⟨ascii.cons small, .positive isDigit ?_ all⟩
      intro zero
      have value := val_asciiChar small
      have low : 49 ≤ first.toNat := by
        simp only [Byte.isPositiveDigit, Bool.and_eq_true, decide_eq_true_eq,
          UInt8.le_iff_toNat_le] at positive
        exact positive.1
      rw [zero] at value
      have : (48 : Nat) = first.toNat := value
      omega

theorem IsFraction.fraction
    (h : IsFraction text) :
    Ascii text ∧ ∃ digits, Fraction (text.map asciiChar) digits := by
  cases h with
  | none =>
      exact ⟨ascii_nil, [], .none⟩
  | @some digits ds =>
      obtain ⟨ascii, all⟩ := isDigit_map ds.2
      exact ⟨ascii.cons (by decide), _, .some (by simpa using ds.1) all⟩

theorem IsExponent.exponent
    (h : IsExponent text) :
    Ascii text ∧ ∃ e, Exponent (text.map asciiChar) e := by
  cases h with
  | none =>
      exact ⟨ascii_nil, 0, .none⟩
  | @unsigned mark digits isMark ds =>
      obtain ⟨small, isMark⟩ := isExponentMark_asciiChar isMark
      obtain ⟨ascii, all⟩ := isDigit_map ds.2
      exact ⟨ascii.cons small, _, .unsigned isMark (by simpa using ds.1) all⟩
  | @signed mark sign digits isMark isSign ds =>
      obtain ⟨small, isMark⟩ := isExponentMark_asciiChar isMark
      obtain ⟨ascii, all⟩ := isDigit_map ds.2
      simp only [Byte.isSign, Bool.or_eq_true, beq_iff_eq] at isSign
      rcases isSign with rfl | rfl
      · exact ⟨(ascii.cons (by decide)).cons small, _,
          .positive isMark (by simpa using ds.1) all⟩
      · exact ⟨(ascii.cons (by decide)).cons small, _,
          .negative isMark (by simpa using ds.1) all⟩

theorem IsMagnitude.spells
    (h : IsMagnitude text) :
    Ascii text ∧ ∃ d, Spells (text.map asciiChar) d := by
  cases h with
  | mk int frac exp =>
      obtain ⟨asciiInt, whole⟩ := int.whole
      obtain ⟨asciiFrac, digits, fraction⟩ := frac.fraction
      obtain ⟨asciiExp, e, exponent⟩ := exp.exponent
      have spells := Spells.mk whole fraction exponent
      rw [← List.map_append, ← List.map_append] at spells
      exact ⟨asciiInt.append (asciiFrac.append asciiExp), _, spells⟩

/-- Every strict number has a value. -/
theorem value?_of_isNumber
    (h : IsNumber text) :
    NumberText.value? (decode text) = some (numberValue text) := by
  have some : ∃ n, NumberText.value? (decode text) = some n := by
    cases h with
    | positive mag =>
        obtain ⟨ascii, d, spells⟩ := mag.spells
        rw [decode_ascii ascii]
        exact ⟨_, (value?_of_spells spells).1⟩
    | @negative magnitude mag =>
        obtain ⟨ascii, d, spells⟩ := mag.spells
        have all : Ascii (Byte.minus :: magnitude) := ascii.cons (by decide)
        rw [decode_ascii all]
        exact ⟨_, (value?_of_spells spells).2⟩
  obtain ⟨n, value⟩ := some
  rw [numberValue, value]
  rfl

/-! ## From characters to bytes -/

theorem encode_of_isDigit
    {c : Char}
    (h : c.isDigit) :
    String.utf8EncodeChar c = [UInt8.ofNat c.val.toNat] ∧
      Byte.isDigit (UInt8.ofNat c.val.toNat) := by
  obtain ⟨low, high⟩ := bounds_of_isDigit h
  refine ⟨utf8EncodeChar_ascii (by omega), ?_⟩
  have value := toNat_ofNat_of_lt (show c.val.toNat < 256 by omega)
  simp only [Byte.isDigit, Bool.and_eq_true, decide_eq_true_eq, UInt8.le_iff_toNat_le, value]
  exact ⟨low, high⟩

/-- A class of characters below 0x80 with what it says of their bytes. -/
theorem encode_class
    {P : Char → Prop} {p : UInt8 → Prop} {chars : List Char}
    (each : ∀ c, P c → ∃ b, String.utf8EncodeChar c = [b] ∧ p b)
    (all : ∀ c ∈ chars, P c) :
    ∀ b ∈ encode chars, p b := by
  intro b mem
  obtain ⟨c, here, mem⟩ := List.mem_flatMap.mp mem
  obtain ⟨b', eq, holds⟩ := each c (all c here)
  rw [eq, List.mem_singleton] at mem
  exact mem ▸ holds

theorem encode_ne_nil
    {chars : List Char}
    (some : chars ≠ []) :
    encode chars ≠ [] := by
  intro nothing
  have decoded := decode_encode chars
  rw [nothing] at decoded
  exact some decoded.symm

theorem isDigit_encode
    {chars : List Char}
    (all : ∀ c ∈ chars, c.isDigit) :
    ∀ b ∈ encode chars, Byte.isDigit b :=
  encode_class (fun _ digit => ⟨_, encode_of_isDigit digit⟩) all

theorem digits_encode
    {chars : List Char}
    (some : chars ≠ [])
    (all : ∀ c ∈ chars, c.isDigit) :
    Digits (encode chars) :=
  ⟨encode_ne_nil some, isDigit_encode all⟩

theorem isInteger_encode
    {chars : List Char}
    (h : Whole chars) :
    IsInteger (encode chars) := by
  cases h with
  | zero =>
      exact .zero
  | @positive first more digit nonzero all =>
      obtain ⟨low, high⟩ := bounds_of_isDigit digit
      have notZero : first.val.toNat ≠ 48 := by
        intro eq
        exact nonzero (Char.ext (UInt32.toNat_inj.mp eq))
      rw [encode_cons, (encode_of_isDigit digit).1]
      refine .positive ?_ (isDigit_encode all)
      have value := toNat_ofNat_of_lt (show first.val.toNat < 256 by omega)
      have above : (0x31 : UInt8).toNat ≤ first.val.toNat := by
        change 49 ≤ _
        omega
      simp only [Byte.isPositiveDigit, Bool.and_eq_true, decide_eq_true_eq,
        UInt8.le_iff_toNat_le, value]
      exact ⟨above, high⟩

theorem isFraction_encode
    {chars digits : List Char}
    (h : Fraction chars digits) :
    IsFraction (encode chars) := by
  cases h with
  | none =>
      exact .none
  | some some all =>
      exact .some (digits_encode some all)

theorem isExponentMark_encode
    {c : Char}
    (h : NumberText.isExponentMark c) :
    ∃ b, String.utf8EncodeChar c = [b] ∧ Byte.isExponentMark b := by
  simp only [NumberText.isExponentMark, Bool.or_eq_true, beq_iff_eq] at h
  rcases h with rfl | rfl
  · exact ⟨0x65, rfl, by decide⟩
  · exact ⟨0x45, rfl, by decide⟩

theorem isExponent_encode
    {chars : List Char} {e : Int}
    (h : Exponent chars e) :
    IsExponent (encode chars) := by
  cases h with
  | none =>
      exact .none
  | unsigned isMark some all =>
      obtain ⟨b, eq, mark⟩ := isExponentMark_encode isMark
      rw [encode_cons, eq]
      exact .unsigned mark (digits_encode some all)
  | positive isMark some all =>
      obtain ⟨b, eq, mark⟩ := isExponentMark_encode isMark
      rw [encode_cons, eq]
      exact .signed mark (show Byte.isSign Byte.plus by decide) (digits_encode some all)
  | negative isMark some all =>
      obtain ⟨b, eq, mark⟩ := isExponentMark_encode isMark
      rw [encode_cons, eq]
      exact .signed mark (show Byte.isSign Byte.minus by decide) (digits_encode some all)

/-- The bytes of a decimal spelling are a strict number after its sign. -/
theorem isMagnitude_encode
    {body : List Char} {d : Decimal}
    (h : Spells body d) :
    IsMagnitude (encode body) := by
  cases h with
  | mk whole fraction exponent =>
      rw [encode_append, encode_append]
      exact .mk (isInteger_encode whole) (isFraction_encode fraction) (isExponent_encode exponent)

/-- The bytes of a spelling are a strict number with the value that is spelled. -/
theorem isNumber_encode
    {body : List Char} {d : Decimal}
    (h : Spells body d)
    (negative : Bool) :
    IsNumber (encode (if negative then '-' :: body else body)) ∧
      numberValue (encode (if negative then '-' :: body else body)) =
        ⟨negative, d.nearest, d.nearest_lt⟩ := by
  obtain ⟨plain, signed⟩ := value?_of_spells h
  unfold numberValue
  rw [decode_encode]
  cases negative with
  | false =>
      refine ⟨.positive (isMagnitude_encode h), ?_⟩
      simp [plain, Decimal.toBinary64]
  | true =>
      refine ⟨.negative (isMagnitude_encode h), ?_⟩
      simp [signed, Decimal.toBinary64, Binary64.neg]

end Syntax
end JsonDoc
