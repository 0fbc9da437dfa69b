import JsonDoc.Proofs.Number.Token
import JsonDoc.Proofs.Syntax.RelaxedDerivation

/-!
# The values of relaxed number tokens

Every relaxed number has a value, `value?_of_isRelaxedNumber`: the reader of number texts takes
hexadecimal, binary and octal literals, and decimal ones also where the digits of the fraction or
of the exponent are missing.
-/

namespace JsonDoc
namespace NumberText

/-! ## Literals of another base -/

theorem digit?_decimal
    {c : Char}
    (low : 48 ≤ c.val.toNat)
    (high : c.val.toNat ≤ 57) :
    Hex.digit? c = some (c.val.toNat - 48) := by
  have inside : '0' ≤ c ∧ c ≤ '9' := by
    simp only [Char.le_def, UInt32.le_iff_toNat_le]
    exact ⟨low, high⟩
  rw [Hex.digit?, if_pos inside]
  rfl

theorem digit?_upper
    {c : Char}
    (low : 65 ≤ c.val.toNat)
    (high : c.val.toNat ≤ 70) :
    Hex.digit? c = some (c.val.toNat - 65 + 10) := by
  have notDecimal : ¬ ('0' ≤ c ∧ c ≤ '9') := by
    simp only [Char.le_def, UInt32.le_iff_toNat_le]
    rintro ⟨_, small⟩
    have : c.val.toNat ≤ 57 := small
    omega
  have notLower : ¬ ('a' ≤ c ∧ c ≤ 'f') := by
    simp only [Char.le_def, UInt32.le_iff_toNat_le]
    rintro ⟨large, _⟩
    have : 97 ≤ c.val.toNat := large
    omega
  have inside : 'A' ≤ c ∧ c ≤ 'F' := by
    simp only [Char.le_def, UInt32.le_iff_toNat_le]
    exact ⟨low, high⟩
  rw [Hex.digit?, if_neg notDecimal, if_neg notLower, if_pos inside]
  rfl

theorem digit?_lower
    {c : Char}
    (low : 97 ≤ c.val.toNat)
    (high : c.val.toNat ≤ 102) :
    Hex.digit? c = some (c.val.toNat - 97 + 10) := by
  have notDecimal : ¬ ('0' ≤ c ∧ c ≤ '9') := by
    simp only [Char.le_def, UInt32.le_iff_toNat_le]
    rintro ⟨_, small⟩
    have : c.val.toNat ≤ 57 := small
    omega
  have inside : 'a' ≤ c ∧ c ≤ 'f' := by
    simp only [Char.le_def, UInt32.le_iff_toNat_le]
    exact ⟨low, high⟩
  rw [Hex.digit?, if_neg notDecimal, if_pos inside]
  rfl

/-- A digit of a base. -/
def IsDigitOf
    (base : Nat)
    (c : Char) : Prop :=
  ∃ digit, Hex.digit? c = some digit ∧ digit < base

theorem foldlM_pushDigit
    {base : Nat} {digits : List Char}
    (all : ∀ c ∈ digits, IsDigitOf base c) :
    ∀ total : Binary64, ∃ n, digits.foldlM (pushDigit base) total = some n := by
  induction digits with
  | nil =>
      exact fun total => ⟨total, rfl⟩
  | cons c digits ih =>
      intro total
      obtain ⟨digit, value, small⟩ := all c List.mem_cons_self
      have pushed : pushDigit base total c =
          some ((total.mul (Binary64.ofInt base)).add (Binary64.ofInt digit)) := by
        simp [pushDigit, value, small]
      rw [List.foldlM_cons, pushed]
      exact ih (fun d mem => all d (List.mem_cons_of_mem _ mem)) _

theorem radix?_of_digits
    {base : Nat} {digits : List Char}
    (some : digits ≠ [])
    (all : ∀ c ∈ digits, IsDigitOf base c) :
    ∃ n, radix? base digits = Option.some n := by
  rw [radix?, if_neg (by simpa using some)]
  exact foldlM_pushDigit all Binary64.zero

/-- Octal digits after a zero. -/
theorem magnitude?_octal
    {digits : List Char}
    (some : digits ≠ [])
    (all : ∀ c ∈ digits, isOctalDigit c) :
    magnitude? ('0' :: digits) = radix? 8 digits := by
  obtain ⟨c, more, rfl⟩ := List.exists_cons_of_ne_nil some
  have octal : (c :: more).all isOctalDigit := List.all_eq_true.mpr all
  have first : isOctalDigit c := all c List.mem_cons_self
  have notMark : c ≠ 'x' ∧ c ≠ 'X' ∧ c ≠ 'b' ∧ c ≠ 'B' := by
    refine ⟨?_, ?_, ?_, ?_⟩ <;> (rintro rfl; exact absurd first (by decide))
  obtain ⟨hx, hX, hb, hB⟩ := notMark
  simp only [magnitude?, hx, hX, hb, hB, or_self, if_false, octal, if_true]

/-! ## Decimal literals with missing digits -/

/-- An exponent without digits. -/
inductive OpenExponent : List Char → Prop
  | unsigned {mark : Char} : isExponentMark mark → OpenExponent [mark]
  | signed {mark sign : Char} : isExponentMark mark → isSign sign → OpenExponent [mark, sign]

theorem OpenExponent.head
    {exponent : List Char}
    (h : OpenExponent exponent) :
    ∀ c, exponent.head? = some c → isExponentMark c := by
  intro c hc
  cases h with
  | unsigned isMark | signed isMark _ =>
      cases hc
      exact isMark

/-- A character that can end a number that is not open. -/
def closes (c : Char) : Bool := c.isDigit || c == '.'

theorem isSign_of_closes
    {c : Char}
    (h : closes c) :
    isSign c = false := by
  simp only [closes, Bool.or_eq_true, beq_iff_eq] at h
  rcases h with digit | rfl
  · exact isSign_of_isDigit digit
  · rfl

theorem isExponentMark_of_closes
    {c : Char}
    (h : closes c) :
    isExponentMark c = false := by
  simp only [closes, Bool.or_eq_true, beq_iff_eq] at h
  rcases h with digit | rfl
  · exact isExponentMark_of_isDigit digit
  · rfl

theorem isSign_of_isExponentMark
    {mark : Char}
    (h : isExponentMark mark) :
    isSign mark = false := by
  simp only [isExponentMark, Bool.or_eq_true, beq_iff_eq] at h
  rcases h with rfl | rfl <;> rfl

/-- Exponent marks and signs behind a number that is not open are cut off, however many they are. -/
theorem withoutOpenExponent_append
    {chars marks signs : List Char}
    (h : EndsIn closes chars)
    (areMarks : ∀ c ∈ marks, isExponentMark c)
    (areSigns : ∀ c ∈ signs, isSign c) :
    withoutOpenExponent (chars ++ (marks ++ signs)) = chars := by
  obtain ⟨front, last, rfl, ends⟩ := h
  have noSign : (marks.reverse ++ last :: front.reverse).dropWhile isSign =
      marks.reverse ++ last :: front.reverse := by
    cases split : marks.reverse with
    | nil =>
        simp [isSign_of_closes ends]
    | cons mark more =>
        have isMark := areMarks mark (List.mem_reverse.mp (by simp [split]))
        simp [isSign_of_isExponentMark isMark]
  have reversed : (front ++ [last] ++ (marks ++ signs)).reverse =
      signs.reverse ++ (marks.reverse ++ last :: front.reverse) := by
    simp
  rw [withoutOpenExponent, reversed, List.dropWhile_append_of_pos (by simpa using areSigns), noSign,
    List.dropWhile_append_of_pos (by simpa using areMarks),
    List.dropWhile_cons_of_neg (by simp [isExponentMark_of_closes ends])]
  simp

theorem withoutOpenExponent_of_closes
    {chars : List Char}
    (h : EndsIn closes chars) :
    withoutOpenExponent chars = chars := by
  simpa using withoutOpenExponent_append h (List.forall_mem_nil _) (List.forall_mem_nil _)

theorem withoutOpenExponent_of_open
    {chars exponent : List Char}
    (h : EndsIn closes chars)
    (exp : OpenExponent exponent) :
    withoutOpenExponent (chars ++ exponent) = chars := by
  cases exp with
  | unsigned isMark =>
      exact withoutOpenExponent_append h (List.forall_mem_singleton.mpr isMark)
        (List.forall_mem_nil _)
  | signed isMark isSign =>
      exact withoutOpenExponent_append h (List.forall_mem_singleton.mpr isMark)
        (List.forall_mem_singleton.mpr isSign)

theorem endsIn_of_isDigit
    {digits : List Char}
    (some : digits ≠ [])
    (all : ∀ c ∈ digits, c.isDigit) :
    EndsIn closes digits := by
  refine endsIn_of_all some ?_
  intro c mem
  simp [closes, all c mem]

theorem Whole.endsIn
    {whole : List Char}
    (h : Whole whole) :
    EndsIn closes whole :=
  endsIn_of_isDigit h.ne_nil h.isDigit

theorem OpenFraction.endsIn
    {whole fraction digits : List Char}
    (int : EndsIn closes whole)
    (frac : OpenFraction fraction digits) :
    EndsIn closes (whole ++ fraction) := by
  cases frac with
  | none =>
      rw [List.append_nil]
      exact int
  | some all =>
      refine (endsIn_of_all (List.cons_ne_nil _ _) ?_).append_left whole
      intro c mem
      rcases List.mem_cons.mp mem with rfl | mem
      · rfl
      · simp [closes, all c mem]

theorem Exponent.endsIn
    {chars exponent : List Char} {e : Int}
    (h : EndsIn closes chars)
    (exp : Exponent exponent e) :
    EndsIn closes (chars ++ exponent) := by
  cases exp with
  | none =>
      rw [List.append_nil]
      exact h
  | @unsigned mark _ _ some all =>
      exact ((endsIn_of_isDigit some all).append_left [mark]).append_left chars
  | @positive mark _ _ some all =>
      exact ((endsIn_of_isDigit some all).append_left [mark, '+']).append_left chars
  | @negative mark _ _ some all =>
      exact ((endsIn_of_isDigit some all).append_left [mark, '-']).append_left chars

/-- A zero that goes on as a decimal literal goes on with a point or with an exponent. -/
theorem Whole.second
    {whole fraction digits exponent : List Char}
    (int : Whole whole)
    (frac : OpenFraction fraction digits)
    (head : ∀ c, exponent.head? = some c → isExponentMark c)
    {c : Char} {more : List Char}
    (h : whole ++ (fraction ++ exponent) = '0' :: c :: more) :
    c = '.' ∨ isExponentMark c := by
  cases int with
  | zero =>
      simp only [List.cons_append, List.nil_append, List.cons.injEq, true_and] at h
      cases frac with
      | none =>
          rw [List.nil_append] at h
          exact Or.inr (head c (by rw [h]; rfl))
      | some _ =>
          simp only [List.cons_append, List.cons.injEq] at h
          exact Or.inl h.1.symm
  | positive _ notZero _ =>
      simp only [List.cons_append, List.cons.injEq] at h
      exact absurd h.1 notZero

/-- A decimal literal has the value of what is left of it without an open exponent. -/
theorem magnitude?_of_kept
    {whole fraction digits exponent rest : List Char} {d : Decimal}
    (int : Whole whole)
    (frac : OpenFraction fraction digits)
    (head : ∀ c, exponent.head? = some c → isExponentMark c)
    (kept : withoutOpenExponent (whole ++ (fraction ++ exponent)) = whole ++ rest)
    (value : decimal? (whole ++ rest) = some d) :
    ∃ n, magnitude? (whole ++ (fraction ++ exponent)) = some n := by
  obtain ⟨first, more, starts, digit⟩ := int.head
  refine ⟨d.toBinary64, magnitude?_eq ?_ ?_ fun c more h => int.second frac head h⟩
  · rw [kept]
    exact value
  · rw [kept, starts]
    simpa using digit

/-- A decimal literal has a value, whatever digits are missing after the point and after the
exponent mark. -/
theorem magnitude?_of_open
    {whole fraction digits exponent : List Char}
    (int : Whole whole)
    (frac : OpenFraction fraction digits)
    (exp : (∃ e, Exponent exponent e) ∨ OpenExponent exponent) :
    ∃ n, magnitude? (whole ++ (fraction ++ exponent)) = some n := by
  rcases exp with ⟨e, exp⟩ | exp
  · have kept := withoutOpenExponent_of_closes (exp.endsIn (frac.endsIn int.endsIn))
    rw [List.append_assoc] at kept
    exact magnitude?_of_kept int frac exp.head kept (decimal?_eq int frac exp)
  · have kept := withoutOpenExponent_of_open (frac.endsIn int.endsIn) exp
    rw [List.append_assoc] at kept
    have value := decimal?_eq int frac .none
    rw [List.append_nil] at value
    exact magnitude?_of_kept int frac exp.head kept value

end NumberText

namespace Syntax

open NumberText Utf8

variable {b : UInt8} {text : List UInt8}

/-! ## From bytes to characters -/

theorem isDigitOf_hexadecimal
    (h : Byte.isHexDigit b) :
    b.toNat < 0x80 ∧ IsDigitOf 16 (asciiChar b) := by
  simp only [Byte.isHexDigit, Byte.isDigit, Bool.or_eq_true, Bool.and_eq_true, decide_eq_true_eq,
    UInt8.le_iff_toNat_le] at h
  have small : b.toNat < 0x80 := by
    rcases h with (⟨_, high⟩ | ⟨_, high⟩) | ⟨_, high⟩
    · exact Nat.lt_of_le_of_lt high (by decide)
    · exact Nat.lt_of_le_of_lt high (by decide)
    · exact Nat.lt_of_le_of_lt high (by decide)
  have value := val_asciiChar small
  refine ⟨small, ?_⟩
  rcases h with (⟨low, high⟩ | ⟨low, high⟩) | ⟨low, high⟩
  · have low : 48 ≤ b.toNat := low
    have high : b.toNat ≤ 57 := high
    exact ⟨_, digit?_decimal (by omega) (by omega), by omega⟩
  · have low : 65 ≤ b.toNat := low
    have high : b.toNat ≤ 70 := high
    exact ⟨_, digit?_upper (by omega) (by omega), by omega⟩
  · have low : 97 ≤ b.toNat := low
    have high : b.toNat ≤ 102 := high
    exact ⟨_, digit?_lower (by omega) (by omega), by omega⟩

theorem isDigitOf_octal
    (h : Byte.isOctalDigit b) :
    b.toNat < 0x80 ∧ IsDigitOf 8 (asciiChar b) ∧ isOctalDigit (asciiChar b) := by
  simp only [Byte.isOctalDigit, Bool.and_eq_true, decide_eq_true_eq, UInt8.le_iff_toNat_le] at h
  have low : 48 ≤ b.toNat := h.1
  have high : b.toNat ≤ 55 := h.2
  have value := val_asciiChar (b := b) (by omega)
  refine ⟨by omega, ⟨_, digit?_decimal (by omega) (by omega), by omega⟩, ?_⟩
  simp only [NumberText.isOctalDigit, Bool.and_eq_true, decide_eq_true_eq, Char.le_def,
    UInt32.le_iff_toNat_le, value]
  exact h

theorem isDigitOf_binary
    (h : Byte.isBinaryDigit b) :
    b.toNat < 0x80 ∧ IsDigitOf 2 (asciiChar b) := by
  simp only [Byte.isBinaryDigit, Bool.or_eq_true, beq_iff_eq] at h
  rcases h with rfl | rfl
  · exact ⟨by decide, 0, rfl, by decide⟩
  · exact ⟨by decide, 1, rfl, by decide⟩

theorem isSign_asciiChar
    (h : Byte.isSign b) :
    b.toNat < 0x80 ∧ (asciiChar b = '+' ∨ asciiChar b = '-') := by
  simp only [Byte.isSign, Bool.or_eq_true, beq_iff_eq] at h
  rcases h with rfl | rfl
  · exact ⟨by decide, Or.inl rfl⟩
  · exact ⟨by decide, Or.inr rfl⟩

theorem IsOpenFraction.openFraction
    (h : IsOpenFraction text) :
    Ascii text ∧ ∃ digits, OpenFraction (text.map asciiChar) digits := by
  cases h with
  | none =>
      exact ⟨ascii_nil, [], .none⟩
  | some digits =>
      obtain ⟨ascii, all⟩ := isDigit_map digits
      exact ⟨ascii.cons (by decide), _, .some all⟩

theorem IsOpenExponent.openExponent
    (h : IsOpenExponent text) :
    Ascii text ∧ ((∃ e, Exponent (text.map asciiChar) e) ∨ OpenExponent (text.map asciiChar)) := by
  cases h with
  | none =>
      exact ⟨ascii_nil, Or.inl ⟨0, .none⟩⟩
  | @unsigned mark digits isMark digitsAre =>
      obtain ⟨small, isMark⟩ := isExponentMark_asciiChar isMark
      obtain ⟨ascii, all⟩ := isDigit_map digitsAre
      refine ⟨ascii.cons small, ?_⟩
      by_cases none : digits = []
      · subst none
        exact Or.inr (.unsigned isMark)
      · exact Or.inl ⟨_, .unsigned isMark (by simpa using none) all⟩
  | @signed mark sign digits isMark isSign digitsAre =>
      obtain ⟨small, isMark⟩ := isExponentMark_asciiChar isMark
      obtain ⟨smallSign, sign⟩ := isSign_asciiChar isSign
      obtain ⟨ascii, all⟩ := isDigit_map digitsAre
      refine ⟨(ascii.cons smallSign).cons small, ?_⟩
      by_cases none : digits = []
      · subst none
        refine Or.inr (.signed isMark ?_)
        rcases sign with eq | eq
        · rw [eq]
          rfl
        · rw [eq]
          rfl
      · have some : digits.map asciiChar ≠ [] := by simpa using none
        rcases sign with eq | eq
        · refine Or.inl ⟨ofDigits (digits.map asciiChar), ?_⟩
          rw [List.map_cons, List.map_cons, eq]
          exact .positive isMark some all
        · refine Or.inl ⟨-(ofDigits (digits.map asciiChar) : Int), ?_⟩
          rw [List.map_cons, List.map_cons, eq]
          exact .negative isMark some all

/-- A literal of a base after its mark. -/
theorem magnitude?_marked
    {mark : UInt8} {digits : List UInt8} {base : Nat} {p : UInt8 → Bool}
    (each : ∀ b, p b → b.toNat < 0x80 ∧ IsDigitOf base (asciiChar b))
    (small : mark.toNat < 0x80)
    (some : digits ≠ [])
    (all : ∀ b ∈ digits, p b)
    (reads : ∀ digits, magnitude? ('0' :: asciiChar mark :: digits) = radix? base digits) :
    Ascii (Byte.zero :: mark :: digits) ∧
      ∃ n, magnitude? ((Byte.zero :: mark :: digits).map asciiChar) = Option.some n := by
  obtain ⟨ascii, digitsAre⟩ := ascii_map each all
  refine ⟨(ascii.cons small).cons (by decide), ?_⟩
  obtain ⟨n, value⟩ := radix?_of_digits (by simpa using some) digitsAre
  exact ⟨n, (reads _).trans value⟩

/-- The magnitude of a relaxed number has a value and starts with a digit. -/
theorem IsRelaxedMagnitude.reads
    (h : IsRelaxedMagnitude text) :
    (Ascii text ∧ ∃ n, magnitude? (text.map asciiChar) = some n) ∧
      ∃ first more, text = first :: more ∧ Byte.isDigit first := by
  cases h with
  | hexadecimal isMark some all =>
      refine ⟨?_, _, _, rfl, by decide⟩
      simp only [Byte.isHexMark, Bool.or_eq_true, beq_iff_eq] at isMark
      rcases isMark with rfl | rfl
      · exact magnitude?_marked (fun _ => isDigitOf_hexadecimal) (by decide) some all
          fun _ => rfl
      · exact magnitude?_marked (fun _ => isDigitOf_hexadecimal) (by decide) some all
          fun _ => rfl
  | binary isMark some all =>
      refine ⟨?_, _, _, rfl, by decide⟩
      simp only [Byte.isBinaryMark, Bool.or_eq_true, beq_iff_eq] at isMark
      rcases isMark with rfl | rfl
      · exact magnitude?_marked (fun _ => isDigitOf_binary) (by decide) some all fun _ => rfl
      · exact magnitude?_marked (fun _ => isDigitOf_binary) (by decide) some all fun _ => rfl
  | @octal digits some all =>
      obtain ⟨ascii, digitsAre⟩ :=
        ascii_map (P := fun c => IsDigitOf 8 c ∧ NumberText.isOctalDigit c)
        (fun _ => isDigitOf_octal) all
      have nonempty : digits.map asciiChar ≠ [] := by simpa using some
      obtain ⟨n, value⟩ := radix?_of_digits nonempty fun c mem => (digitsAre c mem).1
      have reads := magnitude?_octal nonempty fun c mem => (digitsAre c mem).2
      exact ⟨⟨ascii.cons (by decide), n, reads.trans value⟩, _, _, rfl, by decide⟩
  | decimal int frac exp =>
      obtain ⟨asciiInt, whole⟩ := int.whole
      obtain ⟨asciiFrac, digits, fraction⟩ := frac.openFraction
      obtain ⟨asciiExp, exponent⟩ := exp.openExponent
      obtain ⟨n, value⟩ := magnitude?_of_open whole fraction exponent
      rw [← List.map_append, ← List.map_append] at value
      refine ⟨⟨asciiInt.append (asciiFrac.append asciiExp), n, value⟩, ?_⟩
      cases int with
      | zero =>
          exact ⟨_, _, rfl, by decide⟩
      | positive digit _ =>
          refine ⟨_, _, rfl, ?_⟩
          simp only [Byte.isPositiveDigit, Byte.isDigit, Bool.and_eq_true, decide_eq_true_eq] at *
          exact ⟨UInt8.le_trans (by decide) digit.1, digit.2⟩

/-- Every relaxed number has a value. -/
theorem value?_of_isRelaxedNumber
    (h : IsRelaxedNumber text) :
    NumberText.value? (decode text) = some (numberValue text) := by
  have some : ∃ n, NumberText.value? (decode text) = some n := by
    cases h with
    | unsigned mag =>
        obtain ⟨⟨ascii, n, value⟩, first, more, rfl, digit⟩ := mag.reads
        obtain ⟨_, digit⟩ := isDigit_asciiChar digit
        rw [decode_ascii ascii]
        exact ⟨n, (value?_of_isDigit digit _).trans value⟩
    | signed isSign mag =>
        obtain ⟨⟨ascii, n, value⟩, _⟩ := mag.reads
        obtain ⟨small, sign⟩ := isSign_asciiChar isSign
        rw [decode_ascii (ascii.cons small), List.map_cons]
        rcases sign with eq | eq
        · exact ⟨n, by rw [eq]; exact value⟩
        · exact ⟨n.neg, by rw [eq, value?, value]; rfl⟩
  obtain ⟨n, value⟩ := some
  rw [numberValue, value]
  rfl

end Syntax
end JsonDoc
