import JsonDoc.Proofs.Reading.TokenStability
import JsonDoc.Proofs.Syntax.Relaxed

/-!
# Relaxed numbers

The relaxed rule reads every relaxed number that a delimiter follows, unless a longer number begins
with it: `relaxedNumber_of_final`. The longer one can only go on with the sign of an exponent, as no
other byte of a number is a delimiter (`IsRelaxedMagnitude.signs`).
-/

namespace JsonDoc
namespace Syntax

open Run Grammar

variable {s : Scanner} {text rest : List UInt8}

/-! ## Classes of bytes -/

theorem isWordPart_of_isHexDigit
    {b : UInt8}
    (h : Byte.isHexDigit b) :
    Byte.isWordPart b := by
  simp only [Byte.isHexDigit, Byte.isWordPart, Byte.isLetter, Bool.or_eq_true, Bool.and_eq_true,
    decide_eq_true_eq] at h ⊢
  rcases h with (digit | ⟨low, high⟩) | ⟨low, high⟩
  · exact Or.inl (Or.inr digit)
  · exact Or.inl (Or.inl (Or.inl ⟨low, UInt8.le_trans high (by decide)⟩))
  · exact Or.inl (Or.inl (Or.inr ⟨low, UInt8.le_trans high (by decide)⟩))

theorem isDigit_of_isOctalDigit
    {b : UInt8}
    (h : Byte.isOctalDigit b) :
    Byte.isDigit b := by
  simp only [Byte.isOctalDigit, Byte.isDigit, Bool.and_eq_true, decide_eq_true_eq] at h ⊢
  exact ⟨h.1, UInt8.le_trans h.2 (by decide)⟩

theorem isDigit_of_isBinaryDigit
    {b : UInt8}
    (h : Byte.isBinaryDigit b) :
    Byte.isDigit b := by
  simp only [Byte.isBinaryDigit, Bool.or_eq_true, beq_iff_eq] at h
  rcases h with rfl | rfl <;> decide

/-- The bytes that tell a literal of another base after a zero. -/
def isRadixSecond (b : UInt8) : Bool :=
  Byte.isHexMark b || Byte.isBinaryMark b || Byte.isOctalDigit b

theorem isWordPart_of_isRadixSecond
    {b : UInt8}
    (h : isRadixSecond b) :
    Byte.isWordPart b := by
  simp only [isRadixSecond, Bool.or_eq_true] at h
  rcases h with (hex | binary) | octal
  · simp only [Byte.isHexMark, Bool.or_eq_true, beq_iff_eq] at hex
    rcases hex with rfl | rfl <;> decide
  · simp only [Byte.isBinaryMark, Bool.or_eq_true, beq_iff_eq] at binary
    rcases binary with rfl | rfl <;> decide
  · exact isWordPart_of_isDigit (isDigit_of_isOctalDigit octal)

theorem isRadixSecond_of_isExponentMark
    {b : UInt8}
    (h : Byte.isExponentMark b) :
    isRadixSecond b = false := by
  simp only [Byte.isExponentMark, Bool.or_eq_true, beq_iff_eq] at h
  rcases h with rfl | rfl <;> decide

/-- An octal digit marks no other base. -/
theorem not_mark_of_isOctalDigit
    {b : UInt8}
    (h : Byte.isOctalDigit b) :
    Byte.isHexMark b = false ∧ Byte.isBinaryMark b = false := by
  have other : ∀ c : UInt8, Byte.isOctalDigit c = false → b ≠ c := by
    rintro c not rfl
    simp [not] at h
  simp only [Byte.isHexMark, Byte.isBinaryMark, Bool.or_eq_false_iff, beq_eq_false_iff_ne]
  exact ⟨⟨other _ (by decide), other _ (by decide)⟩, other _ (by decide), other _ (by decide)⟩

/-! ## Numbers -/

theorem openFraction_eq
    (h : s.rest = text ++ rest)
    (frac : IsOpenFraction text)
    (ends : ∀ b, rest.head? = some b → Byte.isDigit b = false ∧ b ≠ Byte.dot) :
    fraction .relaxed s = done (s.advance text.length) := by
  cases frac with
  | none =>
      refine fraction_none ?_
      rw [h]
      exact fun b hb => (ends b hb).2
  | some all =>
      have taken := Scanner.skipWhile_eq (Scanner.rest_bump h) all fun b hb => (ends b hb).1
      exact fraction_of_digits h (congrArg done taken)

/-- What follows does not make the text longer: with the next byte it is not of the kind. -/
def Final (P : List UInt8 → Prop) (text rest : List UInt8) : Prop :=
  ∀ b, rest.head? = some b → ¬ P (text ++ [b])

/-- No digit follows an exponent that is final. -/
theorem Final.not_isDigit
    {mark : UInt8}
    (isExp : IsOpenExponent (mark :: text))
    (final : Final IsOpenExponent (mark :: text) rest) :
    ∀ b, rest.head? = some b → Byte.isDigit b = false := by
  intro b hb
  cases digit : Byte.isDigit b with
  | false =>
      rfl
  | true =>
      have longer {digits : List UInt8} (all : ∀ c ∈ digits, Byte.isDigit c) :
          ∀ c ∈ digits ++ [b], Byte.isDigit c := by
        simpa [or_imp, forall_and, digit] using all
      refine absurd ?_ (final b hb)
      cases isExp with
      | unsigned isMark all =>
          exact .unsigned isMark (longer all)
      | signed isMark isSign all =>
          exact .signed isMark isSign (longer all)

theorem openExponent_eq
    (h : s.rest = text ++ rest)
    (exp : IsOpenExponent text)
    (ends : text = [] → Delimited rest)
    (final : Final IsOpenExponent text rest) :
    exponent .relaxed s = done (s.advance text.length) := by
  cases exp with
  | none =>
      exact exponent_none (h ▸ ends rfl)
  | @unsigned m ds hm all =>
      have noDigit := final.not_isDigit (.unsigned hm all)
      have taken := Scanner.skipWhile_eq (Scanner.rest_bump h) all noDigit
      refine exponent_of_digits h hm ?_ (congrArg done taken)
      intro b hb
      cases ds with
      | nil =>
          cases sign : Byte.isSign b with
          | false =>
              rfl
          | true =>
              exact absurd (.signed hm sign nofun) (final b hb)
      | cons first more =>
          cases hb
          exact isSign_of_isDigit (all _ List.mem_cons_self)
  | signed hm isSign all =>
      have noDigit := final.not_isDigit (.signed hm isSign all)
      have taken := Scanner.skipWhile_eq (Scanner.rest_bump (Scanner.rest_bump h)) all noDigit
      exact exponent_of_signed h hm isSign (congrArg done taken)

/-- What can come after the integer part of a decimal literal tells no other base. -/
theorem not_isRadixSecond
    {frac exp : List UInt8}
    (isFrac : IsOpenFraction frac)
    (isExp : IsOpenExponent exp)
    (ends : exp = [] → Delimited rest) :
    ∀ b, (frac ++ (exp ++ rest)).head? = some b → isRadixSecond b = false := by
  intro b hb
  cases isFrac with
  | some _ =>
      cases hb
      decide
  | none =>
      cases isExp with
      | none =>
          exact (ends rfl).not_part (fun _ => isWordPart_of_isRadixSecond) b hb
      | unsigned hm _ | signed hm _ _ =>
          cases hb
          exact isRadixSecond_of_isExponentMark hm

theorem radix?_of_decimal
    {int tail : List UInt8}
    (h : s.rest = int ++ tail)
    (isInt : IsInteger int)
    (ends : ∀ b, tail.head? = some b → isRadixSecond b = false) :
    radix? .relaxed s = none := by
  cases isInt with
  | zero =>
      cases tail with
      | nil =>
          simp [radix?, h]
      | cons second tail =>
          have second := ends second rfl
          simp only [isRadixSecond, Bool.or_eq_false_iff] at second
          simp [radix?, h, second]
  | @positive first more digit digits =>
      refine radix?_of_head_ne h ?_
      rintro rfl
      exact absurd digit (by decide)

/-- The digits of a fraction and of an exponent end at what follows them. -/
theorem openExponent_ends
    {exp : List UInt8}
    (isExp : IsOpenExponent exp)
    (ends : exp = [] → Delimited rest) :
    ∀ b, (exp ++ rest).head? = some b → Byte.isDigit b = false ∧ b ≠ Byte.dot := by
  intro b hb
  cases isExp with
  | none =>
      exact ⟨(ends rfl).not_isDigit b hb, (ends rfl b hb).2⟩
  | unsigned hm _ | signed hm _ _ =>
      cases hb
      exact ends_of_isExponentMark hm

theorem openFraction_ends
    {frac exp : List UInt8}
    (isFrac : IsOpenFraction frac)
    (isExp : IsOpenExponent exp)
    (ends : exp = [] → Delimited rest) :
    ∀ b, (frac ++ (exp ++ rest)).head? = some b → Byte.isDigit b = false := by
  intro b hb
  cases isFrac with
  | none =>
      exact (openExponent_ends isExp ends b hb).1
  | some _ =>
      cases hb
      decide

theorem decimal_eq
    {int frac exp : List UInt8}
    (h : s.rest = int ++ (frac ++ (exp ++ rest)))
    (isInt : IsInteger int)
    (isFrac : IsOpenFraction frac)
    (isExp : IsOpenExponent exp)
    (ends : exp = [] → Delimited rest)
    (final : Final IsOpenExponent exp rest) :
    magnitude .relaxed s = done (s.advance (int ++ (frac ++ exp)).length) := by
  have afterInt : (s.advance int.length).rest = frac ++ (exp ++ rest) := Scanner.rest_advance h
  have afterFrac : ((s.advance int.length).advance frac.length).rest = exp ++ rest :=
    Scanner.rest_advance afterInt
  have noRadix := radix?_of_decimal h isInt (not_isRadixSecond isFrac isExp ends)
  simp only [magnitude, noRadix]
  rw [integer_eq h isInt (openFraction_ends isFrac isExp ends), done_andThen,
    openFraction_eq afterInt isFrac (openExponent_ends isExp ends), done_andThen,
    openExponent_eq afterFrac isExp ends final, Scanner.advance_advance, Scanner.advance_advance,
    List.length_append, List.length_append]

/-- The digits after the mark of a base. -/
theorem marked_eq
    {p : UInt8 → Bool} {mark : UInt8} {digits : List UInt8}
    (expected : Expectation)
    (h : s.rest = Byte.zero :: mark :: digits ++ rest)
    (nonempty : digits ≠ [])
    (all : ∀ b ∈ digits, p b)
    (part : ∀ b, p b → Byte.isWordPart b)
    (ends : Delimited rest) :
    atLeastOne p expected (s.advance 2) =
      done (s.advance (Byte.zero :: mark :: digits).length) := by
  have lead : s.rest = [Byte.zero, mark] ++ (digits ++ rest) := h
  have ahead : (s.advance 2).rest = digits ++ rest := Scanner.rest_advance lead
  rw [atLeastOne_eq expected ahead nonempty all (ends.not_part part), Scanner.advance_advance,
    List.length_cons, List.length_cons]
  congr 2
  omega

theorem relaxedMagnitude_eq
    (h : s.rest = text ++ rest)
    (mag : IsRelaxedMagnitude text)
    (ends : Delimited rest)
    (final : Final IsRelaxedMagnitude text rest) :
    magnitude .relaxed s = done (s.advance text.length) := by
  cases mag with
  | @hexadecimal mark digits isMark nonempty all =>
      have radix : radix? .relaxed s =
          some (atLeastOne Byte.isHexDigit .hexDigit (s.advance 2)) := by
        simp [radix?, h, isMark]
      simp only [magnitude, radix]
      exact marked_eq .hexDigit h nonempty all (fun _ => isWordPart_of_isHexDigit) ends
  | @binary mark digits isMark nonempty all =>
      have notHex : Byte.isHexMark mark = false := by
        simp only [Byte.isBinaryMark, Bool.or_eq_true, beq_iff_eq] at isMark
        rcases isMark with rfl | rfl <;> decide
      have radix : radix? .relaxed s =
          some (atLeastOne Byte.isBinaryDigit .binaryDigit (s.advance 2)) := by
        simp [radix?, h, isMark, notHex]
      simp only [magnitude, radix]
      refine marked_eq .binaryDigit h nonempty all ?_ ends
      exact fun _ digit => isWordPart_of_isDigit (isDigit_of_isBinaryDigit digit)
  | @octal digits nonempty all =>
      obtain ⟨first, more, rfl⟩ := List.exists_cons_of_ne_nil nonempty
      have octal := all first List.mem_cons_self
      obtain ⟨notHex, notBinary⟩ := not_mark_of_isOctalDigit octal
      have radix : radix? .relaxed s = some (done (s.bump.skipWhile Byte.isOctalDigit)) := by
        simp [radix?, h, octal, notHex, notBinary]
      have part : ∀ b, Byte.isOctalDigit b → Byte.isWordPart b :=
        fun _ digit => isWordPart_of_isDigit (isDigit_of_isOctalDigit digit)
      have taken := Scanner.skipWhile_eq (Scanner.rest_bump h) all (ends.not_part part)
      simp only [magnitude, radix]
      rw [taken, Scanner.bump, Scanner.advance_advance, Nat.add_comm]
      rfl
  | decimal isInt isFrac isExp =>
      rw [List.append_assoc, List.append_assoc] at h
      refine decimal_eq h isInt isFrac isExp (fun _ => ends) fun b hb longer => final b hb ?_
      simpa using IsRelaxedMagnitude.decimal isInt isFrac longer

/-- A relaxed number is read where a delimiter follows it and no longer number begins with it. -/
theorem relaxedNumber_of_final
    (h : s.rest = text ++ rest)
    (number : IsRelaxedNumber text)
    (ends : Delimited rest)
    (final : Final IsRelaxedNumber text rest) :
    Grammar.number .relaxed s = token .number s (s.advance text.length) := by
  cases number with
  | unsigned mag =>
      have none : s.bumpIf (isSign .relaxed) = s.advance 0 := by
        rw [Scanner.advance_zero]
        refine Scanner.bumpIf_of_not ?_
        intro b hb
        obtain ⟨_, first, more, rfl, digit⟩ := mag.reads
        rw [h] at hb
        cases hb
        exact isSign_of_isDigit digit
      have taken := relaxedMagnitude_eq h mag ends fun b hb longer => final b hb (.unsigned longer)
      exact number_of_magnitude [] h none taken ends
  | @signed sign mag isSign isMag =>
      have signed := Scanner.bumpIf_of_peek (p := Grammar.isSign .relaxed)
        (Scanner.peek_of_rest h) isSign
      have ahead : s.bump.rest = mag ++ rest := Scanner.rest_bump h
      have taken := relaxedMagnitude_eq ahead isMag ends fun b hb longer =>
        final b hb (.signed isSign longer)
      exact number_of_magnitude [sign] h signed taken ends

/-- A byte that a number goes on with, signs apart. -/
def IsPart (b : UInt8) : Prop := Byte.isWordPart b ∨ b = Byte.dot

theorem isPart_of_isDigit
    {b : UInt8}
    (h : Byte.isDigit b) :
    IsPart b :=
  Or.inl (isWordPart_of_isDigit h)

theorem IsInteger.parts
    (h : IsInteger text) :
    ∀ b ∈ text, IsPart b := by
  cases h with
  | zero =>
      exact List.forall_mem_singleton.mpr (isPart_of_isDigit (by decide))
  | positive first more =>
      exact List.forall_mem_cons.mpr ⟨isPart_of_isDigit (isDigit_of_isPositiveDigit first),
        fun b mem => isPart_of_isDigit (more b mem)⟩

theorem IsOpenFraction.parts
    (h : IsOpenFraction text) :
    ∀ b ∈ text, IsPart b := by
  cases h with
  | none =>
      exact nofun
  | some all =>
      exact List.forall_mem_cons.mpr ⟨Or.inr rfl, fun b mem => isPart_of_isDigit (all b mem)⟩

/-- A decimal number up to the mark of its exponent. -/
inductive IsMarked : List UInt8 → Prop
  | mk {int frac : List UInt8} {mark : UInt8} : IsInteger int → IsOpenFraction frac →
      Byte.isExponentMark mark → IsMarked (int ++ (frac ++ [mark]))

theorem IsMarked.parts
    (h : IsMarked text) :
    ∀ b ∈ text, IsPart b := by
  cases h with
  | mk isInt isFrac isMark =>
      exact List.forall_mem_append.mpr ⟨isInt.parts, List.forall_mem_append.mpr ⟨isFrac.parts,
        List.forall_mem_singleton.mpr (Or.inl (isWordPart_of_isExponentMark isMark))⟩⟩

/-- The one sign in a magnitude is that of its exponent. -/
theorem IsRelaxedMagnitude.signs
    (h : IsRelaxedMagnitude text) :
    (∀ b ∈ text, IsPart b) ∨ ∃ front sign digits, text = front ++ sign :: digits ∧
      IsMarked front ∧ Byte.isSign sign ∧ ∀ b ∈ digits, Byte.isDigit b := by
  have literal {second : UInt8} {digits : List UInt8} {p : UInt8 → Bool}
      (isSecond : isRadixSecond second) (part : ∀ b, p b → Byte.isWordPart b)
      (all : ∀ b ∈ digits, p b) : ∀ b ∈ Byte.zero :: second :: digits, IsPart b :=
    List.forall_mem_cons.mpr ⟨isPart_of_isDigit (by decide), List.forall_mem_cons.mpr
      ⟨Or.inl (isWordPart_of_isRadixSecond isSecond), fun b mem => Or.inl (part b (all b mem))⟩⟩
  cases h with
  | hexadecimal isMark _ all =>
      exact Or.inl
        (literal (by simp [isRadixSecond, isMark]) (fun _ => isWordPart_of_isHexDigit) all)
  | binary isMark _ all =>
      refine Or.inl (literal (by simp [isRadixSecond, isMark]) ?_ all)
      exact fun _ digit => isWordPart_of_isDigit (isDigit_of_isBinaryDigit digit)
  | octal _ all =>
      exact Or.inl (List.forall_mem_cons.mpr ⟨isPart_of_isDigit (by decide),
        fun b mem => isPart_of_isDigit (isDigit_of_isOctalDigit (all b mem))⟩)
  | @decimal int frac exp isInt isFrac isExp =>
      cases isExp with
      | none =>
          refine Or.inl ?_
          simp only [List.append_nil, List.forall_mem_append]
          exact ⟨isInt.parts, isFrac.parts⟩
      | unsigned isMark all =>
          refine Or.inl ?_
          simp only [List.forall_mem_append, List.forall_mem_cons]
          exact ⟨isInt.parts, isFrac.parts, Or.inl (isWordPart_of_isExponentMark isMark),
            fun b mem => isPart_of_isDigit (all b mem)⟩
      | signed isMark isSign all =>
          exact Or.inr ⟨_, _, _, by simp, .mk isInt isFrac isMark, isSign, all⟩

theorem IsRelaxedMagnitude.bytes
    (h : IsRelaxedMagnitude text) :
    ∀ b ∈ text, IsPart b ∨ Byte.isSign b := by
  rcases h.signs with parts | ⟨front, sign, digits, rfl, isMarked, isSign, all⟩
  · exact fun b mem => Or.inl (parts b mem)
  · exact List.forall_mem_append.mpr ⟨fun b mem => Or.inl (isMarked.parts b mem),
      List.forall_mem_cons.mpr ⟨Or.inr isSign, fun b mem => Or.inl (isPart_of_isDigit (all b mem))⟩⟩

theorem IsRelaxedNumber.bytes
    (h : IsRelaxedNumber text) :
    ∀ b ∈ text, IsPart b ∨ Byte.isSign b := by
  cases h with
  | unsigned mag =>
      exact mag.bytes
  | signed isSign mag =>
      exact List.forall_mem_cons.mpr ⟨Or.inr isSign, mag.bytes⟩

theorem final_of_follows
    (ends : Follows rest) :
    Final IsRelaxedNumber text rest := by
  intro b hb longer
  obtain ⟨notPart, notDot, notSign⟩ := ends b hb
  rcases longer.bytes b (by simp) with (part | dot) | sign
  · simp [notPart] at part
  · exact notDot dot
  · simp [notSign] at sign

theorem relaxedNumber_eq
    (h : s.rest = text ++ rest)
    (number : IsRelaxedNumber text)
    (ends : Follows rest) :
    Grammar.number .relaxed s = token .number s (s.advance text.length) :=
  relaxedNumber_of_final h number ends.delimited (final_of_follows ends)

/-- The first byte of a relaxed number leads it. -/
theorem IsRelaxedNumber.leads
    (h : IsRelaxedNumber text) :
    ∃ b more, text = b :: more ∧ (Byte.isSign b ∨ Byte.isDigit b) := by
  cases h with
  | unsigned mag =>
      obtain ⟨_, b, more, rfl, digit⟩ := mag.reads
      exact ⟨b, more, rfl, Or.inr digit⟩
  | signed isSign _ =>
      exact ⟨_, _, rfl, Or.inl isSign⟩

end Syntax
end JsonDoc
