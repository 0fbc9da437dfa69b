import JsonDoc.Proofs.Syntax.Token

/-!
# Strict tokens

The rules that read strict tokens take exactly the texts that the grammar derives: a rule that
succeeds has taken such a text, and in front of such a text, followed by a byte that ends it, the
rule takes all of it.
-/

namespace JsonDoc
namespace Syntax

open Run Grammar

/-! ## Numbers -/

variable {s : Scanner} {text rest : List UInt8}

theorem integer_eq
    (h : s.rest = text ++ rest)
    (int : IsInteger text)
    (ends : ∀ b, rest.head? = some b → Byte.isDigit b = false) :
    integer s = done (s.advance text.length) := by
  cases int with
  | zero =>
      have peek : s.peek = some Byte.zero := Scanner.peek_of_rest h
      simp [integer, peek, Scanner.bump]
  | @positive first more digit digits =>
      have peek : s.peek = some first := Scanner.peek_of_rest h
      have notZero : first ≠ Byte.zero := by
        rintro rfl
        exact absurd digit (by decide)
      have all : ∀ b ∈ first :: more, Byte.isDigit b := by
        intro b mem
        rcases List.mem_cons.mp mem with rfl | mem
        · exact isDigit_of_isPositiveDigit digit
        · exact digits b mem
      have taken := Scanner.skipWhile_eq h all ends
      simp [integer, peek, notZero, digit, taken]

theorem takes_digits
    {expected : Expectation}
    (h : (digits .strict expected s).error = none) :
    ∃ text, Digits text ∧ Takes s (digits .strict expected s) text := by
  obtain ⟨text, some, all, taken⟩ := takes_atLeastOne h
  exact ⟨text, ⟨some, all⟩, taken⟩

theorem digits_eq
    (expected : Expectation)
    (h : s.rest = text ++ rest)
    (ds : Digits text)
    (ends : ∀ b, rest.head? = some b → Byte.isDigit b = false) :
    digits .strict expected s = done (s.advance text.length) :=
  atLeastOne_eq expected h ds.1 ds.2 ends

theorem takes_fraction
    (h : (fraction .strict s).error = none) :
    ∃ text, IsFraction text ∧ Takes s (fraction .strict s) text := by
  obtain ⟨text, isText, taken⟩ := takes_point (fun _ => takes_digits) h
  refine ⟨text, ?_, taken⟩
  rcases isText with rfl | ⟨ds, isDigits, rfl⟩
  · exact .none
  · exact .some isDigits

theorem fraction_eq
    (h : s.rest = text ++ rest)
    (frac : IsFraction text)
    (ends : ∀ b, rest.head? = some b → Byte.isDigit b = false ∧ b ≠ Byte.dot) :
    fraction .strict s = done (s.advance text.length) := by
  cases frac with
  | none =>
      refine fraction_none ?_
      rw [h]
      exact fun b hb => (ends b hb).2
  | some all =>
      exact fraction_of_digits h (digits_eq .fractionDigit (Scanner.rest_bump h) all
        fun b hb => (ends b hb).1)

/-- What follows the digits of a number can start neither a digit nor a fraction. -/
theorem exponent_ends
    (exp : IsExponent text)
    (ends : Delimited rest) :
    ∀ b, (text ++ rest).head? = some b → Byte.isDigit b = false ∧ b ≠ Byte.dot := by
  intro b hb
  cases exp with
  | none =>
      exact ⟨ends.not_isDigit b hb, (ends b hb).2⟩
  | unsigned hm _ | signed hm _ _ =>
      cases hb
      exact ends_of_isExponentMark hm

theorem fraction_ends
    {exp : List UInt8}
    (frac : IsFraction text)
    (exponent : IsExponent exp)
    (ends : Delimited rest) :
    ∀ b, (text ++ (exp ++ rest)).head? = some b → Byte.isDigit b = false := by
  intro b hb
  cases frac with
  | none =>
      exact (exponent_ends exponent ends b hb).1
  | some _ =>
      cases hb
      decide

theorem takes_exponent
    (h : (exponent .strict s).error = none) :
    ∃ text, IsExponent text ∧ Takes s (exponent .strict s) text := by
  obtain ⟨text, isText, taken⟩ := takes_mark (fun _ => takes_digits) h
  refine ⟨text, ?_, taken⟩
  rcases isText with rfl | ⟨mark, ds, isMark, isDigits, rfl | ⟨sign, isSign, rfl⟩⟩
  · exact .none
  · exact .unsigned isMark isDigits
  · exact .signed isMark isSign isDigits

theorem exponent_eq
    (h : s.rest = text ++ rest)
    (exp : IsExponent text)
    (ends : Delimited rest) :
    exponent .strict s = done (s.advance text.length) := by
  cases exp with
  | none =>
      exact exponent_none (h ▸ ends)
  | @unsigned m ds hm all =>
      have ahead : s.bump.rest = ds ++ rest := Scanner.rest_bump h
      refine exponent_of_digits h hm ?_ (digits_eq .exponentDigit ahead all ends.not_isDigit)
      intro b hb
      obtain ⟨first, more, rfl⟩ := List.exists_cons_of_ne_nil all.1
      cases hb
      exact isSign_of_isDigit (all.2 _ List.mem_cons_self)
  | signed hm isSign all =>
      have ahead := Scanner.rest_bump (Scanner.rest_bump h)
      exact exponent_of_signed h hm isSign (digits_eq .exponentDigit ahead all ends.not_isDigit)

theorem takes_magnitude
    (h : (magnitude .strict s).error = none) :
    ∃ text, IsMagnitude text ∧ Takes s (magnitude .strict s) text := by
  simp only [magnitude, radix?, andThen_assoc] at h ⊢
  obtain ⟨ok, h⟩ := error_andThen_eq_none.mp h
  obtain ⟨okFraction, okExponent⟩ := error_andThen_eq_none.mp h
  obtain ⟨int, isInt, takenInt⟩ := takes_integer ok
  obtain ⟨frac, isFrac, takenFrac⟩ := takes_fraction okFraction
  obtain ⟨exp, isExp, takenExp⟩ := takes_exponent okExponent
  exact ⟨int ++ (frac ++ exp), .mk isInt isFrac isExp,
    takenInt.andThen (takenFrac.andThen takenExp)⟩

theorem magnitude_eq
    (h : s.rest = text ++ rest)
    (mag : IsMagnitude text)
    (ends : Delimited rest) :
    magnitude .strict s = done (s.advance text.length) := by
  cases mag with
  | @mk int frac exp isInt isFrac isExp =>
      rw [List.append_assoc, List.append_assoc] at h
      have afterInt : (s.advance int.length).rest = frac ++ (exp ++ rest) :=
        Scanner.rest_advance h
      have afterFrac : ((s.advance int.length).advance frac.length).rest = exp ++ rest :=
        Scanner.rest_advance afterInt
      simp only [magnitude, radix?]
      rw [integer_eq h isInt (fraction_ends isFrac isExp ends), done_andThen,
        fraction_eq afterInt isFrac (exponent_ends isExp ends), done_andThen,
        exponent_eq afterFrac isExp ends, Scanner.advance_advance, Scanner.advance_advance,
        List.length_append, List.length_append]

theorem minus_of_isSign
    {b : UInt8}
    (h : isSign .strict b) :
    b = Byte.minus := by
  simpa [isSign] using h

/-- The first byte of a magnitude is a digit. -/
theorem IsMagnitude.head
    (mag : IsMagnitude text) :
    ∃ first more, text = first :: more ∧ Byte.isDigit first := by
  cases mag with
  | @mk int frac exp isInt isFrac isExp =>
      cases isInt with
      | zero =>
          exact ⟨Byte.zero, frac ++ exp, rfl, by decide⟩
      | @positive first more digit _ =>
          exact ⟨first, more ++ (frac ++ exp), rfl, isDigit_of_isPositiveDigit digit⟩

theorem number_sound
    (h : (number .strict s).error = none) :
    ∃ text, IsNumber text ∧ ReadsToken .number s (number .strict s) text := by
  obtain ⟨text, isText, reads⟩ := number_reads (fun _ => takes_magnitude) h
  refine ⟨text, ?_, reads⟩
  rcases isText with mag | ⟨sign, mag, isMinus, isMag, rfl⟩
  · exact .positive mag
  · cases minus_of_isSign isMinus
    exact .negative isMag

theorem number_eq
    (h : s.rest = text ++ rest)
    (num : IsNumber text)
    (ends : Delimited rest) :
    number .strict s = token .number s (s.advance text.length) := by
  cases num with
  | positive mag =>
      have none : s.bumpIf (isSign .strict) = s.advance 0 := by
        rw [Scanner.advance_zero]
        refine Scanner.bumpIf_of_not ?_
        intro b hb
        obtain ⟨first, more, rfl, digit⟩ := mag.head
        rw [h] at hb
        cases hb
        cases minus : isSign .strict b with
        | false =>
            rfl
        | true =>
            cases minus_of_isSign minus
            exact absurd digit (by decide)
      exact number_of_magnitude [] h none (magnitude_eq h mag ends) ends
  | @negative mag isMag =>
      have signed := Scanner.bumpIf_of_peek (p := isSign .strict) (Scanner.peek_of_rest h)
        (by decide)
      have ahead : s.bump.rest = mag ++ rest := Scanner.rest_bump h
      exact number_of_magnitude [Byte.minus] h signed (magnitude_eq ahead isMag ends) ends

/-! ## Literals -/

theorem literal_sound
    {l : Literal}
    (h : (literal .strict l s).error = none) :
    ReadsToken l.kind s (literal .strict l s) l.word := by
  simp only [literal] at h ⊢
  split
  · rename_i short
    simp [short, fail] at h
  · rename_i enough
    rw [if_neg enough] at h
    split
    · rename_i ahead
      obtain ⟨rest, ahead⟩ := List.isPrefixOf_iff_prefix.mp ahead
      exact ⟨rest, ahead.symm, rfl⟩
    · rename_i other
      simp [other, fail] at h

theorem literal_eq
    (l : Literal)
    (h : s.rest = l.word ++ rest) :
    literal .strict l s = token l.kind s (s.advance l.word.length) := by
  have enough : ¬ s.rest.length < l.word.length := by
    rw [h, List.length_append]
    omega
  have ahead : l.word.isPrefixOf s.rest := List.isPrefixOf_iff_prefix.mpr ⟨rest, h.symm⟩
  simp only [literal, if_neg enough, if_pos ahead]

end Syntax
end JsonDoc
