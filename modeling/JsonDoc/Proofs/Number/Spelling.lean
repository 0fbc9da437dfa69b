import JsonDoc.NumberText

/-!
# Decimal spellings

`Spells body d` says that the characters of a decimal token without its sign spell the decimal
number `d`. The reader of number texts gives each of them the double nearest to it,
`magnitude?_of_spells`.
-/

namespace JsonDoc
namespace NumberText

/-- The digits before the point: a zero, or digits that do not start with one. -/
inductive Whole : List Char → Prop
  | zero : Whole ['0']
  | positive {first : Char} {more : List Char} :
      first.isDigit → first ≠ '0' → (∀ c ∈ more, c.isDigit) → Whole (first :: more)

/-- A fraction with its digits, or nothing. -/
inductive Fraction : List Char → List Char → Prop
  | none : Fraction [] []
  | some {digits : List Char} :
      digits ≠ [] → (∀ c ∈ digits, c.isDigit) → Fraction ('.' :: digits) digits

/-- A fraction with its digits, which may be missing after the point, or nothing. -/
inductive OpenFraction : List Char → List Char → Prop
  | none : OpenFraction [] []
  | some {digits : List Char} : (∀ c ∈ digits, c.isDigit) → OpenFraction ('.' :: digits) digits

/-- An exponent with its value, or nothing. -/
inductive Exponent : List Char → Int → Prop
  | none : Exponent [] 0
  | unsigned {mark : Char} {digits : List Char} :
      isExponentMark mark → digits ≠ [] → (∀ c ∈ digits, c.isDigit) →
      Exponent (mark :: digits) (ofDigits digits)
  | positive {mark : Char} {digits : List Char} :
      isExponentMark mark → digits ≠ [] → (∀ c ∈ digits, c.isDigit) →
      Exponent (mark :: '+' :: digits) (ofDigits digits)
  | negative {mark : Char} {digits : List Char} :
      isExponentMark mark → digits ≠ [] → (∀ c ∈ digits, c.isDigit) →
      Exponent (mark :: '-' :: digits) (-(ofDigits digits : Int))

/-- The decimal spellings of numbers that are not negative. -/
inductive Spells : List Char → Decimal → Prop
  | mk {whole fraction digits exponent : List Char} {e : Int} :
      Whole whole → Fraction fraction digits → Exponent exponent e →
      Spells (whole ++ (fraction ++ exponent)) ⟨ofDigits (whole ++ digits), e - digits.length⟩

/-! ## Classes of characters -/

variable {c : Char}

theorem bounds_of_isDigit
    (h : c.isDigit) :
    48 ≤ c.val.toNat ∧ c.val.toNat ≤ 57 := by
  simpa [Char.isDigit, UInt32.le_iff_toNat_le] using h

theorem ne_of_isDigit
    {d : Char}
    (h : c.isDigit)
    (k : d.isDigit = false) :
    c ≠ d := by
  rintro rfl
  simp [h] at k

theorem isSign_of_isDigit
    (h : c.isDigit) :
    isSign c = false := by
  simp [isSign, ne_of_isDigit h]

theorem isExponentMark_of_isDigit
    (h : c.isDigit) :
    isExponentMark c = false := by
  simp [isExponentMark, ne_of_isDigit h]

theorem isDigit_of_isExponentMark
    (h : isExponentMark c) :
    c.isDigit = false := by
  cases digit : c.isDigit with
  | false =>
      rfl
  | true =>
      simp [isExponentMark_of_isDigit digit] at h

theorem dot_not_isExponentMark
    (h : isExponentMark c) :
    c ≠ '.' := by
  rintro rfl
  exact absurd h (by decide)

/-! ## Parts -/

theorem Whole.isDigit
    {whole : List Char}
    (h : Whole whole) :
    ∀ c ∈ whole, c.isDigit := by
  cases h with
  | zero =>
      simp
  | positive first _ more =>
      intro c mem
      rcases List.mem_cons.mp mem with rfl | mem
      · exact first
      · exact more c mem

theorem Whole.head
    {whole : List Char}
    (h : Whole whole) :
    ∃ first more, whole = first :: more ∧ first.isDigit := by
  cases h with
  | zero =>
      exact ⟨'0', [], rfl, by decide⟩
  | @positive first more digit _ _ =>
      exact ⟨first, more, rfl, digit⟩

theorem Whole.ne_nil
    {whole : List Char}
    (h : Whole whole) :
    whole ≠ [] := by
  cases h <;> exact List.cons_ne_nil _ _

theorem Fraction.isOpen
    {fraction digits : List Char}
    (h : Fraction fraction digits) :
    OpenFraction fraction digits := by
  cases h with
  | none =>
      exact .none
  | some _ all =>
      exact .some all

theorem takeWhile_isDigit
    {digits rest : List Char}
    (all : ∀ c ∈ digits, c.isDigit)
    (ends : ∀ c, rest.head? = some c → c.isDigit = false) :
    (digits ++ rest).takeWhile Char.isDigit = digits ∧
      (digits ++ rest).dropWhile Char.isDigit = rest := by
  rw [List.takeWhile_append_of_pos all, List.dropWhile_append_of_pos all]
  cases rest with
  | nil =>
      simp
  | cons c rest =>
      simp [ends c rfl]

theorem exponent?_digits
    {digits : List Char}
    (nonempty : digits ≠ [])
    (all : ∀ c ∈ digits, c.isDigit) :
    (!digits.isEmpty && digits.all Char.isDigit) = true := by
  simpa [nonempty] using all

/-- What follows the mark of an exponent. -/
theorem Exponent.cases_eq
    {exponent : List Char} {e : Int}
    (h : Exponent exponent e) :
    (exponent = [] ∧ e = 0) ∨
      ∃ mark after, exponent = mark :: after ∧ isExponentMark mark ∧ exponent? after = some e := by
  cases h with
  | none =>
      exact Or.inl ⟨rfl, rfl⟩
  | @unsigned mark digits isMark nonempty all =>
      refine Or.inr ⟨mark, digits, rfl, isMark, ?_⟩
      obtain ⟨first, more, rfl⟩ := List.exists_cons_of_ne_nil nonempty
      have digit := all first List.mem_cons_self
      have notMinus : first ≠ '-' := ne_of_isDigit digit (by decide)
      have notPlus : first ≠ '+' := ne_of_isDigit digit (by decide)
      simp [exponent?, notMinus, notPlus, digit]
      exact fun c mem => all c (List.mem_cons_of_mem _ mem)
  | @positive mark digits isMark nonempty all =>
      refine Or.inr ⟨mark, _, rfl, isMark, ?_⟩
      simp only [exponent?, exponent?_digits nonempty all]
      rfl
  | @negative mark digits isMark nonempty all =>
      refine Or.inr ⟨mark, _, rfl, isMark, ?_⟩
      simp only [exponent?, exponent?_digits nonempty all]
      rfl

theorem Exponent.head
    {exponent : List Char} {e : Int}
    (h : Exponent exponent e) :
    ∀ c, exponent.head? = some c → isExponentMark c := by
  intro c hc
  rcases h.cases_eq with ⟨rfl, _⟩ | ⟨mark, after, rfl, isMark, _⟩
  · simp at hc
  · cases hc
    exact isMark

/-- The number that digits, a fraction and an exponent are read as. The digits may start with zeros,
and the fraction may be a point alone. -/
theorem decimal?_of_digits
    {whole fraction digits exponent : List Char} {e : Int}
    (nonempty : whole ≠ [])
    (int : ∀ c ∈ whole, c.isDigit)
    (frac : OpenFraction fraction digits)
    (exp : Exponent exponent e) :
    decimal? (whole ++ (fraction ++ exponent)) =
      some ⟨ofDigits (whole ++ digits), e - digits.length⟩ := by
  have noDigit : ∀ c, exponent.head? = some c → c.isDigit = false :=
    fun c hc => isDigit_of_isExponentMark (exp.head c hc)
  cases frac with
  | none =>
      obtain ⟨take, drop⟩ := takeWhile_isDigit int noDigit
      rw [decimal?, List.nil_append, take, drop]
      rcases exp.cases_eq with ⟨rfl, rfl⟩ | ⟨mark, after, rfl, isMark, value⟩
      · simp [nonempty]
      · simp [nonempty, dot_not_isExponentMark isMark, isMark, value]
  | @some digits all =>
      have dot : ∀ c, ('.' :: digits ++ exponent).head? = some c → c.isDigit = false := by
        intro c hc
        cases hc
        decide
      obtain ⟨take, drop⟩ := takeWhile_isDigit int dot
      obtain ⟨takeFraction, dropFraction⟩ := takeWhile_isDigit all noDigit
      rw [decimal?, take, drop, List.cons_append]
      simp only [takeFraction, dropFraction]
      rcases exp.cases_eq with ⟨rfl, rfl⟩ | ⟨mark, after, rfl, isMark, value⟩
      · simp [nonempty]
      · simp [nonempty, isMark, value]

/-- The number that a decimal spelling is read as. The fraction may be a point alone. -/
theorem decimal?_eq
    {whole fraction digits exponent : List Char} {e : Int}
    (int : Whole whole)
    (frac : OpenFraction fraction digits)
    (exp : Exponent exponent e) :
    decimal? (whole ++ (fraction ++ exponent)) =
      some ⟨ofDigits (whole ++ digits), e - digits.length⟩ :=
  decimal?_of_digits int.ne_nil int.isDigit frac exp

/-! ## The last character -/

/-- The last item of a list is of a class. -/
def EndsIn {α : Type} (p : α → Bool) (items : List α) : Prop :=
  ∃ front last, items = front ++ [last] ∧ p last

theorem EndsIn.append_left
    {α : Type} {p : α → Bool} {items : List α}
    (h : EndsIn p items)
    (front : List α) :
    EndsIn p (front ++ items) := by
  obtain ⟨more, last, rfl, holds⟩ := h
  exact ⟨front ++ more, last, by simp, holds⟩

theorem endsIn_of_all
    {α : Type} {p : α → Bool} {items : List α}
    (nonempty : items ≠ [])
    (all : ∀ a ∈ items, p a) :
    EndsIn p items :=
  ⟨items.dropLast, items.getLast nonempty, (List.dropLast_concat_getLast nonempty).symm,
    all _ (List.getLast_mem nonempty)⟩

theorem Spells.endsInDigit
    {body : List Char} {d : Decimal}
    (h : Spells body d) :
    EndsIn Char.isDigit body := by
  cases h with
  | @mk whole fraction digits exponent e int frac exp =>
      obtain ⟨first, more, nonempty, _⟩ := int.head
      have ends := endsIn_of_all (by simp [nonempty]) int.isDigit
      cases exp with
      | none =>
          cases frac with
          | none =>
              simpa using ends
          | some nonempty all =>
              simpa using (endsIn_of_all nonempty all).append_left (whole ++ ['.'])
      | @unsigned mark _ _ nonempty all =>
          simpa using (endsIn_of_all nonempty all).append_left (whole ++ fraction ++ [mark])
      | @positive mark _ _ nonempty all =>
          simpa using
            (endsIn_of_all nonempty all).append_left (whole ++ fraction ++ [mark, '+'])
      | @negative mark _ _ nonempty all =>
          simpa using
            (endsIn_of_all nonempty all).append_left (whole ++ fraction ++ [mark, '-'])

theorem withoutOpenExponent_eq
    {chars : List Char}
    (h : EndsIn Char.isDigit chars) :
    withoutOpenExponent chars = chars := by
  obtain ⟨front, last, rfl, digit⟩ := h
  simp [withoutOpenExponent, isSign_of_isDigit digit, isExponentMark_of_isDigit digit]

/-! ## Spellings -/

/-- A zero that other characters follow does not start a token of another base. -/
theorem Spells.second
    {c : Char} {more : List Char} {d : Decimal}
    (h : Spells ('0' :: c :: more) d) :
    c = '.' ∨ isExponentMark c := by
  generalize body : '0' :: c :: more = chars at h
  obtain ⟨int, frac, exp⟩ := h
  cases int with
  | zero =>
      cases frac with
      | none =>
          simp only [List.cons_append, List.nil_append, List.cons.injEq, true_and] at body
          refine Or.inr (exp.head c ?_)
          simp [← body]
      | some _ _ =>
          simp only [List.cons_append, List.nil_append, List.cons.injEq, true_and] at body
          exact Or.inl body.1
  | positive _ notZero _ =>
      simp only [List.cons_append, List.cons.injEq] at body
      exact absurd body.1.symm notZero

/-- A token that is not one of another base is read as the double nearest to its decimal number. -/
theorem magnitude?_eq
    {body : List Char} {d : Decimal}
    (value : decimal? (withoutOpenExponent body) = some d)
    (lead : (withoutOpenExponent body).head?.any Char.isDigit)
    (second : ∀ c more, body = '0' :: c :: more → c = '.' ∨ isExponentMark c) :
    magnitude? body = some d.toBinary64 := by
  unfold magnitude?
  simp only [value, lead, if_true, Option.map_some]
  split
  · rename_i c digits
    have notOther : c ≠ 'x' ∧ c ≠ 'X' ∧ c ≠ 'b' ∧ c ≠ 'B' ∧ isOctalDigit c = false := by
      rcases second c digits rfl with rfl | isMark
      · decide
      · simp only [isExponentMark, Bool.or_eq_true, beq_iff_eq] at isMark
        rcases isMark with rfl | rfl <;> decide
    obtain ⟨hx, hX, hb, hB, hOctal⟩ := notOther
    simp [hx, hX, hb, hB, hOctal]
  · rfl

/-- A decimal spelling is read as the double nearest to its number. -/
theorem magnitude?_of_spells
    {body : List Char} {d : Decimal}
    (h : Spells body d) :
    magnitude? body = some d.toBinary64 := by
  have whole := withoutOpenExponent_eq h.endsInDigit
  refine magnitude?_eq ?_ ?_ ?_
  · rw [whole]
    obtain ⟨int, frac, exp⟩ := h
    exact decimal?_eq int frac.isOpen exp
  · rw [whole]
    obtain ⟨int, frac, exp⟩ := h
    obtain ⟨first, more, rfl, digit⟩ := int.head
    simpa using digit
  · rintro c more rfl
    exact h.second

/-- A token that starts with a digit has no sign. -/
theorem value?_of_isDigit
    {first : Char}
    (digit : first.isDigit)
    (more : List Char) :
    value? (first :: more) = magnitude? (first :: more) := by
  have notMinus : first ≠ '-' := ne_of_isDigit digit (by decide)
  have notPlus : first ≠ '+' := ne_of_isDigit digit (by decide)
  simp [value?, notMinus, notPlus]

/-- The value of a decimal spelling, and of one with a minus before it. -/
theorem value?_of_spells
    {body : List Char} {d : Decimal}
    (h : Spells body d) :
    value? body = some d.toBinary64 ∧ value? ('-' :: body) = some d.toBinary64.neg := by
  have magnitude := magnitude?_of_spells h
  constructor
  · obtain ⟨int, frac, exp⟩ := h
    obtain ⟨first, more, rfl, digit⟩ := int.head
    exact (value?_of_isDigit digit _).trans magnitude
  · simp [value?, magnitude]

end NumberText
end JsonDoc
