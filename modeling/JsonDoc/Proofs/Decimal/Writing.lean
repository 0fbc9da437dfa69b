import JsonDoc.Proofs.Decimal.Reading
import JsonDoc.Proofs.Number.Spelling
import JsonDoc.Decimal.Layout

/-!
# Written decimal numbers read back

A layout moves the point and drops zeros, so the text of a decimal number spells another one, with
the same nearest double: `exists_spells_write`. The digits chosen for a double have that double as
their nearest one, `nearest_shortest`.
-/

namespace JsonDoc
namespace Decimal

open NumberText

/-! ## Digits -/

theorem ofDigits_zeros
    (digits : List Char)
    (zeros : Nat) :
    ofDigits (digits ++ List.replicate zeros '0') = ofDigits digits * placeValue zeros := by
  rw [ofDigits, Nat.ofDigitChars_append, Nat.ofDigitChars_replicate_zero, Nat.mul_comm]
  rfl

theorem ofDigits_leadingZeros
    (zeros : Nat)
    (digits : List Char) :
    ofDigits (List.replicate zeros '0' ++ digits) = ofDigits digits := by
  rw [ofDigits, Nat.ofDigitChars_append, Nat.ofDigitChars_replicate_zero, Nat.mul_zero]
  rfl

theorem isDigit_zeros
    (zeros : Nat) :
    ∀ c ∈ List.replicate zeros '0', c.isDigit := by
  intro c mem
  rw [List.eq_of_mem_replicate mem]
  decide

/-- The digits of a number above zero do not start with a zero. -/
theorem whole_toDigits
    (n : Nat) :
    Whole (Nat.toDigits 10 n) := by
  induction n using Nat.strongRecOn with
  | ind n ih =>
      rw [Nat.toDigits_eq_if (by decide)]
      split
      · rename_i small
        by_cases zero : n = 0
        · subst zero
          exact .zero
        · refine .positive ?_ ?_ (by simp)
          · simpa [Nat.isDigit_digitChar] using small
          · simpa using zero
      · rename_i large
        have digit : (n % 10).digitChar.isDigit := by
          have := Nat.mod_lt n (show 10 > 0 by decide)
          simpa [Nat.isDigit_digitChar] using this
        have front := ih (n / 10) (by omega)
        have notZero : Nat.toDigits 10 (n / 10) ≠ ['0'] := by
          intro zero
          have value := Nat.ofDigitChars_ten_toDigits (n := n / 10)
          rw [zero] at value
          have : (0 : Nat) = n / 10 := value
          omega
        generalize Nat.toDigits 10 (n / 10) = digits at front notZero
        cases front with
        | zero =>
            exact absurd rfl notZero
        | positive first nonzero more =>
            refine .positive first nonzero ?_
            intro c mem
            rcases List.mem_append.mp mem with mem | mem
            · exact more c mem
            · rw [List.mem_singleton.mp mem]
              exact digit

/-- Digits that start with one above zero, as a layout writes them. -/
structure Leading (digits : List Char) : Prop where
  isDigit : ∀ c ∈ digits, c.isDigit
  head : ∃ first more, digits = first :: more ∧ first ≠ '0'

theorem Leading.whole
    {digits : List Char}
    (h : Leading digits) :
    Whole digits := by
  obtain ⟨first, more, rfl, nonzero⟩ := h.head
  exact .positive (h.isDigit first List.mem_cons_self) nonzero
    fun c mem => h.isDigit c (List.mem_cons_of_mem first mem)

theorem Leading.length_pos
    {digits : List Char}
    (h : Leading digits) :
    0 < digits.length := by
  obtain ⟨first, more, rfl, _⟩ := h.head
  simp

/-- More digits may follow, and some may be left out at the end. -/
theorem Leading.append
    {digits : List Char}
    (h : Leading digits)
    {more : List Char}
    (all : ∀ c ∈ more, c.isDigit) :
    Leading (digits ++ more) := by
  obtain ⟨first, rest, rfl, nonzero⟩ := h.head
  refine ⟨?_, first, rest ++ more, rfl, nonzero⟩
  intro c mem
  rcases List.mem_append.mp mem with mem | mem
  · exact h.isDigit c mem
  · exact all c mem

theorem Leading.take
    {digits : List Char}
    (h : Leading digits)
    {count : Nat}
    (some : 0 < count) :
    Leading (digits.take count) := by
  obtain ⟨first, rest, rfl, nonzero⟩ := h.head
  obtain ⟨count, rfl⟩ := Nat.exists_eq_succ_of_ne_zero (Nat.ne_of_gt some)
  refine ⟨fun c mem => h.isDigit c (List.mem_of_mem_take mem), first, rest.take count, ?_, nonzero⟩
  rw [List.take_succ_cons]

/-- The digits of a number are its significant ones and zeros. -/
theorem exists_zeros
    (n : Nat) :
    ∃ zeros, Nat.toDigits 10 n = significant n ++ List.replicate zeros '0' := by
  have split := List.takeWhile_append_dropWhile (p := (· == '0')) (l := (Nat.toDigits 10 n).reverse)
  have zeros : (Nat.toDigits 10 n).reverse.takeWhile (· == '0') =
      List.replicate ((Nat.toDigits 10 n).reverse.takeWhile (· == '0')).length '0' := by
    refine List.eq_replicate_of_mem ?_
    intro c mem
    simpa using List.all_eq_true.mp List.all_takeWhile c mem
  refine ⟨((Nat.toDigits 10 n).reverse.takeWhile (· == '0')).length, ?_⟩
  have := congrArg List.reverse split
  rw [List.reverse_append, List.reverse_reverse, zeros, List.reverse_replicate] at this
  exact this.symm

theorem leading_significant
    {n : Nat}
    (positive : n ≠ 0) :
    Leading (significant n) := by
  obtain ⟨zeros, split⟩ := exists_zeros n
  have value := Nat.ofDigitChars_ten_toDigits (n := n)
  have whole := whole_toDigits n
  rw [split] at value whole
  have all := whole.isDigit
  refine ⟨fun c mem => all c (List.mem_append_left _ mem), ?_⟩
  cases digits : significant n with
  | nil =>
      rw [digits, List.nil_append, Nat.ofDigitChars_replicate_zero, Nat.mul_zero] at value
      exact absurd value.symm positive
  | cons first more =>
      refine ⟨first, more, rfl, ?_⟩
      rintro rfl
      rw [digits, List.cons_append] at whole value
      generalize rest : '0' :: (more ++ List.replicate zeros '0') = chars at whole value
      cases whole with
      | zero =>
          have : (0 : Nat) = n := value
          exact positive this.symm
      | positive _ nonzero _ =>
          cases rest
          exact nonzero rfl

/-- The number of digits, and the number, by the significant digits. -/
theorem significant_spec
    (n : Nat) :
    ∃ zeros, digitCount n = (significant n).length + zeros ∧
      n = ofDigits (significant n) * placeValue zeros := by
  obtain ⟨zeros, split⟩ := exists_zeros n
  refine ⟨zeros, ?_, ?_⟩
  · rw [digitCount, split, List.length_append, List.length_replicate]
  · rw [← ofDigits_zeros, ← split]
    exact Nat.ofDigitChars_ten_toDigits.symm

/-! ## Layouts -/

variable {digits : List Char}

/-- A point before all digits, with zeros between. -/
theorem spells_pointBefore
    (leading : Leading digits)
    (zeros : Nat) :
    Spells ('0' :: '.' :: (List.replicate zeros '0' ++ digits))
      ⟨ofDigits digits, -((zeros + digits.length : Nat) : Int)⟩ := by
  have some : List.replicate zeros '0' ++ digits ≠ [] := by
    have := leading.length_pos
    exact List.ne_nil_of_length_pos (by simp; omega)
  have all : ∀ c ∈ List.replicate zeros '0' ++ digits, c.isDigit := by
    intro c mem
    rcases List.mem_append.mp mem with mem | mem
    · exact isDigit_zeros zeros c mem
    · exact leading.isDigit c mem
  have value : ofDigits (['0'] ++ (List.replicate zeros '0' ++ digits)) = ofDigits digits :=
    ofDigits_leadingZeros (zeros + 1) digits
  have spells := Spells.mk .zero (.some some all) .none
  rw [value, List.append_nil] at spells
  simpa using spells

/-- A point among the digits. -/
theorem spells_pointWithin
    (leading : Leading digits)
    {whole : Nat}
    (first : 0 < whole)
    (short : whole < digits.length) :
    Spells (digits.take whole ++ '.' :: digits.drop whole)
      ⟨ofDigits digits, (whole : Int) - digits.length⟩ := by
  have some : digits.drop whole ≠ [] := by
    exact List.ne_nil_of_length_pos (by simp; omega)
  have all : ∀ c ∈ digits.drop whole, c.isDigit :=
    fun c mem => leading.isDigit c (List.mem_of_mem_drop mem)
  have spells := Spells.mk (leading.take first).whole (.some some all) .none
  rw [List.take_append_drop, List.append_nil, List.length_drop, Int.ofNat_sub (by omega)] at spells
  have places : (0 : Int) - ((digits.length : Int) - whole) = whole - digits.length := by omega
  rw [places] at spells
  exact spells

/-- A point after all digits, with zeros between. -/
theorem spells_pointAfter
    (leading : Leading digits)
    (zeros : Nat)
    (fraction : Bool) :
    ∃ d, Spells (digits ++ List.replicate zeros '0' ++ (if fraction then ['.', '0'] else [])) d ∧
      d.nearest = nearest ⟨ofDigits digits, zeros⟩ := by
  have whole := (leading.append (isDigit_zeros zeros)).whole
  cases fraction with
  | true =>
      have spells := Spells.mk whole (.some (by simp) (isDigit_zeros 1)) .none
      have value : ofDigits (digits ++ List.replicate zeros '0' ++ List.replicate 1 '0') =
          ofDigits digits * placeValue (zeros + 1) := by
        rw [List.append_assoc, ← List.replicate_add, ofDigits_zeros]
      rw [value] at spells
      refine ⟨⟨ofDigits digits * placeValue (zeros + 1), -1⟩, by simpa using spells, ?_⟩
      rw [nearest_shift]
      congr 2
      omega
  | false =>
      have spells := Spells.mk whole .none .none
      simp only [List.append_nil, ofDigits_zeros] at spells
      refine ⟨⟨ofDigits digits * placeValue zeros, 0⟩, by simpa using spells, ?_⟩
      rw [nearest_shift, Int.zero_add]

/-- Digits around a point spell the same number as digits with an exponent. -/
theorem exists_spells_positional
    (leading : Leading digits)
    (fraction : Bool)
    (point : Int) :
    ∃ d, Spells (writePositional fraction digits point).toList d ∧
      d.nearest = nearest ⟨ofDigits digits, point - digits.length⟩ := by
  unfold writePositional
  split
  · rename_i before
    have places : -(((-point).toNat + digits.length : Nat) : Int) = point - digits.length := by
      omega
    have spells := spells_pointBefore leading (-point).toNat
    rw [places] at spells
    exact ⟨_, by simpa using spells, rfl⟩
  · rename_i after
    simp only
    split
    · rename_i short
      have places : ((point.toNat - digits.length : Nat) : Int) = point - digits.length := by
        omega
      obtain ⟨d, spells, same⟩ :=
        spells_pointAfter leading (point.toNat - digits.length) fraction
      rw [places] at same
      refine ⟨d, ?_, same⟩
      cases fraction <;> simpa using spells
    · rename_i long
      have places : ((point.toNat : Nat) : Int) - digits.length = point - digits.length := by
        omega
      have spells := spells_pointWithin leading (show 0 < point.toNat by omega) (by omega)
      rw [places] at spells
      exact ⟨_, by simpa using spells, rfl⟩

/-- A number is written in decimal digits, as whose value it is read. -/
theorem digits_toString
    (n : Nat) :
    (toString n).toList ≠ [] ∧ (∀ c ∈ (toString n).toList, c.isDigit) ∧
      ofDigits (toString n).toList = n := by
  rw [Nat.toString_eq_repr, Nat.toList_repr]
  refine ⟨Nat.toDigits_ne_nil, ?_, Nat.ofDigitChars_ten_toDigits⟩
  exact fun c mem => Nat.isDigit_of_mem_toDigits (by decide) (by decide) mem

/-- A digit with the others after the point, and an exponent. -/
theorem spells_scientific
    (leading : Leading digits)
    {sign : String}
    (positive : sign = "" ∨ sign = "+")
    (exponent : Int) :
    Spells (writeScientific sign digits exponent).toList
      ⟨ofDigits digits, exponent + 1 - digits.length⟩ := by
  have isExponent : Exponent ('e' :: ((if exponent < 0 then "-" else sign).toList ++
      (toString exponent.natAbs).toList)) exponent := by
    obtain ⟨some, all, value⟩ := digits_toString exponent.natAbs
    have mark : isExponentMark 'e' := by decide
    split
    · rename_i negative
      have spelled := Exponent.negative mark some all
      rw [value] at spelled
      have eq : -(exponent.natAbs : Int) = exponent := by omega
      rw [eq] at spelled
      exact spelled
    · rename_i notNegative
      have eq : (exponent.natAbs : Int) = exponent := by omega
      rcases positive with rfl | rfl
      · have spelled := Exponent.unsigned mark some all
        rw [value, eq] at spelled
        exact spelled
      · have spelled := Exponent.positive mark some all
        rw [value, eq] at spelled
        exact spelled
  obtain ⟨first, more, rfl, nonzero⟩ := leading.head
  have digit := leading.isDigit first List.mem_cons_self
  have whole : Whole [first] := .positive digit nonzero (by simp)
  cases more with
  | nil =>
      have spells := Spells.mk whole .none isExponent
      simpa [writeScientific] using spells
  | cons second more =>
      have all : ∀ c ∈ second :: more, c.isDigit :=
        fun c mem => leading.isDigit c (List.mem_cons_of_mem first mem)
      have spells := Spells.mk whole (.some (by simp) all) isExponent
      have places : exponent - ((second :: more).length : Int) =
          exponent + 1 - ((first :: second :: more).length : Int) := by
        simp only [List.length_cons]
        omega
      rw [places] at spells
      simpa [writeScientific] using spells

/-- The text of a decimal number above zero spells a number with the same nearest double. -/
theorem exists_spells_write
    {layout : Layout}
    (sign : layout.exponentSign = "" ∨ layout.exponentSign = "+")
    {d : Decimal}
    (positive : d.digits ≠ 0) :
    ∃ d', Spells (d.write layout).toList d' ∧ d'.nearest = d.nearest := by
  have leading := leading_significant positive
  obtain ⟨zeros, count, value⟩ := significant_spec d.digits
  have same : d.nearest = nearest ⟨ofDigits (significant d.digits), d.exponent + zeros⟩ := by
    rw [← nearest_shift, ← value]
  have places : (digitCount d.digits : Int) + d.exponent - (significant d.digits).length =
      d.exponent + zeros := by
    omega
  have point : (digitCount d.digits : Int) + d.exponent - 1 + 1 - (significant d.digits).length =
      d.exponent + zeros := by
    omega
  have positional := exists_spells_positional leading layout.fraction
    ((digitCount d.digits : Int) + d.exponent)
  have scientific := spells_scientific leading sign ((digitCount d.digits : Int) + d.exponent - 1)
  rw [places, ← same] at positional
  rw [point] at scientific
  unfold write
  simp only
  split
  · exact positional
  · split
    · exact positional
    · exact ⟨_, scientific, same.symm⟩

/-! ## Doubles -/

/-- The digits of a double read back to it. -/
theorem nearest_shortest
    (tie : Tie)
    {magnitude : Nat}
    (finite : magnitude < Binary64.infinityMagnitude) :
    (shortest tie magnitude).nearest = magnitude := by
  rw [shortest]
  cases found : (List.range 17).findSome? fun i => withDigits? tie magnitude (i + 1) with
  | none =>
      rw [Option.getD_none]
      exact nearest_exact finite
  | some d =>
      rw [Option.getD_some]
      obtain ⟨i, _, reads⟩ := List.exists_of_findSome?_eq_some found
      rw [nearest_of_withDigits? reads]

end Decimal
end JsonDoc
