import JsonDoc.Proofs.Number.Radix
import Mathlib.Data.List.DropRight

/-!
# The texts that have a value

The reader of number texts takes the literals of the bases two, eight and sixteen, and loosely
written decimal ones: `magnitude?_isSome_iff`. A loose decimal may start with zeros, and it may end
in any number of exponent marks and then of signs, which the reader cuts off before it looks at the
digits.
-/

namespace JsonDoc
namespace NumberText

variable {c : Char} {body chars digits fraction tail whole : List Char} {e : Int}

/-- A literal of another base. -/
inductive Based : List Char → Prop
  | mk {mark digits : List Char} {b : Nat} :
      BaseMark mark b → digits ≠ [] → (∀ c ∈ digits, IsDigitOf (2 ^ b) c) → Based (mark ++ digits)

/-- What may stand behind the fraction of a loose decimal: an exponent, and behind it marks and then
signs. -/
inductive LooseTail : List Char → Prop
  | mk {exponent marks signs : List Char} {e : Int} :
      Exponent exponent e → (∀ c ∈ marks, isExponentMark c) → (∀ c ∈ signs, isSign c) →
      LooseTail (exponent ++ (marks ++ signs))

/-- A decimal as the reader takes it. -/
inductive Loose : List Char → Prop
  | mk {whole fraction digits tail : List Char} :
      whole ≠ [] → (∀ c ∈ whole, c.isDigit) → OpenFraction fraction digits → LooseTail tail →
      Loose (whole ++ (fraction ++ tail))

/-! ## Digits of a base -/

theorem isDigitOf_of_isOctalDigit
    (h : isOctalDigit c) :
    IsDigitOf 8 c := by
  simp only [isOctalDigit, Bool.and_eq_true, decide_eq_true_eq, Char.le_def,
    UInt32.le_iff_toNat_le] at h
  have low : 48 ≤ c.val.toNat := h.1
  have high : c.val.toNat ≤ 55 := h.2
  exact ⟨_, digit?_decimal low (by omega), by omega⟩

theorem isDigitOf_of_pushDigit
    {base : Nat} {total n : Binary64}
    (h : pushDigit base total c = some n) :
    IsDigitOf base c := by
  unfold pushDigit at h
  split at h
  · cases h
  · rename_i digit value
    split at h
    · rename_i small
      exact ⟨digit, value, small⟩
    · cases h

theorem isDigitOf_of_foldlM
    {base : Nat} {total n : Binary64}
    (h : digits.foldlM (pushDigit base) total = some n) :
    ∀ c ∈ digits, IsDigitOf base c := by
  induction digits generalizing total with
  | nil =>
      exact nofun
  | cons first more ih =>
      rw [List.foldlM_cons] at h
      obtain ⟨next, pushed, rest⟩ := Option.bind_eq_some_iff.mp h
      exact List.forall_mem_cons.mpr ⟨isDigitOf_of_pushDigit pushed, ih rest⟩

/-- Only digits of the base have a value in it. -/
theorem radix?_isSome_iff
    {base : Nat} :
    (radix? base digits).isSome ↔ digits ≠ [] ∧ ∀ c ∈ digits, IsDigitOf base c := by
  constructor
  · intro h
    obtain ⟨n, value⟩ := Option.isSome_iff_exists.mp h
    unfold radix? at value
    split at value
    · cases value
    · rename_i some
      exact ⟨by simpa using some, isDigitOf_of_foldlM value⟩
  · rintro ⟨some, all⟩
    obtain ⟨n, value⟩ := radix?_of_digits some all
    simp [value]

/-! ## The end of a loose decimal -/

theorem withoutOpenExponent_eq_rdropWhile
    (chars : List Char) :
    withoutOpenExponent chars = (chars.rdropWhile isSign).rdropWhile isExponentMark := by
  simp [withoutOpenExponent, List.rdropWhile]

/-- What the reader cuts off. -/
theorem exists_cut
    (chars : List Char) :
    ∃ marks signs,
      chars = withoutOpenExponent chars ++ (marks ++ signs) ∧ (∀ c ∈ marks, isExponentMark c) ∧
        ∀ c ∈ signs, isSign c := by
  refine ⟨(chars.rdropWhile isSign).rtakeWhile isExponentMark, chars.rtakeWhile isSign, ?_,
    fun _ => List.mem_rtakeWhile_imp, fun _ => List.mem_rtakeWhile_imp⟩
  rw [withoutOpenExponent_eq_rdropWhile, ← List.append_assoc, List.rdropWhile_append_rtakeWhile,
    List.rdropWhile_append_rtakeWhile]

/-- The exponent that a text after its mark is. -/
theorem exponent_of_exponent?
    {mark : Char} {after : List Char}
    (isMark : isExponentMark mark)
    (h : exponent? after = some e) :
    Exponent (mark :: after) e := by
  have readDigits {digits : List Char} {value : Int}
      (h : (if !digits.isEmpty && digits.all Char.isDigit then some value else none) = some e) :
      (digits ≠ [] ∧ ∀ c ∈ digits, c.isDigit) ∧ value = e := by
    simpa using h
  unfold exponent? at h
  split at h
  rename_i split
  split at split
  · cases split
    obtain ⟨⟨some, all⟩, rfl⟩ := readDigits h
    exact .negative isMark some all
  · cases split
    obtain ⟨⟨some, all⟩, rfl⟩ := readDigits h
    exact .positive isMark some all
  · cases split
    obtain ⟨⟨some, all⟩, rfl⟩ := readDigits h
    exact .unsigned isMark some all

theorem exponent_of_cases
    {exponent : List Char}
    (h : (exponent = [] ∧ e = 0) ∨
      ∃ mark after, exponent = mark :: after ∧ isExponentMark mark ∧ exponent? after = some e) :
    Exponent exponent e := by
  rcases h with ⟨rfl, rfl⟩ | ⟨mark, after, rfl, isMark, value⟩
  · exact .none
  · exact exponent_of_exponent? isMark value

/-- The parts of a text that is read as a decimal number. -/
theorem exists_parts
    {d : Decimal}
    (h : decimal? chars = some d) :
    ∃ whole fraction digits exponent e, chars = whole ++ (fraction ++ exponent) ∧
      whole = chars.takeWhile Char.isDigit ∧ OpenFraction fraction digits ∧
      Exponent exponent e := by
  have split := List.takeWhile_append_dropWhile (p := Char.isDigit) (l := chars)
  unfold decimal? at h
  simp only at h
  split at h
  · rename_i after point
    obtain ⟨_, mapped⟩ := Option.ite_none_left_eq_some.mp h
    obtain ⟨e, read, _⟩ := Option.map_eq_some_iff.mp mapped
    have exp : Exponent (after.dropWhile Char.isDigit) e := by
      refine exponent_of_cases ?_
      split at read
      · rename_i nothing
        exact Or.inl ⟨nothing, (Option.some.inj read).symm⟩
      · rename_i starts
        exact Or.inr ⟨_, _, starts, Option.ite_none_right_eq_some.mp read⟩
    refine ⟨_, _, after.takeWhile Char.isDigit, after.dropWhile Char.isDigit, e, ?_, rfl, .some ?_,
      exp⟩
    · rw [List.cons_append, List.takeWhile_append_dropWhile, ← point, split]
    · exact fun c mem => List.all_eq_true.mp List.all_takeWhile c mem
  · obtain ⟨_, mapped⟩ := Option.ite_none_left_eq_some.mp h
    obtain ⟨e, read, _⟩ := Option.map_eq_some_iff.mp mapped
    have exp : Exponent (chars.dropWhile Char.isDigit) e := by
      refine exponent_of_cases ?_
      split at read
      · rename_i nothing
        exact Or.inl ⟨nothing, (Option.some.inj read).symm⟩
      · rename_i starts
        exact Or.inr ⟨_, _, starts, Option.ite_none_right_eq_some.mp read⟩
    exact ⟨_, [], [], _, e, split.symm, rfl, .none, exp⟩

/-! ## Characters of loose decimals -/

/-- The characters that a loose decimal is made of. -/
def looseChar
    (c : Char) : Bool :=
  c.isDigit || c == '.' || isExponentMark c || isSign c

theorem Exponent.looseChars
    {exponent : List Char}
    (h : Exponent exponent e) :
    ∀ c ∈ exponent, looseChar c := by
  cases h with
  | none =>
      exact nofun
  | unsigned isMark _ all =>
      simp +contextual [looseChar, isMark, all]
  | positive isMark _ all | negative isMark _ all =>
      simp +contextual [looseChar, isMark, all, isSign]

theorem LooseTail.looseChars
    (h : LooseTail tail) :
    ∀ c ∈ tail, looseChar c := by
  obtain ⟨exponent, areMarks, areSigns⟩ := h
  simp only [List.mem_append]
  rintro c (mem | mem | mem)
  · exact exponent.looseChars c mem
  · simp [looseChar, areMarks c mem]
  · simp [looseChar, areSigns c mem]

theorem OpenFraction.looseChars
    (h : OpenFraction fraction digits) :
    ∀ c ∈ fraction, looseChar c := by
  cases h with
  | none =>
      exact nofun
  | some all =>
      simp +contextual [looseChar, all]

theorem Loose.looseChars
    (h : Loose body) :
    ∀ c ∈ body, looseChar c := by
  obtain ⟨_, int, frac, tail⟩ := h
  simp only [List.mem_append]
  rintro c (mem | mem | mem)
  · simp [looseChar, int c mem]
  · exact frac.looseChars c mem
  · exact tail.looseChars c mem

/-- No other base is marked in a loose decimal. -/
theorem Loose.second
    {more : List Char}
    (h : Loose ('0' :: c :: more)) :
    ¬ (c = 'x' ∨ c = 'X') ∧ ¬ (c = 'b' ∨ c = 'B') := by
  have isLoose := h.looseChars c (by simp)
  constructor
  · rintro (rfl | rfl) <;> exact absurd isLoose (by decide)
  · rintro (rfl | rfl) <;> exact absurd isLoose (by decide)

/-! ## What the reader takes -/

/-- The value of a text as a decimal. -/
def decimalValue? (body : List Char) : Option Binary64 :=
  if (withoutOpenExponent body).head?.any Char.isDigit then
    (decimal? (withoutOpenExponent body)).map Decimal.toBinary64
  else none

theorem Loose.decimalValue?_isSome
    (h : Loose body) :
    (decimalValue? body).isSome := by
  obtain ⟨nonempty, int, frac, tail⟩ := h
  obtain ⟨exponent, areMarks, areSigns⟩ := tail
  have closed := exponent.endsIn (frac.endsIn (endsIn_of_isDigit nonempty int))
  have cut := withoutOpenExponent_append closed areMarks areSigns
  have value := decimal?_of_digits nonempty int frac exponent
  obtain ⟨first, more, rfl⟩ := List.exists_cons_of_ne_nil nonempty
  simp only [List.append_assoc] at cut
  have lead : first.isDigit := int first List.mem_cons_self
  rw [decimalValue?, cut, value]
  simp [lead]

theorem loose_of_decimalValue?
    (h : (decimalValue? body).isSome) :
    Loose body := by
  unfold decimalValue? at h
  split at h
  · rename_i lead
    obtain ⟨d, value⟩ := Option.isSome_iff_exists.mp (by simpa using h)
    obtain ⟨marks, signs, split, areMarks, areSigns⟩ := exists_cut body
    obtain ⟨whole, fraction, digits, exponent, e, parts, int, frac, exp⟩ := exists_parts value
    have nonempty : whole ≠ [] := by
      obtain ⟨first, starts, digit⟩ := Option.any_eq_true _ _ |>.mp lead
      obtain ⟨more, eq⟩ := List.head?_eq_some_iff.mp starts
      simp [int, eq, digit]
    have all : ∀ c ∈ whole, c.isDigit := by
      rw [int]
      exact fun c mem => List.all_eq_true.mp List.all_takeWhile c mem
    rw [split, parts, List.append_assoc, List.append_assoc]
    exact .mk nonempty all frac (.mk exp areMarks areSigns)
  · cases h

/-- The reader takes the literals of other bases and loose decimals, and nothing else. -/
theorem magnitude?_isSome_iff :
    (magnitude? body).isSome ↔ Based body ∨ Loose body := by
  constructor
  · intro h
    unfold magnitude? at h
    simp only at h
    split at h
    · rename_i c digits
      split at h
      · rename_i isMark
        obtain ⟨some, all⟩ := radix?_isSome_iff.mp h
        exact Or.inl (.mk (.hexadecimal isMark) some all)
      · split at h
        · rename_i isMark
          obtain ⟨some, all⟩ := radix?_isSome_iff.mp h
          exact Or.inl (.mk (.binary isMark) some all)
        · split at h
          · obtain ⟨some, all⟩ := radix?_isSome_iff.mp h
            exact Or.inl (.mk .octal some all)
          · exact Or.inr (loose_of_decimalValue? h)
    · exact Or.inr (loose_of_decimalValue? h)
  · rintro (⟨isMark, some, all⟩ | loose)
    · rw [isMark.magnitude? some all]
      rfl
    · have decimal := loose.decimalValue?_isSome
      unfold magnitude?
      simp only
      split
      · rename_i c digits
        rw [if_neg loose.second.1, if_neg loose.second.2]
        split
        · rename_i octal
          refine radix?_isSome_iff.mpr ⟨List.cons_ne_nil _ _, fun d mem => ?_⟩
          exact isDigitOf_of_isOctalDigit (List.all_eq_true.mp octal d mem)
        · exact decimal
      · exact decimal

end NumberText
end JsonDoc
