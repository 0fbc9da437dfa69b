import JsonDoc.Proofs.Binary64.Horner
import JsonDoc.Proofs.Decimal.Writing
import JsonDoc.Proofs.Number.RelaxedToken

/-!
# Hexadecimal, binary and octal integers

The digits of another base are summed up in floating point. What comes out is not always the double
nearest to the integer they denote, which the decimal digits of that integer are read as: digits
after the first 54 bits do not count, though they would break a tie. `value?_radix` says which
double it is, and exactly when the two spellings agree.
-/

namespace JsonDoc
namespace NumberText

open Binary64

/-! ## Digits of a base -/

/-- The value of a digit. -/
def digitValue (c : Char) : Nat := (Hex.digit? c).getD 0

/-- The integer that digits of the base `2 ^ b` denote. -/
def denoted (b : Nat) (digits : List Char) : Nat :=
  digits.foldl (fun total c => total * 2 ^ b + digitValue c) 0

/-- The integer whose nearest double is the sum of the digits. -/
def counted (b : Nat) (digits : List Char) : Nat :=
  digits.foldl (fun total c => push b total (digitValue c)) 0

variable {b : Nat} {digits : List Char}

theorem digitValue_lt
    {base : Nat} {c : Char}
    (isDigit : IsDigitOf base c) :
    digitValue c < base := by
  obtain ⟨digit, value, small⟩ := isDigit
  rwa [digitValue, value]

theorem pushDigit_ofInt
    (few : b ≤ 4)
    {c : Char}
    (isDigit : IsDigitOf (2 ^ b) c)
    (total : Nat) :
    pushDigit (2 ^ b) (ofInt total) c = some (ofInt (push b total (digitValue c))) := by
  have small := digitValue_lt isDigit
  obtain ⟨digit, value, _⟩ := isDigit
  rw [← ofInt_push few total small]
  rw [digitValue, value, Option.getD_some] at small ⊢
  simp only [pushDigit, value, small, if_true]

theorem foldlM_pushDigit_ofInt
    (few : b ≤ 4)
    (all : ∀ c ∈ digits, IsDigitOf (2 ^ b) c) :
    ∀ total : Nat, digits.foldlM (pushDigit (2 ^ b)) (ofInt total) =
      some (ofInt (digits.foldl (fun total c => push b total (digitValue c)) total : Nat)) := by
  induction digits with
  | nil =>
      exact fun total => rfl
  | cons c digits ih =>
      intro total
      obtain ⟨first, rest⟩ := List.forall_mem_cons.mp all
      rw [List.foldlM_cons, pushDigit_ofInt few first]
      exact ih rest _

/-- The sum of the digits of a base. -/
theorem radix?_eq
    (few : b ≤ 4)
    (some : digits ≠ [])
    (all : ∀ c ∈ digits, IsDigitOf (2 ^ b) c) :
    radix? (2 ^ b) digits = Option.some (ofInt (counted b digits)) := by
  have zero : Binary64.zero = ofInt (0 : Nat) := by decide
  rw [radix?, if_neg (by simpa using some), zero]
  exact foldlM_pushDigit_ofInt few all 0

/-- What counts of the digits and what they denote differ in bits after the first 54 ones. -/
theorem cut_foldl
    (all : ∀ c ∈ digits, IsDigitOf (2 ^ b) c) :
    ∀ {zeros total whole : Nat}, Cut zeros total whole → ∃ zeros', Cut zeros'
      (digits.foldl (fun total c => push b total (digitValue c)) total)
      (digits.foldl (fun total c => total * 2 ^ b + digitValue c) whole) := by
  induction digits with
  | nil =>
      exact fun cut => ⟨_, cut⟩
  | cons c digits ih =>
      intro zeros total whole cut
      obtain ⟨first, rest⟩ := List.forall_mem_cons.mp all
      obtain ⟨more, next⟩ := cut.push (digitValue_lt first)
      exact ih rest next

theorem ofInt_counted_iff
    (all : ∀ c ∈ digits, IsDigitOf (2 ^ b) c) :
    ofInt (counted b digits) = ofInt (denoted b digits) ↔
      counted b digits = denoted b digits ∨ ¬ TiesDown (counted b digits) := by
  obtain ⟨zeros, cut⟩ := cut_foldl all (Cut.refl 0)
  exact cut.ofInt_eq_iff

/-! ## Literals -/

/-- What stands before digits of the base `2 ^ b`. -/
inductive BaseMark : List Char → Nat → Prop
  | hexadecimal {c : Char} : c = 'x' ∨ c = 'X' → BaseMark ['0', c] 4
  | binary {c : Char} : c = 'b' ∨ c = 'B' → BaseMark ['0', c] 1
  | octal : BaseMark ['0'] 3

/-- What stands before a number, and what it does to it. -/
inductive SignMark : List Char → (Binary64 → Binary64) → Prop
  | none : SignMark [] id
  | plus : SignMark ['+'] id
  | minus : SignMark ['-'] neg

/-- The codes of the digits of a base. -/
theorem IsDigitOf.code
    {base : Nat} {c : Char}
    (h : IsDigitOf base c) :
    (48 ≤ c.val.toNat ∧ c.val.toNat ≤ 57 ∧ c.val.toNat < 48 + base) ∨
      (10 < base ∧ 97 ≤ c.val.toNat ∧ c.val.toNat ≤ 102) ∨
      (10 < base ∧ 65 ≤ c.val.toNat ∧ c.val.toNat ≤ 70) := by
  obtain ⟨digit, value, small⟩ := h
  unfold Hex.digit? at value
  simp only [Char.le_def, UInt32.le_iff_toNat_le] at value
  split at value
  · rename_i bounds
    have low : 48 ≤ c.val.toNat := bounds.1
    have high : c.val.toNat ≤ 57 := bounds.2
    have code : c.val.toNat - 48 = digit := Option.some.inj value
    omega
  · split at value
    · rename_i bounds
      have low : 97 ≤ c.val.toNat := bounds.1
      have high : c.val.toNat ≤ 102 := bounds.2
      have code : c.val.toNat - 97 + 10 = digit := Option.some.inj value
      omega
    · split at value
      · rename_i bounds
        have low : 65 ≤ c.val.toNat := bounds.1
        have high : c.val.toNat ≤ 70 := bounds.2
        have code : c.val.toNat - 65 + 10 = digit := Option.some.inj value
        omega
      · cases value

theorem isOctalDigit_of_isDigitOf
    {c : Char}
    (isDigit : IsDigitOf (2 ^ 3) c) :
    isOctalDigit c := by
  have codes := isDigit.code
  simp only [isOctalDigit, Bool.and_eq_true, decide_eq_true_eq, Char.le_def,
    UInt32.le_iff_toNat_le]
  change 48 ≤ c.val.toNat ∧ c.val.toNat ≤ 55
  omega

theorem BaseMark.few
    {mark : List Char}
    (isMark : BaseMark mark b) :
    b ≤ 4 := by
  cases isMark <;> decide

theorem BaseMark.magnitude?
    {mark : List Char}
    (isMark : BaseMark mark b)
    (some : digits ≠ [])
    (all : ∀ c ∈ digits, IsDigitOf (2 ^ b) c) :
    NumberText.magnitude? (mark ++ digits) = Option.some (ofInt (counted b digits)) := by
  have sum := radix?_eq isMark.few some all
  cases isMark with
  | hexadecimal isMark =>
      rcases isMark with rfl | rfl
      · exact sum
      · exact sum
  | binary isMark =>
      rcases isMark with rfl | rfl
      · exact sum
      · exact sum
  | octal =>
      exact (magnitude?_octal some fun c mem => isOctalDigit_of_isDigitOf (all c mem)).trans sum

theorem toBinary64_natCast
    (n : Nat) :
    Decimal.toBinary64 ⟨n, 0⟩ = ofInt n := by
  have nearest : Decimal.nearest ⟨n, 0⟩ = Binary64.nearest (n * unitsPerOne) 1 := by
    rw [Decimal.nearest_eq]
    simp [Decimal.quotient]
  simp only [Decimal.toBinary64, ofInt_natCast, ofUnits, nearest]

/-- The digits of an integer are read as the double nearest to it. -/
theorem magnitude?_toDigits
    (n : Nat) :
    magnitude? (Nat.toDigits 10 n) = some (ofInt n) := by
  have value : ofDigits (Nat.toDigits 10 n) = n := Nat.ofDigitChars_ten_toDigits
  have spells := Spells.mk (Decimal.whole_toDigits n) .none .none
  simp only [List.append_nil, value] at spells
  exact (magnitude?_of_spells spells).trans (congrArg some (toBinary64_natCast n))

theorem SignMark.value?
    {sign : List Char} {f : Binary64 → Binary64}
    (isMark : SignMark sign f)
    {first : Char}
    (digit : first.isDigit)
    {more : List Char} {n : Binary64}
    (magnitude : magnitude? (first :: more) = some n) :
    NumberText.value? (sign ++ first :: more) = some (f n) := by
  cases isMark with
  | none =>
      exact (value?_of_isDigit digit more).trans magnitude
  | plus =>
      exact magnitude
  | minus =>
      exact congrArg (Option.map neg) magnitude

theorem SignMark.injective
    {sign : List Char} {f : Binary64 → Binary64}
    (isMark : SignMark sign f) :
    f.Injective := by
  cases isMark with
  | none | plus =>
      exact Function.injective_id
  | minus =>
      exact Function.LeftInverse.injective neg_neg

/-- What the literal of another base is read as, and what the decimal digits of the same integer are
read as. The two agree, unless the digits that count are a tie that goes down and some that do not
count are not zero. -/
theorem value?_radix
    {sign mark digits : List Char} {f : Binary64 → Binary64} {b : Nat}
    (isSign : SignMark sign f)
    (isMark : BaseMark mark b)
    (some : digits ≠ [])
    (all : ∀ c ∈ digits, IsDigitOf (2 ^ b) c) :
    value? (sign ++ (mark ++ digits)) = Option.some (f (ofInt (counted b digits))) ∧
      value? (sign ++ Nat.toDigits 10 (denoted b digits)) =
        Option.some (f (ofInt (denoted b digits))) ∧
      (value? (sign ++ (mark ++ digits)) = value? (sign ++ Nat.toDigits 10 (denoted b digits)) ↔
        counted b digits = denoted b digits ∨ ¬ TiesDown (counted b digits)) := by
  have literal : value? (sign ++ (mark ++ digits)) =
      Option.some (f (ofInt (counted b digits))) := by
    have magnitude := isMark.magnitude? some all
    cases isMark <;> exact isSign.value? (by decide) magnitude
  have decimal : value? (sign ++ Nat.toDigits 10 (denoted b digits)) =
      Option.some (f (ofInt (denoted b digits))) := by
    have magnitude := magnitude?_toDigits (denoted b digits)
    obtain ⟨first, more, eq, digit⟩ := (Decimal.whole_toDigits (denoted b digits)).head
    rw [eq] at magnitude ⊢
    exact isSign.value? digit magnitude
  refine ⟨literal, decimal, ?_⟩
  rw [literal, decimal, Option.some.injEq, isSign.injective.eq_iff]
  exact ofInt_counted_iff all

/-- A negative literal whose first 54 bits are a tie. The digit after them would break it. -/
theorem value?_radix_tie :
    value? "-0x200000000000011".toList =
        some (ofInt (counted 4 "200000000000011".toList)).neg ∧
      value? "-144115188075855889".toList = some (ofInt 144115188075855889).neg ∧
      (value? "-0x200000000000011".toList = value? "-144115188075855889".toList ↔
        counted 4 "200000000000011".toList = 144115188075855889 ∨
          ¬ TiesDown (counted 4 "200000000000011".toList)) := by
  refine value?_radix .minus (.hexadecimal (.inl rfl)) (by decide) ?_
  intro c mem
  fin_cases mem <;> exact ⟨_, rfl, by decide⟩

/-- The two spellings of an integer are not read as the same double. -/
theorem value?_radix_ne_decimal :
    denoted 4 "200000000000011".toList = 144115188075855889 ∧
      value? "0x200000000000011".toList = some (ofBits 0x4380000000000000) ∧
      value? "144115188075855889".toList = some (ofBits 0x4380000000000001) := by
  decide +kernel

end NumberText
end JsonDoc
