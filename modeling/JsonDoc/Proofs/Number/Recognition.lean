import JsonDoc.Proofs.Number.Accepted
import JsonDoc.Proofs.Syntax.RelaxedNumber

/-!
# Reading a number text and finding it

Every text that the relaxed rule for numbers takes as a whole has a value. The converse fails:
the reader of number texts also gives a value to decimals with a zero before their other digits, and
to decimals with signs or marks at their end that are no exponent. These are the stray texts, and
`value?_isSome_iff` says that there are no others.
-/

namespace JsonDoc
namespace NumberText

variable {c : Char} {body chars digits exponent fraction tail text whole : List Char}
  {e : Int}

/-- An exponent, whose digits may be missing. -/
def AnyExponent
    (chars : List Char) : Prop :=
  (∃ e, Exponent chars e) ∨ OpenExponent chars

/-- A number of the relaxed dialect without its sign. -/
inductive Numeral : List Char → Prop
  | based {body : List Char} : Based body → Numeral body
  | decimal {whole fraction digits exponent : List Char} :
      Whole whole → OpenFraction fraction digits → AnyExponent exponent →
      Numeral (whole ++ (fraction ++ exponent))

/-- Marks and signs at the end of a loose decimal that are not part of an exponent. -/
inductive Excess : List Char → Prop
  /-- An exponent with digits, and something behind it. -/
  | afterDigits {exponent marks signs : List Char} {e : Int} :
      Exponent exponent e → exponent ≠ [] → (∀ c ∈ marks, isExponentMark c) →
      (∀ c ∈ signs, isSign c) → marks ++ signs ≠ [] → Excess (exponent ++ (marks ++ signs))
  /-- Signs without a mark before them. -/
  | unmarked {signs : List Char} : signs ≠ [] → (∀ c ∈ signs, isSign c) → Excess signs
  /-- More than one sign behind the mark. -/
  | signs {mark first second : Char} {more : List Char} :
      isExponentMark mark → (∀ c ∈ first :: second :: more, isSign c) →
      Excess (mark :: first :: second :: more)
  /-- More than one mark. -/
  | marks {first second : Char} {more signs : List Char} :
      (∀ c ∈ first :: second :: more, isExponentMark c) → (∀ c ∈ signs, isSign c) →
      Excess (first :: second :: more ++ signs)

/-- A loose decimal that is not a number of the relaxed dialect. -/
inductive Stray : List Char → Prop
  /-- A zero before other digits, unless all of it is an octal literal. -/
  | padded {more fraction digits tail : List Char} :
      more ≠ [] → (∀ c ∈ more, c.isDigit) → OpenFraction fraction digits → LooseTail tail →
      (∃ c ∈ more ++ (fraction ++ tail), isOctalDigit c = false) →
      Stray ('0' :: more ++ (fraction ++ tail))
  /-- Marks and signs at the end that are not part of an exponent. -/
  | overrun {whole fraction digits tail : List Char} :
      whole ≠ [] → (∀ c ∈ whole, c.isDigit) → OpenFraction fraction digits → Excess tail →
      Stray (whole ++ (fraction ++ tail))

/-! ## Ends of loose decimals -/

theorem LooseTail.any_or_excess
    (h : LooseTail tail) :
    AnyExponent tail ∨ Excess tail := by
  obtain @⟨exponent, marks, signs, e, exp, areMarks, areSigns⟩ := h
  by_cases digits : exponent = []
  · subst digits
    rw [List.nil_append]
    match marks, signs with
    | [], [] =>
        exact Or.inl (Or.inl ⟨0, .none⟩)
    | [], sign :: signs =>
        exact Or.inr (.unmarked (List.cons_ne_nil _ _) areSigns)
    | [mark], [] =>
        exact Or.inl (Or.inr (.unsigned (areMarks mark (by simp))))
    | [mark], [sign] =>
        exact Or.inl (Or.inr (.signed (areMarks mark (by simp)) (areSigns sign (by simp))))
    | [mark], first :: second :: more =>
        exact Or.inr (.signs (areMarks mark (by simp)) areSigns)
    | first :: second :: more, signs =>
        exact Or.inr (.marks areMarks areSigns)
  · by_cases nothing : marks ++ signs = []
    · rw [nothing, List.append_nil]
      exact Or.inl (Or.inl ⟨e, exp⟩)
    · exact Or.inr (.afterDigits exp digits areMarks areSigns nothing)

theorem Excess.looseTail
    (h : Excess tail) :
    LooseTail tail := by
  cases h with
  | afterDigits exp _ areMarks areSigns _ =>
      exact .mk exp areMarks areSigns
  | unmarked _ areSigns =>
      exact .mk .none (List.forall_mem_nil _) areSigns
  | signs isMark areSigns =>
      exact .mk .none (List.forall_mem_singleton.mpr isMark) areSigns
  | marks areMarks areSigns =>
      exact .mk .none areMarks areSigns

theorem isExponentMark_of_isSign
    (h : isSign c) :
    isExponentMark c = false := by
  cases isMark : isExponentMark c with
  | false =>
      rfl
  | true =>
      simp [isSign_of_isExponentMark isMark] at h

theorem Exponent.two_le_length
    (h : Exponent exponent e)
    (some : exponent ≠ []) :
    2 ≤ exponent.length := by
  cases h with
  | none =>
      exact absurd rfl some
  | unsigned _ digits _ | positive _ digits _ | negative _ digits _ =>
      have := List.length_pos_iff.mpr digits
      simp only [List.length_cons]
      omega

/-- An exponent starts with its mark, no mark follows, and behind the second place there are only
digits. -/
theorem AnyExponent.places
    (h : AnyExponent chars) :
    (∀ c, chars[0]? = some c → isExponentMark c) ∧
      (∀ c, chars[1]? = some c → isExponentMark c = false) ∧ ∀ c ∈ chars.drop 2, c.isDigit := by
  rcases h with ⟨e, exp⟩ | exp
  · cases exp with
    | none =>
        simp
    | @unsigned mark digits isMark some all =>
        obtain ⟨first, more, rfl⟩ := List.exists_cons_of_ne_nil some
        obtain ⟨digit, digits⟩ := List.forall_mem_cons.mp all
        simpa [isMark, isExponentMark_of_isDigit digit] using digits
    | positive isMark _ all | negative isMark _ all =>
        refine ⟨by simpa using isMark, ?_, by simpa using all⟩
        simp [isExponentMark]
  · cases exp with
    | unsigned isMark =>
        simpa using isMark
    | signed isMark isSign =>
        simpa [isMark] using isExponentMark_of_isSign isSign

theorem Excess.not_any
    (h : Excess tail) :
    ¬ AnyExponent tail := by
  intro any
  obtain ⟨first, second, digits⟩ := any.places
  cases h with
  | @afterDigits exponent marks signs e exp some areMarks areSigns more =>
      rw [List.drop_append_of_le_length (exp.two_le_length some)] at digits
      obtain ⟨c, rest, eq⟩ := List.exists_cons_of_ne_nil more
      have digit : c.isDigit := digits c (by simp [eq])
      have here : c ∈ marks ++ signs := by simp [eq]
      rcases List.mem_append.mp here with mem | mem
      · have isMark := areMarks c mem
        simp [isExponentMark_of_isDigit digit] at isMark
      · have isSign := areSigns c mem
        simp [isSign_of_isDigit digit] at isSign
  | unmarked some areSigns =>
      obtain ⟨sign, more, rfl⟩ := List.exists_cons_of_ne_nil some
      have isMark := first sign rfl
      simp [isExponentMark_of_isSign (areSigns sign List.mem_cons_self)] at isMark
  | @signs mark one two more isMark areSigns =>
      have digit : two.isDigit := digits two (by simp)
      have isSign := areSigns two (by simp)
      simp [isSign_of_isDigit digit] at isSign
  | @marks one two more signs areMarks areSigns =>
      have isMark := areMarks two (by simp)
      simp [second two rfl] at isMark

theorem AnyExponent.looseTail
    (h : AnyExponent exponent) :
    LooseTail exponent := by
  rcases h with ⟨e, exp⟩ | exp
  · have loose := LooseTail.mk exp (List.forall_mem_nil _) (List.forall_mem_nil _)
    rwa [List.nil_append, List.append_nil] at loose
  · cases exp with
    | unsigned isMark =>
        exact .mk .none (List.forall_mem_singleton.mpr isMark) (List.forall_mem_nil _)
    | signed isMark isSign =>
        exact .mk .none (List.forall_mem_singleton.mpr isMark)
          (List.forall_mem_singleton.mpr isSign)

/-! ## Stray texts -/

theorem Numeral.based_or_loose
    (h : Numeral body) :
    Based body ∨ Loose body := by
  cases h with
  | based based =>
      exact Or.inl based
  | decimal int frac exp =>
      exact Or.inr (.mk int.ne_nil int.isDigit frac exp.looseTail)

theorem Loose.numeral_or_stray
    (h : Loose body) :
    Numeral body ∨ Stray body := by
  obtain @⟨whole, fraction, digits, tail, nonempty, int, frac, loose⟩ := h
  by_cases isWhole : Whole whole
  · rcases loose.any_or_excess with exp | excess
    · exact Or.inl (.decimal isWhole frac exp)
    · exact Or.inr (.overrun nonempty int frac excess)
  · obtain ⟨first, more, rfl⟩ := List.exists_cons_of_ne_nil nonempty
    obtain ⟨digit, digitsMore⟩ := List.forall_mem_cons.mp int
    obtain rfl : first = '0' := by
      by_contra notZero
      exact isWhole (.positive digit notZero digitsMore)
    have padded : more ≠ [] := by
      rintro rfl
      exact isWhole .zero
    by_cases octal : ∀ c ∈ more ++ (fraction ++ tail), isOctalDigit c
    · have some : more ++ (fraction ++ tail) ≠ [] := by simp [padded]
      have literal : Based (['0'] ++ (more ++ (fraction ++ tail))) :=
        .mk .octal some fun c mem => isDigitOf_of_isOctalDigit (octal c mem)
      exact Or.inl (.based literal)
    · refine Or.inr (.padded padded digitsMore frac loose ?_)
      simpa using octal

theorem Stray.loose
    (h : Stray body) :
    Loose body := by
  cases h with
  | padded _ all frac loose _ =>
      exact .mk (List.cons_ne_nil _ _) (List.forall_mem_cons.mpr ⟨by decide, all⟩) frac loose
  | overrun nonempty int frac excess =>
      exact .mk nonempty int frac excess.looseTail

/-- A character that starts what stands behind the fraction. -/
def startsTail (c : Char) : Bool := isExponentMark c || isSign c

theorem isDigit_of_startsTail
    (h : startsTail c) :
    c.isDigit = false := by
  cases digit : c.isDigit with
  | false =>
      rfl
  | true =>
      simp [startsTail, isExponentMark_of_isDigit digit, isSign_of_isDigit digit] at h

theorem LooseTail.head
    (h : LooseTail tail) :
    ∀ c, tail.head? = some c → startsTail c := by
  obtain @⟨exponent, marks, signs, e, exp, areMarks, areSigns⟩ := h
  intro c hc
  rw [startsTail, Bool.or_eq_true]
  cases exponent with
  | nil =>
      rw [List.nil_append] at hc
      rcases List.mem_append.mp (List.mem_of_head? hc) with mem | mem
      · exact Or.inl (areMarks c mem)
      · exact Or.inr (areSigns c mem)
  | cons first more =>
      exact Or.inl (exp.head c hc)

theorem AnyExponent.head
    (h : AnyExponent exponent) :
    ∀ c, exponent.head? = some c → startsTail c := by
  intro c hc
  have isMark : isExponentMark c := h.places.1 c (by rwa [← List.head?_eq_getElem?])
  simp [startsTail, isMark]

/-- What stands behind the fraction of a decimal is told by the whole text. -/
theorem tail_unique
    {whole' fraction' digits' tail' : List Char}
    (same : whole ++ (fraction ++ tail) = whole' ++ (fraction' ++ tail'))
    (int : ∀ c ∈ whole, c.isDigit)
    (int' : ∀ c ∈ whole', c.isDigit)
    (frac : OpenFraction fraction digits)
    (frac' : OpenFraction fraction' digits')
    (ends : ∀ c, tail.head? = some c → startsTail c)
    (ends' : ∀ c, tail'.head? = some c → startsTail c) :
    tail = tail' := by
  have afterWhole {fraction digits tail : List Char} (frac : OpenFraction fraction digits)
      (ends : ∀ c, tail.head? = some c → startsTail c) :
      ∀ c, (fraction ++ tail).head? = some c → c.isDigit = false := by
    cases frac with
    | none =>
        exact fun c hc => isDigit_of_startsTail (ends c hc)
    | some _ =>
        rintro c hc
        cases hc
        decide
  have rest : fraction ++ tail = fraction' ++ tail' := by
    rw [← (takeWhile_isDigit int (afterWhole frac ends)).2, same,
      (takeWhile_isDigit int' (afterWhole frac' ends')).2]
  have noPoint {digits tail : List Char} (ends : ∀ c, tail.head? = some c → startsTail c) :
      tail ≠ '.' :: digits := by
    rintro rfl
    exact absurd (ends '.' rfl) (by decide)
  cases frac with
  | none =>
      cases frac' with
      | none =>
          exact rest
      | some _ =>
          exact absurd rest (noPoint ends)
  | some all =>
      cases frac' with
      | none =>
          exact absurd rest.symm (noPoint ends')
      | some all' =>
          have after : digits ++ tail = digits' ++ tail' := (List.cons.inj rest).2
          have digitEnds := fun c hc => isDigit_of_startsTail (ends c hc)
          have digitEnds' := fun c hc => isDigit_of_startsTail (ends' c hc)
          rw [← (takeWhile_isDigit all digitEnds).2, after, (takeWhile_isDigit all' digitEnds').2]

/-- The only literals of another base that are loose decimals are the octal ones. -/
theorem Based.octal
    (h : Based body)
    (loose : Loose body) :
    ∃ digits, body = '0' :: digits ∧ ∀ c ∈ digits, isOctalDigit c := by
  obtain ⟨isMark, some, all⟩ := h
  cases isMark with
  | hexadecimal isMark =>
      exact absurd isMark loose.second.1
  | binary isMark =>
      exact absurd isMark loose.second.2
  | octal =>
      exact ⟨_, rfl, fun c mem => isOctalDigit_of_isDigitOf (all c mem)⟩

theorem isDigit_of_isOctalDigit
    (h : isOctalDigit c) :
    c.isDigit := by
  simp only [isOctalDigit, Bool.and_eq_true, decide_eq_true_eq] at h
  simp only [Char.isDigit, Bool.and_eq_true, decide_eq_true_eq]
  exact ⟨h.1, UInt32.le_trans h.2 (by decide)⟩

theorem Excess.ne_nil
    (h : Excess tail) :
    tail ≠ [] := by
  rintro rfl
  exact h.not_any (Or.inl ⟨0, .none⟩)

theorem Stray.not_numeral
    (h : Stray body) :
    ¬ Numeral body := by
  intro numeral
  have loose := h.loose
  generalize same : body = text at numeral
  cases numeral with
  | based based =>
      obtain ⟨octals, rfl, all⟩ := based.octal (same ▸ loose)
      cases h with
      | padded _ _ _ _ other =>
          obtain ⟨c, mem, notOctal⟩ := other
          simp [all c ((List.cons.inj same).2 ▸ mem)] at notOctal
      | @overrun whole fraction digits tail _ _ _ excess =>
          obtain ⟨first, more, eq⟩ := List.exists_cons_of_ne_nil excess.ne_nil
          have start := excess.looseTail.head first (by simp [eq])
          have mem : first ∈ '0' :: octals := by simp [← same, eq]
          have digit : first.isDigit := by
            rcases List.mem_cons.mp mem with rfl | mem
            · decide
            · exact isDigit_of_isOctalDigit (all first mem)
          simp [isDigit_of_startsTail start] at digit
  | decimal int frac exp =>
      cases h with
      | padded some all _ _ _ =>
          obtain ⟨second, more, rfl⟩ := List.exists_cons_of_ne_nil some
          have digit : second.isDigit := all second List.mem_cons_self
          have head := fun c hc => exp.places.1 c (List.head?_eq_getElem?.symm.trans hc)
          rcases int.second frac head same.symm with rfl | isMark
          · exact absurd digit (by decide)
          · simp [isExponentMark_of_isDigit digit] at isMark
      | overrun _ int' frac' excess =>
          have tails := tail_unique same int' int.isDigit frac' frac excess.looseTail.head exp.head
          exact excess.not_any (tails ▸ exp)

/-! ## Signs -/

/-- A text of a kind, with a sign before it or without. -/
def Signed (P : List Char → Prop) (text : List Char) : Prop :=
  ∃ sign f body, SignMark sign f ∧ text = sign ++ body ∧ P body

/-- The text begins with a digit. -/
def LedByDigit
    (text : List Char) : Prop :=
  ∃ first more, text = first :: more ∧ first.isDigit

theorem Loose.ledByDigit
    (h : Loose body) :
    LedByDigit body := by
  obtain ⟨nonempty, int, _, _⟩ := h
  obtain ⟨first, more, rfl⟩ := List.exists_cons_of_ne_nil nonempty
  exact ⟨first, _, rfl, int first List.mem_cons_self⟩

theorem Based.ledByDigit
    (h : Based body) :
    LedByDigit body := by
  obtain ⟨isMark, _, _⟩ := h
  cases isMark <;> exact ⟨'0', _, rfl, by decide⟩

theorem Numeral.ledByDigit
    (h : Numeral body) :
    LedByDigit body := by
  cases h with
  | based based =>
      exact based.ledByDigit
  | decimal int _ _ =>
      obtain ⟨first, more, rfl, digit⟩ := int.head
      exact ⟨first, _, rfl, digit⟩

/-- The sign of a number is what stands before its first digit. -/
theorem SignMark.dropWhile
    {sign : List Char} {f : Binary64 → Binary64}
    (h : SignMark sign f)
    (led : LedByDigit body) :
    (sign ++ body).dropWhile (fun c => !c.isDigit) = body := by
  obtain ⟨first, more, rfl, digit⟩ := led
  cases h with
  | none =>
      simp [digit]
  | plus | minus =>
      simp [digit, show Char.isDigit '+' = false by decide, show Char.isDigit '-' = false by decide]

theorem Signed.and
    {P Q : List Char → Prop}
    (hP : ∀ body, P body → LedByDigit body)
    (hQ : ∀ body, Q body → LedByDigit body)
    (p : Signed P text)
    (q : Signed Q text) :
    ∃ body, P body ∧ Q body := by
  obtain ⟨sign, f, body, isSign, split, holds⟩ := p
  obtain ⟨sign', f', body', isSign', split', holds'⟩ := q
  obtain rfl : body = body' := by
    rw [← isSign.dropWhile (hP body holds), ← split, split', isSign'.dropWhile (hQ body' holds')]
  exact ⟨body, holds, holds'⟩

/-- The reader takes what it takes behind a sign. -/
theorem value?_isSome_iff_signed :
    (value? text).isSome ↔ Signed (fun body => (magnitude? body).isSome) text := by
  constructor
  · intro h
    unfold value? at h
    split at h
    · rename_i body
      exact ⟨['-'], Binary64.neg, body, .minus, rfl, by simpa using h⟩
    · rename_i body
      exact ⟨['+'], id, body, .plus, rfl, h⟩
    · exact ⟨[], id, text, .none, rfl, h⟩
  · rintro ⟨sign, f, body, isSign, rfl, magnitude⟩
    obtain ⟨n, value⟩ := Option.isSome_iff_exists.mp magnitude
    have led : LedByDigit body := by
      rcases magnitude?_isSome_iff.mp magnitude with based | loose
      · exact based.ledByDigit
      · exact loose.ledByDigit
    obtain ⟨first, more, rfl, digit⟩ := led
    rw [isSign.value? digit value]
    rfl

end NumberText

namespace Syntax

open NumberText Utf8

variable {bytes : List UInt8} {body text : List Char}

/-! ## From bytes to characters -/

theorem IsRelaxedMagnitude.numeral
    (h : IsRelaxedMagnitude bytes) :
    Ascii bytes ∧ Numeral (bytes.map asciiChar) := by
  cases h with
  | @hexadecimal mark digits isMark some all =>
      obtain ⟨ascii, digitsAre⟩ := ascii_map (fun _ => isDigitOf_hexadecimal) all
      obtain ⟨small, isMark⟩ :
          mark.toNat < 0x80 ∧ (asciiChar mark = 'x' ∨ asciiChar mark = 'X') := by
        simp only [Byte.isHexMark, Bool.or_eq_true, beq_iff_eq] at isMark
        rcases isMark with rfl | rfl <;> decide
      refine ⟨(ascii.cons small).cons (by decide), .based ?_⟩
      exact .mk (.hexadecimal isMark) (by simpa using some) digitsAre
  | @binary mark digits isMark some all =>
      obtain ⟨ascii, digitsAre⟩ := ascii_map (fun _ => isDigitOf_binary) all
      obtain ⟨small, isMark⟩ :
          mark.toNat < 0x80 ∧ (asciiChar mark = 'b' ∨ asciiChar mark = 'B') := by
        simp only [Byte.isBinaryMark, Bool.or_eq_true, beq_iff_eq] at isMark
        rcases isMark with rfl | rfl <;> decide
      refine ⟨(ascii.cons small).cons (by decide), .based ?_⟩
      exact .mk (.binary isMark) (by simpa using some) digitsAre
  | @octal digits some all =>
      have each (b : UInt8) (octal : Byte.isOctalDigit b) :
          b.toNat < 0x80 ∧ IsDigitOf 8 (asciiChar b) :=
        ⟨(isDigitOf_octal octal).1, (isDigitOf_octal octal).2.1⟩
      obtain ⟨ascii, digitsAre⟩ := ascii_map each all
      have some : digits.map asciiChar ≠ [] := by simpa using some
      have literal : Based (['0'] ++ digits.map asciiChar) := .mk .octal some digitsAre
      exact ⟨ascii.cons (by decide), .based literal⟩
  | decimal int frac exp =>
      obtain ⟨asciiInt, whole⟩ := int.whole
      obtain ⟨asciiFrac, digits, fraction⟩ := frac.openFraction
      obtain ⟨asciiExp, exponent⟩ := exp.openExponent
      rw [List.map_append, List.map_append]
      exact ⟨asciiInt.append (asciiFrac.append asciiExp), .decimal whole fraction exponent⟩

/-! ## From characters to bytes -/

/-- The byte of a digit of a base. The digits of the bases up to ten are in a row. -/
theorem encode_of_isDigitOf
    {base : Nat} {c : Char}
    (h : IsDigitOf base c) :
    ∃ b, String.utf8EncodeChar c = [b] ∧ Byte.isHexDigit b ∧
      (base ≤ 10 → 48 ≤ b.toNat ∧ b.toNat < 48 + base) := by
  have codes := h.code
  have value : (UInt8.ofNat c.val.toNat).toNat = c.val.toNat := toNat_ofNat_of_lt (by omega)
  refine ⟨_, utf8EncodeChar_ascii (by omega), ?_, by omega⟩
  simp only [Byte.isHexDigit, Byte.isDigit, Bool.or_eq_true, Bool.and_eq_true, decide_eq_true_eq,
    UInt8.le_iff_toNat_le, value]
  change (((48 ≤ c.val.toNat ∧ c.val.toNat ≤ 57) ∨ (65 ≤ c.val.toNat ∧ c.val.toNat ≤ 70)) ∨
    (97 ≤ c.val.toNat ∧ c.val.toNat ≤ 102))
  omega

theorem isOpenFraction_encode
    {chars digits : List Char}
    (h : OpenFraction chars digits) :
    IsOpenFraction (encode chars) := by
  cases h with
  | none =>
      exact .none
  | some all =>
      exact .some (isDigit_encode all)

theorem isSign_encode
    {c : Char}
    (h : NumberText.isSign c) :
    ∃ b, String.utf8EncodeChar c = [b] ∧ Byte.isSign b := by
  simp only [NumberText.isSign, Bool.or_eq_true, beq_iff_eq] at h
  rcases h with rfl | rfl
  · exact ⟨Byte.plus, rfl, by decide⟩
  · exact ⟨Byte.minus, rfl, by decide⟩

theorem isOpenExponent_encode
    {chars : List Char}
    (h : AnyExponent chars) :
    IsOpenExponent (encode chars) := by
  rcases h with ⟨e, exp⟩ | exp
  · exact (isExponent_encode exp).isOpen
  · cases exp with
    | unsigned isMark =>
        obtain ⟨mark, eq, isMark⟩ := isExponentMark_encode isMark
        rw [encode_cons, eq]
        exact .unsigned isMark nofun
    | signed isMark isSign =>
        obtain ⟨mark, eq, isMark⟩ := isExponentMark_encode isMark
        obtain ⟨sign, eqSign, isSign⟩ := isSign_encode isSign
        rw [encode_cons, encode_cons, eq, eqSign]
        exact .signed isMark isSign nofun

theorem isBinaryDigit_of_bounds
    {b : UInt8}
    (h : 48 ≤ b.toNat ∧ b.toNat < 48 + 2 ^ 1) :
    Byte.isBinaryDigit b := by
  have digits : b.toNat = (0x30 : UInt8).toNat ∨ b.toNat = (0x31 : UInt8).toNat := by
    change b.toNat = 48 ∨ b.toNat = 49
    omega
  simpa only [Byte.isBinaryDigit, Bool.or_eq_true, beq_iff_eq, UInt8.toNat_inj] using digits

theorem isOctalDigit_of_bounds
    {b : UInt8}
    (h : 48 ≤ b.toNat ∧ b.toNat < 48 + 2 ^ 3) :
    Byte.isOctalDigit b := by
  have bounds : (0x30 : UInt8).toNat ≤ b.toNat ∧ b.toNat ≤ (0x37 : UInt8).toNat := by
    change 48 ≤ b.toNat ∧ b.toNat ≤ 55
    omega
  simpa only [Byte.isOctalDigit, Bool.and_eq_true, decide_eq_true_eq, UInt8.le_iff_toNat_le] using
    bounds

theorem isRelaxedMagnitude_encode
    (h : Numeral body) :
    IsRelaxedMagnitude (encode body) := by
  cases h with
  | based based =>
      obtain ⟨isMark, some, all⟩ := based
      rw [encode_append]
      have some := encode_ne_nil some
      have digits := encode_class (fun _ => encode_of_isDigitOf) all
      cases isMark with
      | hexadecimal isMark =>
          rcases isMark with rfl | rfl
          · exact .hexadecimal (by decide) some fun b mem => (digits b mem).1
          · exact .hexadecimal (by decide) some fun b mem => (digits b mem).1
      | binary isMark =>
          have binary := fun b mem => isBinaryDigit_of_bounds ((digits b mem).2 (by decide))
          rcases isMark with rfl | rfl
          · exact .binary (by decide) some binary
          · exact .binary (by decide) some binary
      | octal =>
          exact .octal some fun b mem => isOctalDigit_of_bounds ((digits b mem).2 (by decide))
  | decimal int frac exp =>
      rw [encode_append, encode_append]
      exact .decimal (isInteger_encode int) (isOpenFraction_encode frac)
        (isOpenExponent_encode exp)

theorem signed_of_isRelaxedNumber
    (h : IsRelaxedNumber bytes) :
    Signed Numeral (decode bytes) := by
  cases h with
  | unsigned mag =>
      obtain ⟨ascii, numeral⟩ := mag.numeral
      rw [decode_ascii ascii]
      exact ⟨[], id, _, .none, rfl, numeral⟩
  | signed isSign mag =>
      obtain ⟨ascii, numeral⟩ := mag.numeral
      obtain ⟨small, sign⟩ := isSign_asciiChar isSign
      rw [decode_ascii (ascii.cons small), List.map_cons]
      rcases sign with eq | eq
      · exact ⟨['+'], id, _, .plus, by rw [eq]; rfl, numeral⟩
      · exact ⟨['-'], Binary64.neg, _, .minus, by rw [eq]; rfl, numeral⟩

theorem isRelaxedNumber_of_signed
    (h : Signed Numeral text) :
    IsRelaxedNumber (encode text) := by
  obtain ⟨sign, f, body, isSign, rfl, numeral⟩ := h
  have mag := isRelaxedMagnitude_encode numeral
  rw [encode_append]
  cases isSign with
  | none =>
      exact .unsigned mag
  | plus =>
      exact .signed (show Byte.isSign Byte.plus by decide) mag
  | minus =>
      exact .signed (show Byte.isSign Byte.minus by decide) mag

/-- The numbers of the relaxed dialect, as characters and as bytes. -/
theorem isRelaxedNumber_encode_iff :
    IsRelaxedNumber (encode text) ↔ Signed Numeral text := by
  refine ⟨fun h => ?_, isRelaxedNumber_of_signed⟩
  have signed := signed_of_isRelaxedNumber h
  rwa [decode_encode] at signed

end Syntax

/-- The relaxed rule for numbers takes all that is ahead. -/
def Scanner.AtNumeral (s : Scanner) : Prop :=
  (Grammar.number .relaxed s).error = none ∧ (Grammar.number .relaxed s).stop.rest = []

theorem Scanner.atNumeral_iff
    {s : Scanner} :
    s.AtNumeral ↔ Syntax.IsRelaxedNumber s.rest := by
  constructor
  · rintro ⟨ok, nothing⟩
    obtain ⟨text, isText, reads⟩ := Syntax.relaxedNumber_sound ok
    have rest := reads.passes.rest
    rw [nothing, List.append_nil] at rest
    rwa [rest]
  · intro isNumber
    have ahead : s.rest = s.rest ++ [] := (List.append_nil _).symm
    have taken := Syntax.relaxedNumber_of_final ahead isNumber nofun nofun
    refine ⟨by rw [taken]; rfl, ?_⟩
    rw [taken]
    exact Scanner.rest_advance ahead

namespace NumberText

/-- A text has a value exactly if the relaxed rule for numbers takes all of it or it is a stray
text, with a sign or without. No text is both. -/
theorem value?_isSome_iff
    (text : List Char)
    (maxDepth : Option Nat) :
    ((value? text).isSome ↔
        (Scanner.start (Utf8.encode text) maxDepth).AtNumeral ∨ Signed Stray text) ∧
      ¬ ((Scanner.start (Utf8.encode text) maxDepth).AtNumeral ∧ Signed Stray text) := by
  have taken : (Scanner.start (Utf8.encode text) maxDepth).AtNumeral ↔ Signed Numeral text :=
    Scanner.atNumeral_iff.trans Syntax.isRelaxedNumber_encode_iff
  rw [taken]
  constructor
  · rw [value?_isSome_iff_signed]
    constructor
    · rintro ⟨sign, f, body, isSign, split, magnitude⟩
      have numeral : Numeral body ∨ Stray body := by
        rcases magnitude?_isSome_iff.mp magnitude with based | loose
        · exact Or.inl (.based based)
        · exact loose.numeral_or_stray
      rcases numeral with numeral | stray
      · exact Or.inl ⟨sign, f, body, isSign, split, numeral⟩
      · exact Or.inr ⟨sign, f, body, isSign, split, stray⟩
    · rintro (⟨sign, f, body, isSign, split, numeral⟩ | ⟨sign, f, body, isSign, split, stray⟩)
      · exact ⟨sign, f, body, isSign, split, magnitude?_isSome_iff.mpr numeral.based_or_loose⟩
      · exact ⟨sign, f, body, isSign, split, magnitude?_isSome_iff.mpr (Or.inr stray.loose)⟩
  · rintro ⟨numeral, stray⟩
    obtain ⟨body, numeral, stray⟩ :=
      numeral.and (fun _ => Numeral.ledByDigit) (fun _ stray => stray.loose.ledByDigit) stray
    exact stray.not_numeral numeral

/-- A sign behind a number and a zero before one: two texts with a value that the rule for numbers
does not take. It stops before the sign, and it fails at the point. -/
theorem value?_strays :
    ((value? "1+".toList).isSome ∧ ¬ (Scanner.start (Utf8.encode "1+".toList) none).AtNumeral) ∧
      (value? "01.5".toList).isSome ∧
        ¬ (Scanner.start (Utf8.encode "01.5".toList) none).AtNumeral := by
  simp only [Scanner.AtNumeral]
  decide +kernel

end NumberText
end JsonDoc
