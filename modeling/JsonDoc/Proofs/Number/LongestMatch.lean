import JsonDoc.Proofs.Syntax.StrictInRelaxed
import JsonDoc.Proofs.Syntax.Tiling

/-!
# Numbers are longest matches

The rule for numbers never goes back: it takes a sign, a fraction or an exponent as soon as it sees
its first byte. All the same it finds the longest number that stands ahead, and fails if that number
runs into a letter, a digit, an underscore or a point: `number_longest`.

If a longer number stood ahead than the one that was read, the byte after the one that was read
would be a delimiter inside a number. So it would be the sign of an exponent. A strict number does
not end before such a sign, as it ends in a digit, and the relaxed rule goes past it.
-/

namespace JsonDoc

/-- The numbers of a dialect. -/
def Grammar.IsNumeral : Grammar → List UInt8 → Prop
  | .strict => Syntax.IsNumber
  | .relaxed => Syntax.IsRelaxedNumber

namespace Syntax

open Run Grammar

/-- The longest text of a kind at the front of some bytes. -/
structure Longest (P : List UInt8 → Prop) (bytes text : List UInt8) : Prop where
  holds : P text
  isPrefix : text <+: bytes
  longest : ∀ other, P other → other <+: bytes → other.length ≤ text.length

variable {g : Grammar} {s : Scanner} {text other rest : List UInt8} {P : List UInt8 → Prop}

theorem Longest.unique
    (h : Longest P rest text)
    (k : Longest P rest other) :
    text = other := by
  have shorter := k.longest text h.holds h.isPrefix
  have longer := h.longest other k.holds k.isPrefix
  exact (List.prefix_of_prefix_length_le h.isPrefix k.isPrefix shorter).eq_of_length
    (Nat.le_antisymm shorter longer)

theorem Longest.final
    (h : Longest P (text ++ rest) text) :
    Final P text rest := by
  intro b hb isLonger
  obtain ⟨more, rfl⟩ := List.head?_eq_some_iff.mp hb
  have shorter := h.longest (text ++ [b]) isLonger ⟨more, by simp⟩
  rw [List.length_append, List.length_singleton] at shorter
  omega

/-! ## What the rules read -/

theorem relaxed_of_isNumeral
    (h : g.IsNumeral text) :
    IsRelaxedNumber text := by
  cases g with
  | strict =>
      exact IsNumber.relaxed h
  | relaxed =>
      exact h

theorem number_of_final
    (ahead : s.rest = text ++ rest)
    (numeral : g.IsNumeral text)
    (ends : Delimited rest)
    (final : Final g.IsNumeral text rest) :
    g.number s = token .number s (s.advance text.length) := by
  cases g with
  | strict =>
      exact number_eq ahead numeral ends
  | relaxed =>
      exact relaxedNumber_of_final ahead numeral ends final

theorem readsNumeral
    (ok : (g.number s).error = none) :
    ∃ text, g.IsNumeral text ∧ ReadsToken .number s (g.number s) text := by
  cases g with
  | strict =>
      exact number_sound ok
  | relaxed =>
      exact relaxedNumber_sound ok

/-- The end of a number is looked for where the number stops. -/
theorem stop_numberEnd
    (start s : Scanner) :
    (numberEnd start s).stop = s := by
  unfold numberEnd
  split <;> rfl

theorem delimited_of_number
    (ok : (g.number s).error = none) :
    Delimited (g.number s).stop.rest := by
  obtain ⟨okMagnitude, okEnd⟩ := error_andThen_eq_none.mp ok
  rw [number, stop_andThen okMagnitude, stop_numberEnd]
  exact delimited_of_numberEnd okEnd

/-! ## Signs inside of numbers -/

/-- The sign of a number, or nothing. -/
inductive IsLead : List UInt8 → Prop
  | none : IsLead []
  | some {sign : UInt8} : Byte.isSign sign → IsLead [sign]

theorem not_isPart_of_isSign
    {b : UInt8}
    (h : Byte.isSign b) :
    ¬ IsPart b := by
  simp only [Byte.isSign, Bool.or_eq_true, beq_iff_eq] at h
  rintro (part | rfl)
  · rcases h with rfl | rfl <;> exact absurd part (by decide)
  · rcases h with eq | eq <;> exact absurd eq (by decide)

/-- A sign stands only behind the mark of the exponent. -/
theorem IsRelaxedMagnitude.marked
    {front more : List UInt8} {sign : UInt8}
    (mag : IsRelaxedMagnitude (front ++ sign :: more))
    (isSign : Byte.isSign sign) :
    IsMarked front := by
  have notPart := not_isPart_of_isSign isSign
  rcases mag.signs with parts | ⟨marked, sign', digits, split, isMarked, _, all⟩
  · exact absurd (parts sign (by simp)) notPart
  · rcases List.append_eq_append_iff.mp split with ⟨between, eq, tail⟩ | ⟨between, eq, tail⟩
    · cases between with
      | nil =>
          rw [List.append_nil] at eq
          exact eq ▸ isMarked
      | cons first between =>
          cases tail
          exact absurd (isMarked.parts sign (by simp [eq])) notPart
    · cases between with
      | nil =>
          rw [List.append_nil] at eq
          exact eq ▸ isMarked
      | cons first between =>
          cases tail
          exact absurd (isPart_of_isDigit (all sign (by simp))) notPart

/-- A number that goes on with a sign has the mark of an exponent before it. -/
theorem IsRelaxedNumber.marked
    {more : List UInt8} {sign : UInt8}
    (number : IsRelaxedNumber text)
    (longer : IsRelaxedNumber (text ++ sign :: more))
    (isSign : Byte.isSign sign) :
    ∃ lead front, text = lead ++ front ∧ IsLead lead ∧ IsMarked front := by
  generalize split : text ++ sign :: more = all at longer
  cases longer with
  | unsigned mag =>
      subst split
      exact ⟨[], text, rfl, .none, mag.marked isSign⟩
  | @signed first _ isFirst mag =>
      cases text with
      | nil =>
          obtain ⟨_, _, nothing, _⟩ := number.leads
          simp at nothing
      | cons b front =>
          cases split
          exact ⟨[first], front, rfl, .some isFirst, mag.marked isSign⟩

/-- The relaxed rule goes past a sign behind the mark of an exponent, and past the digits after
it. -/
theorem magnitude_marked
    {front : List UInt8} {sign : UInt8}
    (isMarked : IsMarked front)
    (isSign : Byte.isSign sign)
    (ahead : s.rest = front ++ sign :: rest) :
    ∃ digits, digits <+: rest ∧
      magnitude .relaxed s = done (s.advance (front ++ sign :: digits).length) := by
  cases isMarked with
  | @mk int frac mark isInt isFrac isMark =>
      have all : ∀ b ∈ rest.takeWhile Byte.isDigit, Byte.isDigit b :=
        fun b mem => List.all_eq_true.mp List.all_takeWhile b mem
      have isExp := IsOpenExponent.signed isMark isSign all
      have split : s.rest = int ++ (frac ++ (mark :: sign :: rest.takeWhile Byte.isDigit ++
          rest.dropWhile Byte.isDigit)) := by
        simp [ahead, List.takeWhile_append_dropWhile]
      have final : Final IsOpenExponent (mark :: sign :: rest.takeWhile Byte.isDigit)
          (rest.dropWhile Byte.isDigit) := by
        intro b hb longer
        have notDigit := List.head?_dropWhile_not Byte.isDigit rest
        rw [hb] at notDigit
        cases longer with
        | unsigned _ digits =>
            have digit := digits sign (by simp)
            simp [isSign_of_isDigit digit] at isSign
        | signed _ _ digits =>
            have digit := digits b (by simp)
            simp [digit] at notDigit
      refine ⟨rest.takeWhile Byte.isDigit, List.takeWhile_prefix _, ?_⟩
      rw [decimal_eq split isInt isFrac isExp (by simp) final]
      simp

theorem bumpIf_lead
    {lead : List UInt8}
    (isLead : IsLead lead)
    (ahead : s.rest = lead ++ rest)
    (digit : ∀ b, rest.head? = some b → Byte.isDigit b) :
    s.bumpIf (isSign .relaxed) = s.advance lead.length := by
  cases isLead with
  | none =>
      rw [List.length_nil, Scanner.advance_zero]
      refine Scanner.bumpIf_of_not fun b hb => ?_
      rw [ahead] at hb
      exact isSign_of_isDigit (digit b hb)
  | some isSign =>
      exact Scanner.bumpIf_of_peek (p := Grammar.isSign .relaxed) (Scanner.peek_of_rest ahead)
        isSign

/-- So it does not stop before the sign. -/
theorem position_marked
    {lead front : List UInt8} {sign : UInt8}
    (isLead : IsLead lead)
    (isMarked : IsMarked front)
    (isSign : Byte.isSign sign)
    (ahead : s.rest = lead ++ front ++ sign :: rest) :
    s.position + (lead ++ front).length < (number .relaxed s).stop.position := by
  rw [List.append_assoc] at ahead
  have inside : (s.advance lead.length).rest = front ++ sign :: rest := Scanner.rest_advance ahead
  obtain ⟨digits, ⟨after, rfl⟩, taken⟩ := magnitude_marked isMarked isSign inside
  have digit : ∀ b, (front ++ sign :: (digits ++ after)).head? = some b → Byte.isDigit b := by
    intro b hb
    cases isMarked with
    | mk isInt _ _ =>
        cases isInt with
        | zero =>
            cases hb
            decide
        | positive positive _ =>
            cases hb
            exact isDigit_of_isPositiveDigit positive
  have passes := Scanner.Passes.advance (s.advance lead.length) (front ++ sign :: digits).length
  have whole : front ++ sign :: (digits ++ after) = front ++ sign :: digits ++ after := by simp
  have leads := Scanner.Passes.advance s lead.length
  rw [inside, whole, List.take_left] at passes
  rw [ahead, List.take_left] at leads
  rw [number, bumpIf_lead isLead ahead digit, taken, done_andThen, stop_numberEnd, passes.position,
    leads.position]
  simp only [List.length_append, List.length_cons]
  omega

/-! ## Longest matches -/

/-- No number that stands ahead is longer than the one that was read. -/
theorem longest_of_reads
    (ok : (g.number s).error = none)
    (numeral : g.IsNumeral text)
    (reads : ReadsToken .number s (g.number s) text) :
    Longest g.IsNumeral s.rest text := by
  have ends := delimited_of_number ok
  have passes := reads.passes
  refine ⟨numeral, ⟨_, passes.rest.symm⟩, fun other isOther isPrefix => ?_⟩
  refine Nat.le_of_not_lt fun longer => ?_
  have front : text <+: other :=
    List.prefix_of_prefix_length_le ⟨_, passes.rest.symm⟩ isPrefix (by omega)
  obtain ⟨more, rfl⟩ := front
  obtain ⟨after, whole⟩ := isPrefix
  cases more with
  | nil =>
      simp at longer
  | cons sign more =>
      have stop : (g.number s).stop.rest = sign :: (more ++ after) := by
        rw [passes.rest] at whole
        simpa using whole.symm
      have isSign : Byte.isSign sign := by
        obtain ⟨notPart, notDot⟩ := ends sign (by rw [stop]; rfl)
        rcases (relaxed_of_isNumeral isOther).bytes sign (by simp) with (part | dot) | isSign
        · simp [notPart] at part
        · exact absurd dot notDot
        · exact isSign
      obtain ⟨lead, front, rfl, isLead, isMarked⟩ :=
        (relaxed_of_isNumeral numeral).marked (relaxed_of_isNumeral isOther) isSign
      cases g with
      | strict =>
          obtain ⟨before, last, eq, digit⟩ := IsNumber.endsInDigit numeral
          cases isMarked with
          | @mk int frac mark _ _ isMark =>
              have last := congrArg List.getLast? eq
              simp only [← List.append_assoc, List.getLast?_concat, Option.some.injEq] at last
              have notDigit := (ends_of_isExponentMark isMark).1
              rw [last] at notDigit
              simp [digit] at notDigit
      | relaxed =>
          have position := position_marked isLead isMarked isSign (by simpa using whole.symm)
          rw [passes.position] at position
          omega

/-- The rule for numbers finds the longest number that stands ahead. It succeeds exactly if there is
one and what follows it is the end of the input or a byte other than a letter, a digit, an
underscore or a point. Then it emits one event, which covers the number, and stops behind it. If it
fails, it emits nothing. -/
theorem number_longest
    (g : Grammar)
    (s : Scanner) :
    ((g.number s).error = none ↔
        ∃ text, Longest g.IsNumeral s.rest text ∧ Delimited (s.rest.drop text.length)) ∧
      (∀ text, Longest g.IsNumeral s.rest text → (g.number s).error = none →
        g.number s = ⟨[⟨.number, ⟨s.position, s.position + text.length⟩, text⟩],
          s.advance text.length, none⟩) ∧
      ((g.number s).error ≠ none → (g.number s).events = []) := by
  refine ⟨⟨fun ok => ?_, ?_⟩, fun text longest ok => ?_, failsSilently_number g s⟩
  · obtain ⟨text, numeral, reads⟩ := readsNumeral ok
    refine ⟨text, longest_of_reads ok numeral reads, ?_⟩
    rw [reads.passes.rest, List.drop_left]
    exact delimited_of_number ok
  · rintro ⟨text, longest, ends⟩
    obtain ⟨rest, ahead⟩ := longest.isPrefix
    rw [← ahead, List.drop_left] at ends
    rw [← ahead] at longest
    rw [number_of_final ahead.symm longest.holds ends longest.final]
    rfl
  · obtain ⟨other, numeral, reads⟩ := readsNumeral ok
    obtain rfl := longest.unique (longest_of_reads ok numeral reads)
    have passes := reads.passes
    obtain ⟨rest, ahead, eq⟩ := reads
    rw [eq] at passes ⊢
    have position : (s.advance text.length).position = s.position + text.length := passes.position
    have covered : s.textTo (s.advance text.length) = text := passes.textTo_eq
    simp only [token, Scanner.eventTo, position, covered]

end Syntax
end JsonDoc
