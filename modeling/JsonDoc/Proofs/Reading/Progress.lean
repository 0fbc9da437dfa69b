import JsonDoc.Proofs.Reading.Order

/-!
# Progress of the rules

Every rule of the grammars has orderly runs, from the tokens up to `Grammar.value` and
`Grammar.read`. The rules that take the rule for the values inside them are orderly whenever that
rule is.
-/

namespace JsonDoc
namespace Run

variable {s t : Scanner} {text : List UInt8} {run : Run}

theorem expect_of_peek
    {byte : UInt8}
    (h : s.peek = some byte)
    (expected : Expectation) :
    expect byte expected s = done s.bump := by
  simp [expect, h]

theorem peek_of_expect
    {byte : UInt8} {expected : Expectation}
    (h : (expect byte expected s).error = none) :
    s.peek = some byte := by
  unfold expect at h
  split at h
  · assumption
  · simp [missing, fail] at h

/-- A token that covers at least one byte. -/
theorem orderly_token
    (h : s.Passes text t)
    (moved : text ≠ [])
    (kind : EventKind) :
    Orderly s (token kind s t) where
  passes := ⟨text, h⟩
  inOrder := ⟨Nat.le_refl _, h.position_lt moved, Nat.le_refl _⟩
  standsAt := by simp [token]

theorem orderly_missing
    (expected : Expectation)
    (s : Scanner) :
    Orderly s (missing s expected) :=
  (silent_missing (.refl s) expected).orderly

theorem exceeded?_eq_some
    {limit : Nat}
    (h : s.deeper.exceeded? = some limit) :
    s.maxDepth = some limit := by
  simp only [Scanner.exceeded?, Option.filter_eq_some_iff] at h
  exact h.1

theorem silent_enter
    {byte : UInt8}
    (h : s.peek = some byte) :
    Silent s (enter s) := by
  unfold enter
  split
  · rename_i limit passed
    refine ⟨⟨⟨[], .deeper s⟩, Nat.le_refl _, ?_⟩, rfl⟩
    intro error he
    simp only [fail, Option.some.injEq] at he
    subst he
    obtain ⟨rest, more⟩ := Scanner.rest_of_peek h
    have notNil : s.rest ≠ [] := by
      rw [more]
      exact List.cons_ne_nil byte rest
    have limited : s.maxDepth = some limit := exceeded?_eq_some passed
    exact ⟨rfl, notNil, limited⟩
  · exact silent_done (.deeper s)

end Run

namespace Grammar

open Run

/-! ## Tokens -/

variable {s : Scanner}

theorem silent_stringBody
    (s : Scanner) :
    Silent s (stringBody s) := by
  unfold stringBody
  split
  · exact silent_done (.advance s _)
  · exact silent_missing (.advance s _) _

theorem orderly_string
    (s : Scanner) :
    Orderly s (string s) := by
  have silent : Silent s ((expect Byte.quote .openingQuote s).andThen stringBody) :=
    (silent_expect _ _ s).andThen fun _ => silent_stringBody _
  refine silent.andThen_token .string ?_
  intro ok
  have quote := peek_of_expect (error_andThen_eq_none.mp ok).1
  rw [expect_of_peek quote, done_andThen]
  obtain ⟨text, passes⟩ := (silent_stringBody s.bump).orderly.passes
  exact Nat.lt_of_lt_of_le ((Scanner.passes_bump quote).position_lt (by simp))
    passes.position_le

theorem isWordPart_of_isWordStart
    {b : UInt8}
    (h : Byte.isWordStart b) :
    Byte.isWordPart b := by
  simp only [Byte.isWordStart, Byte.isWordPart, Bool.or_eq_true] at *
  rcases h with h | h
  · exact Or.inl (Or.inl h)
  · exact Or.inr h

theorem takeWhile_isWordPart_ne_nil
    (h : s.peek.any Byte.isWordStart) :
    s.rest.takeWhile Byte.isWordPart ≠ [] := by
  refine Scanner.takeWhile_ne_nil ?_
  cases hp : s.peek with
  | none =>
      simp [hp] at h
  | some b =>
      simp only [hp, Option.any_some] at h ⊢
      exact isWordPart_of_isWordStart h

theorem orderly_word
    (h : s.peek.any Byte.isWordStart) :
    Orderly s (word s) :=
  orderly_token (Scanner.passes_skipWhile s _) (takeWhile_isWordPart_ne_nil h) .string

theorem word_ne_nil
    (l : Literal) :
    l.word ≠ [] := by
  cases l <;> simp [Literal.word]

theorem orderly_literal
    (g : Grammar)
    (l : Literal)
    (h : s.peek.any Byte.isWordStart) :
    Orderly s (g.literal l s) := by
  cases g with
  | strict =>
      simp only [literal]
      split
      · exact (silent_overrun s _).orderly
      · rename_i enough
        have more : s.rest ≠ [] := by
          intro nil
          have := List.length_pos_iff.mpr (word_ne_nil l)
          simp only [nil, List.length_nil] at enough
          omega
        split
        · refine orderly_token (.advance s _) ?_ l.kind
          have := List.length_pos_iff.mpr (word_ne_nil l)
          simp only [ne_eq, List.take_eq_nil_iff, more, or_false]
          omega
        · exact (silent_unexpected (.refl s) more _).orderly
  | relaxed =>
      have passes := Scanner.passes_skipWhile s Byte.isWordPart
      have moved := takeWhile_isWordPart_ne_nil h
      simp only [literal]
      split
      · exact orderly_token passes moved l.kind
      · split
        · refine ⟨⟨_, passes⟩, passes.position_le, ?_⟩
          intro error he
          simp only [fail, Option.some.injEq] at he
          subst he
          exact rfl
        · exact orderly_token passes moved .string

/-! ## Numbers -/

theorem silent_digits
    (g : Grammar)
    (expected : Expectation)
    (s : Scanner) :
    Silent s (g.digits expected s) := by
  cases g with
  | strict =>
      exact silent_atLeastOne _ expected s
  | relaxed =>
      exact silent_done (Scanner.passes_skipWhile s _)

/-- The literals of another base, each with the run that reads it: a zero and the mark of the base
before its digits, or a zero before an octal digit. -/
inductive RadixRun (s : Scanner) : Run → Prop
  | hexadecimal {mark : UInt8} {rest : List UInt8} : s.rest = Byte.zero :: mark :: rest →
      Byte.isHexMark mark → RadixRun s (atLeastOne Byte.isHexDigit .hexDigit (s.advance 2))
  | binary {mark : UInt8} {rest : List UInt8} : s.rest = Byte.zero :: mark :: rest →
      Byte.isBinaryMark mark → RadixRun s (atLeastOne Byte.isBinaryDigit .binaryDigit (s.advance 2))
  | octal {digit : UInt8} {rest : List UInt8} : s.rest = Byte.zero :: digit :: rest →
      Byte.isOctalDigit digit → RadixRun s (done (s.bump.skipWhile Byte.isOctalDigit))

theorem radixRun_of_radix?
    {g : Grammar} {run : Run}
    (h : g.radix? s = some run) :
    RadixRun s run := by
  cases g with
  | strict =>
      simp [radix?] at h
  | relaxed =>
      simp only [radix?] at h
      split at h
      · rename_i first second rest ahead
        by_cases zero : first = Byte.zero
        · subst zero
          rw [if_neg (by simp)] at h
          split at h
          · rename_i mark
            cases h
            exact .hexadecimal ahead mark
          · split at h
            · rename_i mark
              cases h
              exact .binary ahead mark
            · split at h
              · rename_i digit
                cases h
                exact .octal ahead digit
              · contradiction
        · simp [zero] at h
      · contradiction

theorem silent_radix?
    (g : Grammar)
    {run : Run}
    (h : g.radix? s = some run) :
    Silent s run := by
  cases radixRun_of_radix? h with
  | hexadecimal _ _ | binary _ _ =>
      exact .from (.advance s 2) (silent_atLeastOne _ _ _)
  | octal _ _ =>
      exact .from (.advance s 1) (silent_done (Scanner.passes_skipWhile _ _))

theorem position_lt_radix?
    (g : Grammar)
    {run : Run}
    (h : g.radix? s = some run) :
    s.position < run.stop.position := by
  have marked {mark : UInt8} {rest : List UInt8} (ahead : s.rest = Byte.zero :: mark :: rest)
      (p : UInt8 → Bool) (expected : Expectation) :
      s.position < (atLeastOne p expected (s.advance 2)).stop.position := by
    obtain ⟨text, passes⟩ := (silent_atLeastOne p expected (s.advance 2)).orderly.passes
    have two : s.position < (s.advance 2).position := by
      simp [Scanner.advance, ahead]
    exact Nat.lt_of_lt_of_le two passes.position_le
  cases radixRun_of_radix? h with
  | hexadecimal ahead _ | binary ahead _ =>
      exact marked ahead _ _
  | octal ahead _ =>
      have one : s.position < s.bump.position := by
        simp [Scanner.bump_eq ahead]
      exact Nat.lt_of_lt_of_le one (Scanner.passes_skipWhile _ _).position_le

theorem isDigit_of_isPositiveDigit
    {b : UInt8}
    (h : Byte.isPositiveDigit b) :
    Byte.isDigit b := by
  simp only [Byte.isPositiveDigit, Byte.isDigit, Bool.and_eq_true, decide_eq_true_eq] at *
  exact ⟨UInt8.le_trans (by decide) h.1, h.2⟩

theorem silent_integer
    (s : Scanner) :
    Silent s (integer s) := by
  unfold integer
  split
  · exact silent_missing (.refl s) .digit
  · split
    · exact silent_done (.advance s 1)
    · split
      · exact silent_done (Scanner.passes_skipWhile s _)
      · exact silent_missing (.refl s) .digit

theorem position_lt_integer :
    (integer s).error = none → s.position < (integer s).stop.position := by
  unfold integer
  split
  · simp [missing, fail]
  · rename_i b peek
    split
    · exact fun _ => (Scanner.passes_bump peek).position_lt (by simp)
    · split
      · rename_i digit
        refine fun _ => (Scanner.passes_skipWhile s _).position_lt (Scanner.takeWhile_ne_nil ?_)
        simp only [peek, Option.any_some]
        exact isDigit_of_isPositiveDigit digit
      · simp [missing, fail]

theorem silent_fraction
    (g : Grammar)
    (s : Scanner) :
    Silent s (g.fraction s) := by
  unfold fraction
  split
  · exact .from (.advance s 1) (silent_digits g _ _)
  · exact silent_done (.refl s)

theorem silent_exponent
    (g : Grammar)
    (s : Scanner) :
    Silent s (g.exponent s) := by
  unfold exponent
  split
  · obtain ⟨sign, passes, _⟩ := Scanner.passes_bumpIf s.bump Byte.isSign
    exact .from (Scanner.Passes.trans (.advance s 1) passes) (silent_digits g _ _)
  · exact silent_done (.refl s)

theorem silent_magnitude
    (g : Grammar)
    (s : Scanner) :
    Silent s (g.magnitude s) := by
  unfold magnitude
  split
  · rename_i run h
    exact silent_radix? g h
  · refine Silent.andThen (Silent.andThen (silent_integer s) ?_) ?_
    · exact fun _ => silent_fraction g _
    · exact fun _ => silent_exponent g _

/-- A magnitude has at least one digit. -/
theorem position_lt_magnitude
    (g : Grammar) :
    (g.magnitude s).error = none → s.position < (g.magnitude s).stop.position := by
  unfold magnitude
  split
  · rename_i run h
    exact fun _ => position_lt_radix? g h
  · intro h
    simp only [error_andThen_eq_none] at h
    obtain ⟨⟨ok, _⟩, _⟩ := h
    have more := (silent_fraction g (integer s).stop).andThen fun _ => silent_exponent g _
    rw [andThen_assoc, stop_andThen ok]
    obtain ⟨text, passes⟩ := more.orderly.passes
    exact Nat.lt_of_lt_of_le (position_lt_integer ok) passes.position_le

theorem orderly_numberEnd
    {start : Scanner} {text : List UInt8}
    (h : start.Passes text s)
    (moved : start.position < s.position) :
    Orderly start (numberEnd start s) := by
  unfold numberEnd
  split
  · rename_i bad
    refine (silent_unexpected h ?_ _).orderly
    intro nil
    simp [Scanner.peek, nil] at bad
  · refine orderly_token h ?_ .number
    rintro rfl
    have := h.position
    simp at this
    omega

theorem orderly_number
    (g : Grammar)
    (s : Scanner) :
    Orderly s (g.number s) := by
  obtain ⟨sign, passes, _⟩ := Scanner.passes_bumpIf s g.isSign
  have silent := silent_magnitude g (s.bumpIf g.isSign)
  cases he : (g.magnitude (s.bumpIf g.isSign)).error with
  | some error =>
      rw [number, andThen_of_error he]
      exact (silent.from passes).orderly
  | none =>
      obtain ⟨digits, k⟩ := silent.orderly.passes
      have moved := Nat.lt_of_le_of_lt passes.position_le (position_lt_magnitude g he)
      have h := orderly_numberEnd (passes.trans k) moved
      refine ⟨?_, ?_, ?_⟩
      · rw [number, stop_andThen he]
        exact h.passes
      · rw [number, stop_andThen he, events_andThen he, silent.events]
        exact h.inOrder
      · rw [number, stop_andThen he, error_andThen he]
        exact h.standsAt

/-! ## Keys and values -/

theorem orderly_key
    (g : Grammar)
    (s : Scanner) :
    Orderly s (g.key s) := by
  cases g with
  | strict =>
      simp only [key]
      split
      · exact orderly_string s
      · exact orderly_missing _ s
  | relaxed =>
      simp only [key]
      split
      · exact orderly_string s
      · split
        · rename_i start
          exact orderly_word start
        · exact orderly_missing _ s

theorem orderly_unknown
    (g : Grammar)
    (s : Scanner) :
    Orderly s (g.unknown s) := by
  cases g with
  | strict =>
      exact orderly_missing _ s
  | relaxed =>
      simp only [unknown]
      split
      · rename_i start
        exact orderly_word start
      · exact orderly_missing _ s

theorem orderly_skip
    (g : Grammar)
    (s : Scanner) :
    Orderly s (done (g.skip s)) :=
  (silent_done (passes_skip g s)).orderly

/-! ## The first byte of a value -/

/-- What the first byte of a value of some kind can be. -/
def Leading.Leads (b : UInt8) : Leading → Prop
  | number => Byte.isSign b ∨ Byte.isDigit b
  | string => b = Byte.quote
  | literal l => l.word.head? = some b
  | array => b = Byte.openBracket
  | object => b = Byte.openBrace
  | other => Byte.isSign b = false ∧ Byte.isDigit b = false ∧ b ≠ Byte.quote ∧
      (∀ l : Literal, l.word.head? ≠ some b) ∧ b ≠ Byte.openBracket ∧ b ≠ Byte.openBrace

theorem Leading.leads_ofByte
    (b : UInt8) :
    (ofByte b).Leads b := by
  unfold ofByte
  split
  · rename_i h
    exact (Bool.or_eq_true _ _).mp h
  · rename_i number
    split
    · assumption
    · split
      · rename_i eq
        simp [Leads, Literal.word, eq]
      · split
        · rename_i eq
          simp [Leads, Literal.word, eq]
        · split
          · rename_i eq
            simp [Leads, Literal.word, eq]
          · split
            · assumption
            · split
              · assumption
              · simp only [Bool.or_eq_true, not_or, Bool.not_eq_true] at number
                refine ⟨number.1, number.2, by assumption, ?_, by assumption, by assumption⟩
                intro l
                cases l <;> simp [Literal.word, eq_comm] <;> assumption

theorem Leading.Leads.isWordStart
    {b : UInt8} {l : Literal}
    (h : (literal l).Leads b) :
    Byte.isWordStart b := by
  cases l <;> cases h <;> decide

/-! ## Containers -/

/-- A container that may be opened is one event and one level deeper. -/
theorem opening_of_within
    {byte : UInt8}
    (h : s.peek = some byte)
    (within : s.deeper.exceeded? = none)
    (expected : Expectation)
    (kind : EventKind) :
    opening byte expected kind s = ⟨[s.eventTo s.bump kind], s.bump.deeper, none⟩ := by
  have entered : enter s = done s.deeper := by
    simp [enter, within]
  have read : expect byte expected s.deeper = done s.bump.deeper :=
    expect_of_peek (s := s.deeper) h expected
  rw [opening, entered, done_andThen, read, done_andThen]
  rfl

theorem opening_of_exceeded
    {limit : Nat}
    (h : s.deeper.exceeded? = some limit)
    (byte : UInt8)
    (expected : Expectation)
    (kind : EventKind) :
    opening byte expected kind s = fail s.deeper (.tooDeep s.position limit) := by
  have refused : enter s = fail s.deeper (.tooDeep s.position limit) := by
    simp [enter, h]
  rw [opening, refused]
  rfl

/-- A closing byte is one event and one level up. -/
theorem closing_of_peek
    {byte : UInt8}
    (h : s.peek = some byte)
    (expected : Expectation)
    (kind : EventKind) :
    closing byte expected kind s = ⟨[s.eventTo s.bump kind], s.bump.leave, none⟩ := by
  rw [closing, expect_of_peek h, done_andThen]
  rfl

theorem closing_of_peek_ne
    {byte : UInt8}
    (h : s.peek ≠ some byte)
    (expected : Expectation)
    (kind : EventKind) :
    closing byte expected kind s = missing s expected := by
  simp [closing, expect, h, missing, fail, andThen]

theorem orderly_opening
    {byte : UInt8}
    (h : s.peek = some byte)
    (expected : Expectation)
    (kind : EventKind) :
    Orderly s (opening byte expected kind s) := by
  cases limited : s.deeper.exceeded? with
  | none =>
      rw [opening_of_within h limited]
      refine ⟨⟨[byte], (Scanner.passes_bump h).trans (.deeper _)⟩, ?_, by simp⟩
      exact ⟨Nat.le_refl _, (Scanner.passes_bump h).position_lt (by simp), Nat.le_refl _⟩
  | some limit =>
      rw [opening_of_exceeded limited]
      have refused : enter s = fail s.deeper (.tooDeep s.position limit) := by
        simp [enter, limited]
      rw [← refused]
      exact (silent_enter h).orderly

theorem orderly_closing
    (byte : UInt8)
    (expected : Expectation)
    (kind : EventKind)
    (s : Scanner) :
    Orderly s (closing byte expected kind s) := by
  refine Orderly.andThen ((silent_expect byte expected s).andThen_token kind ?_) ?_
  · intro ok
    have peek := peek_of_expect ok
    rw [expect_of_peek peek]
    exact (Scanner.passes_bump peek).position_lt (by simp)
  · exact fun _ => (silent_done (.leave _)).orderly

variable {g : Grammar} {sep : Separation} {item : Rule}

theorem orderly_afterItem
    {more : Rule}
    (h : ∀ s, Orderly s (more s))
    (s : Scanner) :
    Orderly s (g.afterItem sep more s) := by
  refine .from (passes_skip g s) ?_
  unfold afterItem
  simp only
  split
  · exact orderly_missing _ _
  · split
    · refine .from (.trans (.advance _ 1) (passes_skip g _)) ?_
      split
      · rename_i close
        exact (silent_unexpected (.refl _) (Scanner.rest_ne_nil_of_peek close) _).orderly
      · exact h _
    · split
      · exact (silent_done (.refl _)).orderly
      · exact orderly_missing _ _

theorem orderly_items
    (h : ∀ s, Orderly s (item s)) :
    ∀ (bound : Nat) (s : Scanner), Orderly s (g.items sep item bound s)
  | 0, s => (h s).andThen fun _ => orderly_afterItem (fun t => orderly_missing _ t) _
  | bound + 1, s => (h s).andThen fun _ => orderly_afterItem (orderly_items h bound) _

theorem orderly_itemsOrNone
    (h : ∀ s, Orderly s (item s))
    (s : Scanner) :
    Orderly s (g.itemsOrNone sep item s) := by
  refine .from (passes_skip g s) ?_
  unfold itemsOrNone
  simp only
  split
  · exact (silent_done (.refl _)).orderly
  · exact orderly_items h _ _

variable {value : Rule} (h : ∀ s, Orderly s (value s))
include h

theorem orderly_member
    (s : Scanner) :
    Orderly s (g.member value s) := by
  refine (orderly_key g s).andThen fun _ => .from (passes_skip g _) ?_
  refine (silent_expect _ _ _).orderly.andThen fun _ => .from (passes_skip g _) ?_
  exact h _

theorem orderly_arrayOf
    (hs : s.peek = some Byte.openBracket) :
    Orderly s (g.arrayOf value s) := by
  refine (orderly_opening hs _ _).andThen fun _ => ?_
  exact (orderly_itemsOrNone h _).andThen fun _ => orderly_closing _ _ _ _

theorem orderly_objectOf
    (hs : s.peek = some Byte.openBrace) :
    Orderly s (g.objectOf value s) := by
  refine (orderly_opening hs _ _).andThen fun _ => ?_
  exact (orderly_itemsOrNone (orderly_member h) _).andThen fun _ => orderly_closing _ _ _ _

theorem orderly_valueOf
    (s : Scanner) :
    Orderly s (g.valueOf value s) := by
  unfold valueOf
  split
  · exact orderly_missing _ s
  · rename_i b peek
    have leads := Leading.leads_ofByte b
    split <;> rename_i kind <;> rw [kind] at leads
    · exact orderly_number g s
    · exact orderly_string s
    · rename_i l
      refine orderly_literal g l ?_
      rw [peek]
      exact leads.isWordStart
    · exact orderly_arrayOf h (leads ▸ peek)
    · exact orderly_objectOf h (leads ▸ peek)
    · exact orderly_unknown g s

omit h

theorem orderly_nested
    (g : Grammar) :
    ∀ (levels : Nat) (s : Scanner), Orderly s (g.nested levels s)
  | 0, s => orderly_valueOf (orderly_missing _) s
  | levels + 1, s => orderly_valueOf (orderly_nested g levels) s

theorem orderly_value
    (g : Grammar)
    (s : Scanner) :
    Orderly s (g.value s) :=
  orderly_nested g _ s

theorem orderly_read
    (g : Grammar)
    (maxDepth : Option Nat)
    (input : List UInt8) :
    Orderly (Scanner.start input maxDepth) (g.read maxDepth input) := by
  refine .from (passes_skip g _) ?_
  exact (orderly_value g _).andThen fun _ => orderly_skip g _

end Grammar
end JsonDoc
