import JsonDoc.Proofs.Reading.Continuation

/-!
# Tokens in an input that goes on

Each rule for a token goes on as `Continues` says: words, literals, strings and numbers.
-/

namespace JsonDoc
namespace Grammar

open Run

variable {s : Scanner} {more : List UInt8} {g : Grammar}

/-! ## Tokens -/

theorem continues_missing
    (s : Scanner)
    (expected : Expectation)
    (more : List UInt8) :
    Continues more (missing s expected) (missing (s.extend more) expected) := by
  by_cases atEnd : s.rest = []
  · exact continues_of_rest_nil (orderly_missing expected s) atEnd more _
  · have same : (s.extend more).missing expected = s.missing expected := by
      simp [Scanner.extend, Scanner.missing, Scanner.atEnd, atEnd]
    rw [missing, missing, same]
    exact .refl_fail more s _

theorem continues_expect
    (byte : UInt8)
    (expected : Expectation)
    (s : Scanner)
    (more : List UInt8) :
    Continues more (expect byte expected s) (expect byte expected (s.extend more)) := by
  by_cases atEnd : s.rest = []
  · exact continues_of_rest_nil (silent_expect byte expected s).orderly atEnd more _
  · obtain ⟨b, peek⟩ := Scanner.peek_of_rest_ne_nil atEnd
    unfold expect
    rw [Scanner.peek_extend peek, peek]
    split
    · rw [Scanner.bump_extend peek]
      exact .done more _
    · exact continues_missing s expected more

theorem continues_atLeastOne
    (p : UInt8 → Bool)
    (expected : Expectation)
    (s : Scanner)
    (more : List UInt8) :
    Continues more (atLeastOne p expected s) (atLeastOne p expected (s.extend more)) := by
  by_cases atEnd : s.rest = []
  · exact continues_of_rest_nil (silent_atLeastOne p expected s).orderly atEnd more _
  · obtain ⟨b, peek⟩ := Scanner.peek_of_rest_ne_nil atEnd
    unfold atLeastOne
    rw [Scanner.peek_extend peek, peek]
    split
    · exact continues_skipWhile s p more
    · exact continues_missing s expected more

/-- A silent run that ends in a token. -/
theorem continues_token
    {run run' : Run}
    (h : Continues more run run')
    (silent : Silent s run)
    (kind : EventKind) :
    Continues more (run.andThen fun t => token kind s t)
      (run'.andThen fun t => token kind (s.extend more) t) := by
  cases error : run.error with
  | some e =>
      rw [andThen_of_error error]
      cases h with
      | settled eq =>
          subst eq
          have error' : (run.extend more).error = some e := error
          rw [andThen_of_error error']
          exact .settled rfl
      | unsettled _ _ isOpen _ _ _ waits =>
          exact silent.continues_of_isOpen isOpen more (waits.andThen _)
  | none =>
      obtain ⟨text, passes⟩ := silent.orderly.passes
      have eq : (run.andThen fun t => token kind s t) = token kind s run.stop := by
        simp [andThen, error, silent.events, token]
      rw [eq]
      cases h with
      | settled eq' =>
          subst eq'
          have eq' : ((run.extend more).andThen fun t => token kind (s.extend more) t) =
              token kind (s.extend more) (run.stop.extend more) := by
            simp [andThen, Run.extend, error, silent.events, token]
          rw [eq']
          exact .token passes more kind
      | unsettled _ _ isOpen _ _ _ =>
          rcases isOpen with ⟨_, _, overrun⟩ | ⟨_, atEnd⟩
          · simp [error] at overrun
          · exact .token_atEnd s atEnd more kind _

/-- A string that is closed, or that meets an error at a byte, stays as it is. -/
theorem scan_append
    (more : List UInt8) :
    ∀ (bytes : List UInt8) (state : StringState),
      ((state.scan bytes).2 = none ∨ (state.scan bytes).1 < bytes.length) →
        state.scan (bytes ++ more) = state.scan bytes := by
  intro bytes
  induction bytes with
  | nil =>
      intro state h
      simp [StringState.scan] at h
  | cons b bytes ih =>
      intro state h
      rw [List.cons_append]
      cases step : state.step b with
      | error expected =>
          simp [StringState.scan, step]
      | ok next =>
          cases next with
          | none =>
              simp [StringState.scan, step]
          | some next =>
              simp only [StringState.scan, step, List.length_cons] at h ⊢
              rw [ih next (h.imp id Nat.lt_of_succ_lt_succ)]

theorem scan_length_le
    (bytes : List UInt8) :
    ∀ state : StringState, (state.scan bytes).1 ≤ bytes.length := by
  induction bytes with
  | nil =>
      intro state
      simp [StringState.scan]
  | cons b bytes ih =>
      intro state
      cases step : state.step b with
      | error expected =>
          simp [StringState.scan, step]
      | ok next =>
          cases next with
          | none =>
              simp [StringState.scan, step]
          | some next =>
              have := ih next
              simp only [StringState.scan, step, List.length_cons]
              omega

theorem continues_stringBody
    (s : Scanner)
    (more : List UInt8) :
    Continues more (stringBody s) (stringBody (s.extend more)) := by
  have le := scan_length_le s.rest .plain
  by_cases stays : (StringState.plain.scan s.rest).2 = none ∨
      (StringState.plain.scan s.rest).1 < s.rest.length
  · have same := scan_append more s.rest .plain stays
    unfold stringBody
    rw [Scanner.rest_extend, same]
    cases scan : StringState.plain.scan s.rest with
    | mk count outcome =>
        rw [scan] at le
        cases outcome with
        | none =>
            simp only
            rw [Scanner.advance_extend le]
            exact .done more _
        | some expected =>
            simp only
            rw [Scanner.advance_extend le]
            exact continues_missing _ expected more
  · have silent := silent_stringBody s
    unfold stringBody at silent ⊢
    cases scan : StringState.plain.scan s.rest with
    | mk count outcome =>
        cases outcome with
        | none =>
            simp [scan] at stays
        | some expected =>
            have nothing : (s.advance count).rest = [] := by
              simp only [scan] at stays
              simp only [Scanner.advance, List.drop_eq_nil_iff]
              omega
            rw [scan] at silent
            refine silent.continues_of_isOpen (Or.inl ?_) more (waits_of_rest_nil nothing _)
            have atEnd : (s.advance count).atEnd := by
              simp [Scanner.atEnd, nothing]
            exact ⟨s.length, expected, by simp [missing, fail, Scanner.missing, atEnd]⟩

theorem continues_string
    (s : Scanner)
    (more : List UInt8) :
    Continues more (string s) (string (s.extend more)) := by
  refine continues_token ?_ ?_ .string
  · exact (continues_expect _ _ s more).andThen (fun _ => (silent_stringBody _).orderly)
      fun _ => continues_stringBody _ more
  · exact (silent_expect _ _ s).andThen fun _ => silent_stringBody _

theorem continues_word
    (s : Scanner)
    (more : List UInt8) :
    Continues more (word s) (word (s.extend more)) := by
  have passes := Scanner.passes_skipWhile s Byte.isWordPart
  have token := continues_token (continues_skipWhile s Byte.isWordPart more)
    (silent_done passes) .string
  rwa [done_andThen, done_andThen] at token

/-- With more bytes a strict literal fails as well unless the bytes that are left begin it. -/
theorem waits_literal
    (l : Literal)
    (s : Scanner)
    (more : List UInt8)
    (short : s.rest.length < l.word.length) :
    (fail s (.overrun s.length (.literal l))).Waits (literal .strict l (s.extend more)) := by
  intro offset l' overrun
  cases overrun
  by_cases begins : s.rest <+: l.word
  · exact Or.inl begins
  · have wrong : ¬ l.word.isPrefixOf (s.extend more).rest := by
      rw [List.isPrefixOf_iff_prefix]
      intro isPrefix
      exact begins (List.prefix_of_prefix_length_le (List.prefix_append s.rest more) isPrefix
        (Nat.le_of_lt short))
    refine Or.inr ?_
    simp only [literal, if_neg wrong]
    split
    · simp [fail]
    · simp [fail]

theorem continues_literal
    (g : Grammar)
    (l : Literal)
    (s : Scanner)
    (more : List UInt8) :
    Continues more (g.literal l s) (g.literal l (s.extend more)) := by
  cases g with
  | strict =>
      simp only [literal]
      by_cases short : s.rest.length < l.word.length
      · rw [if_pos short]
        have waits := waits_literal l s more short
        rw [literal] at waits
        exact (silent_overrun s _).continues_of_isOpen (Or.inl ⟨_, _, rfl⟩) more waits
      · have enough : ¬ (s.extend more).rest.length < l.word.length := by
          rw [Scanner.rest_extend, List.length_append]
          omega
        have same : l.word.isPrefixOf (s.extend more).rest = l.word.isPrefixOf s.rest := by
          rw [Bool.eq_iff_iff, List.isPrefixOf_iff_prefix, List.isPrefixOf_iff_prefix,
            Scanner.rest_extend]
          constructor
          · intro h
            exact List.prefix_of_prefix_length_le h (List.prefix_append _ _) (by omega)
          · intro h
            exact h.trans (List.prefix_append _ _)
        rw [if_neg short, if_neg enough, same]
        split
        · rw [Scanner.advance_extend (by omega)]
          exact .token (.advance s _) more l.kind
        · exact .refl_fail more s _
  | relaxed =>
      have passes := Scanner.passes_skipWhile s Byte.isWordPart
      simp only [literal]
      by_cases atEnd : (s.skipWhile Byte.isWordPart).rest = []
      · split
        · exact .token_atEnd s atEnd more l.kind _
        · split
          · exact .unsettled [] [] (Or.inl ⟨_, _, rfl⟩) rfl (by simp) (by simp)
              (waits_of_rest_nil atEnd _)
          · exact .token_atEnd s atEnd more .string _
      · have same : (s.extend more).textTo ((s.skipWhile Byte.isWordPart).extend more) =
            s.textTo (s.skipWhile Byte.isWordPart) :=
          congrArg Event.text (Scanner.eventTo_extend passes l.kind more)
        rw [skipWhile_extend atEnd, same]
        split
        · exact .token passes more l.kind
        · have notEnd : (s.skipWhile Byte.isWordPart).atEnd = false := by
            simpa [Scanner.atEnd] using atEnd
          have notEnd' : ((s.skipWhile Byte.isWordPart).extend more).atEnd = false := by
            simp [Scanner.atEnd, atEnd]
          simp only [notEnd, notEnd', Bool.false_and, Bool.false_eq_true, if_false]
          exact .token passes more .string

/-! ## Numbers -/

theorem continues_bumpIf
    (s : Scanner)
    (p : UInt8 → Bool)
    (more : List UInt8) :
    Continues more (done (s.bumpIf p)) (done ((s.extend more).bumpIf p)) := by
  by_cases atEnd : s.rest = []
  · obtain ⟨text, passes, _⟩ := Scanner.passes_bumpIf s p
    exact continues_of_rest_nil (silent_done passes).orderly atEnd more _
  · obtain ⟨b, peek⟩ := Scanner.peek_of_rest_ne_nil atEnd
    unfold Scanner.bumpIf
    rw [Scanner.peek_extend peek, Scanner.bump_extend peek, peek]
    split
    · exact .done more _
    · exact .done more _

theorem continues_digits
    (g : Grammar)
    (expected : Expectation)
    (s : Scanner)
    (more : List UInt8) :
    Continues more (g.digits expected s) (g.digits expected (s.extend more)) := by
  cases g with
  | strict =>
      exact continues_atLeastOne Byte.isDigit expected s more
  | relaxed =>
      exact continues_skipWhile s Byte.isDigit more

theorem continues_integer
    (s : Scanner)
    (more : List UInt8) :
    Continues more (integer s) (integer (s.extend more)) := by
  by_cases atEnd : s.rest = []
  · exact continues_of_rest_nil (silent_integer s).orderly atEnd more _
  · obtain ⟨b, peek⟩ := Scanner.peek_of_rest_ne_nil atEnd
    unfold integer
    rw [Scanner.peek_extend peek, peek]
    simp only
    split
    · rw [Scanner.bump_extend peek]
      exact .done more _
    · split
      · exact continues_skipWhile s Byte.isDigit more
      · exact continues_missing s .digit more

theorem continues_fraction
    (g : Grammar)
    (s : Scanner)
    (more : List UInt8) :
    Continues more (g.fraction s) (g.fraction (s.extend more)) := by
  by_cases atEnd : s.rest = []
  · exact continues_of_rest_nil (silent_fraction g s).orderly atEnd more _
  · obtain ⟨b, peek⟩ := Scanner.peek_of_rest_ne_nil atEnd
    unfold fraction
    rw [Scanner.peek_extend peek, peek]
    split
    · rw [Scanner.bump_extend peek]
      exact continues_digits g .fractionDigit _ more
    · exact .done more _

theorem continues_exponent
    (g : Grammar)
    (s : Scanner)
    (more : List UInt8) :
    Continues more (g.exponent s) (g.exponent (s.extend more)) := by
  by_cases atEnd : s.rest = []
  · exact continues_of_rest_nil (silent_exponent g s).orderly atEnd more _
  · obtain ⟨b, peek⟩ := Scanner.peek_of_rest_ne_nil atEnd
    unfold exponent
    rw [Scanner.peek_extend peek, peek]
    split
    · have digits : Continues more
          ((done (s.bump.bumpIf Byte.isSign)).andThen (g.digits .exponentDigit))
          ((done ((s.bump.extend more).bumpIf Byte.isSign)).andThen (g.digits .exponentDigit)) :=
        (continues_bumpIf s.bump Byte.isSign more).andThen
          (fun _ => (silent_digits g _ _).orderly) fun _ => continues_digits g _ _ more
      rw [Scanner.bump_extend peek]
      simpa using digits
    · exact .done more _

theorem continues_decimal
    (g : Grammar)
    (s : Scanner)
    (more : List UInt8) :
    Continues more (((integer s).andThen g.fraction).andThen g.exponent)
      (((integer (s.extend more)).andThen g.fraction).andThen g.exponent) := by
  refine Continues.andThen (Continues.andThen (continues_integer s more) ?_ ?_) ?_ ?_
  · exact fun _ => (silent_fraction g _).orderly
  · exact fun _ => continues_fraction g _ more
  · exact fun _ => (silent_exponent g _).orderly
  · exact fun _ => continues_exponent g _ more

/-- A zero at the end of the input is a magnitude, and may become another one. -/
theorem magnitude_zero
    (h : s.rest = [Byte.zero]) :
    magnitude .relaxed s = done s.bump ∧ s.bump.rest = [] := by
  have peek : s.peek = some Byte.zero := by
    simp [Scanner.peek, h]
  have nothing : s.bump.rest = [] := by
    simp [Scanner.bump, Scanner.advance, h]
  have none : s.bump.peek = none := by
    simp [Scanner.peek, nothing]
  refine ⟨?_, nothing⟩
  simp [magnitude, radix?, h, integer, peek, fraction, exponent, none]

theorem radix?_of_head_ne
    {b : UInt8} {rest : List UInt8}
    (h : s.rest = b :: rest)
    (notZero : b ≠ Byte.zero) :
    radix? .relaxed s = none := by
  cases rest with
  | nil =>
      simp [radix?, h]
  | cons second rest =>
      simp [radix?, h, notZero]

/-- With two bytes ahead it is settled whether a literal of another base starts. -/
theorem continues_radix?
    {first second : UInt8} {rest : List UInt8}
    (h : s.rest = first :: second :: rest)
    (more : List UInt8) :
    (radix? .relaxed s = none ∧ radix? .relaxed (s.extend more) = none) ∨
      ∃ run run', radix? .relaxed s = some run ∧ radix? .relaxed (s.extend more) = some run' ∧
        Continues more run run' := by
  have h' : (s.extend more).rest = first :: second :: (rest ++ more) := by
    rw [Scanner.rest_extend, h]
    rfl
  have two : (s.extend more).advance 2 = (s.advance 2).extend more :=
    Scanner.advance_extend (by simp [h]) more
  have one : (s.extend more).bump = s.bump.extend more := Scanner.advance_extend (by simp [h]) more
  simp only [radix?, h, h']
  split
  · exact Or.inl ⟨rfl, rfl⟩
  · split
    · rw [two]
      exact Or.inr ⟨_, _, rfl, rfl, continues_atLeastOne _ _ _ more⟩
    · split
      · rw [two]
        exact Or.inr ⟨_, _, rfl, rfl, continues_atLeastOne _ _ _ more⟩
      · split
        · rw [one]
          exact Or.inr ⟨_, _, rfl, rfl, continues_skipWhile _ _ more⟩
        · exact Or.inl ⟨rfl, rfl⟩

theorem continues_magnitude
    (g : Grammar)
    (s : Scanner)
    (more : List UInt8) :
    Continues more (g.magnitude s) (g.magnitude (s.extend more)) := by
  cases g with
  | strict =>
      exact continues_decimal .strict s more
  | relaxed =>
      have silent := silent_magnitude .relaxed s
      cases h : s.rest with
      | nil =>
          exact continues_of_rest_nil silent.orderly h more _
      | cons first rest =>
          by_cases notZero : first ≠ Byte.zero
          · have h' : (s.extend more).rest = first :: (rest ++ more) := by
              rw [Scanner.rest_extend, h]
              rfl
            simp only [magnitude, radix?_of_head_ne h notZero, radix?_of_head_ne h' notZero]
            exact continues_decimal .relaxed s more
          · cases rest with
            | nil =>
                have zero : first = Byte.zero := by simpa using notZero
                subst zero
                obtain ⟨eq, nothing⟩ := magnitude_zero h
                rw [eq] at silent ⊢
                exact silent.continues_of_isOpen (Or.inr ⟨rfl, nothing⟩) more (waits_of_ok rfl _)
            | cons second rest =>
                unfold magnitude
                rcases continues_radix? h more with ⟨none, none'⟩ | ⟨run, run', some, some', eq⟩
                · rw [none, none']
                  exact continues_decimal .relaxed s more
                · rw [some, some']
                  exact eq

/-- The end of a number that was read without an event. -/
theorem continues_numberEnd
    {run run' : Run}
    (h : Continues more run run')
    (silent : Silent s run) :
    Continues more (run.andThen (numberEnd s)) (run'.andThen (numberEnd (s.extend more))) := by
  cases error : run.error with
  | some e =>
      rw [andThen_of_error error]
      cases h with
      | settled eq =>
          subst eq
          have error' : (run.extend more).error = some e := error
          rw [andThen_of_error error']
          exact .settled rfl
      | unsettled _ _ isOpen _ _ _ waits =>
          exact silent.continues_of_isOpen isOpen more (waits.andThen _)
  | none =>
      have eq : run.andThen (numberEnd s) = numberEnd s run.stop := by
        simp [andThen, error, silent.events]
      rw [eq]
      by_cases atEnd : run.stop.rest = []
      · have token : numberEnd s run.stop = token .number s run.stop := by
          simp [numberEnd, Scanner.peek, atEnd]
        rw [token]
        exact .token_atEnd s atEnd more .number _
      · cases h with
        | settled eq =>
            subst eq
            obtain ⟨text, passes⟩ := silent.orderly.passes
            obtain ⟨b, peek⟩ := Scanner.peek_of_rest_ne_nil atEnd
            have eq' : (run.extend more).andThen (numberEnd (s.extend more)) =
                numberEnd (s.extend more) (run.stop.extend more) := by
              simp [andThen, Run.extend, error, silent.events]
            rw [eq']
            unfold numberEnd
            rw [Scanner.peek_extend peek, peek]
            split
            · exact .refl_fail more _ _
            · exact .token passes more .number
        | unsettled _ _ isOpen _ _ _ =>
            rcases isOpen with ⟨_, _, overrun⟩ | ⟨_, nothing⟩
            · simp [error] at overrun
            · exact absurd nothing atEnd

theorem continues_number
    (g : Grammar)
    (s : Scanner)
    (more : List UInt8) :
    Continues more (g.number s) (g.number (s.extend more)) := by
  obtain ⟨sign, passes, _⟩ := Scanner.passes_bumpIf s g.isSign
  have silent := silent_magnitude g (s.bumpIf g.isSign)
  have signed : Continues more ((done (s.bumpIf g.isSign)).andThen g.magnitude)
      ((done ((s.extend more).bumpIf g.isSign)).andThen g.magnitude) :=
    (continues_bumpIf s g.isSign more).andThen (fun _ => silent.orderly)
      fun _ => continues_magnitude g _ more
  rw [done_andThen, done_andThen] at signed
  exact continues_numberEnd signed (silent.from passes)

end Grammar
end JsonDoc
