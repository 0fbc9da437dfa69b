import JsonDoc.Proofs.Syntax.RelaxedComplete

/-!
# Tokens that are broken off

A token rule that fails has gone past bytes that some more bytes make a token of the dialect:
`begun_strict` and `begun_relaxed`. The one thing in the way is that a strict literal is looked at
as a whole, so where too few bytes are left for it, all of them may fit although none was gone
past. `Run.reach` counts them in.
-/

namespace JsonDoc
namespace Run

/-- How far a run is without a fault: up to where it stopped and, where the bytes have run out in
a literal, on past those of them that the literal begins with. -/
def reach (run : Run) : Scanner :=
  match run.error with
  | some (.overrun _ (.literal l)) =>
    if run.stop.rest.isPrefixOf l.word then run.stop.advance run.stop.rest.length else run.stop
  | _ => run.stop

variable {s : Scanner} {run : Run} {next : Rule} {a b : List UInt8} {P Q : List UInt8 → Prop}

theorem reach_of_ok
    (ok : run.error = none) :
    run.reach = run.stop := by
  simp [reach, ok]

/-- An error at a byte stands where the run goes no further. -/
theorem reach_of_fault
    {error : ParseError}
    (failed : run.error = some error)
    (fault : error.isOverrun = false) :
    run.reach = run.stop := by
  unfold reach
  split
  · rename_i overrun
    rw [failed] at overrun
    cases overrun
    simp [ParseError.isOverrun] at fault
  · rfl

theorem reach_rest_of_rest_nil
    (nothing : run.stop.rest = []) :
    run.reach.rest = [] := by
  unfold reach
  split
  · split
    · simp [Scanner.advance]
    · exact nothing
  · exact nothing

/-- Where the bytes have run out in a literal that they begin, all of them are counted in. -/
theorem reach_rest_of_begins
    {offset : Nat} {l : Literal}
    (overrun : run.error = some (.overrun offset (.literal l)))
    (begins : run.stop.rest <+: l.word) :
    run.reach.rest = [] := by
  simp [reach, overrun, begins, Scanner.advance]

theorem reach_andThen
    (ok : run.error = none) :
    (run.andThen next).reach = (next run.stop).reach := by
  simp only [reach, error_andThen ok, stop_andThen ok]

theorem reach_fail
    {error : ParseError}
    (other : ∀ offset l, error ≠ .overrun offset (.literal l)) :
    (fail s error).reach = s := by
  simp only [reach, fail]
  split
  · rename_i offset l same
    exact absurd (Option.some.inj same) (other offset l)
  · rfl

theorem reach_missing
    {expected : Expectation}
    (other : ∀ l, expected ≠ .literal l) :
    (missing s expected).reach = s := by
  refine reach_fail ?_
  intro offset l
  unfold Scanner.missing
  split
  · simp [other l]
  · simp

/-- What the run has gone past without a fault begins a text with the property. -/
def Begins (s : Scanner) (run : Run) (P : List UInt8 → Prop) : Prop :=
  ∃ text more, s.Passes text run.reach ∧ P (text ++ more)

theorem begins_missing
    {expected : Expectation}
    (other : ∀ l, expected ≠ .literal l)
    (s : Scanner)
    {more : List UInt8}
    (h : P more) :
    Begins s (missing s expected) P := by
  refine ⟨[], more, ?_, h⟩
  rw [reach_missing other]
  exact .refl s

theorem Begins.imp
    (h : Begins s run P)
    (each : ∀ text, P text → Q text) :
    Begins s run Q := by
  obtain ⟨text, more, passes, holds⟩ := h
  exact ⟨text, more, passes, each _ holds⟩

theorem Takes.ok
    (h : Takes s run a) :
    run.error = none := by
  obtain ⟨rest, ahead, rfl⟩ := h
  rfl

theorem Takes.passes
    (h : Takes s run a) :
    s.Passes a run.stop := by
  obtain ⟨rest, ahead, rfl⟩ := h
  have passes := Scanner.Passes.advance s a.length
  rwa [ahead, List.take_left] at passes

/-- A text that is taken stands before one that is begun. -/
theorem Takes.begins
    (h : Takes s run a)
    (k : Begins run.stop (next run.stop) Q)
    (each : ∀ b, Q b → P (a ++ b)) :
    Begins s (run.andThen next) P := by
  obtain ⟨text, more, passes, holds⟩ := k
  refine ⟨a ++ text, more, ?_, ?_⟩
  · rw [reach_andThen h.ok]
    exact h.passes.trans passes
  · rw [List.append_assoc]
    exact each _ holds

theorem begins_of_error
    (failed : run.error ≠ none)
    (h : Begins s run P) :
    Begins s (run.andThen next) P := by
  obtain ⟨error, failed⟩ := Option.ne_none_iff_exists'.mp failed
  rwa [andThen_of_error failed]

end Run

namespace Syntax

open Run Grammar

variable {s : Scanner} {text : List UInt8}

/-! ## Numbers -/

theorem begins_integer
    (failed : (integer s).error ≠ none) :
    Begins s (integer s) IsInteger := by
  have fresh : Begins s (missing s .digit) IsInteger := begins_missing (by simp) s .zero
  unfold integer at failed ⊢
  split
  · exact fresh
  · rename_i b peek
    simp only [peek] at failed
    split
    · rename_i zero
      simp [zero, done] at failed
    · rename_i notZero
      rw [if_neg notZero] at failed
      split
      · rename_i digit
        simp [digit, done] at failed
      · exact fresh

theorem begins_atLeastOne
    {p : UInt8 → Bool} {b : UInt8} {expected : Expectation}
    (other : ∀ l, expected ≠ .literal l)
    (first : p b)
    (failed : (atLeastOne p expected s).error ≠ none) :
    Begins s (atLeastOne p expected s) fun text => text ≠ [] ∧ ∀ b ∈ text, p b := by
  unfold atLeastOne at failed ⊢
  split
  · rename_i some
    simp [some, done] at failed
  · have one : [b] ≠ [] ∧ ∀ c ∈ [b], p c := ⟨by simp, by simpa using first⟩
    exact begins_missing other s one

theorem begins_digits
    {expected : Expectation}
    (other : ∀ l, expected ≠ .literal l)
    (failed : (digits .strict expected s).error ≠ none) :
    Begins s (digits .strict expected s) Digits :=
  begins_atLeastOne other (b := Byte.zero) (by decide) failed

theorem begins_fraction
    (failed : (fraction .strict s).error ≠ none) :
    Begins s (fraction .strict s) IsFraction := by
  unfold fraction at failed ⊢
  split
  · rename_i dot
    rw [if_pos dot] at failed
    have both : Begins s ((done s.bump).andThen (digits .strict .fractionDigit)) IsFraction :=
      (takes_bump dot).begins (begins_digits (by simp) failed) fun _ => .some
    rwa [done_andThen] at both
  · rename_i noDot
    simp [noDot, done] at failed

theorem begins_exponent
    (failed : (exponent .strict s).error ≠ none) :
    Begins s (exponent .strict s) IsExponent := by
  unfold exponent at failed ⊢
  split
  · rename_i isMark
    rw [if_pos isMark] at failed
    obtain ⟨m, peek, hm⟩ : ∃ m, s.peek = some m ∧ Byte.isExponentMark m := by
      simpa [Option.any_eq_true] using isMark
    have digits := begins_digits (by simp) failed
    by_cases signed : s.bump.peek.any Byte.isSign
    · obtain ⟨sign, peekSign, isSign⟩ : ∃ b, s.bump.peek = some b ∧ Byte.isSign b := by
        simpa [Option.any_eq_true] using signed
      rw [Scanner.bumpIf_of_peek peekSign isSign] at digits ⊢
      have inner : Begins s.bump ((done s.bump.bump).andThen
          (Grammar.digits .strict .exponentDigit))
          fun text => ∃ ds, Digits ds ∧ text = sign :: ds :=
        (takes_bump peekSign).begins digits fun ds isDigits => ⟨ds, isDigits, rfl⟩
      have outer : Begins s ((done s.bump).andThen fun t =>
          (done t.bump).andThen (Grammar.digits .strict .exponentDigit)) IsExponent := by
        refine (takes_bump peek).begins inner ?_
        rintro _ ⟨ds, isDigits, rfl⟩
        exact .signed hm isSign isDigits
      simpa using outer
    · have none : s.bump.bumpIf Byte.isSign = s.bump := by
        simp [Scanner.bumpIf, signed]
      rw [none] at digits ⊢
      have both : Begins s ((done s.bump).andThen (Grammar.digits .strict .exponentDigit))
          IsExponent :=
        (takes_bump peek).begins digits fun _ => .unsigned hm
      rwa [done_andThen] at both
  · rename_i noMark
    simp [noMark, done] at failed

theorem begins_magnitude
    (failed : (magnitude .strict s).error ≠ none) :
    Begins s (magnitude .strict s) IsMagnitude := by
  simp only [magnitude, radix?, andThen_assoc] at failed ⊢
  by_cases okInteger : (integer s).error = none
  · obtain ⟨int, isInt, takenInt⟩ := takes_integer okInteger
    rw [error_andThen okInteger] at failed
    refine takenInt.begins (Q := fun text => ∃ frac exp, IsFraction frac ∧ IsExponent exp ∧
      text = frac ++ exp) ?_ ?_
    · by_cases okFraction : (fraction .strict (integer s).stop).error = none
      · obtain ⟨frac, isFrac, takenFrac⟩ := takes_fraction okFraction
        rw [error_andThen okFraction] at failed
        exact takenFrac.begins (begins_exponent failed)
          fun exp isExp => ⟨frac, exp, isFrac, isExp, rfl⟩
      · refine begins_of_error okFraction ((begins_fraction okFraction).imp ?_)
        exact fun frac isFrac => ⟨frac, [], isFrac, .none, by simp⟩
    · rintro _ ⟨frac, exp, isFrac, isExp, rfl⟩
      exact .mk isInt isFrac isExp
  · refine begins_of_error okInteger ((begins_integer okInteger).imp ?_)
    intro int isInt
    have whole : IsMagnitude (int ++ ([] ++ [])) := .mk isInt .none .none
    simpa using whole

/-- Digits of another base after a zero and the mark of the base. -/
theorem begins_marked
    {mark b : UInt8} {rest : List UInt8} {p : UInt8 → Bool} {expected : Expectation}
    (other : ∀ l, expected ≠ .literal l)
    (first : p b)
    (ahead : s.rest = Byte.zero :: mark :: rest)
    (failed : (atLeastOne p expected (s.advance 2)).error ≠ none) :
    Begins s (atLeastOne p expected (s.advance 2)) fun text =>
      ∃ digits, digits ≠ [] ∧ (∀ b ∈ digits, p b) ∧ text = Byte.zero :: mark :: digits := by
  have lead : Takes s (done (s.advance 2)) [Byte.zero, mark] := ⟨rest, ahead, rfl⟩
  have both : Begins s ((done (s.advance 2)).andThen (atLeastOne p expected)) fun text =>
      ∃ digits, digits ≠ [] ∧ (∀ b ∈ digits, p b) ∧ text = Byte.zero :: mark :: digits :=
    lead.begins (begins_atLeastOne other first failed)
      fun digits isDigits => ⟨digits, isDigits.1, isDigits.2, rfl⟩
  rwa [done_andThen] at both

theorem begins_radix
    {run : Run}
    (radix : radix? .relaxed s = some run)
    (failed : run.error ≠ none) :
    Begins s run IsRelaxedMagnitude := by
  cases radixRun_of_radix? radix with
  | hexadecimal ahead mark =>
      refine (begins_marked (b := Byte.zero) (by simp) (by decide) ahead failed).imp ?_
      rintro _ ⟨digits, some, all, rfl⟩
      exact .hexadecimal mark some all
  | binary ahead mark =>
      refine (begins_marked (b := Byte.zero) (by simp) (by decide) ahead failed).imp ?_
      rintro _ ⟨digits, some, all, rfl⟩
      exact .binary mark some all
  | octal _ _ =>
      simp [done] at failed

theorem begins_relaxedMagnitude
    (failed : (magnitude .relaxed s).error ≠ none) :
    Begins s (magnitude .relaxed s) IsRelaxedMagnitude := by
  unfold magnitude at failed ⊢
  split
  · rename_i run radix
    simp only [radix] at failed
    exact begins_radix radix failed
  · rename_i decimal
    simp only [decimal, andThen_assoc] at failed ⊢
    -- A relaxed fraction and a relaxed exponent do not fail, as their digits may be missing.
    have others (t : Scanner) :
        ((fraction .relaxed t).andThen (exponent .relaxed)).error = none := by
      have each (u : Scanner) (expected : Expectation) :
          (digits .relaxed expected u).error = none :=
        rfl
      refine error_andThen_eq_none.mpr ⟨?_, ?_⟩
      · unfold fraction
        split
        · exact each _ _
        · rfl
      · unfold exponent
        split
        · exact each _ _
        · rfl
    have failedInteger : (integer s).error ≠ none := by
      intro ok
      rw [error_andThen ok] at failed
      exact failed (others _)
    refine begins_of_error failedInteger ((begins_integer failedInteger).imp ?_)
    intro int isInt
    have whole : IsRelaxedMagnitude (int ++ ([] ++ [])) := .decimal isInt .none .none
    simpa using whole

section Number

variable {g : Grammar} {P : List UInt8 → Prop}

/-- A magnitude that is broken off, or that a byte follows that may not end a number. -/
theorem begins_numberEnd
    {t : Scanner} {sign : List UInt8}
    (each : ∀ t : Scanner, (magnitude g t).error = none →
      ∃ text, P text ∧ Takes t (magnitude g t) text)
    (begins : ∀ t : Scanner, (magnitude g t).error ≠ none → Begins t (magnitude g t) P)
    (signed : Takes s (done t) sign)
    (failed : ((magnitude g t).andThen (numberEnd s)).error ≠ none) :
    Begins s ((magnitude g t).andThen (numberEnd s)) fun text =>
      ∃ mag, P mag ∧ text = sign ++ mag := by
  by_cases ok : (magnitude g t).error = none
  · obtain ⟨mag, isMag, taken⟩ := each t ok
    obtain ⟨rest, ahead, run⟩ : Takes s ((done t).andThen (magnitude g)) (sign ++ mag) :=
      signed.andThen taken
    rw [done_andThen] at run
    rw [run, done_andThen] at failed ⊢
    unfold numberEnd at failed ⊢
    split
    · have passes := Scanner.Passes.advance s (sign ++ mag).length
      rw [ahead, List.take_left] at passes
      refine ⟨sign ++ mag, [], ?_, mag, isMag, by simp⟩
      rw [reach_fail (by simp)]
      exact passes
    · rename_i free
      rw [if_neg free] at failed
      exact absurd rfl failed
  · have both : Begins s ((done t).andThen (magnitude g))
        fun text => ∃ mag, P mag ∧ text = sign ++ mag :=
      signed.begins (begins t ok) fun mag isMag => ⟨mag, isMag, rfl⟩
    rw [done_andThen] at both
    exact begins_of_error ok both

theorem begins_number
    (each : ∀ t : Scanner, (magnitude g t).error = none →
      ∃ text, P text ∧ Takes t (magnitude g t) text)
    (begins : ∀ t : Scanner, (magnitude g t).error ≠ none → Begins t (magnitude g t) P)
    (failed : (number g s).error ≠ none) :
    Begins s (number g s) fun text =>
      P text ∨ ∃ sign mag, isSign g sign ∧ P mag ∧ text = sign :: mag := by
  unfold number at failed ⊢
  by_cases signed : s.peek.any (isSign g)
  · obtain ⟨b, peek, sign⟩ : ∃ b, s.peek = some b ∧ isSign g b := by
      simpa [Option.any_eq_true] using signed
    rw [Scanner.bumpIf_of_peek peek sign] at failed ⊢
    refine (begins_numberEnd each begins (takes_bump peek) failed).imp ?_
    rintro _ ⟨mag, isMag, rfl⟩
    exact Or.inr ⟨b, mag, sign, isMag, rfl⟩
  · have none : s.bumpIf (isSign g) = s := by
      simp [Scanner.bumpIf, signed]
    rw [none] at failed ⊢
    refine (begins_numberEnd each begins (takes_nil s) failed).imp ?_
    rintro _ ⟨mag, isMag, rfl⟩
    exact Or.inl isMag

end Number

theorem begins_strictNumber
    (failed : (number .strict s).error ≠ none) :
    Begins s (number .strict s) IsNumber := by
  refine (begins_number (fun _ => takes_magnitude) (fun _ => begins_magnitude) failed).imp ?_
  rintro text (mag | ⟨sign, mag, isMinus, isMag, rfl⟩)
  · exact .positive mag
  · cases minus_of_isSign isMinus
    exact .negative isMag

theorem begins_relaxedNumber
    (failed : (number .relaxed s).error ≠ none) :
    Begins s (number .relaxed s) IsRelaxedNumber := by
  refine (begins_number (fun _ => takes_relaxedMagnitude) (fun _ => begins_relaxedMagnitude)
    failed).imp ?_
  rintro text (mag | ⟨sign, mag, isSign, isMag, rfl⟩)
  · exact .unsigned mag
  · exact .signed isSign isMag

/-! ## Strings -/

/-- Something may follow in every state. -/
theorem exists_tail :
    ∀ state : StringState, ∃ text, Tail state text
  | .plain => ⟨[], .nil⟩
  | .escaped => ⟨[Byte.quote], .escape (by decide) .nil⟩
  | .hex more => by
      refine ⟨List.replicate (more + 1) Byte.zero, _, [], (List.append_nil _).symm, by simp, ?_,
        .nil⟩
      intro b mem
      rw [List.eq_of_mem_replicate mem]
      decide

/-- What a byte that may not stand in a string is in the place of. -/
theorem expected_of_step
    {state : StringState} {b : UInt8} {expected : Expectation}
    (h : state.step b = .error expected) :
    expected = .stringCharacter ∨ expected = .hexDigit := by
  cases state with
  | plain =>
      simp only [StringState.step] at h
      split at h
      · cases h
      · split at h
        · cases h
        · split at h
          · cases h
            exact Or.inl rfl
          · cases h
  | escaped =>
      simp only [StringState.step] at h
      split at h <;> cases h
  | hex more =>
      simp only [StringState.step] at h
      split at h
      · cases more <;> cases h
      · cases h
        exact Or.inr rfl

/-- The bytes before a fault in a string can go on to its closing quote. -/
theorem scan_begins :
    ∀ (bytes : List UInt8) (state : StringState) (count : Nat)
      (expected : Expectation), state.scan bytes = (count, some expected) →
        (∃ more, Tail state (bytes.take count ++ more)) ∧ ∀ l, expected ≠ .literal l
  | [], state, count, expected, h => by
      simp only [StringState.scan, Prod.mk.injEq, Option.some.injEq] at h
      obtain ⟨rfl, rfl⟩ := h
      refine ⟨by simpa using exists_tail state, ?_⟩
      cases state <;> simp [StringState.expected]
  | b :: bytes, state, count, expected, h => by
      cases step : state.step b with
      | error e =>
          simp only [StringState.scan, step, Prod.mk.injEq, Option.some.injEq] at h
          obtain ⟨rfl, rfl⟩ := h
          refine ⟨by simpa using exists_tail state, ?_⟩
          rcases expected_of_step step with rfl | rfl <;> simp
      | ok next =>
          cases next with
          | none =>
              simp [StringState.scan, step] at h
          | some next =>
              simp only [StringState.scan, step, Prod.mk.injEq] at h
              obtain ⟨⟨more, tail⟩, other⟩ :=
                scan_begins bytes next (next.scan bytes).1 expected (by rw [← h.2])
              refine ⟨⟨more, ?_⟩, other⟩
              rw [← h.1, List.take_succ_cons]
              exact tail_of_step step tail

theorem begins_string
    (quote : s.peek = some Byte.quote)
    (failed : (string s).error ≠ none) :
    Begins s (string s) fun text => ∃ content, IsContent content ∧ text = quoted content := by
  obtain ⟨rest, ahead⟩ := Scanner.rest_of_peek quote
  have inside : s.bump.rest = rest := Scanner.rest_bump ahead
  rw [string, expect_of_peek quote, done_andThen] at failed ⊢
  have failedBody : (stringBody s.bump).error ≠ none := by
    intro ok
    exact failed (error_andThen_eq_none.mpr ⟨ok, rfl⟩)
  refine begins_of_error failedBody ?_
  unfold stringBody at failedBody ⊢
  rw [inside] at failedBody ⊢
  cases scan : StringState.plain.scan rest with
  | mk count outcome =>
      cases outcome with
      | none =>
          simp [scan, done] at failedBody
      | some expected =>
          obtain ⟨⟨more, tail⟩, other⟩ := scan_begins rest .plain count expected scan
          have passes := Scanner.Passes.advance s.bump count
          rw [inside] at passes
          refine ⟨Byte.quote :: rest.take count, more ++ [Byte.quote], ?_, _, tail, ?_⟩
          · simp only
            rw [reach_missing other]
            exact (Scanner.passes_bump quote).trans passes
          · simp [quoted]

/-! ## Literals -/

theorem begins_strictLiteral
    (l : Literal)
    (failed : (literal .strict l s).error ≠ none) :
    Begins s (literal .strict l s) (· = l.word) ∨ (literal .strict l s).reach = s := by
  simp only [literal] at failed ⊢
  split
  · by_cases begins : s.rest.isPrefixOf l.word
    · obtain ⟨more, split⟩ := List.isPrefixOf_iff_prefix.mp begins
      refine Or.inl ⟨s.rest, more, ?_, split⟩
      have passes := Scanner.Passes.advance s s.rest.length
      rw [List.take_length] at passes
      simpa only [reach, fail, begins, if_true] using passes
    · refine Or.inr ?_
      simp only [reach, fail, begins, Bool.false_eq_true, if_false]
  · rename_i enough
    rw [if_neg enough] at failed
    split
    · rename_i ahead
      simp [ahead, token] at failed
    · exact Or.inr (reach_fail (by simp))

theorem begins_relaxedLiteral
    (l : Literal)
    (failed : (literal .relaxed l s).error ≠ none) :
    Begins s (literal .relaxed l s) (· = l.word) := by
  have passes := Scanner.passes_skipWhile s Byte.isWordPart
  simp only [literal, passes.textTo_eq] at failed ⊢
  by_cases same : s.rest.takeWhile Byte.isWordPart = l.word
  · simp [same, token] at failed
  · rw [if_neg same] at failed ⊢
    split
    · rename_i short
      simp only [Bool.and_eq_true] at short
      have nothing : (s.skipWhile Byte.isWordPart).rest = [] := List.isEmpty_iff.mp short.1
      obtain ⟨more, split⟩ := List.isPrefixOf_iff_prefix.mp short.2
      refine ⟨_, more, ?_, split⟩
      simpa [reach, fail, nothing] using passes
    · rename_i long
      rw [if_neg long] at failed
      exact absurd rfl failed

/-! ## The leaves of a dialect -/

/-- The leaves of a dialect on which a reader is broken off can be gone on with: what the rules
have gone past without a fault begins a token of the lexicon, the empty string among them where
nothing was gone past, and a line feed makes trivia of what may stand at the end of an input. -/
structure Begun (g : Grammar) (lex : Lexicon) : Prop where
  ending : ∀ text, lex.ending text → lex.trivia (text ++ [Byte.lineFeed])
  emptyKey : ∃ content, lex.key (quoted []) content
  emptyScalar : ∃ tree, lex.scalar (quoted []) tree
  key : ∀ s : Scanner, (g.key s).error ≠ none →
    Begins s (g.key s) fun text => ∃ content, lex.key text content
  scalar : ∀ (s : Scanner) (value : Rule), (g.valueOf value s).error ≠ none →
    s.peek ≠ some Byte.openBracket → s.peek ≠ some Byte.openBrace →
    Begins s (g.valueOf value s) fun text => ∃ tree, lex.scalar text tree

/-- A value that is neither an array nor an object is broken off where its token is. -/
theorem begins_valueOf
    {g : Grammar} {P : List UInt8 → Prop} {value : Rule}
    (string : ∀ content, IsContent content → P (quoted content))
    (number : (number g s).error ≠ none → Begins s (number g s) P)
    (literal : ∀ l, (literal g l s).error ≠ none → Begins s (literal g l s) P)
    (unknown : (unknown g s).error ≠ none → Begins s (unknown g s) P)
    (failed : (g.valueOf value s).error ≠ none)
    (notArray : s.peek ≠ some Byte.openBracket)
    (notObject : s.peek ≠ some Byte.openBrace) :
    Begins s (g.valueOf value s) P := by
  revert failed
  refine valueOf_scalar (P := fun run => run.error ≠ none → Begins s run P) value notArray notObject
    (fun _ => begins_missing (by simp) s (string [] .nil)) number (fun quote failed => ?_)
    (fun _ l _ _ => literal l) fun _ _ _ => unknown
  refine (begins_string quote failed).imp ?_
  rintro _ ⟨content, isContent, rfl⟩
  exact string content isContent

theorem begun_strict :
    Begun .strict Lexicon.strict where
  ending := by
    intro text blanks b mem
    rcases List.mem_append.mp mem with mem | mem
    · exact blanks b mem
    · rw [List.mem_singleton.mp mem]
      decide
  emptyKey := ⟨_, .string .nil⟩
  emptyScalar := ⟨_, .string .nil⟩
  key := by
    intro s failed
    simp only [key] at failed ⊢
    split
    · rename_i quote
      rw [if_pos quote] at failed
      refine (begins_string quote failed).imp ?_
      rintro _ ⟨content, isContent, rfl⟩
      exact ⟨_, .string isContent⟩
    · exact begins_missing (by simp) s ⟨_, StrictKey.string .nil⟩
  scalar := by
    intro s value
    refine begins_valueOf (fun content isContent => ⟨_, .string isContent⟩) ?_ ?_ ?_
    · exact fun failed => (begins_strictNumber failed).imp fun _ number => ⟨_, .number number⟩
    · intro l failed
      rcases begins_strictLiteral l failed with begins | nothing
      · refine begins.imp ?_
        rintro _ rfl
        exact ⟨_, strictScalar_literal l⟩
      · exact ⟨[], quoted [], nothing.symm ▸ .refl s, _, .string .nil⟩
    · exact fun _ => begins_missing (by simp) s ⟨_, StrictScalar.string .nil⟩

/-- A line feed closes the comment that may be open at the end of an input. -/
theorem Ending.feed
    (h : Ending text) :
    Trivia (text ++ [Byte.lineFeed]) := by
  cases h with
  | closed trivia =>
      exact trivia.append (.blank (by decide) .nil)
  | comment trivia isLine =>
      simpa using trivia.append (.comment isLine .nil)

theorem begun_relaxed :
    Begun .relaxed Lexicon.relaxed where
  ending := fun _ ending => ending.feed
  emptyKey := ⟨_, .string .nil⟩
  emptyScalar := ⟨_, .string .nil⟩
  key := by
    intro s failed
    simp only [key] at failed ⊢
    split
    · rename_i quote
      rw [if_pos quote] at failed
      refine (begins_string quote failed).imp ?_
      rintro _ ⟨content, isContent, rfl⟩
      exact ⟨_, .string isContent⟩
    · rename_i notQuote
      rw [if_neg notQuote] at failed
      split
      · rename_i start
        simp [start, word, token] at failed
      · exact begins_missing (by simp) s ⟨_, RelaxedKey.string .nil⟩
  scalar := by
    intro s value
    refine begins_valueOf (fun content isContent => ⟨_, .string isContent⟩) ?_ ?_ ?_
    · exact fun failed => (begins_relaxedNumber failed).imp fun _ number => ⟨_, .number number⟩
    · intro l failed
      refine (begins_relaxedLiteral l failed).imp ?_
      rintro _ rfl
      exact ⟨_, .literal l⟩
    · intro failed
      simp only [unknown] at failed ⊢
      split
      · rename_i start
        simp [start, word, token] at failed
      · exact begins_missing (by simp) s ⟨_, RelaxedScalar.string .nil⟩

end Syntax
end JsonDoc
