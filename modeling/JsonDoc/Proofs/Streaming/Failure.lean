import JsonDoc.Proofs.Reading.Composition
import JsonDoc.Proofs.Streaming.Completion

/-!
# What a failed reading tells

A reader that gets its input in pieces goes by the error of what it has so far. An error at a byte
is never late: the bytes before it begin a document, `read_fault_viable`. An overrun can be tried
again when more bytes have arrived, as some continuation is read without a fault. The one
exception is a strict literal, which asks for as many bytes as it has before it looks at any: where
those that are left do not begin it, no continuation helps, `read_overrun_retryable`.
-/

namespace JsonDoc
namespace Run

/-- A run that fails for lack of bytes has none left, unless it stopped before a strict
literal. -/
def Exhausts (g : Grammar) (run : Run) : Prop :=
  ∀ offset expected, run.error = some (.overrun offset expected) →
    run.stop.rest = [] ∨ g = .strict ∧ ∃ l, expected = .literal l

variable {g : Grammar} {run : Run} {next : Rule} {s : Scanner}

theorem exhausts_of_ok
    (ok : run.error = none) :
    run.Exhausts g := by
  intro offset expected overrun
  simp [ok] at overrun

/-- An error other than an overrun. -/
theorem exhausts_fail
    {error : ParseError}
    (other : error.isOverrun = false) :
    (fail s error).Exhausts g := by
  intro offset expected overrun
  cases overrun
  simp [ParseError.isOverrun] at other

theorem exhausts_missing
    (expected : Expectation)
    (s : Scanner) :
    (missing s expected).Exhausts g := by
  by_cases atEnd : s.atEnd
  · exact fun _ _ _ => Or.inl (List.isEmpty_iff.mp atEnd)
  · refine exhausts_fail ?_
    simp [Scanner.missing, atEnd, ParseError.isOverrun]

theorem Exhausts.andThen
    (h : run.Exhausts g)
    (hn : run.error = none → (next run.stop).Exhausts g) :
    (run.andThen next).Exhausts g := by
  cases error : run.error with
  | some e =>
      rwa [andThen_of_error error]
  | none =>
      intro offset expected overrun
      rw [error_andThen error] at overrun
      rw [stop_andThen error]
      exact hn error offset expected overrun

theorem exhausts_expect
    (byte : UInt8)
    (expected : Expectation)
    (s : Scanner) :
    (expect byte expected s).Exhausts g := by
  unfold expect
  split
  · exact exhausts_of_ok rfl
  · exact exhausts_missing expected s

theorem exhausts_atLeastOne
    (p : UInt8 → Bool)
    (expected : Expectation)
    (s : Scanner) :
    (atLeastOne p expected s).Exhausts g := by
  unfold atLeastOne
  split
  · exact exhausts_of_ok rfl
  · exact exhausts_missing expected s

theorem exhausts_enter
    (s : Scanner) :
    (enter s).Exhausts g := by
  unfold enter
  split
  · exact exhausts_fail rfl
  · exact exhausts_of_ok rfl

end Run

namespace Grammar

open Run

variable {g : Grammar}

/-! ## Tokens -/

theorem exhausts_string
    (s : Scanner) :
    (string s).Exhausts g := by
  refine ((exhausts_expect _ _ s).andThen fun t => ?_).andThen fun t => exhausts_of_ok rfl
  unfold stringBody
  split
  · exact exhausts_of_ok rfl
  · exact exhausts_missing _ _

theorem exhausts_literal
    (g : Grammar)
    (l : Literal)
    (s : Scanner) :
    (g.literal l s).Exhausts g := by
  cases g with
  | strict =>
      simp only [literal]
      split
      · intro offset expected overrun
        cases overrun
        exact Or.inr ⟨rfl, l, rfl⟩
      · split
        · exact exhausts_of_ok rfl
        · exact exhausts_fail rfl
  | relaxed =>
      simp only [literal]
      split
      · exact exhausts_of_ok rfl
      · split
        · rename_i cut
          rw [Bool.and_eq_true] at cut
          exact fun _ _ _ => Or.inl (List.isEmpty_iff.mp cut.1)
        · exact exhausts_of_ok rfl

theorem exhausts_digits
    (g : Grammar)
    (expected : Expectation)
    (s : Scanner) :
    (g.digits expected s).Exhausts g := by
  cases g with
  | strict =>
      exact exhausts_atLeastOne _ expected s
  | relaxed =>
      exact exhausts_of_ok rfl

theorem exhausts_integer
    (s : Scanner) :
    (integer s).Exhausts g := by
  unfold integer
  split
  · exact exhausts_missing _ s
  · split
    · exact exhausts_of_ok rfl
    · split
      · exact exhausts_of_ok rfl
      · exact exhausts_missing _ s

theorem exhausts_fraction
    (g : Grammar)
    (s : Scanner) :
    (g.fraction s).Exhausts g := by
  unfold fraction
  split
  · exact exhausts_digits g _ _
  · exact exhausts_of_ok rfl

theorem exhausts_exponent
    (g : Grammar)
    (s : Scanner) :
    (g.exponent s).Exhausts g := by
  unfold exponent
  split
  · exact exhausts_digits g _ _
  · exact exhausts_of_ok rfl

theorem exhausts_radix?
    {run : Run} {s : Scanner}
    (h : g.radix? s = some run) :
    run.Exhausts g := by
  cases radixRun_of_radix? h with
  | hexadecimal _ _ | binary _ _ =>
      exact exhausts_atLeastOne _ _ _
  | octal _ _ =>
      exact exhausts_of_ok rfl

theorem exhausts_number
    (g : Grammar)
    (s : Scanner) :
    (g.number s).Exhausts g := by
  refine Exhausts.andThen ?_ fun t => ?_
  · unfold magnitude
    split
    · rename_i run radix
      exact exhausts_radix? radix
    · exact ((exhausts_integer _).andThen fun _ => exhausts_fraction g _).andThen
        fun _ => exhausts_exponent g _
  · unfold numberEnd
    split
    · exact exhausts_fail rfl
    · exact exhausts_of_ok rfl

theorem exhausts_key
    (g : Grammar)
    (s : Scanner) :
    (g.key s).Exhausts g := by
  cases g with
  | strict =>
      simp only [key]
      split
      · exact exhausts_string s
      · exact exhausts_missing _ s
  | relaxed =>
      simp only [key]
      split
      · exact exhausts_string s
      · split
        · exact exhausts_of_ok rfl
        · exact exhausts_missing _ s

theorem exhausts_unknown
    (g : Grammar)
    (s : Scanner) :
    (g.unknown s).Exhausts g := by
  cases g with
  | strict =>
      exact exhausts_missing _ s
  | relaxed =>
      simp only [unknown]
      split
      · exact exhausts_of_ok rfl
      · exact exhausts_missing _ s

/-! ## Values -/

theorem exhausts_opening
    (byte : UInt8)
    (expected : Expectation)
    (kind : EventKind)
    (s : Scanner) :
    (opening byte expected kind s).Exhausts g :=
  ((exhausts_enter s).andThen fun _ => exhausts_expect byte expected _).andThen
    fun _ => exhausts_of_ok rfl

theorem exhausts_closing
    (byte : UInt8)
    (expected : Expectation)
    (kind : EventKind)
    (s : Scanner) :
    (closing byte expected kind s).Exhausts g :=
  ((exhausts_expect byte expected s).andThen fun _ => exhausts_of_ok rfl).andThen
    fun _ => exhausts_of_ok rfl

/-- Containers fail for lack of bytes where their parts do. -/
theorem composes_exhausts
    (g : Grammar) :
    g.Composes fun _ run => run.Exhausts g where
  done _ := exhausts_of_ok rfl
  missing s expected := exhausts_missing expected s
  unexpected _ _ := exhausts_fail rfl
  andThen := Exhausts.andThen
  skip := id
  separator _ _ := id
  opening expected _ _ _ := exhausts_opening _ expected _ _
  closing expected s _ _ := exhausts_closing _ expected _ s
  key := exhausts_key g
  scalar {s} value notArray notObject :=
    valueOf_scalar value notArray notObject (exhausts_missing _ s) (exhausts_number g s)
      (fun _ => exhausts_string s) (fun _ l _ _ => exhausts_literal g l s)
      fun _ _ _ => exhausts_unknown g s

theorem exhausts_read
    (g : Grammar)
    (maxDepth : Option Nat)
    (input : List UInt8) :
    (g.read maxDepth input).Exhausts g :=
  (composes_exhausts g).read maxDepth input

/-! ## Overruns -/

section Overrun

variable {maxDepth : Option Nat} {p : List UInt8} {offset : Nat} {expected : Expectation}

/-- Where the bytes that are left do not begin the literal that lacks some, no continuation is
read without a fault. -/
theorem read_append_of_literal
    {l : Literal}
    (overrun : (g.read maxDepth p).error = some (.overrun offset (.literal l)))
    (wrong : ¬ (g.read maxDepth p).stop.rest <+: l.word)
    (q : List UInt8) :
    (g.read maxDepth (p ++ q)).error ≠ none := by
  cases continues_read g maxDepth p q with
  | settled eq =>
      rw [eq]
      simp [Run.extend, overrun]
  | unsettled _ _ _ _ _ _ waits =>
      exact (waits offset l overrun).resolve_left wrong

/-- Otherwise reading has gone past all bytes without a fault. -/
theorem reach_rest_of_overrun
    (overrun : (g.read maxDepth p).error = some (.overrun offset expected))
    (begins : ∀ l, g = .strict → expected = .literal l → (g.read maxDepth p).stop.rest <+: l.word) :
    (g.read maxDepth p).reach.rest = [] := by
  rcases exhausts_read g maxDepth p offset expected overrun with nothing | ⟨strict, l, rfl⟩
  · exact reach_rest_of_rest_nil nothing
  · exact reach_rest_of_begins overrun (begins l strict rfl)

/-- Reading that lacks bytes is read without a fault after some more of them, unless it stopped
before a strict literal that the bytes left do not begin. -/
theorem read_overrun_retryable
    (g : Grammar)
    (maxDepth : Option Nat)
    (p : List UInt8)
    (offset : Nat)
    (expected : Expectation)
    (overrun : (g.read maxDepth p).error = some (.overrun offset expected)) :
    (∃ q, (g.read maxDepth (p ++ q)).error = none) ↔
      ∀ l, g = .strict → expected = .literal l → (g.read maxDepth p).stop.rest <+: l.word := by
  constructor
  · rintro ⟨q, ok⟩ l _ rfl
    exact Decidable.byContradiction fun wrong => read_append_of_literal overrun wrong q ok
  · intro begins
    obtain ⟨text, more, passes, ok⟩ := reach_completes g maxDepth p (by simp [overrun])
    have whole : p = text := by
      have ahead := passes.rest
      rwa [reach_rest_of_overrun overrun begins, List.append_nil] at ahead
    rw [whole]
    exact ⟨more, ok⟩

/-- The bytes `[tr` may go on. -/
theorem read_overrun_retryable_begun :
    (Grammar.strict.read none [0x5B, 0x74, 0x72]).error = some (.overrun 3 (.literal .true)) ∧
      ∃ q, (Grammar.strict.read none ([0x5B, 0x74, 0x72] ++ q)).error = none := by
  refine ⟨by decide, (read_overrun_retryable .strict none _ 3 (.literal .true) (by decide)).mpr ?_⟩
  intro l _ same
  cases same
  decide

/-- The bytes `tX` lack two for `true` and may not go on. -/
theorem overrun_not_retryable :
    (Grammar.strict.read none [0x74, 0x58]).error = some (.overrun 2 (.literal .true)) ∧
      ∀ q, (Grammar.strict.read none ([0x74, 0x58] ++ q)).error ≠ none := by
  have overrun : (Grammar.strict.read none [0x74, 0x58]).error =
      some (.overrun 2 (.literal .true)) := by
    decide
  exact ⟨overrun, fun q => read_append_of_literal overrun (by decide) q⟩

end Overrun

/-! ## Faults at a byte -/

theorem offset_of_standsAt
    {error : ParseError} {stop : Scanner}
    (h : error.StandsAt stop)
    (fault : error.isOverrun = false) :
    error.offset = stop.position ∧ stop.rest ≠ [] := by
  cases error with
  | unexpected =>
      exact h
  | overrun =>
      simp [ParseError.isOverrun] at fault
  | tooDeep =>
      exact ⟨h.1, h.2.1⟩

/-- An error at a byte stands before the end of the input and after all events, and the bytes
before it go on as a document that is read under the same limit of depth. -/
theorem read_fault_viable
    (g : Grammar)
    (maxDepth : Option Nat)
    (p : List UInt8)
    (error : ParseError)
    (failed : (g.read maxDepth p).error = some error)
    (fault : error.isOverrun = false) :
    error.offset < p.length ∧
      (∀ event ∈ (g.read maxDepth p).events, event.span.stop ≤ error.offset) ∧
      ∃ q, (g.read maxDepth (p.take error.offset ++ q)).error = none := by
  have orderly := orderly_read g maxDepth p
  obtain ⟨place, left⟩ := offset_of_standsAt (orderly.standsAt error failed) fault
  obtain ⟨text, more, passes, ok⟩ := reach_completes g maxDepth p (by simp [failed])
  rw [reach_of_fault failed fault] at passes
  have split : p = text ++ (g.read maxDepth p).stop.rest := passes.rest
  have offset : error.offset = text.length := by
    rw [place, passes.position]
    simp [Scanner.start]
  have before : p.take error.offset = text := by
    rw [offset, split, List.take_left]
  refine ⟨?_, ?_, more, ?_⟩
  · have := List.length_pos_iff.mpr left
    rw [split, List.length_append, offset]
    omega
  · intro event mem
    rw [place]
    exact (orderly.inOrder.stop_le event mem).2
  · rw [before]
    exact ok

/-- The bytes `[1 2]` break the grammar at the `2`, and those before it may go on. -/
theorem read_fault_viable_missing_comma :
    (Grammar.strict.read none [0x5B, 0x31, 0x20, 0x32, 0x5D]).error =
        some (.unexpected 3 .commaOrBracket) ∧
      ∃ q, (Grammar.strict.read none ([0x5B, 0x31, 0x20] ++ q)).error = none := by
  have failed : (Grammar.strict.read none [0x5B, 0x31, 0x20, 0x32, 0x5D]).error =
      some (.unexpected 3 .commaOrBracket) := by
    decide
  exact ⟨failed, (read_fault_viable .strict none _ _ failed rfl).2.2⟩

end Grammar
end JsonDoc
