import JsonDoc.Proofs.Reading.Composition
import JsonDoc.Proofs.Syntax.Content
import JsonDoc.Proofs.Text.Boundary

/-!
# Reading stops between characters

The rules look at bytes, and an escape takes a single byte even if that is the first one of a
character. Yet on a text no token and no error ever stands inside a character, `aligned_read`: the
bytes of a character from 0x80 on are the same to every rule, so that a rule goes past all of them
or stops before the first.
-/

namespace JsonDoc

namespace Syntax

open Utf8 Grammar

/-! ## Bytes below 0x80 -/

theorem ascii_isBlank
    {b : UInt8}
    (h : Byte.isBlank b) :
    b.toNat < 0x80 := by
  rcases isBlank_cases h with rfl | rfl | rfl | rfl <;> decide

theorem ascii_isWordPart
    {b : UInt8}
    (h : Byte.isWordPart b) :
    b.toNat < 0x80 := by
  simp only [Byte.isWordPart, Byte.isLetter, Byte.isDigit, Byte.underscore, Bool.or_eq_true,
    Bool.and_eq_true, decide_eq_true_eq, beq_iff_eq, UInt8.le_iff_toNat_le, ← UInt8.toNat_inj,
    UInt8.reduceToNat] at h
  omega

theorem ascii_isDigit
    {b : UInt8}
    (h : Byte.isDigit b) :
    b.toNat < 0x80 :=
  ascii_isWordPart (isWordPart_of_isDigit h)

theorem ascii_isSign
    {g : Grammar} {b : UInt8}
    (h : g.isSign b) :
    b.toNat < 0x80 := by
  cases g with
  | strict =>
      cases minus_of_isSign h
      decide
  | relaxed =>
      exact (isSign_asciiChar h).1

theorem ascii_word
    (l : Literal) :
    ∀ b ∈ l.word, b.toNat < 0x80 := by
  cases l <;> simp [Literal.word]

/-! ## Bytes from 0x80 on -/

theorem scan_high
    {run : List UInt8}
    (rest : List UInt8)
    (high : ∀ b ∈ run, 0x80 ≤ b.toNat) :
    (StringState.plain.scan (run ++ rest)).1 = run.length + (StringState.plain.scan rest).1 := by
  induction run with
  | nil =>
      simp
  | cons b run ih =>
      obtain ⟨first, others⟩ := List.forall_mem_cons.mp high
      simp only [List.cons_append, StringState.scan, step_high first (Or.inl rfl), ih others,
        List.length_cons]
      omega

theorem comment_high
    {run : List UInt8}
    (rest : List UInt8)
    (high : ∀ b ∈ run, 0x80 ≤ b.toNat) :
    commentedLength true (run ++ rest) = run.length + commentedLength true rest := by
  induction run with
  | nil =>
      simp
  | cons b run ih =>
      obtain ⟨first, others⟩ := List.forall_mem_cons.mp high
      have goesOn : (b != Byte.lineFeed) = true := by
        simp only [bne_iff_ne, ne_eq]
        rintro rfl
        exact absurd first (by decide)
      rw [List.cons_append, commentedLength, goesOn, ih others, List.length_cons]
      omega

/-! ## Where strings and comments end -/

/-- The reader of strings stops at a boundary, wherever it has come from. -/
theorem boundary_scan
    (chars : List Char) :
    ∀ state : StringState, Boundary chars (state.scan (encode chars)).1 := by
  induction chars with
  | nil =>
      exact fun _ => boundary_start []
  | cons c chars ih =>
      intro state
      rw [encode_cons]
      rcases ascii_or_high c with ⟨b, _, only⟩ | ⟨some, high⟩
      · rw [only, List.singleton_append, StringState.scan]
        cases step : state.step b with
        | error expected =>
            exact boundary_start _
        | ok outcome =>
            cases outcome with
            | none =>
                simpa [only] using (boundary_start chars).cons c
            | some next =>
                simpa [only, Nat.add_comm] using (ih next).cons c
      · obtain ⟨b, run, split⟩ := List.exists_cons_of_ne_nil some
        rw [split] at high
        obtain ⟨first, others⟩ := List.forall_mem_cons.mp high
        rw [split, List.cons_append, StringState.scan]
        cases step : state.step b with
        | error expected =>
            exact boundary_start _
        | ok outcome =>
            cases outcome with
            | none =>
                obtain ⟨_, rfl⟩ := eq_of_step_none step
                exact absurd first (by decide)
            | some next =>
                obtain ⟨rfl, _⟩ := step_of_high first step
                have whole := (ih .plain).cons c
                rw [split, List.length_cons, Nat.add_right_comm] at whole
                simpa only [scan_high _ others] using whole

theorem boundary_comment
    (chars : List Char) :
    ∀ inside : Bool, Boundary chars (commentedLength inside (encode chars)) := by
  induction chars with
  | nil =>
      intro inside
      rw [encode, List.flatMap_nil, commentedLength]
      exact boundary_start []
  | cons c chars ih =>
      intro inside
      rw [encode_cons]
      rcases ascii_or_high c with ⟨b, _, only⟩ | ⟨some, high⟩
      · rw [only, List.singleton_append]
        have goesOn (inside : Bool) :
            Boundary (c :: chars) (1 + commentedLength inside (encode chars)) := by
          simpa [only] using (ih inside).cons c
        cases inside with
        | true =>
            exact goesOn _
        | false =>
            rw [commentedLength]
            split
            · exact goesOn _
            · split
              · exact goesOn _
              · exact boundary_start _
      · cases inside with
        | true =>
            rw [comment_high _ high]
            exact (ih true).cons c
        | false =>
            obtain ⟨b, run, split⟩ := List.exists_cons_of_ne_nil some
            have first := high b (by simp [split])
            have notBlank : Byte.isBlank b = false := by
              rw [Bool.eq_false_iff]
              intro blank
              have := ascii_isBlank blank
              omega
            have notHash : b ≠ Byte.hash := by
              rintro rfl
              exact absurd first (by decide)
            rw [split, List.cons_append, commentedLength, if_neg (by simp [notBlank]),
              if_neg notHash]
            exact boundary_start _

theorem boundary_trivia
    (g : Grammar)
    (chars : List Char) :
    Boundary chars (g.triviaLength (encode chars)) := by
  cases g with
  | strict =>
      exact boundary_takeWhile (fun _ => ascii_isBlank) chars
  | relaxed =>
      exact boundary_comment chars false

end Syntax

namespace Scanner

open Utf8

/-- The place stands between two characters of the text. -/
def Between (chars : List Char) (s : Scanner) : Prop :=
  ∃ before after, chars = before ++ after ∧ s.position = (encode before).length ∧
    s.rest = encode after

variable {chars : List Char} {s : Scanner} {p : UInt8 → Bool}

namespace Between

theorem position
    (h : s.Between chars) :
    Boundary chars s.position := by
  obtain ⟨before, after, split, position, _⟩ := h
  exact ⟨before, after, split, position⟩

theorem start
    (chars : List Char)
    (maxDepth : Option Nat) :
    (Scanner.start (encode chars) maxDepth).Between chars :=
  ⟨[], chars, rfl, rfl, rfl⟩

/-- The end of the text is a boundary. -/
theorem length
    (h : s.Between chars) :
    Boundary chars s.length := by
  obtain ⟨before, after, rfl, position, rest⟩ := h
  have all := boundary_end (before ++ after)
  rwa [encode_append, List.length_append, ← position, ← rest] at all

theorem advance
    (h : s.Between chars)
    {count : Nat}
    (stops : ∀ ahead, s.rest = encode ahead → Boundary ahead count) :
    (s.advance count).Between chars := by
  obtain ⟨before, after, rfl, position, rest⟩ := h
  obtain ⟨passed, left, rfl, rfl⟩ := stops after rest
  refine ⟨before ++ passed, left, by simp, ?_, ?_⟩
  · simp [Scanner.advance, position, rest]
  · simp [Scanner.advance, rest]

theorem bump
    {b : UInt8}
    (h : s.Between chars)
    (peek : s.peek = some b)
    (ascii : b.toNat < 0x80) :
    s.bump.Between chars := by
  refine h.advance fun ahead same => ?_
  obtain ⟨rest, isNext⟩ := rest_of_peek peek
  exact boundary_one (same.symm.trans isNext) ascii

theorem bumpIf
    (h : s.Between chars)
    (ascii : ∀ b, p b → b.toNat < 0x80) :
    (s.bumpIf p).Between chars := by
  unfold Scanner.bumpIf
  split
  · rename_i isNext
    obtain ⟨b, peek, holds⟩ : ∃ b, s.peek = some b ∧ p b := by
      simpa [Option.any_eq_true] using isNext
    exact h.bump peek (ascii b holds)
  · exact h

theorem skipWhile
    (h : s.Between chars)
    (ascii : ∀ b, p b → b.toNat < 0x80) :
    (s.skipWhile p).Between chars := by
  refine h.advance fun ahead same => ?_
  rw [same]
  exact boundary_takeWhile ascii ahead

theorem skip
    (g : Grammar)
    (h : s.Between chars) :
    (g.skip s).Between chars := by
  refine h.advance fun ahead same => ?_
  rw [same]
  exact Syntax.boundary_trivia g ahead

end Between
end Scanner

namespace Run

open Utf8

/-- From a place between two characters the run stops at another one, and its events start and stop
there as well. -/
def Aligned (chars : List Char) (s : Scanner) (run : Run) : Prop :=
  s.Between chars → run.stop.Between chars ∧
    ∀ event ∈ run.events, Boundary chars event.span.start ∧ Boundary chars event.span.stop

variable {chars : List Char} {s t u : Scanner} {run : Run} {next : Rule}

theorem aligned_done
    (h : s.Between chars → t.Between chars) :
    Aligned chars s (done t) :=
  fun between => ⟨h between, by simp [done]⟩

theorem aligned_fail
    (h : s.Between chars → t.Between chars)
    (error : ParseError) :
    Aligned chars s (fail t error) :=
  fun between => ⟨h between, by simp [fail]⟩

theorem aligned_missing
    (h : s.Between chars → t.Between chars)
    (expected : Expectation) :
    Aligned chars s (missing t expected) :=
  aligned_fail h (t.missing expected)

theorem aligned_token
    (kind : EventKind)
    (start : u.Between chars)
    (h : s.Between chars → t.Between chars) :
    Aligned chars s (token kind u t) := by
  refine fun between => ⟨h between, ?_⟩
  intro event mem
  rw [List.mem_singleton.mp mem]
  exact ⟨start.position, (h between).position⟩

theorem Aligned.andThen
    (h : Aligned chars s run)
    (hn : run.error = none → Aligned chars run.stop (next run.stop)) :
    Aligned chars s (run.andThen next) := by
  intro between
  obtain ⟨stop, events⟩ := h between
  cases error : run.error with
  | some e =>
      rw [andThen_of_error error]
      exact ⟨stop, events⟩
  | none =>
      obtain ⟨stop', events'⟩ := hn error stop
      rw [stop_andThen error, events_andThen error]
      refine ⟨stop', fun event mem => ?_⟩
      rcases List.mem_append.mp mem with mem | mem
      · exact events event mem
      · exact events' event mem

theorem aligned_atLeastOne
    {p : UInt8 → Bool}
    (ascii : ∀ b, p b → b.toNat < 0x80)
    (expected : Expectation)
    (s : Scanner) :
    Aligned chars s (atLeastOne p expected s) := by
  unfold atLeastOne
  split
  · exact aligned_done fun between => between.skipWhile ascii
  · exact aligned_missing id expected

theorem aligned_expect
    {byte : UInt8}
    (ascii : byte.toNat < 0x80)
    (expected : Expectation)
    (s : Scanner) :
    Aligned chars s (expect byte expected s) := by
  unfold expect
  split
  · rename_i peek
    exact aligned_done fun between => between.bump peek ascii
  · exact aligned_missing id expected

end Run

namespace Grammar

open Utf8 Run Syntax

variable {chars : List Char} {s : Scanner} {g : Grammar}

/-! ## Strings and words -/

theorem aligned_stringBody
    (s : Scanner) :
    Aligned chars s (stringBody s) := by
  have stops (between : s.Between chars) :
      (s.advance (StringState.plain.scan s.rest).1).Between chars := by
    refine between.advance fun ahead same => ?_
    rw [same]
    exact boundary_scan ahead .plain
  unfold stringBody
  split
  · rename_i scan
    rw [scan] at stops
    exact aligned_done stops
  · rename_i expected scan
    rw [scan] at stops
    exact aligned_missing stops expected

theorem aligned_string
    (s : Scanner) :
    Aligned chars s (string s) := by
  intro between
  have body : Aligned chars s ((expect Byte.quote .openingQuote s).andThen stringBody) :=
    (aligned_expect (by decide) _ s).andThen fun _ => aligned_stringBody _
  exact (body.andThen fun _ => aligned_token .string between id) between

theorem aligned_word
    (s : Scanner) :
    Aligned chars s (word s) := fun between =>
  aligned_token .string between (fun here => here.skipWhile fun _ => ascii_isWordPart) between

theorem aligned_literal
    (g : Grammar)
    (l : Literal)
    (s : Scanner) :
    Aligned chars s (g.literal l s) := by
  intro between
  cases g with
  | strict =>
      simp only [literal]
      split
      · exact aligned_fail id _ between
      · split
        · rename_i isAhead
          obtain ⟨rest, isAhead⟩ := List.isPrefixOf_iff_prefix.mp isAhead
          refine aligned_token l.kind between (fun here => here.advance fun ahead same => ?_)
            between
          exact boundary_of_ascii (ascii_word l) (same.symm.trans isAhead.symm)
        · exact aligned_fail id _ between
  | relaxed =>
      have stops (here : s.Between chars) : (s.skipWhile Byte.isWordPart).Between chars :=
        here.skipWhile fun _ => ascii_isWordPart
      simp only [literal]
      split
      · exact aligned_token _ between stops between
      · split
        · exact aligned_fail stops _ between
        · exact aligned_token _ between stops between

/-! ## Numbers -/

theorem aligned_digits
    (g : Grammar)
    (expected : Expectation)
    (s : Scanner) :
    Aligned chars s (g.digits expected s) := by
  cases g with
  | strict =>
      exact aligned_atLeastOne (fun _ => ascii_isDigit) expected s
  | relaxed =>
      exact aligned_done fun between => between.skipWhile fun _ => ascii_isDigit

theorem aligned_integer
    (s : Scanner) :
    Aligned chars s (integer s) := by
  unfold integer
  split
  · exact aligned_missing id _
  · rename_i b peek
    split
    · rename_i zero
      subst zero
      exact aligned_done fun between => between.bump peek (by decide)
    · split
      · exact aligned_done fun between => between.skipWhile fun _ => ascii_isDigit
      · exact aligned_missing id _

theorem aligned_fraction
    (g : Grammar)
    (s : Scanner) :
    Aligned chars s (g.fraction s) := by
  intro between
  unfold fraction
  split
  · rename_i dot
    exact aligned_digits g _ _ (between.bump dot (by decide))
  · exact aligned_done id between

theorem aligned_exponent
    (g : Grammar)
    (s : Scanner) :
    Aligned chars s (g.exponent s) := by
  intro between
  unfold exponent
  split
  · rename_i isMark
    obtain ⟨b, peek, mark⟩ : ∃ b, s.peek = some b ∧ Byte.isExponentMark b := by
      simpa [Option.any_eq_true] using isMark
    have marked := between.bump peek (ascii_isWordPart (isWordPart_of_isExponentMark mark))
    exact aligned_digits g _ _ (marked.bumpIf fun _ => ascii_isSign (g := .relaxed))
  · exact aligned_done id between

/-- The digits after a zero and the mark of another base. -/
theorem aligned_marked
    {mark : UInt8} {rest : List UInt8} {p : UInt8 → Bool}
    (ahead : s.rest = Byte.zero :: mark :: rest)
    (ascii : mark.toNat < 0x80)
    (digits : ∀ b, p b → b.toNat < 0x80)
    (expected : Expectation) :
    Aligned chars s (atLeastOne p expected (s.advance 2)) := by
  intro between
  refine aligned_atLeastOne digits expected (s.advance 2) (between.advance fun bytes same => ?_)
  have marks : ∀ b ∈ [Byte.zero, mark], b.toNat < 0x80 :=
    List.forall_mem_cons.mpr ⟨by decide, List.forall_mem_singleton.mpr ascii⟩
  exact boundary_of_ascii marks (same.symm.trans ahead)

theorem aligned_radix?
    {run : Run}
    (radix : g.radix? s = some run) :
    Aligned chars s run := by
  cases radixRun_of_radix? radix with
  | @hexadecimal mark _ ahead isMark =>
      have ascii : mark.toNat < 0x80 := by
        rcases by simpa [Byte.isHexMark] using isMark with rfl | rfl <;> decide
      exact aligned_marked ahead ascii (fun _ digit => (isDigitOf_hexadecimal digit).1) _
  | @binary mark _ ahead isMark =>
      have ascii : mark.toNat < 0x80 := by
        rcases by simpa [Byte.isBinaryMark] using isMark with rfl | rfl <;> decide
      exact aligned_marked ahead ascii (fun _ digit => (isDigitOf_binary digit).1) _
  | octal ahead _ =>
      refine aligned_done fun between => ?_
      exact (between.bump (Scanner.peek_of_rest ahead) (by decide)).skipWhile
        fun _ digit => (isDigitOf_octal digit).1

theorem aligned_magnitude
    (g : Grammar)
    (s : Scanner) :
    Aligned chars s (g.magnitude s) := by
  unfold magnitude
  split
  · rename_i radix
    exact aligned_radix? radix
  · exact ((aligned_integer s).andThen fun _ => aligned_fraction g _).andThen
      fun _ => aligned_exponent g _

theorem aligned_number
    (g : Grammar)
    (s : Scanner) :
    Aligned chars s (g.number s) := by
  intro between
  have isNumber : Aligned chars (s.bumpIf g.isSign)
      ((g.magnitude (s.bumpIf g.isSign)).andThen (numberEnd s)) := by
    refine (aligned_magnitude g _).andThen fun _ => ?_
    unfold numberEnd
    split
    · exact aligned_fail id _
    · exact aligned_token .number between id
  exact isNumber (between.bumpIf fun _ => ascii_isSign)

/-! ## Values -/

theorem aligned_key
    (g : Grammar)
    (s : Scanner) :
    Aligned chars s (g.key s) := by
  cases g with
  | strict =>
      simp only [key]
      split
      · exact aligned_string s
      · exact aligned_missing id _
  | relaxed =>
      simp only [key]
      split
      · exact aligned_string s
      · split
        · exact aligned_word s
        · exact aligned_missing id _

theorem aligned_unknown
    (g : Grammar)
    (s : Scanner) :
    Aligned chars s (g.unknown s) := by
  cases g with
  | strict =>
      exact aligned_missing id _
  | relaxed =>
      simp only [unknown]
      split
      · exact aligned_word s
      · exact aligned_missing id _

theorem aligned_opening
    {byte : UInt8}
    (peek : s.peek = some byte)
    (ascii : byte.toNat < 0x80)
    (expected : Expectation)
    (kind : EventKind) :
    Aligned chars s (opening byte expected kind s) := by
  intro between
  cases limited : s.deeper.exceeded? with
  | none =>
      rw [opening_of_within peek limited]
      exact aligned_token kind (t := s.bump.deeper) between (fun here => here.bump peek ascii)
        between
  | some limit =>
      rw [opening_of_exceeded limited]
      exact aligned_fail id _ between

theorem aligned_closing
    {byte : UInt8}
    (ascii : byte.toNat < 0x80)
    (expected : Expectation)
    (kind : EventKind)
    (s : Scanner) :
    Aligned chars s (closing byte expected kind s) := by
  intro between
  by_cases peek : s.peek = some byte
  · rw [closing_of_peek peek]
    exact aligned_token kind (t := s.bump.leave) between (fun here => here.bump peek ascii) between
  · rw [closing_of_peek_ne peek]
    exact aligned_missing id expected between

/-- Nothing that reads a value leaves the boundaries. -/
theorem composes_aligned
    (g : Grammar)
    (chars : List Char) :
    g.Composes (Aligned chars) where
  done _ := aligned_done id
  missing _ := aligned_missing id
  unexpected _ _ := aligned_fail id _
  andThen := Aligned.andThen
  skip h between := h (between.skip g)
  separator {_ b _} peek separates h between := by
    refine h (between.bump peek ?_)
    rcases separates with rfl | rfl <;> decide
  opening expected peek ascii _ := aligned_opening peek ascii expected _
  closing expected s ascii _ := aligned_closing ascii expected _ s
  key := aligned_key g
  scalar {s} value notArray notObject :=
    valueOf_scalar value notArray notObject (aligned_missing id _) (aligned_number g s)
      (fun _ => aligned_string s) (fun _ l _ _ => aligned_literal g l s)
      fun _ _ _ => aligned_unknown g s

/-- On a text, reading goes from one boundary to another. -/
theorem aligned_read
    (g : Grammar)
    (maxDepth : Option Nat)
    (chars : List Char) :
    (g.read maxDepth (encode chars)).stop.Between chars ∧
      ∀ event ∈ (g.read maxDepth (encode chars)).events,
        Boundary chars event.span.start ∧ Boundary chars event.span.stop :=
  (composes_aligned g chars).read maxDepth (encode chars) (.start chars maxDepth)

/-- An error of reading a text stands at a boundary. -/
theorem boundary_error
    {maxDepth : Option Nat} {error : ParseError}
    (failed : (g.read maxDepth (encode chars)).error = some error) :
    Boundary chars error.offset := by
  have between := (aligned_read g maxDepth chars).1
  have standsAt := (orderly_read g maxDepth (encode chars)).standsAt error failed
  cases error with
  | unexpected offset expected =>
      exact standsAt.1 ▸ between.position
  | overrun offset expected =>
      rw [ParseError.StandsAt] at standsAt
      exact standsAt ▸ between.length
  | tooDeep offset limit =>
      exact standsAt.1 ▸ between.position

end Grammar
end JsonDoc
