import JsonDoc.Proofs.Syntax.Relaxed
import JsonDoc.Proofs.Syntax.Tiles

/-!
# Events tile the input

The events of a run cover bytes of the input one after another, and the bytes between them are
trivia with at most one comma or colon: `read_tiles`. It holds of runs that fail as well, for the
events up to the failure. The separators are counted by a flag, which says whether one has come
since the last token: a token clears it, and where it is set no separator is passed.
-/

namespace JsonDoc
namespace Syntax

open Run Grammar

/-! ## Tiled runs -/

/-- The events of a run tile the bytes that it has passed. If it failed, they tile some of the bytes
ahead. -/
structure Tiled (trivia : List UInt8 → Prop) (passed passed' : Bool) (s : Scanner) (run : Run) :
    Prop where
  whole : run.error = none →
    ∃ text, s.Passes text run.stop ∧ Tiles trivia passed s.position text run.events passed'
  begun : ∃ text rest between, s.rest = text ++ rest ∧
    Tiles trivia passed s.position text run.events between

section Tiled

variable {trivia : List UInt8 → Prop} {passed between passed' : Bool} {s t : Scanner} {run : Run}
variable {next : Rule} {text : List UInt8}

theorem tiled_of_passes
    (passes : s.Passes text run.stop)
    (tiles : Tiles trivia passed s.position text run.events passed') :
    Tiled trivia passed passed' s run :=
  ⟨fun _ => ⟨text, passes, tiles⟩, text, run.stop.rest, passed', passes.rest, tiles⟩

variable (joins : Joins trivia)

include joins

/-- A failure without events. -/
theorem tiled_of_failed
    (failed : run.error ≠ none)
    (silent : run.events = []) :
    Tiled trivia passed passed' s run := by
  refine ⟨fun ok => absurd ok failed, [], s.rest, passed, rfl, ?_⟩
  rw [silent]
  exact .plain joins.1

theorem tiled_fail
    (t : Scanner)
    (error : ParseError) :
    Tiled trivia passed passed' s (fail t error) :=
  tiled_of_failed joins (by simp [fail]) rfl

theorem tiled_missing
    (t : Scanner)
    (expected : Expectation) :
    Tiled trivia passed passed' s (missing t expected) :=
  tiled_fail joins t (t.missing expected)

theorem Tiled.from_spaces
    (passes : s.Passes text t)
    (spaces : Spaces trivia passed text between)
    (h : Tiled trivia between passed' t run) :
    Tiled trivia passed passed' s run := by
  have shift {more : List UInt8} {events : List Event} {flag : Bool}
      (tiles : Tiles trivia between t.position more events flag) :
      Tiles trivia passed s.position (text ++ more) events flag := by
    rw [passes.position] at tiles
    have before : Tiles trivia passed s.position text [] between := spaces
    exact before.append joins tiles
  refine ⟨fun ok => ?_, ?_⟩
  · obtain ⟨more, passes', tiles⟩ := h.whole ok
    exact ⟨text ++ more, passes.trans passes', shift tiles⟩
  · obtain ⟨more, rest, flag, ahead, tiles⟩ := h.begun
    refine ⟨text ++ more, rest, flag, ?_, shift tiles⟩
    rw [passes.rest, ahead, List.append_assoc]

theorem Tiled.andThen
    (h : Tiled trivia passed between s run)
    (k : run.error = none → Tiled trivia between passed' run.stop (next run.stop)) :
    Tiled trivia passed passed' s (run.andThen next) := by
  cases ok : run.error with
  | some error =>
      rw [andThen_of_error ok]
      exact ⟨fun none => by simp [ok] at none, h.begun⟩
  | none =>
      obtain ⟨text, passes, tiles⟩ := h.whole ok
      have later := k ok
      have shift {more : List UInt8} {flag : Bool}
          (after : Tiles trivia between run.stop.position more (next run.stop).events flag) :
          Tiles trivia passed s.position (text ++ more) (run.events ++ (next run.stop).events)
            flag := by
        rw [passes.position] at after
        exact tiles.append joins after
      refine ⟨fun okNext => ?_, ?_⟩
      · obtain ⟨more, passes', after⟩ := later.whole ((error_andThen ok).symm.trans okNext)
        rw [stop_andThen ok, events_andThen ok]
        exact ⟨text ++ more, passes.trans passes', shift after⟩
      · obtain ⟨more, rest, flag, ahead, after⟩ := later.begun
        rw [events_andThen ok]
        refine ⟨text ++ more, rest, flag, ?_, shift after⟩
        rw [passes.rest, ahead, List.append_assoc]

/-- A token clears the flag. -/
theorem tiled_token
    {kind : EventKind}
    (passes : s.Passes text t)
    (moved : text ≠ []) :
    Tiled trivia passed false s (token kind s t) := by
  refine tiled_of_passes passes ⟨[], [], passed, .plain joins.1, ?_, ?_, ?_, .plain joins.1⟩
  · simpa [Scanner.eventTo, passes.textTo_eq] using moved
  · simp [Scanner.eventTo, passes.textTo_eq, passes.position]
  · simp [Scanner.eventTo, passes.textTo_eq]

end Tiled

/-! ## Tokens -/

variable {g : Grammar} {s : Scanner}

/-- A run that fails does so before its first event. -/
def FailsSilently (run : Run) : Prop := run.error ≠ none → run.events = []

theorem failsSilently_token
    {run : Run}
    (silent : Silent s run)
    (kind : EventKind) :
    FailsSilently (run.andThen fun t => token kind s t) := by
  intro failed
  cases ok : run.error with
  | some error =>
      rw [andThen_of_error ok, silent.events]
  | none =>
      rw [error_andThen ok] at failed
      exact absurd rfl failed

theorem failsSilently_string
    (s : Scanner) :
    FailsSilently (string s) :=
  failsSilently_token ((silent_expect _ _ s).andThen fun _ => silent_stringBody _) .string

theorem failsSilently_number
    (g : Grammar)
    (s : Scanner) :
    FailsSilently (g.number s) := by
  intro failed
  have silent := silent_magnitude g (s.bumpIf g.isSign)
  unfold number at failed ⊢
  cases ok : (g.magnitude (s.bumpIf g.isSign)).error with
  | some error =>
      rw [andThen_of_error ok, silent.events]
  | none =>
      rw [error_andThen ok] at failed
      rw [events_andThen ok, silent.events]
      unfold numberEnd at failed ⊢
      split
      · rfl
      · rename_i delimited
        rw [if_neg delimited] at failed
        exact absurd rfl failed

theorem failsSilently_literal
    (g : Grammar)
    (l : Literal)
    (s : Scanner) :
    FailsSilently (g.literal l s) := by
  intro failed
  cases g with
  | strict =>
      simp only [literal] at failed ⊢
      split at failed
      · rw [if_pos ‹_›]
        rfl
      · rw [if_neg ‹_›]
        split at failed
        · exact absurd rfl failed
        · rw [if_neg ‹_›]
          rfl
  | relaxed =>
      simp only [literal] at failed ⊢
      split at failed
      · exact absurd rfl failed
      · rw [if_neg ‹_›]
        split at failed
        · rw [if_pos ‹_›]
          rfl
        · exact absurd rfl failed

theorem failsSilently_key
    (g : Grammar)
    (s : Scanner) :
    FailsSilently (g.key s) := by
  cases g with
  | strict =>
      simp only [key]
      split
      · exact failsSilently_string s
      · exact fun _ => rfl
  | relaxed =>
      simp only [key]
      split
      · exact failsSilently_string s
      · split
        · exact fun failed => absurd rfl failed
        · exact fun _ => rfl

theorem failsSilently_unknown
    (g : Grammar)
    (s : Scanner) :
    FailsSilently (g.unknown s) := by
  cases g with
  | strict =>
      exact fun _ => rfl
  | relaxed =>
      simp only [unknown]
      split
      · exact fun failed => absurd rfl failed
      · exact fun _ => rfl

theorem failsSilently_scalar
    (value : Rule)
    (notArray : s.peek ≠ some Byte.openBracket)
    (notObject : s.peek ≠ some Byte.openBrace) :
    FailsSilently (g.valueOf value s) :=
  valueOf_scalar value notArray notObject (fun _ => rfl) (failsSilently_number g s)
    (fun _ => failsSilently_string s) (fun _ l _ _ => failsSilently_literal g l s)
    fun _ _ _ => failsSilently_unknown g s

/-! ## Rules -/

/-- A rule that reads something: at the end of the input it fails without events. -/
def FailsAtEnd (rule : Rule) : Prop :=
  ∀ s : Scanner, s.rest = [] → (rule s).error ≠ none ∧ (rule s).events = []

theorem FailsAtEnd.andThen
    {rule next : Rule}
    (h : FailsAtEnd rule) :
    FailsAtEnd fun s => (rule s).andThen next := by
  intro s atEnd
  obtain ⟨failed, silent⟩ := h s atEnd
  obtain ⟨error, failed⟩ := Option.ne_none_iff_exists'.mp failed
  simp only [andThen_of_error failed]
  exact ⟨by simp [failed], silent⟩

theorem failsAtEnd_missing
    (expected : Expectation) :
    FailsAtEnd fun s => missing s expected :=
  fun _ _ => ⟨by simp [missing, fail], rfl⟩

theorem failsAtEnd_expect
    (byte : UInt8)
    (expected : Expectation) :
    FailsAtEnd (expect byte expected) := by
  intro s atEnd
  simp [expect, Scanner.peek, atEnd, missing, fail]

theorem failsAtEnd_key
    (g : Grammar) :
    FailsAtEnd g.key := by
  intro s atEnd
  cases g <;> simp [key, Scanner.peek, atEnd, missing, fail]

theorem failsAtEnd_valueOf
    (g : Grammar)
    (value : Rule) :
    FailsAtEnd (g.valueOf value) := by
  intro s atEnd
  simp [valueOf, Scanner.peek, atEnd, missing, fail]

theorem failsAtEnd_nested
    (g : Grammar)
    (levels : Nat) :
    FailsAtEnd (g.nested levels) := by
  cases levels <;> exact failsAtEnd_valueOf g _

/-- The rule reads tiled texts, whether a separator has come before or not. -/
def Tiling (trivia : List UInt8 → Prop) (rule : Rule) : Prop :=
  ∀ passed s, Tiled trivia passed false s (rule s)

section Rules

variable {lex : Lexicon} (sound : Sound g lex) (joins : Joins lex.trivia)
variable {sep : Separation} {item value next : Rule} {passed passed' : Bool}

include sound joins

/-- Trivia before a rule that reads something. -/
theorem tiled_skip
    (atEnd : FailsAtEnd next)
    (h : Tiled lex.trivia passed passed' (g.skip s) (next (g.skip s))) :
    Tiled lex.trivia passed passed' s (next (g.skip s)) := by
  by_cases more : (g.skip s).rest = []
  · obtain ⟨failed, silent⟩ := atEnd _ more
    exact tiled_of_failed joins failed silent
  · obtain ⟨text, isTrivia, passes⟩ := sound.trivia more
    exact h.from_spaces joins passes (.plain isTrivia)

omit sound in
/-- A separator is passed where none has come yet. -/
theorem tiled_separator
    {b : UInt8} {run : Run}
    (separates : IsSeparator b)
    (peek : s.peek = some b)
    (h : Tiled lex.trivia true passed' s.bump run) :
    Tiled lex.trivia false passed' s run := by
  refine h.from_spaces joins (Scanner.passes_bump peek) ?_
  have spaces : Spaces lex.trivia false ([] ++ b :: []) true :=
    .separated joins.1 separates joins.1
  exact spaces

omit sound in
theorem tiled_reads
    {kind : EventKind} {run : Run} {text : List UInt8}
    (reads : ReadsToken kind s run text)
    (orderly : Orderly s run) :
    Tiled lex.trivia passed false s run := by
  have passes := reads.passes
  obtain ⟨rest, ahead, rfl⟩ := reads
  refine tiled_token joins passes ?_
  rintro rfl
  obtain ⟨_, moved, _⟩ := orderly.inOrder
  simp [Scanner.eventTo] at moved

theorem tiling_key :
    Tiling lex.trivia g.key := by
  intro passed s
  by_cases ok : (g.key s).error = none
  · obtain ⟨text, reads, _⟩ := sound.key s ok
    exact tiled_reads joins reads (orderly_key g s)
  · exact tiled_of_failed joins ok (failsSilently_key g s ok)

omit sound in
theorem tiled_opening
    {byte : UInt8}
    (peek : s.peek = some byte)
    (expected : Expectation)
    (kind : EventKind) :
    Tiled lex.trivia passed false s (opening byte expected kind s) := by
  cases limited : s.deeper.exceeded? with
  | none =>
      rw [opening_of_within peek limited]
      exact tiled_token joins (t := s.bump.deeper) ((Scanner.passes_bump peek).trans (.deeper _))
        (List.cons_ne_nil _ _)
  | some limit =>
      rw [opening_of_exceeded limited]
      exact tiled_fail joins _ _

omit sound in
theorem tiled_closing
    (byte : UInt8)
    (expected : Expectation)
    (kind : EventKind)
    (s : Scanner) :
    Tiled lex.trivia passed false s (closing byte expected kind s) := by
  by_cases peek : s.peek = some byte
  · rw [closing_of_peek peek]
    exact tiled_token joins (t := s.bump.leave) ((Scanner.passes_bump peek).trans (.leave _))
      (List.cons_ne_nil _ _)
  · rw [closing_of_peek_ne peek]
    exact tiled_missing joins _ _

/-! ## Containers -/

omit joins sound in
theorem failsAtEnd_items
    (h : FailsAtEnd item)
    (bound : Nat) :
    FailsAtEnd (g.items sep item bound) := by
  cases bound <;> exact h.andThen

omit sound in
theorem tiled_done
    (s : Scanner) :
    Tiled lex.trivia passed passed s (done s) :=
  tiled_of_passes (.refl s) (.plain joins.1)

theorem tiled_afterItem
    {more : Rule}
    (atEnd : FailsAtEnd more)
    (h : ∀ s, Tiled lex.trivia true false s (more s))
    (s : Scanner) :
    Tiled lex.trivia false false s (g.afterItem sep more s) := by
  -- what follows the trivia, which reads something
  have after : Tiled lex.trivia false false (g.skip s) (g.afterItem sep more s) := by
    unfold afterItem
    simp only
    cases peek : (g.skip s).peek with
    | none =>
        exact tiled_missing joins _ _
    | some b =>
        simp only
        split
        · rename_i comma
          refine tiled_separator joins (Or.inl comma) peek ?_
          split
          · exact tiled_fail joins _ _
          · exact tiled_skip sound joins atEnd (h _)
        · split
          · exact tiled_done joins _
          · exact tiled_missing joins _ _
  by_cases more : (g.skip s).rest = []
  · have none : (g.skip s).peek = none := by simp [Scanner.peek, more]
    unfold afterItem
    simp only [none]
    exact tiled_missing joins _ _
  · obtain ⟨text, isTrivia, passes⟩ := sound.trivia more
    exact after.from_spaces joins passes (.plain isTrivia)

theorem tiling_items
    (atEnd : FailsAtEnd item)
    (h : Tiling lex.trivia item)
    (bound : Nat) :
    Tiling lex.trivia (g.items sep item bound) := by
  induction bound with
  | zero =>
      exact fun passed s => (h passed s).andThen joins fun _ =>
        tiled_afterItem sound joins (failsAtEnd_missing sep.afterItem)
          (fun t => tiled_missing joins t sep.afterItem) _
  | succ bound ih =>
      exact fun passed s => (h passed s).andThen joins fun _ =>
        tiled_afterItem sound joins (failsAtEnd_items atEnd bound) (ih true) _

theorem tiled_itemsOrNone
    (atEnd : FailsAtEnd item)
    (h : Tiling lex.trivia item)
    (s : Scanner) :
    Tiled lex.trivia false false s (g.itemsOrNone sep item s) := by
  unfold itemsOrNone
  simp only
  split
  · rename_i close
    obtain ⟨text, isTrivia, passes⟩ := sound.trivia (Scanner.rest_ne_nil_of_peek close)
    exact (tiled_done joins _).from_spaces joins passes (.plain isTrivia)
  · exact tiled_skip sound joins (failsAtEnd_items atEnd _) (tiling_items sound joins atEnd h _ _ _)

omit sound in
theorem tiled_colon
    (expected : Expectation)
    (s : Scanner) :
    Tiled lex.trivia false true s (expect Byte.colon expected s) := by
  by_cases peek : s.peek = some Byte.colon
  · rw [expect_of_peek peek]
    exact tiled_separator joins (Or.inr rfl) peek (tiled_done joins _)
  · unfold expect
    rw [if_neg peek]
    exact tiled_missing joins _ _

theorem tiling_member
    (atEnd : FailsAtEnd value)
    (h : Tiling lex.trivia value) :
    Tiling lex.trivia (g.member value) := by
  intro passed s
  refine (tiling_key sound joins passed s).andThen joins fun _ => ?_
  have colonAtEnd : FailsAtEnd fun t => (expect Byte.colon .colonAfterKey t).andThen
      fun u => value (g.skip u) := (failsAtEnd_expect _ _).andThen
  refine tiled_skip sound joins colonAtEnd ?_
  exact (tiled_colon joins _ _).andThen joins fun _ => tiled_skip sound joins atEnd (h true _)

/-! ## Values -/

theorem tiling_valueOf
    (orderly : ∀ s, Orderly s (value s))
    (atEnd : FailsAtEnd value)
    (h : Tiling lex.trivia value) :
    Tiling lex.trivia (g.valueOf value) := by
  intro passed s
  by_cases array : s.peek = some Byte.openBracket
  · rw [valueOf_array array]
    refine (tiled_opening joins array _ _).andThen joins fun _ => ?_
    exact (tiled_itemsOrNone sound joins atEnd h _).andThen joins fun _ =>
      tiled_closing joins _ _ _ _
  by_cases object : s.peek = some Byte.openBrace
  · rw [valueOf_object object]
    refine (tiled_opening joins object _ _).andThen joins fun _ => ?_
    have memberAtEnd : FailsAtEnd (g.member value) := (failsAtEnd_key g).andThen
    exact (tiled_itemsOrNone sound joins memberAtEnd (tiling_member sound joins atEnd h) _).andThen
      joins fun _ => tiled_closing joins _ _ _ _
  by_cases ok : (g.valueOf value s).error = none
  · obtain ⟨kind, text, tree, reads, _⟩ := sound.scalar s value ok array object
    exact tiled_reads joins reads (orderly_valueOf orderly s)
  · exact tiled_of_failed joins ok (failsSilently_scalar value array object ok)

theorem tiling_nested
    (levels : Nat) :
    Tiling lex.trivia (g.nested levels) := by
  induction levels with
  | zero =>
      exact tiling_valueOf sound joins (orderly_missing _) (failsAtEnd_missing _)
        fun _ t => tiled_missing joins t .value
  | succ levels ih =>
      exact tiling_valueOf sound joins (orderly_nested g levels) (failsAtEnd_nested g levels) ih

end Rules

/-! ## Whole inputs -/

theorem joins_blanks :
    Joins Blanks := ⟨blanks_nil, fun _ _ => Blanks.append⟩

theorem joins_trivia :
    Joins Trivia := ⟨.nil, fun _ _ => Trivia.append⟩

end Syntax

namespace Grammar

open Syntax Run

/-- Trivia begins with a blank, or with the hash of a comment where there are comments. -/
def startsTrivia : Grammar → UInt8 → Bool
  | strict, b => Byte.isBlank b
  | relaxed, b => Byte.isBlank b || b == Byte.hash

theorem joins_lexicon
    (g : Grammar) :
    Joins g.lexicon.trivia := by
  cases g with
  | strict =>
      exact joins_blanks
  | relaxed =>
      exact joins_trivia

theorem head_commentedLength
    (bytes : List UInt8) :
    ∀ (inside : Bool) (b : UInt8) (rest : List UInt8),
      bytes.drop (commentedLength inside bytes) = b :: rest → startsTrivia relaxed b = false := by
  induction bytes with
  | nil =>
      intro inside b rest ahead
      simp at ahead
  | cons first bytes ih =>
      intro inside b rest ahead
      cases inside with
      | true =>
          rw [commentedLength, Nat.add_comm, List.drop_succ_cons] at ahead
          exact ih _ b rest ahead
      | false =>
          unfold commentedLength at ahead
          split at ahead
          · rw [Nat.add_comm, List.drop_succ_cons] at ahead
            exact ih _ b rest ahead
          · split at ahead
            · rw [Nat.add_comm, List.drop_succ_cons] at ahead
              exact ih _ b rest ahead
            · rename_i notBlank notHash
              obtain ⟨rfl, rfl⟩ : first = b ∧ bytes = rest := by simpa using ahead
              simp [startsTrivia, notBlank, notHash]

theorem head_takeWhile
    (bytes : List UInt8)
    {b : UInt8} {rest : List UInt8}
    (ahead : bytes.drop (bytes.takeWhile Byte.isBlank).length = b :: rest) :
    Byte.isBlank b = false := by
  induction bytes with
  | nil =>
      simp at ahead
  | cons first bytes ih =>
      cases blank : Byte.isBlank first with
      | true =>
          rw [List.takeWhile_cons_of_pos blank, List.length_cons, List.drop_succ_cons] at ahead
          exact ih ahead
      | false =>
          rw [List.takeWhile_cons_of_neg (by simp [blank])] at ahead
          cases ahead
          exact blank

/-- Skipping stops only where no trivia starts. -/
theorem startsTrivia_skip
    (g : Grammar)
    {s : Scanner} {b : UInt8} {rest : List UInt8}
    (ahead : (g.skip s).rest = b :: rest) :
    g.startsTrivia b = false := by
  cases g with
  | strict =>
      exact head_takeWhile s.rest ahead
  | relaxed =>
      exact head_commentedLength s.rest false b rest ahead

theorem ending_after
    (g : Grammar)
    {text more : List UInt8}
    (h : g.lexicon.trivia text)
    (k : g.lexicon.ending more) :
    g.lexicon.ending (text ++ more) := by
  cases g with
  | strict =>
      exact joins_blanks.2 _ _ h k
  | relaxed =>
      exact Ending.after h k

/-- What is skipped is an ending, and trivia if there is more. -/
theorem skipped
    (g : Grammar)
    (s : Scanner) :
    ∃ text, g.lexicon.ending text ∧
      ((g.skip s).rest ≠ [] → g.lexicon.trivia text) ∧ s.Passes text (g.skip s) := by
  obtain ⟨isEnding, isTrivia⟩ := g.sound_lexicon.skip s.rest
  exact ⟨_, isEnding, isTrivia, passes_skip g s⟩

/-- From its first byte to its last token, a run is tiled, and no separator comes before the first
token. -/
theorem tiled_value
    (g : Grammar)
    (s : Scanner) :
    Tiled g.lexicon.trivia true false s (g.value (g.skip s)) := by
  have atEnd : FailsAtEnd g.value := fun s => failsAtEnd_nested g _ s
  exact tiled_skip g.sound_lexicon g.joins_lexicon atEnd
    (tiling_nested g.sound_lexicon g.joins_lexicon _ true _)

/-- The events of a run tile the input. -/
structure TilesInput (g : Grammar) (input : List UInt8) (run : Run) : Prop where
  /-- Each event covers at least one byte, and its text is what it covers. -/
  covers : ∀ event ∈ run.events, event.span.start < event.span.stop ∧
    event.span.slice? input = some event.text
  /-- There is only trivia before the first event. -/
  first : ∀ event, run.events.head? = some event →
    ∃ gap, (Span.mk 0 event.span.start).slice? input = some gap ∧ g.lexicon.trivia gap
  /-- Between two events there is trivia with at most one comma or colon. -/
  between : ∀ before event next after, run.events = before ++ event :: next :: after →
    ∃ gap, (Span.mk event.span.stop next.span.start).slice? input = some gap ∧
      Gap g.lexicon.trivia gap
  /-- After the last event comes trivia, up to a byte that does not go on with it or to the end of
  the input, where a comment may be open. -/
  last : run.error = none → ∃ event gap, run.events.getLast? = some event ∧
    (Span.mk event.span.stop run.stop.position).slice? input = some gap ∧
    ((run.stop.position = input.length ∧ g.lexicon.ending gap) ∨
      (∃ b, input[run.stop.position]? = some b ∧ g.startsTrivia b = false ∧
        g.lexicon.trivia gap))

theorem events_read
    (g : Grammar)
    (maxDepth : Option Nat)
    (input : List UInt8) :
    (g.read maxDepth input).events =
      (g.value (g.skip (Scanner.start input maxDepth))).events := by
  unfold read
  cases ok : (g.value (g.skip (Scanner.start input maxDepth))).error with
  | some error =>
      rw [andThen_of_error ok]
  | none =>
      rw [events_andThen ok]
      exact List.append_nil _

/-- Behind the last event stands an ending up to the place where reading stops, and trivia if there
is more. -/
theorem read_last
    (g : Grammar)
    (maxDepth : Option Nat)
    (input : List UInt8)
    (ok : (g.read maxDepth input).error = none) :
    ∃ event front gap, (g.read maxDepth input).events.getLast? = some event ∧
      event.span.stop = front.length ∧
      input = front ++ (gap ++ (g.read maxDepth input).stop.rest) ∧
      (g.read maxDepth input).stop.position = front.length + gap.length ∧
      g.lexicon.ending gap ∧ ((g.read maxDepth input).stop.rest ≠ [] → g.lexicon.trivia gap) := by
  obtain ⟨okValue, _⟩ := error_andThen_eq_none.mp ok
  obtain ⟨text, passes, tiles⟩ := (g.tiled_value (Scanner.start input maxDepth)).whole okValue
  rw [← g.events_read maxDepth input] at tiles
  have ahead : input =
      [] ++ (text ++ (g.value (g.skip (Scanner.start input maxDepth))).stop.rest) :=
    passes.rest
  obtain ⟨event, gap, front, isLast, isTrivia, stop, ahead, total⟩ := tiles.last ahead
  -- what is skipped after the value
  have stops : (g.read maxDepth input).stop =
      g.skip (g.value (g.skip (Scanner.start input maxDepth))).stop := stop_andThen okValue
  obtain ⟨more, isEnding, isMore, skipped⟩ :=
    g.skipped (g.value (g.skip (Scanner.start input maxDepth))).stop
  rw [← stops] at isMore skipped
  refine ⟨event, front, gap ++ more, isLast, stop, ?_, ?_, g.ending_after isTrivia isEnding, ?_⟩
  · rw [List.append_assoc, ← skipped.rest]
    exact ahead
  · rw [skipped.position, passes.position, List.length_append]
    simp only [Scanner.start, List.length_nil] at total ⊢
    omega
  · exact fun goesOn => g.joins_lexicon.2 _ _ isTrivia (isMore goesOn)

/-- Reading stops where no trivia starts. -/
theorem startsTrivia_read
    (g : Grammar)
    (maxDepth : Option Nat)
    (input : List UInt8)
    (ok : (g.read maxDepth input).error = none)
    {b : UInt8} {rest : List UInt8}
    (ahead : (g.read maxDepth input).stop.rest = b :: rest) :
    g.startsTrivia b = false := by
  obtain ⟨okValue, _⟩ := error_andThen_eq_none.mp ok
  rw [read, stop_andThen okValue] at ahead
  exact g.startsTrivia_skip ahead

/-- Whether reading succeeds or not, the events tile the input: none of its bytes belongs to two of
them, and none is passed over but trivia, commas and colons. -/
theorem read_tiles
    (g : Grammar)
    (maxDepth : Option Nat)
    (input : List UInt8) :
    g.TilesInput input (g.read maxDepth input) := by
  obtain ⟨text, rest, flag, ahead, tiles⟩ := (g.tiled_value (Scanner.start input maxDepth)).begun
  have ahead : input = [] ++ (text ++ rest) := ahead
  rw [← g.events_read maxDepth input] at tiles
  refine ⟨tiles.covers ahead, ?_, ?_, ?_⟩
  · intro event isFirst
    obtain ⟨later, events⟩ := List.head?_eq_some_iff.mp isFirst
    rw [events] at tiles
    obtain ⟨gap, between, slice, spaces⟩ := Tiles.first tiles ahead
    exact ⟨gap, slice, spaces.trivia_of_true⟩
  · intro before event next after events
    rw [events] at tiles
    obtain ⟨front, text', ahead', stop, tiles', _⟩ := Tiles.rest tiles ahead
    obtain ⟨gap, between, slice, spaces⟩ := Tiles.first tiles' ahead'
    rw [stop]
    exact ⟨gap, slice, spaces.gap⟩
  · intro ok
    obtain ⟨event, front, gap, isLast, stop, whole, position, isEnding, isTrivia⟩ :=
      g.read_last maxDepth input ok
    refine ⟨event, gap, isLast, ?_, ?_⟩
    · rw [stop, position]
      exact Tiles.slice?_of_append whole
    · cases after : (g.read maxDepth input).stop.rest with
      | nil =>
          refine Or.inl ⟨?_, isEnding⟩
          rw [position, congrArg List.length whole, after]
          simp
      | cons b rest =>
          refine Or.inr ⟨b, ?_, g.startsTrivia_read maxDepth input ok after,
            isTrivia (by simp [after])⟩
          rw [after] at whole
          rw [position, whole]
          simp

end Grammar
end JsonDoc
