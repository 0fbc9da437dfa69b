import JsonDoc.Proofs.Reading.Recursion

/-!
# Reading more of an input

What becomes of a run when the input goes on with more bytes. A run that has met an error at a byte
stays as it is, and so does a run that has stopped before the end without an error; such a run is
settled. Any other run keeps at least the events that end before the end of its input; and where it
lacks bytes for a literal that those left do not begin, it fails with more bytes as well.
-/

namespace JsonDoc

namespace Scanner

/-- The same place, in an input that goes on with more bytes. -/
def extend
    (s : Scanner)
    (more : List UInt8) : Scanner :=
  { s with rest := s.rest ++ more }

variable {s t : Scanner} {more text : List UInt8} {b : UInt8}

@[simp] theorem rest_extend
    (s : Scanner)
    (more : List UInt8) :
    (s.extend more).rest = s.rest ++ more := rfl

theorem peek_extend
    (h : s.peek = some b)
    (more : List UInt8) :
    (s.extend more).peek = some b := by
  obtain ⟨rest, h⟩ := rest_of_peek h
  simp [peek, h]

theorem peek_of_rest_ne_nil
    (h : s.rest ≠ []) :
    ∃ b, s.peek = some b := by
  obtain ⟨b, rest, h⟩ := List.exists_cons_of_ne_nil h
  exact ⟨b, by simp [peek, h]⟩

theorem advance_extend
    {count : Nat}
    (h : count ≤ s.rest.length)
    (more : List UInt8) :
    (s.extend more).advance count = (s.advance count).extend more := by
  simp [advance, extend, List.drop_append_of_le_length h, List.take_append_of_le_length h]

theorem bump_extend
    (h : s.peek = some b)
    (more : List UInt8) :
    (s.extend more).bump = s.bump.extend more := by
  obtain ⟨rest, h⟩ := rest_of_peek h
  exact advance_extend (by simp [h]) more

/-- The event that covers a passage does not depend on what follows. -/
theorem eventTo_extend
    (h : s.Passes text t)
    (kind : EventKind)
    (more : List UInt8) :
    (s.extend more).eventTo (t.extend more) kind = s.eventTo t kind := by
  have enough : t.position - s.position ≤ s.rest.length := by
    rw [h.position, h.length_rest]
    omega
  simp [extend, eventTo, textTo, List.take_append_of_le_length enough]

end Scanner

namespace Run

/-- The same run, in an input that goes on with more bytes. -/
def extend
    (run : Run)
    (more : List UInt8) : Run :=
  { run with stop := run.stop.extend more }

/-- More bytes could change where the run stops: it ran into the end of its input, or stopped
there. -/
def IsOpen (run : Run) : Prop :=
  (∃ offset expected, run.error = some (.overrun offset expected)) ∨
    (run.error = none ∧ run.stop.rest = [])

/-- Where too few bytes are left for a literal, those that are left begin it, or more of them do
not help. -/
def Waits (run run' : Run) : Prop :=
  ∀ offset l, run.error = some (.overrun offset (.literal l)) →
    run.stop.rest <+: l.word ∨ run'.error ≠ none

/-- What becomes of a run when its input goes on with more bytes. -/
inductive Continues (more : List UInt8) (run run' : Run) : Prop
  | settled : run' = run.extend more → Continues more run run'
  | unsettled (before atEnd : List Event) :
      run.IsOpen → run.events = before ++ atEnd → before <+: run'.events →
      (∀ event ∈ atEnd, event.span.stop = run.stop.length) → run.Waits run' →
      Continues more run run'

variable {s t : Scanner} {more text : List UInt8} {run run' : Run} {next next' : Rule}

theorem events_prefix_andThen
    (run : Run)
    (next : Rule) :
    run.events <+: (run.andThen next).events := by
  cases error : run.error with
  | some e =>
      have same : (run.andThen next).events = run.events := by
        rw [andThen_of_error error]
      exact ⟨[], by rw [List.append_nil, same]⟩
  | none =>
      rw [events_andThen error]
      exact List.prefix_append _ _

/-- An orderly run from the end of the input has no events. -/
theorem Orderly.events_of_rest_nil
    (h : Orderly s run)
    (atEnd : s.rest = []) :
    run.events = [] := by
  obtain ⟨text, passes⟩ := h.passes
  have none : text.length + run.stop.rest.length = 0 := by
    rw [← passes.length_rest, atEnd]
    rfl
  cases evs : run.events with
  | nil =>
      rfl
  | cons event events =>
      have inOrder := h.inOrder
      have position := passes.position
      rw [evs] at inOrder
      have := inOrder.1
      have := inOrder.2.1
      have := inOrder.2.2.le
      omega

theorem Orderly.stop_rest_of_rest_nil
    (h : Orderly s run)
    (atEnd : s.rest = []) :
    run.stop.rest = [] := by
  obtain ⟨text, passes⟩ := h.passes
  have := passes.rest
  rw [atEnd] at this
  exact (List.append_eq_nil_iff.mp this.symm).2

/-- An orderly run from the end of the input is open. -/
theorem Orderly.isOpen_of_rest_nil
    (h : Orderly s run)
    (atEnd : s.rest = []) :
    run.IsOpen := by
  have none := h.stop_rest_of_rest_nil atEnd
  cases error : run.error with
  | none =>
      exact Or.inr ⟨error, none⟩
  | some e =>
      have stands := h.standsAt e error
      cases e with
      | unexpected =>
          exact absurd none stands.2
      | overrun offset expected =>
          exact Or.inl ⟨offset, expected, error⟩
      | tooDeep =>
          exact absurd none stands.2.1

theorem waits_of_rest_nil
    (atEnd : run.stop.rest = [])
    (run' : Run) :
    run.Waits run' := by
  intro offset l _
  rw [atEnd]
  exact Or.inl List.nil_prefix

theorem waits_of_ok
    (ok : run.error = none)
    (run' : Run) :
    run.Waits run' := by
  intro offset l overrun
  simp [ok] at overrun

/-- An error stays when reading would go on after the run. -/
theorem Waits.andThen
    (h : run.Waits run')
    (next : Rule) :
    run.Waits (run'.andThen next) := by
  intro offset l overrun
  refine (h offset l overrun).imp_right fun failed ok => ?_
  exact failed (error_andThen_eq_none.mp ok).1

/-- Whatever an orderly rule does at the end of the input, more bytes may change it. -/
theorem continues_of_rest_nil
    (h : Orderly s run)
    (atEnd : s.rest = [])
    (more : List UInt8)
    (run' : Run) :
    Continues more run run' :=
  .unsettled [] [] (h.isOpen_of_rest_nil atEnd) (by simp [h.events_of_rest_nil atEnd]) (by simp)
    (by simp) (waits_of_rest_nil (h.stop_rest_of_rest_nil atEnd) run')

/-- A silent run that is open goes on in any way that a literal leaves. -/
theorem Silent.continues_of_isOpen
    (h : Silent s run)
    (isOpen : run.IsOpen)
    (more : List UInt8)
    (waits : run.Waits run') :
    Continues more run run' :=
  .unsettled [] [] isOpen (by simp [h.events]) (by simp) (by simp) waits

namespace Continues

theorem refl_fail
    (more : List UInt8)
    (s : Scanner)
    (error : ParseError) :
    Continues more (fail s error) (fail (s.extend more) error) := .settled rfl

theorem done
    (more : List UInt8)
    (s : Scanner) :
    Continues more (Run.done s) (Run.done (s.extend more)) := .settled rfl

theorem token
    (h : s.Passes text t)
    (more : List UInt8)
    (kind : EventKind) :
    Continues more (Run.token kind s t) (Run.token kind (s.extend more) (t.extend more)) := by
  refine .settled ?_
  rw [Run.token, Scanner.eventTo_extend h]
  rfl

/-- A token that ends where the input does. -/
theorem token_atEnd
    (s : Scanner)
    (atEnd : t.rest = [])
    (more : List UInt8)
    (kind : EventKind)
    (run' : Run) :
    Continues more (Run.token kind s t) run' := by
  refine .unsettled [] [s.eventTo t kind] (Or.inr ⟨rfl, atEnd⟩) rfl (by simp) ?_
    (waits_of_ok rfl run')
  intro event mem
  rw [List.mem_singleton.mp mem]
  exact Scanner.position_eq_length atEnd

/-- Reading on after a run. -/
theorem andThen
    (h : Continues more run run')
    (orderly : run.error = none → Orderly run.stop (next run.stop))
    (hn : run.error = none → Continues more (next run.stop) (next' (run.stop.extend more))) :
    Continues more (run.andThen next) (run'.andThen next') := by
  cases error : run.error with
  | some e =>
      rw [andThen_of_error error]
      cases h with
      | settled eq =>
          subst eq
          have error' : (run.extend more).error = some e := error
          rw [andThen_of_error error']
          exact .settled rfl
      | unsettled before atEnd isOpen split isPrefix ends waits =>
          exact .unsettled before atEnd isOpen split
            (isPrefix.trans (events_prefix_andThen run' next')) ends (waits.andThen next')
  | none =>
      have orderly := orderly error
      cases h with
      | settled eq =>
          subst eq
          have error' : (run.extend more).error = none := error
          cases hn error with
          | settled eq =>
              refine .settled ?_
              have stop : (run.extend more).stop = run.stop.extend more := rfl
              simp only [Run.andThen, error, error', stop, eq]
              rfl
          | unsettled before atEnd isOpen split isPrefix ends waits =>
              refine .unsettled (run.events ++ before) atEnd ?_ ?_ ?_ ?_ ?_
              · simpa only [IsOpen, error_andThen error, stop_andThen error] using isOpen
              · rw [events_andThen error, split, List.append_assoc]
              · rw [events_andThen error']
                exact (List.prefix_append_right_inj _).mpr isPrefix
              · rw [stop_andThen error]
                exact ends
              · intro offset l overrun
                rw [error_andThen error] at overrun
                rw [stop_andThen error, error_andThen error']
                exact waits offset l overrun
      | unsettled before atEnd isOpen split isPrefix ends =>
          have nothing : run.stop.rest = [] := by
            rcases isOpen with ⟨_, _, overrun⟩ | ⟨_, nothing⟩
            · simp [error] at overrun
            · exact nothing
          refine .unsettled before atEnd ?_ ?_ ?_ ?_ ?_
          · simpa only [IsOpen, error_andThen error, stop_andThen error] using
              orderly.isOpen_of_rest_nil nothing
          · rw [events_andThen error, orderly.events_of_rest_nil nothing, List.append_nil, split]
          · exact isPrefix.trans (events_prefix_andThen run' next')
          · rw [stop_andThen error, orderly.length_stop]
            exact ends
          · refine waits_of_rest_nil ?_ _
            rw [stop_andThen error]
            exact orderly.stop_rest_of_rest_nil nothing

end Continues

end Run

namespace Grammar

open Run

variable {s : Scanner} {more : List UInt8} {g : Grammar}

/-! ## Runs of a class and trivia -/

theorem skipWhile_extend
    {p : UInt8 → Bool}
    (ends : (s.skipWhile p).rest ≠ [])
    (more : List UInt8) :
    (s.extend more).skipWhile p = (s.skipWhile p).extend more := by
  have shorter : (s.rest.takeWhile p).length ≠ s.rest.length := by
    intro same
    have length := (Scanner.passes_skipWhile s p).length_rest
    exact ends (List.eq_nil_of_length_eq_zero (by omega))
  have taken : ((s.extend more).rest.takeWhile p) = s.rest.takeWhile p := by
    rw [Scanner.rest_extend, List.takeWhile_append, if_neg shorter]
  rw [Scanner.skipWhile, taken, Scanner.advance_extend]
  · rfl
  · exact (List.takeWhile_prefix p).length_le

theorem continues_skipWhile
    (s : Scanner)
    (p : UInt8 → Bool)
    (more : List UInt8) :
    Continues more (done (s.skipWhile p)) (done ((s.extend more).skipWhile p)) := by
  by_cases atEnd : (s.skipWhile p).rest = []
  · exact (silent_done (Scanner.passes_skipWhile s p)).continues_of_isOpen (Or.inr ⟨rfl, atEnd⟩) _
      (waits_of_ok rfl _)
  · rw [skipWhile_extend atEnd]
    exact .done more _

theorem commentedLength_append
    (more : List UInt8) :
    ∀ (bytes : List UInt8) (comment : Bool),
      bytes.drop (commentedLength comment bytes) ≠ [] →
        commentedLength comment (bytes ++ more) = commentedLength comment bytes := by
  intro bytes
  induction bytes with
  | nil =>
      intro comment ends
      simp at ends
  | cons b bytes ih =>
      intro comment ends
      cases comment with
      | true =>
          simp only [commentedLength, List.cons_append] at ends ⊢
          rw [Nat.add_comm, List.drop_succ_cons] at ends
          rw [ih _ ends]
      | false =>
          simp only [commentedLength, List.cons_append] at ends ⊢
          split
          · rename_i blank
            rw [if_pos blank, Nat.add_comm, List.drop_succ_cons] at ends
            rw [ih _ ends]
          · rename_i notBlank
            rw [if_neg notBlank] at ends
            split
            · rename_i hash
              rw [if_pos hash, Nat.add_comm, List.drop_succ_cons] at ends
              rw [ih _ ends]
            · rfl

theorem triviaLength_le
    (g : Grammar)
    (bytes : List UInt8)
    (ends : bytes.drop (g.triviaLength bytes) ≠ []) :
    g.triviaLength bytes ≤ bytes.length := by
  by_cases short : bytes.length ≤ g.triviaLength bytes
  · exact absurd (List.drop_eq_nil_iff.mpr short) ends
  · omega

theorem triviaLength_append
    (more bytes : List UInt8)
    (ends : bytes.drop (g.triviaLength bytes) ≠ []) :
    g.triviaLength (bytes ++ more) = g.triviaLength bytes := by
  cases g with
  | strict =>
      have shorter : (bytes.takeWhile Byte.isBlank).length ≠ bytes.length := by
        intro same
        exact ends (List.drop_eq_nil_iff.mpr (Nat.le_of_eq same.symm))
      rw [triviaLength, List.takeWhile_append, if_neg shorter]
      rfl
  | relaxed =>
      exact commentedLength_append more bytes false ends

theorem skip_extend
    (ends : (g.skip s).rest ≠ [])
    (more : List UInt8) :
    g.skip (s.extend more) = (g.skip s).extend more := by
  rw [skip, Scanner.rest_extend, triviaLength_append more s.rest ends]
  exact Scanner.advance_extend (triviaLength_le g s.rest ends) more

theorem continues_skip
    (g : Grammar)
    (s : Scanner)
    (more : List UInt8) :
    Continues more (done (g.skip s)) (done (g.skip (s.extend more))) := by
  by_cases atEnd : (g.skip s).rest = []
  · exact (silent_done (passes_skip g s)).continues_of_isOpen (Or.inr ⟨rfl, atEnd⟩) _
      (waits_of_ok rfl _)
  · rw [skip_extend atEnd]
    exact .done more _

/-- Skipping trivia first. -/
theorem continues_from_skip
    (next next' : Rule)
    (orderly : Orderly (g.skip s) (next (g.skip s)))
    (hn : Continues more (next (g.skip s)) (next' ((g.skip s).extend more))) :
    Continues more (next (g.skip s)) (next' (g.skip (s.extend more))) := by
  have both : Continues more ((done (g.skip s)).andThen next)
      ((done (g.skip (s.extend more))).andThen next') :=
    (continues_skip g s more).andThen (fun _ => orderly) fun _ => hn
  simpa using both

end Grammar
end JsonDoc
