import JsonDoc.Grammar.Value
import JsonDoc.Proofs.Reading.Passage

/-!
# The order of events

A run is orderly when it moves along a passage, its events stand one after another in it and none
of them is empty, and its error stands where it stopped. Every rule that reads tokens or values
has orderly runs: `orderly_value` and, for a whole input, `orderly_read`.
-/

namespace JsonDoc

/-- Events that stand one after another between two offsets, none of them empty. -/
def Event.InOrder : Nat → List Event → Nat → Prop
  | low, [], high => low ≤ high
  | low, event :: events, high =>
    low ≤ event.span.start ∧ event.span.start < event.span.stop ∧
      InOrder event.span.stop events high

namespace Event.InOrder

theorem le :
    ∀ {low high : Nat} {events : List Event}, InOrder low events high → low ≤ high
  | _, _, [], h => h
  | _, _, _ :: _, ⟨h₁, h₂, h₃⟩ => by
      have := le h₃
      omega

theorem mono :
    ∀ {low low' high high' : Nat} {events : List Event},
      InOrder low events high → low' ≤ low → high ≤ high' → InOrder low' events high'
  | _, _, _, _, [], h, hl, hh => Nat.le_trans hl (Nat.le_trans h hh)
  | _, _, _, _, _ :: _, ⟨h₁, h₂, h₃⟩, hl, hh => ⟨Nat.le_trans hl h₁, h₂, mono h₃ (Nat.le_refl _) hh⟩

theorem append
    {mid high : Nat} {later : List Event} :
    ∀ {low : Nat} {events : List Event}, InOrder low events mid → InOrder mid later high →
      InOrder low (events ++ later) high
  | _, [], h, k => k.mono h (Nat.le_refl _)
  | _, _ :: _, ⟨h₁, h₂, h₃⟩, k => ⟨h₁, h₂, append h₃ k⟩

theorem of_append
    {high : Nat} {later : List Event} :
    ∀ {low : Nat} {events : List Event}, InOrder low (events ++ later) high →
      InOrder low events high
  | _, [], h => h.le
  | _, _ :: _, ⟨h₁, h₂, h₃⟩ => ⟨h₁, h₂, of_append h₃⟩

/-- No event ends after the upper offset. -/
theorem stop_le :
    ∀ {low high : Nat} {events : List Event}, InOrder low events high →
      ∀ event ∈ events, low < event.span.stop ∧ event.span.stop ≤ high
  | _, _, [], _ => by simp
  | low, high, first :: rest, ⟨h₁, h₂, h₃⟩ => by
      intro event mem
      rcases List.mem_cons.mp mem with rfl | mem
      · exact ⟨by omega, le h₃⟩
      · have := stop_le h₃ event mem
        exact ⟨by omega, this.2⟩

/-- The events that end before an offset stand before all others. -/
theorem filter_isPrefix
    (offset : Nat) :
    ∀ {low high : Nat} {events : List Event},
      InOrder low events high →
        events.filter (fun event => decide (event.span.stop < offset)) <+: events
  | _, _, [], _ => by simp
  | _, _, first :: rest, ⟨_, _, h⟩ => by
      by_cases before : first.span.stop < offset
      · have := filter_isPrefix offset h
        simpa [before] using this
      · have : rest.filter (fun event => decide (event.span.stop < offset)) = [] := by
          refine List.filter_eq_nil_iff.mpr ?_
          intro event mem
          have := stop_le h event mem
          simp only [decide_eq_true_eq]
          omega
        simp [before, this]

end Event.InOrder

/-- An error stands at the place where reading stopped: at the byte that does not fit, or at the
end of the input. -/
def ParseError.StandsAt (stop : Scanner) : ParseError → Prop
  | .unexpected offset _ => offset = stop.position ∧ stop.rest ≠ []
  | .overrun offset _ => offset = stop.length
  | .tooDeep offset limit =>
    offset = stop.position ∧ stop.rest ≠ [] ∧ stop.maxDepth = some limit

namespace Run

/-- A run from a place is orderly: it moves on along the input, its events are in order, and its
error stands where it stopped. -/
structure Orderly (s : Scanner) (run : Run) : Prop where
  passes : ∃ text, s.Passes text run.stop
  inOrder : Event.InOrder s.position run.events run.stop.position
  standsAt : ∀ error, run.error = some error → error.StandsAt run.stop

/-- A run that is orderly and has no events yet. -/
structure Silent (s : Scanner) (run : Run) : Prop where
  orderly : Orderly s run
  events : run.events = []

variable {s t : Scanner} {text : List UInt8} {run : Run} {next : Rule}

namespace Orderly

theorem length_stop
    (h : Orderly s run) :
    run.stop.length = s.length := by
  obtain ⟨text, passes⟩ := h.passes
  exact passes.length_eq

theorem length_rest_le
    (h : Orderly s run) :
    run.stop.rest.length ≤ s.rest.length := by
  obtain ⟨text, passes⟩ := h.passes
  exact passes.length_rest_le

theorem andThen
    (h : Orderly s run)
    (hn : run.error = none → Orderly run.stop (next run.stop)) :
    Orderly s (run.andThen next) := by
  obtain ⟨events, stop, error⟩ := run
  cases error with
  | some error =>
      exact h
  | none =>
      have hn := hn rfl
      obtain ⟨a, ha⟩ := h.passes
      obtain ⟨b, hb⟩ := hn.passes
      exact ⟨⟨a ++ b, ha.trans hb⟩, h.inOrder.append hn.inOrder, hn.standsAt⟩

end Orderly

theorem Orderly.from
    (h : s.Passes text t)
    (k : Orderly t run) :
    Orderly s run where
  passes := by
    obtain ⟨more, passes⟩ := k.passes
    exact ⟨text ++ more, h.trans passes⟩
  inOrder := k.inOrder.mono h.position_le (Nat.le_refl _)
  standsAt := k.standsAt

theorem andThen_of_error
    {error : ParseError}
    (h : run.error = some error) :
    run.andThen next = run := by
  simp [Run.andThen, h]

theorem stop_andThen
    (h : run.error = none) :
    (run.andThen next).stop = (next run.stop).stop := by
  simp [Run.andThen, h]

theorem error_andThen
    (h : run.error = none) :
    (run.andThen next).error = (next run.stop).error := by
  simp [Run.andThen, h]

theorem events_andThen
    (h : run.error = none) :
    (run.andThen next).events = run.events ++ (next run.stop).events := by
  simp [Run.andThen, h]

theorem error_andThen_eq_none :
    (run.andThen next).error = none ↔ run.error = none ∧ (next run.stop).error = none := by
  cases h : run.error <;> simp [Run.andThen, h]

/-! ## Runs without events -/

theorem silent_done
    (h : s.Passes text t) :
    Silent s (done t) where
  orderly := ⟨⟨text, h⟩, h.position_le, by simp [done]⟩
  events := rfl

theorem silent_missing
    (h : s.Passes text t)
    (expected : Expectation) :
    Silent s (missing t expected) where
  orderly := by
    refine ⟨⟨text, h⟩, h.position_le, ?_⟩
    intro error he
    simp only [missing, fail, Option.some.injEq] at he ⊢
    subst he
    unfold Scanner.missing
    split
    · exact rfl
    · rename_i notEnd
      exact ⟨rfl, by simpa [Scanner.atEnd] using notEnd⟩
  events := rfl

theorem silent_unexpected
    (h : s.Passes text t)
    (more : t.rest ≠ [])
    (expected : Expectation) :
    Silent s (fail t (.unexpected t.position expected)) where
  orderly := by
    refine ⟨⟨text, h⟩, h.position_le, ?_⟩
    intro error he
    simp only [fail, Option.some.injEq] at he
    subst he
    exact ⟨rfl, more⟩
  events := rfl

theorem silent_overrun
    (s : Scanner)
    (expected : Expectation) :
    Silent s (fail s (.overrun s.length expected)) where
  orderly := by
    refine ⟨⟨[], .refl s⟩, Nat.le_refl _, ?_⟩
    intro error he
    simp only [fail, Option.some.injEq] at he
    subst he
    exact rfl
  events := rfl

theorem Silent.andThen
    (h : Silent s run)
    (hn : run.error = none → Silent run.stop (next run.stop)) :
    Silent s (run.andThen next) where
  orderly := h.orderly.andThen fun ok => (hn ok).orderly
  events := by
    cases he : run.error with
    | some error =>
        rw [andThen_of_error he, h.events]
    | none =>
        rw [events_andThen he, h.events, (hn he).events]
        rfl

theorem Silent.from
    (h : s.Passes text t)
    (k : Silent t run) :
    Silent s run where
  orderly := k.orderly.from h
  events := k.events

/-- A silent run that moves ends in a token. -/
theorem Silent.andThen_token
    (h : Silent s run)
    (kind : EventKind)
    (moved : run.error = none → s.position < run.stop.position) :
    Orderly s (run.andThen fun t => token kind s t) := by
  cases he : run.error with
  | some error =>
      rw [andThen_of_error he]
      exact h.orderly
  | none =>
      refine ⟨?_, ?_, ?_⟩
      · rw [stop_andThen he]
        exact h.orderly.passes
      · rw [stop_andThen he, events_andThen he, h.events]
        exact ⟨Nat.le_refl _, moved he, Nat.le_refl _⟩
      · intro error k
        simp [error_andThen he, token] at k

theorem silent_expect
    (byte : UInt8)
    (expected : Expectation)
    (s : Scanner) :
    Silent s (expect byte expected s) := by
  unfold expect
  split
  · exact silent_done (.advance s 1)
  · exact silent_missing (.refl s) expected

theorem silent_atLeastOne
    (p : UInt8 → Bool)
    (expected : Expectation)
    (s : Scanner) :
    Silent s (atLeastOne p expected s) := by
  unfold atLeastOne
  split
  · exact silent_done (Scanner.passes_skipWhile s p)
  · exact silent_missing (.refl s) expected

end Run
end JsonDoc
