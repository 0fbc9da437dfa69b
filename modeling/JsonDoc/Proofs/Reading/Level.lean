import JsonDoc.Proofs.Reading.Progress

/-!
# Tokens do not look at the depth

The rules for tokens, and the one that goes past what means nothing, do the same under every
limit of depth. Their events are scalars, and they stop at the depth at which they started. Runs
with these three properties are level.
-/

namespace JsonDoc

namespace Scanner

/-- The same place under another limit of depth. -/
def limit
    (s : Scanner)
    (maxDepth : Option Nat) : Scanner :=
  { s with maxDepth := maxDepth }

@[simp] theorem rest_limit
    (s : Scanner)
    (maxDepth : Option Nat) :
    (s.limit maxDepth).rest = s.rest := rfl

@[simp] theorem peek_limit
    (s : Scanner)
    (maxDepth : Option Nat) :
    (s.limit maxDepth).peek = s.peek := rfl

@[simp] theorem bump_limit
    (s : Scanner)
    (maxDepth : Option Nat) :
    (s.limit maxDepth).bump = s.bump.limit maxDepth := rfl

@[simp] theorem skipWhile_limit
    (s : Scanner)
    (maxDepth : Option Nat)
    (p : UInt8 → Bool) :
    (s.limit maxDepth).skipWhile p = (s.skipWhile p).limit maxDepth := rfl

@[simp] theorem bumpIf_limit
    (s : Scanner)
    (maxDepth : Option Nat)
    (p : UInt8 → Bool) :
    (s.limit maxDepth).bumpIf p = (s.bumpIf p).limit maxDepth := by
  unfold bumpIf
  rw [peek_limit]
  split <;> rfl

theorem depth_bumpIf
    (s : Scanner)
    (p : UInt8 → Bool) :
    (s.bumpIf p).depth = s.depth := by
  unfold bumpIf
  split <;> rfl

end Scanner

namespace Run

/-- The same run under another limit of depth. -/
def limit (run : Run) (maxDepth : Option Nat) : Run :=
  { run with stop := run.stop.limit maxDepth }

/-- A run from a place is level with one under another limit: the limit makes no difference, the
depth stays, and all events are scalars. -/
structure Level (maxDepth : Option Nat) (s : Scanner) (run run' : Run) : Prop where
  same : run' = run.limit maxDepth
  depth : run.stop.depth = s.depth
  scalars : ∀ event ∈ run.events, event.kind.isScalar

variable {s : Scanner} {maxDepth : Option Nat} {run run' : Run} {next next' : Rule}

theorem level_done
    (s t : Scanner)
    (h : t.depth = s.depth) :
    Level maxDepth s (done t) (done (t.limit maxDepth)) :=
  ⟨rfl, h, by simp [done]⟩

theorem level_fail
    (s t : Scanner)
    (h : t.depth = s.depth)
    (error : ParseError) :
    Level maxDepth s (fail t error) (fail (t.limit maxDepth) error) :=
  ⟨rfl, h, by simp [fail]⟩

theorem level_missing
    (s t : Scanner)
    (h : t.depth = s.depth)
    (expected : Expectation) :
    Level maxDepth s (missing t expected) (missing (t.limit maxDepth) expected) :=
  level_fail s t h (t.missing expected)

theorem level_token
    (s u t : Scanner)
    (h : t.depth = s.depth)
    {kind : EventKind}
    (scalar : kind.isScalar) :
    Level maxDepth s (token kind u t) (token kind (u.limit maxDepth) (t.limit maxDepth)) := by
  refine ⟨rfl, h, ?_⟩
  intro event mem
  rw [List.mem_singleton.mp mem]
  exact scalar

theorem Level.andThen
    (h : Level maxDepth s run run')
    (hn : run.error = none →
      Level maxDepth run.stop (next run.stop) (next' (run.stop.limit maxDepth))) :
    Level maxDepth s (run.andThen next) (run'.andThen next') := by
  obtain ⟨rfl, depth, scalars⟩ := h
  cases error : run.error with
  | some e =>
      have error' : (run.limit maxDepth).error = some e := error
      rw [andThen_of_error error, andThen_of_error error']
      exact ⟨rfl, depth, scalars⟩
  | none =>
      have error' : (run.limit maxDepth).error = none := error
      have stop : (run.limit maxDepth).stop = run.stop.limit maxDepth := rfl
      obtain ⟨same, depth', scalars'⟩ := hn error
      refine ⟨?_, ?_, ?_⟩
      · simp only [Run.andThen, error, error', stop, same]
        rfl
      · rw [stop_andThen error, depth', depth]
      · rw [events_andThen error]
        intro event mem
        rcases List.mem_append.mp mem with mem | mem
        · exact scalars event mem
        · exact scalars' event mem

variable (maxDepth)

theorem level_expect
    (byte : UInt8)
    (expected : Expectation)
    (s : Scanner) :
    Level maxDepth s (expect byte expected s) (expect byte expected (s.limit maxDepth)) := by
  unfold expect
  rw [Scanner.peek_limit]
  split
  · exact level_done s s.bump rfl
  · exact level_missing s s rfl expected

theorem level_atLeastOne
    (p : UInt8 → Bool)
    (expected : Expectation)
    (s : Scanner) :
    Level maxDepth s (atLeastOne p expected s) (atLeastOne p expected (s.limit maxDepth)) := by
  unfold atLeastOne
  rw [Scanner.peek_limit]
  split
  · exact level_done s (s.skipWhile p) rfl
  · exact level_missing s s rfl expected

end Run

namespace Grammar

open Run

variable (maxDepth : Option Nat)

theorem skip_limit
    (g : Grammar)
    (s : Scanner)
    (maxDepth : Option Nat) :
    g.skip (s.limit maxDepth) = (g.skip s).limit maxDepth := rfl

/-! ## Strings and words -/

theorem level_stringBody
    (s : Scanner) :
    Level maxDepth s (stringBody s) (stringBody (s.limit maxDepth)) := by
  unfold stringBody
  rw [Scanner.rest_limit]
  split
  · exact level_done s (s.advance _) rfl
  · exact level_missing s (s.advance _) rfl _

theorem level_string
    (s : Scanner) :
    Level maxDepth s (string s) (string (s.limit maxDepth)) := by
  refine Level.andThen
    ((level_expect maxDepth _ _ s).andThen fun _ => level_stringBody maxDepth _) fun _ => ?_
  exact level_token _ s _ rfl rfl

theorem level_word
    (s : Scanner) :
    Level maxDepth s (word s) (word (s.limit maxDepth)) :=
  level_token s s (s.skipWhile Byte.isWordPart) rfl rfl

theorem isScalar_literal
    (l : Literal) :
    l.kind.isScalar := by
  cases l <;> rfl

theorem level_literal
    (g : Grammar)
    (l : Literal)
    (s : Scanner) :
    Level maxDepth s (g.literal l s) (g.literal l (s.limit maxDepth)) := by
  cases g with
  | strict =>
      simp only [literal]
      rw [Scanner.rest_limit]
      split
      · exact level_fail s s rfl _
      · split
        · exact level_token s s (s.advance _) rfl (isScalar_literal l)
        · exact level_fail s s rfl _
  | relaxed =>
      have text : (s.limit maxDepth).textTo ((s.skipWhile Byte.isWordPart).limit maxDepth) =
          s.textTo (s.skipWhile Byte.isWordPart) := rfl
      have atEnd : ((s.skipWhile Byte.isWordPart).limit maxDepth).atEnd =
          (s.skipWhile Byte.isWordPart).atEnd := rfl
      simp only [literal]
      rw [Scanner.skipWhile_limit, text, atEnd]
      split
      · exact level_token s s (s.skipWhile _) rfl (isScalar_literal l)
      · split
        · exact level_fail s (s.skipWhile _) rfl _
        · exact level_token s s (s.skipWhile _) rfl rfl

/-! ## Numbers -/

theorem level_digits
    (g : Grammar)
    (expected : Expectation)
    (s : Scanner) :
    Level maxDepth s (g.digits expected s) (g.digits expected (s.limit maxDepth)) := by
  cases g with
  | strict =>
      exact level_atLeastOne maxDepth Byte.isDigit expected s
  | relaxed =>
      exact level_done s (s.skipWhile _) rfl

theorem level_integer
    (s : Scanner) :
    Level maxDepth s (integer s) (integer (s.limit maxDepth)) := by
  unfold integer
  rw [Scanner.peek_limit]
  split
  · exact level_missing s s rfl _
  · split
    · exact level_done s s.bump rfl
    · split
      · exact level_done s (s.skipWhile _) rfl
      · exact level_missing s s rfl _

theorem level_fraction
    (g : Grammar)
    (s : Scanner) :
    Level maxDepth s (g.fraction s) (g.fraction (s.limit maxDepth)) := by
  unfold fraction
  rw [Scanner.peek_limit]
  split
  · have digits := level_digits maxDepth g .fractionDigit s.bump
    exact ⟨digits.same, digits.depth, digits.scalars⟩
  · exact level_done s s rfl

theorem level_exponent
    (g : Grammar)
    (s : Scanner) :
    Level maxDepth s (g.exponent s) (g.exponent (s.limit maxDepth)) := by
  unfold exponent
  rw [Scanner.peek_limit]
  split
  · have digits := level_digits maxDepth g .exponentDigit (s.bump.bumpIf Byte.isSign)
    rw [Scanner.bump_limit, Scanner.bumpIf_limit]
    exact ⟨digits.same, digits.depth.trans (Scanner.depth_bumpIf _ _), digits.scalars⟩
  · exact level_done s s rfl

/-- Whether a literal of another base starts does not depend on the limit. -/
theorem level_radix?
    (g : Grammar)
    (s : Scanner) :
    (g.radix? s = none ∧ g.radix? (s.limit maxDepth) = none) ∨
      ∃ run run', g.radix? s = some run ∧ g.radix? (s.limit maxDepth) = some run' ∧
        Level maxDepth s run run' := by
  cases g with
  | strict =>
      exact Or.inl ⟨rfl, rfl⟩
  | relaxed =>
      have digits (p : UInt8 → Bool) (expected : Expectation) :
          Level maxDepth s (atLeastOne p expected (s.advance 2))
            (atLeastOne p expected ((s.limit maxDepth).advance 2)) := by
        have level := level_atLeastOne maxDepth p expected (s.advance 2)
        exact ⟨level.same, level.depth, level.scalars⟩
      simp only [radix?]
      rw [Scanner.rest_limit]
      split
      · split
        · exact Or.inl ⟨rfl, rfl⟩
        · split
          · exact Or.inr ⟨_, _, rfl, rfl, digits _ _⟩
          · split
            · exact Or.inr ⟨_, _, rfl, rfl, digits _ _⟩
            · split
              · exact Or.inr ⟨_, _, rfl, rfl, level_done s (s.bump.skipWhile _) rfl⟩
              · exact Or.inl ⟨rfl, rfl⟩
      · exact Or.inl ⟨rfl, rfl⟩

theorem level_magnitude
    (g : Grammar)
    (s : Scanner) :
    Level maxDepth s (g.magnitude s) (g.magnitude (s.limit maxDepth)) := by
  unfold magnitude
  rcases level_radix? maxDepth g s with ⟨none, none'⟩ | ⟨run, run', some, some', level⟩
  · rw [none, none']
    refine Level.andThen (Level.andThen (level_integer maxDepth s) ?_) ?_
    · exact fun _ => level_fraction maxDepth g _
    · exact fun _ => level_exponent maxDepth g _
  · rw [some, some']
    exact level

theorem level_numberEnd
    (start s : Scanner) :
    Level maxDepth s (numberEnd start s)
      (numberEnd (start.limit maxDepth) (s.limit maxDepth)) := by
  unfold numberEnd
  rw [Scanner.peek_limit]
  split
  · exact level_fail s s rfl _
  · exact level_token s start s rfl rfl

theorem level_number
    (g : Grammar)
    (s : Scanner) :
    Level maxDepth s (g.number s) (g.number (s.limit maxDepth)) := by
  have magnitude := level_magnitude maxDepth g (s.bumpIf g.isSign)
  unfold number
  rw [Scanner.bumpIf_limit]
  have signed : Level maxDepth s (g.magnitude (s.bumpIf g.isSign))
      (g.magnitude ((s.bumpIf g.isSign).limit maxDepth)) :=
    ⟨magnitude.same, magnitude.depth.trans (Scanner.depth_bumpIf _ _), magnitude.scalars⟩
  exact signed.andThen fun _ => level_numberEnd maxDepth s _

/-! ## Keys and bare words -/

theorem level_key
    (g : Grammar)
    (s : Scanner) :
    Level maxDepth s (g.key s) (g.key (s.limit maxDepth)) := by
  cases g with
  | strict =>
      simp only [key]
      rw [Scanner.peek_limit]
      split
      · exact level_string maxDepth s
      · exact level_missing s s rfl _
  | relaxed =>
      simp only [key]
      rw [Scanner.peek_limit]
      split
      · exact level_string maxDepth s
      · split
        · exact level_word maxDepth s
        · exact level_missing s s rfl _

theorem level_unknown
    (g : Grammar)
    (s : Scanner) :
    Level maxDepth s (g.unknown s) (g.unknown (s.limit maxDepth)) := by
  cases g with
  | strict =>
      exact level_missing s s rfl _
  | relaxed =>
      simp only [unknown]
      rw [Scanner.peek_limit]
      split
      · exact level_word maxDepth s
      · exact level_missing s s rfl _

end Grammar
end JsonDoc
