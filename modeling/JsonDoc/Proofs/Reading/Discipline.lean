import JsonDoc.Proofs.Reading.Level
import JsonDoc.Proofs.Reading.Loops
import JsonDoc.Proofs.Syntax.Tiling

/-!
# Discipline of the rules

What every rule for a value, a key or a token does to its place in the input, wherever it starts
and whatever is ahead: a rule that succeeds has moved on and is back at the depth where it began,
and one that fails has not moved back and points at an offset inside the input. Together with the
loops of `Reading.Loops`, this is why reading ends on every input, `rules_disciplined`.

A rule moves on since it succeeds with an event, and no event is empty.
-/

namespace JsonDoc

namespace Scanner

/-- The place lies in an input: the bytes ahead are those of the input from there on. -/
structure LiesIn (s : Scanner) (input : List UInt8) : Prop where
  position_le : s.position ≤ input.length
  rest : s.rest = input.drop s.position

variable {s t : Scanner} {input text : List UInt8}

theorem LiesIn.length
    (h : s.LiesIn input) :
    s.length = input.length := by
  have := h.position_le
  rw [Scanner.length, h.rest, List.length_drop]
  omega

/-- Places that are passed to lie in the same input. -/
theorem LiesIn.passes
    (h : s.LiesIn input)
    (k : s.Passes text t) :
    t.LiesIn input where
  position_le := by
    have inside : t.position ≤ t.length := Nat.le_add_right _ _
    rwa [k.length_eq, h.length] at inside
  rest := by
    rw [k.position, ← List.drop_drop, ← h.rest, k.rest, List.drop_left]

end Scanner

namespace Run

/-- What a run from a place of an input does to the place. -/
structure Disciplined (input : List UInt8) (s : Scanner) (run : Run) : Prop where
  /-- It stops within the input, whether it succeeds or not. -/
  liesIn : run.stop.LiesIn input
  /-- It never moves back. -/
  position_le : s.position ≤ run.stop.position
  /-- Where it succeeds, it has moved on. -/
  position_lt : run.error = none → s.position < run.stop.position
  /-- Where it succeeds, as many containers are open as before. -/
  depth : run.error = none → run.stop.depth = s.depth
  /-- Where it fails, it points at an offset of the input that it has not passed yet. -/
  offset : ∀ error, run.error = some error →
    run.stop.position ≤ error.offset ∧ error.offset ≤ input.length

/-- Where it succeeds, the run has an event. -/
def Emits (run : Run) : Prop := run.error = none → run.events ≠ []

/-- Where it succeeds, the run stops at the depth where it started. -/
def KeepsDepth
    (s : Scanner)
    (run : Run) : Prop :=
  run.error = none → run.stop.depth = s.depth

variable {input : List UInt8} {s : Scanner} {run : Run} {next : Rule}

/-! ## Moving on -/

theorem emits_fail
    (s : Scanner)
    (error : ParseError) :
    Emits (fail s error) := by
  simp [Emits, fail]

theorem emits_token
    (kind : EventKind)
    (s t : Scanner) :
    Emits (token kind s t) :=
  fun _ => List.cons_ne_nil _ _

theorem Emits.andThen
    (h : Emits run)
    (next : Rule) :
    Emits (run.andThen next) := by
  intro ok
  obtain ⟨ok, _⟩ := error_andThen_eq_none.mp ok
  rw [events_andThen ok]
  exact List.append_ne_nil_of_left_ne_nil (h ok) _

theorem emits_andThen
    (run : Run)
    (h : ∀ t, Emits (next t)) :
    Emits (run.andThen next) := by
  intro ok
  obtain ⟨ok, okNext⟩ := error_andThen_eq_none.mp ok
  rw [events_andThen ok]
  exact List.append_ne_nil_of_right_ne_nil _ (h _ okNext)

/-- An orderly run with an event has moved on, since no event is empty. -/
theorem Orderly.position_lt
    (h : Orderly s run)
    (some : run.events ≠ []) :
    s.position < run.stop.position := by
  obtain ⟨event, mem⟩ := List.exists_mem_of_ne_nil _ some
  have inside := h.inOrder.stop_le event mem
  omega

/-! ## Offsets -/

theorem position_le_offset
    {t : Scanner} {error : ParseError}
    (h : error.StandsAt t) :
    t.position ≤ error.offset ∧ error.offset ≤ t.length := by
  have inside : t.position ≤ t.length := Nat.le_add_right _ _
  cases error with
  | unexpected offset expected =>
      obtain ⟨rfl, _⟩ := h
      exact ⟨Nat.le_refl _, inside⟩
  | overrun offset expected =>
      obtain rfl : offset = t.length := h
      exact ⟨inside, Nat.le_refl _⟩
  | tooDeep offset limit =>
      obtain ⟨rfl, _⟩ := h
      exact ⟨Nat.le_refl _, inside⟩

theorem Orderly.disciplined
    (h : Orderly s run)
    (emits : Emits run)
    (keeps : KeepsDepth s run)
    (lies : s.LiesIn input) :
    Disciplined input s run := by
  obtain ⟨text, passes⟩ := h.passes
  have stop : run.stop.LiesIn input := lies.passes passes
  refine ⟨stop, passes.position_le, fun ok => h.position_lt (emits ok), keeps, ?_⟩
  intro error failed
  rw [← stop.length]
  exact position_le_offset (h.standsAt error failed)

theorem disciplined_fail
    {t : Scanner} {error : ParseError}
    (lies : t.LiesIn input)
    (low : s.position ≤ t.position)
    (offset : t.position ≤ error.offset ∧ error.offset ≤ input.length) :
    Disciplined input s (fail t error) := by
  refine ⟨lies, low, by simp [fail], by simp [fail], ?_⟩
  intro error' same
  obtain rfl : error = error' := by simpa [fail] using same
  exact offset

/-! ## The depth -/

theorem Level.keepsDepth
    {maxDepth : Option Nat} {run' : Run}
    (h : Level maxDepth s run run') :
    KeepsDepth s run := fun _ => h.depth

theorem keepsDepth_fail
    (s t : Scanner)
    (error : ParseError) :
    KeepsDepth s (fail t error) := by
  simp [KeepsDepth, fail]

theorem KeepsDepth.andThen
    (h : KeepsDepth s run)
    (k : KeepsDepth run.stop (next run.stop)) :
    KeepsDepth s (run.andThen next) := by
  intro ok
  obtain ⟨ok, okNext⟩ := error_andThen_eq_none.mp ok
  rw [stop_andThen ok, k okNext, h ok]

end Run

namespace Grammar

open Run

variable {g : Grammar} {s : Scanner} {input : List UInt8}

/-! ## Tokens -/

theorem emits_string
    (s : Scanner) :
    Emits (string s) :=
  emits_andThen _ fun t => emits_token .string s t

theorem emits_literal
    (g : Grammar)
    (l : Literal)
    (s : Scanner) :
    Emits (g.literal l s) := by
  cases g with
  | strict =>
      simp only [literal]
      split
      · exact emits_fail _ _
      · split
        · exact emits_token _ _ _
        · exact emits_fail _ _
  | relaxed =>
      simp only [literal]
      split
      · exact emits_token _ _ _
      · split
        · exact emits_fail _ _
        · exact emits_token _ _ _

theorem emits_number
    (g : Grammar)
    (s : Scanner) :
    Emits (g.number s) := by
  refine emits_andThen _ fun t => ?_
  unfold numberEnd
  split
  · exact emits_fail _ _
  · exact emits_token _ _ _

theorem emits_key
    (g : Grammar)
    (s : Scanner) :
    Emits (g.key s) := by
  cases g with
  | strict =>
      simp only [key]
      split
      · exact emits_string s
      · exact emits_fail _ _
  | relaxed =>
      simp only [key]
      split
      · exact emits_string s
      · split
        · exact emits_token _ _ _
        · exact emits_fail _ _

theorem emits_unknown
    (g : Grammar)
    (s : Scanner) :
    Emits (g.unknown s) := by
  cases g with
  | strict =>
      exact emits_fail _ _
  | relaxed =>
      simp only [unknown]
      split
      · exact emits_token _ _ _
      · exact emits_fail _ _

/-! ## Containers -/

variable {brackets : Brackets} {sep : Separation} {item value : Rule}

/-- A container starts with the event of its opening byte. -/
theorem emits_container
    (g : Grammar)
    (brackets : Brackets)
    (sep : Separation)
    (item : Rule)
    (s : Scanner) :
    Emits (g.container brackets sep item s) :=
  (emits_andThen _ fun t => emits_token brackets.begins s t).andThen _

theorem emits_valueOf
    (g : Grammar)
    (value : Rule)
    (s : Scanner) :
    Emits (g.valueOf value s) := by
  by_cases array : s.peek = some Byte.openBracket
  · rw [valueOf_array array]
    exact emits_container g arrayBrackets _ _ s
  by_cases object : s.peek = some Byte.openBrace
  · rw [valueOf_object object]
    exact emits_container g objectBrackets _ _ s
  exact valueOf_scalar value array object (emits_fail _ _) (emits_number g s)
    (fun _ => emits_string s) (fun _ l _ _ => emits_literal g l s) fun _ _ _ => emits_unknown g s

/-- Where its first byte is missing, a container fails at once. -/
theorem opening_of_peek_ne
    {byte : UInt8}
    (h : s.peek ≠ some byte)
    (expected : Expectation)
    (kind : EventKind) :
    ∃ error, opening byte expected kind s = fail s.deeper error ∧
      s.position ≤ error.offset ∧ error.offset ≤ s.length := by
  have inside : s.position ≤ s.length := Nat.le_add_right _ _
  cases limited : s.deeper.exceeded? with
  | some limit =>
      exact ⟨_, opening_of_exceeded limited byte expected kind, Nat.le_refl _, inside⟩
  | none =>
      have entered : enter s = done s.deeper := by simp [enter, limited]
      have absent : s.deeper.peek ≠ some byte := h
      refine ⟨s.deeper.missing expected, ?_, ?_⟩
      · rw [opening, entered, done_andThen, expect, if_neg absent]
        rfl
      · unfold Scanner.missing
        split
        · exact ⟨inside, Nat.le_refl _⟩
        · exact ⟨Nat.le_refl _, inside⟩

theorem container_of_peek_ne
    (h : s.peek ≠ some brackets.first)
    (g : Grammar)
    (sep : Separation)
    (item : Rule) :
    ∃ error, g.container brackets sep item s = fail s.deeper error ∧
      s.position ≤ error.offset ∧ error.offset ≤ s.length := by
  obtain ⟨error, refused, offset⟩ := opening_of_peek_ne h brackets.missingFirst brackets.begins
  have failed : (opening brackets.first brackets.missingFirst brackets.begins s).error =
      some error := by rw [refused]; rfl
  refine ⟨error, ?_, offset⟩
  rw [container, andThen_of_error failed, refused]

theorem depth_opening
    {byte : UInt8} {expected : Expectation} {kind : EventKind}
    (ok : (opening byte expected kind s).error = none) :
    (opening byte expected kind s).stop.depth = s.depth + 1 := by
  by_cases peek : s.peek = some byte
  · cases limited : s.deeper.exceeded? with
    | none =>
        rw [opening_of_within peek limited]
        rfl
    | some limit =>
        simp [opening_of_exceeded limited, fail] at ok
  · obtain ⟨error, refused, _⟩ := opening_of_peek_ne peek expected kind
    simp [refused, fail] at ok

theorem depth_closing
    {byte : UInt8} {expected : Expectation} {kind : EventKind}
    (ok : (closing byte expected kind s).error = none) :
    (closing byte expected kind s).stop.depth = s.depth - 1 := by
  by_cases peek : s.peek = some byte
  · rw [closing_of_peek peek]
    rfl
  · simp [closing_of_peek_ne peek, missing, fail] at ok

theorem keepsDepth_afterItem
    {more : Rule}
    (h : ∀ s, KeepsDepth s (more s))
    (s : Scanner) :
    KeepsDepth s (g.afterItem sep more s) := by
  unfold afterItem
  simp only
  split
  · exact keepsDepth_fail _ _ _
  · split
    · split
      · exact keepsDepth_fail _ _ _
      · exact h _
    · split
      · exact fun _ => rfl
      · exact keepsDepth_fail _ _ _

theorem keepsDepth_items
    (h : ∀ s, KeepsDepth s (item s)) :
    ∀ (bound : Nat) (s : Scanner), KeepsDepth s (g.items sep item bound s)
  | 0, s => (h s).andThen (keepsDepth_afterItem (fun t => keepsDepth_fail t t _) _)
  | bound + 1, s => (h s).andThen (keepsDepth_afterItem (keepsDepth_items h bound) _)

theorem keepsDepth_itemsOrNone
    (h : ∀ s, KeepsDepth s (item s))
    (s : Scanner) :
    KeepsDepth s (g.itemsOrNone sep item s) := by
  unfold itemsOrNone
  simp only
  split
  · exact fun _ => rfl
  · exact keepsDepth_items h _ (g.skip s)

theorem keepsDepth_member
    (h : ∀ s, KeepsDepth s (value s))
    (s : Scanner) :
    KeepsDepth s (g.member value s) := by
  refine (level_key none g s).keepsDepth.andThen ?_
  have colon := (level_expect none Byte.colon .colonAfterKey (g.skip (g.key s).stop)).keepsDepth
  exact KeepsDepth.andThen (s := g.skip (g.key s).stop) colon (h _)

/-- A container opens one level and closes it again. -/
theorem keepsDepth_container
    (brackets : Brackets)
    (h : ∀ s, KeepsDepth s (item s))
    (s : Scanner) :
    KeepsDepth s (g.container brackets sep item s) := by
  intro ok
  obtain ⟨opened, ok⟩ := error_andThen_eq_none.mp ok
  obtain ⟨read, closed⟩ := error_andThen_eq_none.mp ok
  rw [container, stop_andThen opened, stop_andThen read, depth_closing closed,
    keepsDepth_itemsOrNone h _ read, depth_opening opened, Nat.add_sub_cancel]

theorem keepsDepth_valueOf
    (h : ∀ s, KeepsDepth s (value s))
    (s : Scanner) :
    KeepsDepth s (g.valueOf value s) := by
  by_cases array : s.peek = some Byte.openBracket
  · rw [valueOf_array array]
    exact keepsDepth_container arrayBrackets h s
  by_cases object : s.peek = some Byte.openBrace
  · rw [valueOf_object object]
    exact keepsDepth_container objectBrackets (keepsDepth_member h) s
  exact valueOf_scalar value array object (keepsDepth_fail _ _ _)
    (level_number none g s).keepsDepth (fun _ => (level_string none s).keepsDepth)
    (fun _ l _ _ => (level_literal none g l s).keepsDepth)
    fun _ _ _ => (level_unknown none g s).keepsDepth

theorem keepsDepth_nested
    (g : Grammar) :
    ∀ (levels : Nat) (s : Scanner), KeepsDepth s (g.nested levels s)
  | 0, s => keepsDepth_valueOf (fun t => keepsDepth_fail t t _) s
  | levels + 1, s => keepsDepth_valueOf (keepsDepth_nested g levels) s

theorem keepsDepth_value
    (g : Grammar)
    (s : Scanner) :
    KeepsDepth s (g.value s) :=
  keepsDepth_nested g _ s

/-! ## All rules -/

theorem disciplined_value
    (g : Grammar)
    (lies : s.LiesIn input) :
    Disciplined input s (g.value s) := by
  have emits : Emits (g.value s) := by
    rw [value_eq]
    exact emits_valueOf g _ s
  exact (orderly_value g s).disciplined emits (keepsDepth_value g s) lies

/-- A container is disciplined also where none starts. -/
theorem disciplined_container
    (brackets : Brackets)
    (orderly : s.peek = some brackets.first → Orderly s (g.container brackets sep item s))
    (h : ∀ s, KeepsDepth s (item s))
    (lies : s.LiesIn input) :
    Disciplined input s (g.container brackets sep item s) := by
  by_cases peek : s.peek = some brackets.first
  · exact (orderly peek).disciplined (emits_container g brackets sep item s)
      (keepsDepth_container brackets h s) lies
  · obtain ⟨error, failed, offset⟩ := container_of_peek_ne peek g sep item
    rw [failed]
    rw [lies.length] at offset
    exact disciplined_fail (lies.passes (.deeper s)) (Nat.le_refl _) offset

/-- The rules for values, keys and tokens are disciplined at a place. -/
structure KeepsPlace (g : Grammar) (input : List UInt8) (s : Scanner) : Prop where
  value : Disciplined input s (g.value s)
  key : Disciplined input s (g.key s)
  string : Disciplined input s (string s)
  number : Disciplined input s (g.number s)
  array : Disciplined input s (g.array s)
  object : Disciplined input s (g.object s)

theorem keepsPlace
    (g : Grammar)
    (lies : s.LiesIn input) :
    g.KeepsPlace input s where
  value := disciplined_value g lies
  key := (orderly_key g s).disciplined (emits_key g s) (level_key none g s).keepsDepth lies
  string := (orderly_string s).disciplined (emits_string s) (level_string none s).keepsDepth lies
  number :=
    (orderly_number g s).disciplined (emits_number g s) (level_number none g s).keepsDepth lies
  array := disciplined_container arrayBrackets
    (fun peek => orderly_arrayOf (orderly_value g) peek) (keepsDepth_value g) lies
  object := disciplined_container objectBrackets
    (fun peek => orderly_objectOf (orderly_value g) peek)
    (keepsDepth_member (keepsDepth_value g)) lies

/-- Skipping from a place ends at the end of the input or at a byte that is neither a blank nor,
where there are comments, the start of one. -/
structure SkipsTrivia (g : Grammar) (input : List UInt8) (s : Scanner) : Prop where
  liesIn : (g.skip s).LiesIn input
  position_le : s.position ≤ (g.skip s).position
  notBlank : ∀ b, input[(g.skip s).position]? = some b → Byte.isBlank b = false
  notHash : g = relaxed → ∀ b, input[(g.skip s).position]? = some b → b ≠ Byte.hash

theorem skipsTrivia
    (g : Grammar)
    (lies : s.LiesIn input) :
    g.SkipsTrivia input s := by
  have stop : (g.skip s).LiesIn input := lies.passes (passes_skip g s)
  have next (b : UInt8) (h : input[(g.skip s).position]? = some b) : g.startsTrivia b = false := by
    have head : (g.skip s).rest.head? = some b := by rw [stop.rest, List.head?_drop, h]
    obtain ⟨rest, ahead⟩ := List.head?_eq_some_iff.mp head
    exact g.startsTrivia_skip ahead
  refine ⟨stop, (passes_skip g s).position_le, ?_, ?_⟩
  · intro b h
    cases g with
    | strict =>
        exact next b h
    | relaxed =>
        exact ((Bool.or_eq_false_iff).mp (next b h)).1
  · rintro rfl b h
    simpa using ((Bool.or_eq_false_iff).mp (next b h)).2

/-- Every loop and the recursion of a grammar consume input and end. Numbers and words are read by
loops over the bytes of a class; containers read their items by `series`. -/
structure LoopsEnd (g : Grammar) : Prop where
  ofClass : ∀ p, Loops (whilePass p) fun s => done (s.skipWhile p)
  trivia : Loops g.skipPass fun s => done (g.skip s)
  string : Loops stringPass stringBody
  elements : Loops (g.itemsPass elementSeparation g.value) (g.series elementSeparation g.value)
  members : Loops (g.itemsPass memberSeparation (g.member g.value))
    (g.series memberSeparation (g.member g.value))
  values : Unwinds g.valueOf g.value

theorem loopsEnd
    (g : Grammar) :
    g.LoopsEnd where
  ofClass := loops_skipWhile
  trivia := loops_skip g
  string := loops_stringBody
  elements := loops_series (orderly_value g)
  members := loops_series (orderly_member (orderly_value g))
  values := unwinds_value g

/-- From every place of an input, the rules keep to the input and to the depth, skipping stops
where nothing can be skipped, and no loop or recursion goes on without reading something. -/
theorem rules_disciplined
    (g : Grammar)
    (lies : s.LiesIn input) :
    g.KeepsPlace input s ∧ g.SkipsTrivia input s ∧ g.LoopsEnd :=
  ⟨keepsPlace g lies, skipsTrivia g lies, loopsEnd g⟩

/-- The place behind the first byte of `x[1,{a:2}]#`, with three containers open. -/
def secondByte : Scanner :=
  ⟨[0x5B, 0x31, 0x2C, 0x7B, 0x61, 0x3A, 0x32, 0x7D, 0x5D, 0x23], 1, 3, some 9⟩

/-- Reading the array keeps three containers open and takes no more than eleven levels, a number
is missing there, and the open comment behind the array is skipped up to the end. -/
theorem rules_disciplined_secondByte :
    secondByte.LiesIn (0x78 :: secondByte.rest) ∧
      (relaxed.value secondByte).error = none ∧
      (relaxed.value secondByte).stop.position = 10 ∧
      (relaxed.value secondByte).stop.depth = 3 ∧
      (∀ bottom, relaxed.valueOf^[11] bottom secondByte = relaxed.value secondByte) ∧
      (relaxed.number secondByte).error = some (.unexpected 1 .digit) ∧
      (relaxed.number secondByte).stop.position ≤ 1 ∧
      (relaxed.skip (relaxed.value secondByte).stop).position = 11 := by
  have lies : secondByte.LiesIn (0x78 :: secondByte.rest) := ⟨by decide, rfl⟩
  have read : (relaxed.value secondByte).error = none := by rfl
  have failed : (relaxed.number secondByte).error = some (.unexpected 1 .digit) := by rfl
  obtain ⟨keeps, _, loops⟩ := rules_disciplined relaxed lies
  refine ⟨lies, read, rfl, keeps.value.depth read, ?_, failed, ?_, rfl⟩
  · exact fun bottom => loops.values.ends bottom 11 secondByte (by decide)
  · exact (keeps.number.offset _ failed).1

end Grammar
end JsonDoc
