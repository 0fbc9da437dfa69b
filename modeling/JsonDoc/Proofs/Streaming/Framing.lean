import JsonDoc.Proofs.Streaming.Completion
import JsonDoc.Proofs.Syntax.Strict

/-!
# Streams of documents

Documents that follow one another are read one by one. What reading makes of a value does not
depend on what stands before it or behind it, as long as the text behind it does not go on with a
number that the value ends in: `Syntax.value_again`. So a document can be followed by any text from
which it can be told, and a stream of documents with blanks between them is read as the list of
their trees, `Document.readTimes_stream`. Each step leaves the stream at the start of the next
value.
-/

namespace JsonDoc

namespace Syntax

open Run Grammar Events

section Values

variable {g : Grammar} {lex : Lexicon} {apart : List UInt8 → List UInt8 → Prop} {s : Scanner}

/-- A value that is read is read as the same tree wherever its text stands at a place like that,
before everything that it is apart from. -/
theorem value_again
    (sound : Sound g lex)
    (complete : Complete g lex apart)
    (begun : Begun g lex)
    (ok : (g.value s).error = none) :
    ∃ spelling, Found lex s (g.value s) spelling ∧
      ∀ (t : Scanner) (rest : List UInt8), s.Alike t → t.rest = spelling.text ++ rest →
        apart spelling.text rest → ReadsValue g t spelling.text spelling.tree := by
  obtain ⟨spelling, found⟩ := value_sound sound ok
  obtain ⟨text, passes, accepts⟩ := accepts_value sound complete begun ok
  have same : text = spelling.text := passes.textTo_eq.symm.trans found.passes.textTo_eq
  subst same
  refine ⟨spelling, found, fun t rest alike ahead ends => ?_⟩
  obtain ⟨ok', stop⟩ := accepts rest ends t alike ahead
  obtain ⟨spelling', found'⟩ := value_sound sound ok'
  have passes' := Scanner.Passes.advance t spelling.text.length
  rw [ahead, List.take_left, ← stop] at passes'
  have same : spelling'.text = spelling.text :=
    found'.passes.textTo_eq.symm.trans passes'.textTo_eq
  have tree : spelling'.tree = spelling.tree :=
    value_unique complete (same ▸ found'.value) found.value
  refine ⟨(g.value t).events, ?_, tree ▸ found'.denotes⟩
  rw [← stop, ← ok']

end Values

/-! ## Strict documents -/

/-- A value without the blanks around it, which strict reading makes the tree of, whatever blanks
stand before it and whatever can be told from it stands behind it. -/
structure Core (options : ParserOptions) (core : List UInt8) (tree : Tree) : Prop where
  starts : Starts core
  reads : ∀ lead rest, Blanks lead → StrictApart core rest →
    Document.readFront .strict options (lead ++ (core ++ rest)) =
      .ok (tree, lead.length + (core.length + (rest.takeWhile Byte.isBlank).length))

variable {options : ParserOptions} {tree : Tree} {input core blanks rest : List UInt8}

/-- Blanks before a value are skipped, and so are those behind it. -/
theorem readFront_of_value
    {lead : List UInt8}
    (isLead : Blanks lead)
    (starts : Starts core)
    (reads : ReadsValue .strict
      ((Scanner.start (lead ++ (core ++ rest)) options.maxDepth).advance lead.length) core tree) :
    Document.readFront .strict options (lead ++ (core ++ rest)) =
      .ok (tree, lead.length + (core.length + (rest.takeWhile Byte.isBlank).length)) := by
  obtain ⟨events, run, denotes⟩ := reads
  let first := (Scanner.start (lead ++ (core ++ rest)) options.maxDepth).advance lead.length
  have skipped : skip .strict (Scanner.start (lead ++ (core ++ rest)) options.maxDepth) =
      first := by
    rw [skip, Scanner.start, complete_strict.skip _ _ isLead (starts.append rest).triviaLength]
    rfl
  have ahead : (first.advance core.length).rest = rest :=
    Scanner.rest_advance (Scanner.rest_advance rfl)
  have last : skip .strict (first.advance core.length) =
      (Scanner.start (lead ++ (core ++ rest)) options.maxDepth).advance
        (lead.length + (core.length + (rest.takeWhile Byte.isBlank).length)) := by
    rw [skip, ahead, Scanner.advance_advance, Scanner.advance_advance]
    rfl
  have read : Grammar.read .strict options.maxDepth (lead ++ (core ++ rest)) =
      ⟨events, skip .strict (first.advance core.length), none⟩ := by
    rw [Grammar.read, skipped, run]
    simp [andThen, done, first]
  have short := (List.takeWhile_prefix (p := Byte.isBlank) (l := rest)).length_le
  simp only [Document.readFront, read, Builder.build_of_denotes denotes, last]
  simp only [Scanner.advance, Scanner.start, List.length_take, List.length_append, Nat.zero_add]
  rw [Nat.min_eq_left (by omega)]

/-- A text that is read as one tree is a value with blanks around it. -/
theorem exists_core
    (read : Document.readTree .strict options input = .ok tree) :
    ∃ before core after, input = before ++ (core ++ after) ∧ Blanks before ∧ Blanks after ∧
      Core options core tree := by
  obtain ⟨ok, build, _, nothing⟩ := read_of_readTree read
  obtain ⟨okValue, _⟩ := error_andThen_eq_none.mp ok
  obtain ⟨spelling, found, again⟩ :=
    value_again sound_strict complete_strict begun_strict okValue
  obtain ⟨before, isBefore, passesBefore⟩ := sound_strict.trivia found.ahead
  obtain ⟨after, isAfter, passesAfter⟩ := sound_strict.last
    (Grammar.value .strict (skip .strict (Scanner.start input options.maxDepth))).stop
  have split := passes_start (passesBefore.trans (found.passes.trans passesAfter))
  rw [Grammar.read, stop_andThen okValue] at nothing
  rw [Grammar.read, events_andThen okValue] at build
  have same : spelling.tree = tree := by
    have denoted := Builder.build_of_denotes found.denotes
    simpa [done, denoted] using build
  subst same
  have starts := value_starts complete_strict found.value
  refine ⟨before, spelling.text, after, ?_, isBefore, isAfter, starts, ?_⟩
  · simpa [show (skip .strict _).rest = [] from nothing] using split
  · intro lead rest isLead ends
    exact readFront_of_value isLead starts
      (again _ rest ⟨rfl, rfl⟩ (Scanner.rest_advance rfl) ends)

/-- Blanks end every value, whatever follows them. -/
theorem delimited_blanks
    (isBlanks : Blanks blanks)
    (nonempty : blanks ≠ [])
    (rest : List UInt8) :
    Delimited (blanks ++ rest) := by
  cases blanks with
  | nil =>
      exact absurd rfl nonempty
  | cons b blanks =>
      exact (follows_of_blanks isBlanks).delimited

/-- A value ends before every text if the input that it ends does not end in a digit. -/
theorem strictApart_of_getLast
    {before after : List UInt8}
    (isAfter : Blanks after)
    (ends : (∀ b, (before ++ (core ++ after)).getLast? = some b → Byte.isDigit b = false) ∨
      Delimited rest) :
    StrictApart core (after ++ rest) := by
  by_cases nothing : after = []
  · subst nothing
    rintro front last rfl digit
    rcases ends with notDigit | delimited
    · have isLast := notDigit last (by simp)
      rw [digit] at isLast
      cases isLast
    · exact delimited
  · exact fun _ _ _ _ => delimited_blanks isAfter nothing rest

theorem Starts.dropWhile
    (h : Starts core)
    (rest : List UInt8) :
    (core ++ rest).dropWhile Byte.isBlank = core ++ rest := by
  obtain ⟨b, more, rfl, notBlank, _⟩ := h
  rw [List.cons_append, List.dropWhile_cons_of_neg (by simp [notBlank])]

end Syntax

namespace Document

open Syntax

/-! ## Streams -/

/-- A piece of a stream: a text that strict reading makes a tree of, and the blanks after it. -/
structure Frame (options : ParserOptions) where
  text : List UInt8
  tree : Tree
  blanks : List UInt8
  reads : readTree .strict options text = .ok tree
  areBlanks : Blanks blanks
  nonempty : blanks ≠ []

variable {g : Grammar} {options : ParserOptions}

/-- The texts of the frames, each with its blanks, one after another. -/
def stream (frames : List (Frame options)) : List UInt8 :=
  frames.flatMap fun frame => frame.text ++ frame.blanks

/-- The stream of the frames from the start of its first value on. -/
def ahead
    (frames : List (Frame options)) : List UInt8 :=
  (stream frames).dropWhile Byte.isBlank

/-- What there is to read from an input that ends in the stream of the frames: each tree, with the
offset of the next value in what is left of the input. -/
def steps (input : List UInt8) : List (Frame options) → List (Tree × Nat)
  | [] => []
  | frame :: frames =>
    (frame.tree, input.length - (ahead frames).length) :: steps (ahead frames) frames

/-- Reads so many values, each from the rest that the one before it leaves, and gives them with
their offsets and the last rest. -/
def readTimes
    (g : Grammar)
    (options : ParserOptions) :
    Nat → List UInt8 → Except Fault (List (Tree × Nat) × List UInt8)
  | 0, input => .ok ([], input)
  | count + 1, input => do
    let (tree, stop) ← readFront g options input
    let (more, rest) ← readTimes g options count (input.drop stop)
    return ((tree, stop) :: more, rest)

theorem stream_cons
    (frame : Frame options)
    (frames : List (Frame options)) :
    stream (frame :: frames) = frame.text ++ (frame.blanks ++ stream frames) := by
  simp [stream]

/-- Ahead there is a value, and behind the blanks that follow it the next one. -/
theorem ahead_cons
    (frame : Frame options)
    (frames : List (Frame options)) :
    ∃ core rest, ahead (frame :: frames) = core ++ rest ∧ Core options core frame.tree ∧
      StrictApart core rest ∧ rest.dropWhile Byte.isBlank = ahead frames := by
  obtain ⟨before, core, after, split, isBefore, isAfter, isCore⟩ := exists_core frame.reads
  refine ⟨core, after ++ (frame.blanks ++ stream frames), ?_, isCore, ?_, ?_⟩
  · rw [ahead, stream_cons, split, List.append_assoc, List.dropWhile_append_of_pos isBefore,
      List.append_assoc, isCore.starts.dropWhile]
  · intro _ _ _ _
    rw [← List.append_assoc]
    exact delimited_blanks (isAfter.append frame.areBlanks) (by simp [frame.nonempty]) _
  · rw [List.dropWhile_append_of_pos isAfter, List.dropWhile_append_of_pos frame.areBlanks]
    rfl

/-- One step reads the tree of the first frame and leaves the stream at the start of the next
value. -/
theorem readFront_ahead
    (frame : Frame options)
    (frames : List (Frame options))
    {lead : List UInt8}
    (isLead : Blanks lead) :
    readFront .strict options (lead ++ ahead (frame :: frames)) = .ok (frame.tree,
        (lead ++ ahead (frame :: frames)).length - (ahead frames).length) ∧
      (lead ++ ahead (frame :: frames)).drop
        ((lead ++ ahead (frame :: frames)).length - (ahead frames).length) = ahead frames := by
  obtain ⟨core, rest, split, isCore, ends, next⟩ := ahead_cons frame frames
  have parts := List.takeWhile_append_dropWhile (p := Byte.isBlank) (l := rest)
  rw [next] at parts
  have offset : lead.length + (core.length + (rest.takeWhile Byte.isBlank).length) =
      (lead ++ ahead (frame :: frames)).length - (ahead frames).length := by
    have length := congrArg List.length parts
    rw [List.length_append] at length
    rw [split, List.length_append, List.length_append]
    omega
  refine ⟨?_, ?_⟩
  · rw [← offset, split]
    exact isCore.reads lead rest isLead ends
  · refine (List.suffix_iff_eq_drop.mp ⟨lead ++ (core ++ rest.takeWhile Byte.isBlank), ?_⟩).symm
    rw [split, List.append_assoc, List.append_assoc, parts]

/-- By induction on the frames: there may be blanks before the first value, and after each step the
rest of the stream is ahead. -/
theorem readTimes_ahead
    (frames : List (Frame options)) :
    ∀ lead, Blanks lead → (frames = [] → lead = []) →
      readTimes .strict options frames.length (lead ++ ahead frames) =
        .ok (steps (lead ++ ahead frames) frames, []) := by
  induction frames with
  | nil =>
      intro lead _ none
      rw [none rfl]
      rfl
  | cons frame frames ih =>
      intro lead isLead _
      obtain ⟨read, left⟩ := readFront_ahead frame frames isLead
      have later := ih [] blanks_nil fun _ => rfl
      rw [List.nil_append] at later
      rw [List.length_cons, readTimes, read]
      simp only [bind, Except.bind, left, later]
      rfl

/-- As many steps as there are frames read the stream to its end. -/
theorem readTimes_stream
    (frames : List (Frame options)) :
    readTimes .strict options frames.length (stream frames) =
      .ok (steps (stream frames) frames, []) := by
  have split : (stream frames).takeWhile Byte.isBlank ++ ahead frames = stream frames :=
    List.takeWhile_append_dropWhile
  have times := readTimes_ahead frames _ (blanks_takeWhile (stream frames)) (by rintro rfl; rfl)
  rwa [split] at times

/-- A document is read in front of any text that does not go on with its last number. -/
theorem readFront_append
    {text rest : List UInt8} {tree : Tree}
    (read : readTree .strict options text = .ok tree)
    (ends : (∀ b, text.getLast? = some b → Byte.isDigit b = false) ∨ Delimited rest) :
    readFront .strict options (text ++ rest) =
      .ok (tree, text.length + (rest.takeWhile Byte.isBlank).length) := by
  obtain ⟨before, core, after, rfl, isBefore, isAfter, isCore⟩ := exists_core read
  have found := isCore.reads before (after ++ rest) isBefore (strictApart_of_getLast isAfter ends)
  rw [List.takeWhile_append_of_pos isAfter] at found
  simpa [Nat.add_assoc] using found

/-! ## Reading up to the end -/

theorem readTimes_succ
    {count : Nat} {input rest : List UInt8} {found : List (Tree × Nat)}
    (h : readTimes g options (count + 1) input = .ok (found, rest)) :
    ∃ tree stop more, readFront g options input = .ok (tree, stop) ∧
      readTimes g options count (input.drop stop) = .ok (more, rest) ∧
      found = (tree, stop) :: more := by
  rw [readTimes] at h
  cases read : readFront g options input with
  | error fault =>
      simp [read, bind, Except.bind] at h
  | ok front =>
      obtain ⟨tree, stop⟩ := front
      cases times : readTimes g options count (input.drop stop) with
      | error fault =>
          simp [read, times, bind, Except.bind] at h
      | ok later =>
          obtain ⟨more, last⟩ := later
          simp only [read, times, bind, Except.bind, pure, Except.pure] at h
          cases h
          exact ⟨tree, stop, more, rfl, times, rfl⟩

theorem readFront_nil
    (g : Grammar)
    (options : ParserOptions) :
    ∃ fault, readFront g options [] = .error fault := by
  cases g <;> exact ⟨_, rfl⟩

/-- Reading to the end takes the same steps, as each of them leaves something but the last. -/
theorem readUpTo_of_readTimes :
    ∀ (count bound : Nat) (input : List UInt8)
      (found : List (Tree × Nat)), count ≤ bound →
        readTimes g options (count + 1) input = .ok (found, []) →
        readUpTo g options bound input = (found, none) := by
  intro count
  induction count with
  | zero =>
      intro bound input found _ times
      obtain ⟨tree, stop, more, read, last, rfl⟩ := readTimes_succ times
      simp only [readTimes, Except.ok.injEq, Prod.mk.injEq] at last
      obtain ⟨rfl, nothing⟩ := last
      cases bound <;> simp [readUpTo, read, nothing]
  | succ count ih =>
      intro bound input found enough times
      obtain ⟨tree, stop, more, read, later, rfl⟩ := readTimes_succ times
      obtain ⟨bound, rfl⟩ : ∃ less, bound = less + 1 := ⟨bound - 1, by omega⟩
      have nonempty : input.drop stop ≠ [] := by
        intro nothing
        obtain ⟨_, _, _, next, _⟩ := readTimes_succ later
        obtain ⟨fault, failed⟩ := readFront_nil g options
        rw [nothing, failed] at next
        cases next
      have rest := ih bound _ more (by omega) later
      rw [readUpTo, read]
      simp [nonempty, rest]

theorem length_le_stream
    (frames : List (Frame options)) :
    frames.length ≤ (stream frames).length := by
  induction frames with
  | nil =>
      exact Nat.zero_le _
  | cons frame frames ih =>
      have taken := List.length_pos_iff.mpr frame.nonempty
      rw [stream_cons, List.length_cons, List.length_append, List.length_append]
      omega

/-- A stream of one frame or more is read to its end without a fault. -/
theorem readAll_stream
    {frames : List (Frame options)}
    (nonempty : frames ≠ []) :
    readAll .strict options (stream frames) = (steps (stream frames) frames, none) := by
  obtain ⟨frame, others, rfl⟩ := List.exists_cons_of_ne_nil nonempty
  have short := length_le_stream (frame :: others)
  rw [List.length_cons] at short
  exact readUpTo_of_readTimes others.length _ _ _ (by omega) (readTimes_stream (frame :: others))

/-! ## Reading one by one -/

/-- Documents with blanks after each are read one by one: as many steps as there are documents read
their trees in order, each step leaves the stream at the start of the next value, and the last one
leaves nothing. One step on a document and any text after it reads the tree of the document, if the
document does not end in a digit or the text does not go on with a letter, a digit, an underscore or
a point. -/
theorem read_concatenated
    (options : ParserOptions) :
    (∀ frames : List (Frame options),
        readTimes .strict options frames.length (stream frames) =
          .ok (steps (stream frames) frames, [])) ∧
      ∀ (text rest : List UInt8) (tree : Tree), readTree .strict options text = .ok tree →
        ((∀ b, text.getLast? = some b → Byte.isDigit b = false) ∨ Delimited rest) →
        readFront .strict options (text ++ rest) =
          .ok (tree, text.length + (rest.takeWhile Byte.isBlank).length) :=
  ⟨readTimes_stream, fun _ _ _ => readFront_append⟩

/-- The texts `true` and ` [] ` with a space and two line feeds after them. -/
def sampleFrames : List (Frame ⟨some 1⟩) :=
  [⟨Literal.true.word, .boolean true, [0x20], rfl, by simp [Blanks, Byte.isBlank], by simp⟩,
    ⟨[0x20, 0x5B, 0x5D, 0x20], .array [], [0x0A, 0x0A], rfl, by simp [Blanks, Byte.isBlank],
      by simp⟩]

/-- Two values of a stream, an array before a letter, and a number before a bracket. -/
theorem read_concatenated_sample :
    readTimes .strict ⟨some 1⟩ 2 (stream sampleFrames) =
        .ok ([(.boolean true, 6), (.array [], 5)], []) ∧
      readFront .strict ⟨some 1⟩ [0x5B, 0x5D, 0x78] = .ok (.array [], 2) ∧
      ∃ tree, readTree .strict ⟨some 1⟩ [0x31] = .ok tree ∧
        readFront .strict ⟨some 1⟩ [0x31, 0x5B] = .ok (tree, 1) := by
  obtain ⟨streams, fronts⟩ := read_concatenated ⟨some 1⟩
  refine ⟨streams sampleFrames, ?_, _, rfl, ?_⟩
  · exact fronts [0x5B, 0x5D] [0x78] (.array []) rfl (.inl (by simp [Byte.isDigit]))
  · exact fronts [0x31] [0x5B] _ rfl (.inr fun b hb => by cases hb; decide)

end Document
end JsonDoc
