import JsonDoc.Proofs.Reading.Level
import JsonDoc.Proofs.Reading.Stability
import JsonDoc.Proofs.Streaming.TokenCompletion

/-!
# Documents that are broken off

What a reader has gone past without a fault can be completed: some more bytes make it a document
that is read under the same limit of depth, `read_completes`. A rule resumes, `Run.Resumes`, if the
bytes that it has gone past can go on so that it accepts them. This is proved of the rules as they
are put together: where one part of a rule has failed, its completion is followed by the shortest
text that the next part accepts.

A completion needs no bytes that the reader has not yet seen a place for: a missing value or key is
an empty string, a comment is closed by a line feed, and an open container by its last byte.
-/

namespace JsonDoc

namespace Scanner

/-- A place where every rule does the same if the same bytes are ahead: the depths and their
limits agree. -/
structure Alike (s t : Scanner) : Prop where
  depth : t.depth = s.depth
  maxDepth : t.maxDepth = s.maxDepth

variable {s t u : Scanner}

theorem Alike.refl
    (s : Scanner) :
    s.Alike s := ⟨rfl, rfl⟩

theorem Alike.advance
    (h : s.Alike t)
    (count : Nat) :
    s.Alike (t.advance count) :=
  ⟨h.depth, h.maxDepth⟩

theorem Alike.trans
    (h : s.Alike t)
    (k : t.Alike u) :
    s.Alike u :=
  ⟨k.depth.trans h.depth, k.maxDepth.trans h.maxDepth⟩

theorem Alike.symm
    (h : s.Alike t) :
    t.Alike s := ⟨h.depth.symm, h.maxDepth.symm⟩

end Scanner

namespace Run

/-- Wherever the text stands before the rest, at a place like `s`, the rule goes past the text and
no further. -/
def Accepts (f : Rule) (s : Scanner) (text rest : List UInt8) : Prop :=
  ∀ t, s.Alike t → t.rest = text ++ rest → (f t).error = none ∧ (f t).stop = t.advance text.length

variable {f next : Rule} {s t : Scanner} {a b text rest : List UInt8}
  {P Q R : List UInt8 → Prop}

theorem Accepts.of_alike
    (h : Accepts f t text rest)
    (alike : s.Alike t) :
    Accepts f s text rest :=
  fun u like ahead => h u (alike.symm.trans like) ahead

theorem Accepts.andThen
    (h : Accepts f s a (b ++ rest))
    (k : Accepts next s b rest) :
    Accepts (fun t => (f t).andThen next) s (a ++ b) rest := by
  intro t alike ahead
  rw [List.append_assoc] at ahead
  obtain ⟨ok, stop⟩ := h t alike ahead
  obtain ⟨ok', stop'⟩ := k (t.advance a.length) (alike.advance _) (Scanner.rest_advance ahead)
  rw [← stop] at ok'
  refine ⟨error_andThen_eq_none.mpr ⟨ok, ok'⟩, ?_⟩
  rw [stop_andThen ok, stop, stop', Scanner.advance_advance, List.length_append]

theorem Accepts.skip
    {g : Grammar}
    (h : Accepts f s text rest)
    (stays : g.triviaLength (text ++ rest) = 0) :
    Accepts (fun t => f (g.skip t)) s text rest := by
  intro t alike ahead
  have same : g.skip t = t := by
    rw [Grammar.skip, ahead, stays, Scanner.advance_zero]
  simp only [same]
  exact h t alike ahead

theorem accepts_expect
    (byte : UInt8)
    (expected : Expectation)
    (s : Scanner)
    (rest : List UInt8) :
    Accepts (expect byte expected) s [byte] rest := by
  intro t _ ahead
  rw [expect_of_peek (Scanner.peek_of_rest ahead)]
  exact ⟨rfl, rfl⟩

/-- What the rule has gone past from a place can be gone on with so that the rule accepts it before
every rest of the class `Q`; where the rule has succeeded, as it is. With the rest it is of the
class `P`. -/
structure Resumes (P Q : List UInt8 → Prop) (f : Rule) (s : Scanner) : Prop where
  depth : (f s).error = none → (f s).stop.depth = s.depth
  completes : ∃ text more, s.Passes text (f s).reach ∧ ((f s).error = none → more = []) ∧
    ∀ rest, Q rest → P (text ++ (more ++ rest)) ∧ Accepts f s (text ++ more) rest

theorem Resumes.imp
    (h : Resumes P Q f s)
    (each : ∀ rest, P rest → R rest) :
    Resumes R Q f s := by
  obtain ⟨depth, text, more, passes, none, accepts⟩ := h
  refine ⟨depth, text, more, passes, none, ?_⟩
  exact fun rest isRest => ⟨each _ (accepts rest isRest).1, (accepts rest isRest).2⟩

theorem Resumes.before
    (h : Resumes P Q f s)
    (each : ∀ rest, R rest → Q rest) :
    Resumes P R f s := by
  obtain ⟨depth, text, more, passes, none, accepts⟩ := h
  exact ⟨depth, text, more, passes, none, fun rest isRest => accepts rest (each rest isRest)⟩

/-- Where the rule has succeeded it accepts what it has gone past, wherever that stands. -/
theorem Resumes.accepts
    (h : Resumes P Q f s)
    (ok : (f s).error = none) :
    ∃ text, s.Passes text (f s).stop ∧ ∀ rest, Q rest → Accepts f s text rest := by
  obtain ⟨text, more, passes, none, accepts⟩ := h.completes
  cases none ok
  rw [reach_of_ok ok] at passes
  refine ⟨text, passes, fun rest isRest => ?_⟩
  have accepted := (accepts rest isRest).2
  rwa [List.append_nil] at accepted

/-- Where the first part has failed, a text that the second part accepts follows its completion. -/
theorem Resumes.andThen
    (first : Resumes P Q f s)
    (fresh : ∃ word, ∀ rest, R rest → Q (word ++ rest) ∧ Accepts next s word rest)
    (second : (f s).error = none → Resumes Q R next (f s).stop) :
    Resumes P R (fun t => (f t).andThen next) s where
  depth := by
    intro ok
    obtain ⟨okFirst, okSecond⟩ := error_andThen_eq_none.mp ok
    rw [stop_andThen okFirst, (second okFirst).depth okSecond, first.depth okFirst]
  completes := by
    obtain ⟨a, more, passes, none, accepts⟩ := first.completes
    by_cases ok : (f s).error = Option.none
    · obtain ⟨b, more', passes', none', accepts'⟩ := (second ok).completes
      cases none ok
      rw [reach_of_ok ok] at passes
      refine ⟨a ++ b, more', ?_, ?_, ?_⟩
      · rw [reach_andThen ok]
        exact passes.trans passes'
      · intro all
        exact none' (error_andThen_eq_none.mp all).2
      · intro rest isRest
        obtain ⟨begins, accepted⟩ := accepts' rest isRest
        obtain ⟨whole, acceptedFirst⟩ := accepts _ begins
        rw [List.append_nil, ← List.append_assoc b] at acceptedFirst
        have alike : s.Alike (f s).stop := ⟨first.depth ok, passes.maxDepth⟩
        refine ⟨by simpa using whole, ?_⟩
        rw [List.append_assoc]
        exact acceptedFirst.andThen (accepted.of_alike alike)
    · obtain ⟨word, fresh⟩ := fresh
      refine ⟨a, more ++ word, ?_, ?_, ?_⟩
      · obtain ⟨error, failed⟩ := Option.ne_none_iff_exists'.mp ok
        rwa [andThen_of_error failed]
      · intro all
        exact absurd (error_andThen_eq_none.mp all).1 ok
      · intro rest isRest
        obtain ⟨begins, accepted⟩ := fresh rest isRest
        obtain ⟨whole, acceptedFirst⟩ := accepts _ begins
        refine ⟨by simpa using whole, ?_⟩
        rw [← List.append_assoc]
        exact acceptedFirst.andThen accepted

end Run

namespace Syntax

open Run Grammar

/-- The text ends a token that stands before it. -/
def Stops (rest : List UInt8) : Prop := Follows rest ∧ rest ≠ []

/-- The text begins with a byte that stands for itself. -/
def Parts (rest : List UInt8) : Prop := ∃ b more, rest = b :: more ∧ Separates b

/-- The text begins with the closing byte of a container. -/
def Closing
    (sep : Separation)
    (rest : List UInt8) : Prop :=
  ∃ more, rest = sep.close :: more

variable {g : Grammar} {lex : Lexicon} {apart : List UInt8 → List UInt8 → Prop}
  {s : Scanner} {f : Rule} {sep : Separation} {text rest : List UInt8}

theorem Parts.stops
    (h : Parts rest) :
    Stops rest := by
  obtain ⟨b, more, rfl, separates⟩ := h
  exact ⟨separates.follows more, by simp⟩

theorem Parts.triviaLength
    (h : Parts rest) :
    g.triviaLength rest = 0 := by
  obtain ⟨b, more, rfl, separates⟩ := h
  exact triviaLength_cons g separates.notBlank separates.notHash more

theorem Closing.parts
    (h : Closing sep rest)
    (closes : Closes sep) :
    Parts rest := by
  obtain ⟨more, rfl⟩ := h
  exact ⟨_, more, rfl, closes.separates⟩

theorem Starts.append
    (h : Starts text)
    (rest : List UInt8) :
    Starts (text ++ rest) := by
  obtain ⟨b, more, rfl, begins⟩ := h
  exact ⟨b, more ++ rest, rfl, begins⟩

theorem Starts.triviaLength
    (h : Starts text) :
    g.triviaLength text = 0 := by
  obtain ⟨b, more, rfl, blank, hash, _⟩ := h
  exact triviaLength_cons g blank hash more

/-- In front of an item a container is not closed. -/
theorem Starts.peek_ne
    (h : Starts text)
    (closes : Closes sep)
    (ahead : s.rest = text) :
    s.peek ≠ some sep.close :=
  closes.peek_ne h (show s.rest = text ++ [] by rw [ahead, List.append_nil])

/-! ## Trivia -/

theorem accepts_skip
    (complete : Complete g lex apart)
    {trivia : List UInt8}
    (isTrivia : lex.trivia trivia)
    (stays : g.triviaLength (text ++ rest) = 0)
    (h : Accepts f s text rest) :
    Accepts (fun t => f (g.skip t)) s (trivia ++ text) rest := by
  intro t alike ahead
  rw [List.append_assoc] at ahead
  have skipped : g.skip t = t.advance trivia.length := by
    rw [Grammar.skip, ahead, complete.skip _ _ isTrivia stays]
  obtain ⟨ok, stop⟩ := h (t.advance trivia.length) (alike.advance _) (Scanner.rest_advance ahead)
  simp only [skipped]
  rw [stop, Scanner.advance_advance, List.length_append]
  exact ⟨ok, rfl⟩

section Leaves

variable (sound : Sound g lex) (complete : Complete g lex apart) (begun : Begun g lex)
include sound complete begun

/-- A rule that comes after trivia. A comment that may be open at the end of the input is closed
first, which a rule that succeeds does not need. -/
theorem resumes_skip
    {P P' Q : List UInt8 → Prop}
    (h : Resumes P Q f (g.skip s))
    (atEnd : (g.skip s).rest = [] → (f (g.skip s)).error ≠ none)
    (stays : ∀ rest, P rest → g.triviaLength rest = 0)
    (after : ∀ trivia rest, lex.trivia trivia → P rest → P' (trivia ++ rest)) :
    Resumes P' Q (fun t => f (g.skip t)) s where
  depth := h.depth
  completes := by
    obtain ⟨text, more, passes, none, accepts⟩ := h.completes
    have passesSkip := passes_skip g s
    obtain ⟨isEnding, isTrivia⟩ := sound.skip s.rest
    have alike : s.Alike (g.skip s) := (Scanner.Alike.refl s).advance _
    have whole {trivia : List UInt8} (closed : lex.trivia trivia) (rest : List UInt8)
        (isRest : Q rest) : P' (trivia ++ (text ++ (more ++ rest))) ∧
          Accepts (fun t => f (g.skip t)) s (trivia ++ (text ++ more)) rest := by
      obtain ⟨holds, accepted⟩ := accepts rest isRest
      have stay := stays _ holds
      rw [← List.append_assoc text] at stay
      exact ⟨after _ _ closed holds, accepts_skip complete closed stay (accepted.of_alike alike)⟩
    by_cases nothing : (g.skip s).rest = []
    · have empty : text = [] := by
        have split := passes.rest
        rw [nothing] at split
        exact (List.append_eq_nil_iff.mp split.symm).1
      subst empty
      refine ⟨_, Byte.lineFeed :: more, passesSkip.trans passes,
        fun ok => absurd ok (atEnd nothing), ?_⟩
      simpa using whole (begun.ending _ isEnding)
    · refine ⟨_, more, passesSkip.trans passes, none, ?_⟩
      simpa using whole (isTrivia nothing)

/-! ## Keys and scalars -/

omit sound begun in
theorem accepts_apart
    {tree : Tree}
    (scalar : lex.scalar text tree)
    (s : Scanner)
    (ends : apart text rest) :
    Accepts g.value s text rest := by
  intro t _ ahead
  obtain ⟨kind, read, _⟩ := complete.scalar t text rest tree scalar ahead ends
  rw [value_eq, read]
  exact ⟨rfl, rfl⟩

omit sound begun in
theorem accepts_scalar
    {tree : Tree}
    (scalar : lex.scalar text tree)
    (s : Scanner)
    (stops : Stops rest) :
    Accepts g.value s text rest :=
  accepts_apart complete scalar s (complete.separate _ _ stops.1 stops.2)

omit sound begun in
theorem accepts_key
    {content : String}
    (isKey : lex.key text content)
    (s : Scanner)
    (stops : Stops rest) :
    Accepts g.key s text rest := by
  intro t _ ahead
  rw [(complete.key t text rest content isKey ahead stops.1).1]
  exact ⟨rfl, rfl⟩

theorem resumes_key
    (s : Scanner) :
    Resumes Starts Stops g.key s where
  depth := fun _ => (level_key none g s).depth
  completes := by
    have whole {text more : List UInt8} {content : String} (isKey : lex.key (text ++ more) content)
        (rest : List UInt8) (stops : Stops rest) :
        Starts (text ++ (more ++ rest)) ∧ Accepts g.key s (text ++ more) rest := by
      rw [← List.append_assoc]
      exact ⟨(complete.keyStarts _ _ isKey).append rest, accepts_key complete isKey s stops⟩
    by_cases ok : (g.key s).error = none
    · obtain ⟨text, reads, isKey⟩ := sound.key s ok
      rw [← List.append_nil text] at isKey
      exact ⟨text, [], reach_of_ok ok ▸ reads.passes, fun _ => rfl, whole isKey⟩
    · obtain ⟨text, more, passes, content, isKey⟩ := begun.key s ok
      exact ⟨text, more, passes, fun all => absurd all ok, whole isKey⟩

theorem resumes_scalar
    (notArray : s.peek ≠ some Byte.openBracket)
    (notObject : s.peek ≠ some Byte.openBrace) :
    Resumes Starts Stops g.value s := by
  have whole {text more : List UInt8} {tree : Tree} (scalar : lex.scalar (text ++ more) tree)
      (rest : List UInt8) (stops : Stops rest) :
      Starts (text ++ (more ++ rest)) ∧ Accepts g.value s (text ++ more) rest := by
    rw [← List.append_assoc]
    exact ⟨(complete.scalarStarts _ _ scalar).append rest, accepts_scalar complete scalar s stops⟩
  by_cases ok : (g.value s).error = none
  · have ok' := ok
    rw [value_eq] at ok'
    obtain ⟨kind, text, tree, reads, scalar, _⟩ := sound.scalar s g.value ok' notArray notObject
    rw [← value_eq] at reads
    rw [← List.append_nil text] at scalar
    refine ⟨fun _ => ?_, text, [], reach_of_ok ok ▸ reads.passes, fun _ => rfl, whole scalar⟩
    obtain ⟨rest, _, run⟩ := reads
    rw [run]
    rfl
  · have failed := ok
    rw [value_eq] at failed
    obtain ⟨text, more, passes, tree, scalar⟩ := begun.scalar s g.value failed notArray notObject
    rw [← value_eq] at passes
    exact ⟨fun all => absurd all ok, text, more, passes, fun all => absurd all ok, whole scalar⟩

/-! ## Members -/

omit sound begun complete in
theorem resumes_colon
    (s : Scanner) :
    Resumes Parts (fun _ => True) (expect Byte.colon .colonAfterKey) s := by
  have depth := (level_expect none Byte.colon .colonAfterKey s).depth
  have whole (rest : List UInt8) : Parts (Byte.colon :: rest) ∧
      Accepts (expect Byte.colon .colonAfterKey) s [Byte.colon] rest :=
    ⟨⟨_, _, rfl, separates_colon⟩, accepts_expect _ _ s rest⟩
  by_cases colon : s.peek = some Byte.colon
  · refine ⟨fun _ => depth, [Byte.colon], [], ?_, fun _ => rfl, fun rest _ => whole rest⟩
    rw [expect_of_peek colon]
    exact Scanner.passes_bump colon
  · refine ⟨fun _ => depth, [], [Byte.colon], ?_, fun ok => absurd (peek_of_expect ok) colon,
      fun rest _ => whole rest⟩
    have noColon : expect Byte.colon .colonAfterKey s = missing s .colonAfterKey := by
      simp [expect, colon]
    rw [noColon, reach_missing (by simp)]
    exact .refl s

omit sound begun complete in
theorem value_atEnd
    (atEnd : s.rest = []) :
    (g.value s).error ≠ none := by
  simp [value_eq, valueOf, Scanner.peek, atEnd, missing, fail]

/-- What follows a key: a colon and a value. -/
theorem resumes_colonAndValue
    (each : ∀ t : Scanner, t.rest.length ≤ s.rest.length → Resumes Starts Stops g.value t) :
    Resumes Parts Stops (g.colonAndValue g.value) s := by
  obtain ⟨tree, empty⟩ := begun.emptyScalar
  have starts := complete.scalarStarts _ _ empty
  refine (resumes_colon s).andThen ⟨quoted [], fun rest stops => ⟨trivial, ?_⟩⟩ fun _ => ?_
  · exact (accepts_scalar complete empty s stops).skip (starts.append rest).triviaLength
  · refine resumes_skip sound complete begun (each _ ?_) value_atEnd
      (fun rest starts => starts.triviaLength) fun _ _ _ _ => trivial
    have colonShorter := (silent_expect Byte.colon .colonAfterKey s).orderly.length_rest_le
    have valueShorter := length_rest_skip_le g (expect Byte.colon .colonAfterKey s).stop
    omega

omit sound in
/-- The shortest member: an empty key, a colon and an empty value. -/
theorem accepts_member
    (s : Scanner)
    (stops : Stops rest) :
    Accepts (g.member g.value) s (quoted [] ++ (Byte.colon :: quoted [])) rest ∧
      Accepts (fun t => g.colonAndValue g.value (g.skip t)) s (Byte.colon :: quoted []) rest := by
  obtain ⟨tree, empty⟩ := begun.emptyScalar
  obtain ⟨content, emptyKey⟩ := begun.emptyKey
  have starts := complete.scalarStarts _ _ empty
  have parts : Parts (Byte.colon :: quoted [] ++ rest) := ⟨_, _, rfl, separates_colon⟩
  have value : Accepts (fun t => g.value (g.skip t)) s (quoted []) rest :=
    (accepts_scalar complete empty s stops).skip (starts.append rest).triviaLength
  have colon : Accepts (g.colonAndValue g.value) s (Byte.colon :: quoted []) rest :=
    (accepts_expect Byte.colon .colonAfterKey s (quoted [] ++ rest)).andThen value
  have afterKey : Accepts (fun t => g.colonAndValue g.value (g.skip t)) s
      (Byte.colon :: quoted []) rest := colon.skip parts.triviaLength
  exact ⟨(accepts_key complete emptyKey s parts.stops).andThen afterKey, afterKey⟩

theorem resumes_member
    (each : ∀ t : Scanner, t.rest.length ≤ s.rest.length → Resumes Starts Stops g.value t) :
    Resumes Starts Stops (g.member g.value) s := by
  have keyShorter := (orderly_key g s).length_rest_le
  have skipShorter := length_rest_skip_le g (g.key s).stop
  refine (resumes_key sound complete begun s).andThen
    ⟨Byte.colon :: quoted [], fun rest stops => ⟨?_, (accepts_member complete begun s stops).2⟩⟩
    fun _ => ?_
  · exact Parts.stops ⟨_, _, rfl, separates_colon⟩
  · refine resumes_skip sound complete begun (f := g.colonAndValue g.value)
      (resumes_colonAndValue sound complete begun fun t ht => each t (by omega)) ?_
      (fun rest parts => parts.triviaLength) ?_
    · intro atEnd
      simp [colonAndValue, expect, Scanner.peek, atEnd, missing, fail, andThen]
    · exact fun trivia rest isTrivia parts =>
        ⟨follows_append (complete.follows _ isTrivia) parts.stops.1, by simp [parts.stops.2]⟩

end Leaves

/-! ## Items -/

/-- What follows an item and the trivia after it. -/
def commaOrClose
    (g : Grammar)
    (sep : Separation)
    (next : Rule) : Rule := fun t =>
  match t.peek with
  | none => .missing t sep.afterItem
  | some b =>
    if b = Byte.comma then
      let u := g.skip t.bump
      if u.peek = some sep.close then .fail u (.unexpected u.position sep.afterComma)
      else next u
    else if b = sep.close then .done t
    else .missing t sep.afterItem

/-- One rule in front of the closing byte, and another elsewhere. -/
def closeOr (sep : Separation) (atClose next : Rule) : Rule := fun t =>
  if t.peek = some sep.close then atClose t else next t

/-- What follows a comma and the trivia after it. -/
def itemAfterComma (sep : Separation) (next : Rule) : Rule :=
  closeOr sep (fun u => .fail u (.unexpected u.position sep.afterComma)) next

theorem afterItem_eq
    (g : Grammar)
    (sep : Separation)
    (next : Rule) :
    g.afterItem sep next = fun s => commaOrClose g sep next (g.skip s) := rfl

theorem commaOrClose_comma
    (next : Rule)
    (comma : s.peek = some Byte.comma) :
    commaOrClose g sep next s = itemAfterComma sep next (g.skip s.bump) := by
  simp only [commaOrClose, comma, if_true]
  rfl

/-- The errors of a container are told from those of a literal. -/
structure Plain (sep : Separation) : Prop where
  closes : Closes sep
  afterItem : ∀ l, sep.afterItem ≠ .literal l

section Items

variable {next item : Rule} (plain : Plain sep)
include plain

theorem accepts_closeOr
    (atClose : Rule)
    (starts : Starts (text ++ rest))
    (h : Accepts next s text rest) :
    Accepts (closeOr sep atClose next) s text rest := by
  intro t alike ahead
  simp only [closeOr, if_neg (starts.peek_ne plain.closes ahead)]
  exact h t alike ahead

theorem resumes_closeOr
    {Q : List UInt8 → Prop}
    (atClose : Rule)
    (notClose : s.peek ≠ some sep.close)
    (h : Resumes Starts Q next s) :
    Resumes Starts Q (closeOr sep atClose next) s := by
  have goesOn : closeOr sep atClose next s = next s := if_neg notClose
  obtain ⟨depth, text, more, passes, none, accepts⟩ := h
  rw [← goesOn] at depth passes none
  refine ⟨depth, text, more, passes, none, ?_⟩
  intro rest isRest
  obtain ⟨starts, accepted⟩ := accepts rest isRest
  have whole : Starts (text ++ more ++ rest) := by rwa [List.append_assoc]
  exact ⟨starts, accepts_closeOr plain atClose whole accepted⟩

theorem resumes_itemAfterComma
    (h : Resumes Starts (Closing sep) next s)
    (fresh : ∃ word, Starts word ∧ ∀ rest, Closing sep rest → Accepts next s word rest) :
    Resumes Starts (Closing sep) (itemAfterComma sep next) s := by
  by_cases close : s.peek = some sep.close
  · have refused : itemAfterComma sep next s =
        fail s (.unexpected s.position sep.afterComma) := if_pos close
    obtain ⟨word, starts, accepts⟩ := fresh
    refine ⟨fun ok => ?_, [], word, ?_, fun ok => ?_, ?_⟩
    · simp [refused, fail] at ok
    · rw [refused, reach_fail (by simp)]
      exact .refl s
    · simp [refused, fail] at ok
    · exact fun rest closing => ⟨starts.append rest,
        accepts_closeOr plain _ (starts.append rest) (accepts rest closing)⟩
  · exact resumes_closeOr plain _ close h

theorem accepts_close
    (next : Rule)
    (s : Scanner)
    (closing : Closing sep rest) :
    Accepts (commaOrClose g sep next) s [] rest := by
  obtain ⟨more, rfl⟩ := closing
  intro t _ ahead
  have notComma := plain.closes.notComma
  have eq : commaOrClose g sep next t = done t := by
    simp [commaOrClose, Scanner.peek_of_rest ahead, notComma]
  rw [eq]
  exact ⟨rfl, by simp [done]⟩

theorem accepts_afterItem
    (next : Rule)
    (s : Scanner)
    (closing : Closing sep rest) :
    Accepts (g.afterItem sep next) s [] rest :=
  (accepts_close plain next s closing).skip (closing.parts plain.closes).triviaLength

theorem resumes_commaOrClose
    (h : s.peek = some Byte.comma →
      Resumes (fun _ => True) (Closing sep) (fun t => itemAfterComma sep next (g.skip t)) s.bump) :
    Resumes Parts (Closing sep) (commaOrClose g sep next) s := by
  have closed (rest : List UInt8) (closing : Closing sep rest) :
      Parts rest ∧ Accepts (commaOrClose g sep next) s [] rest :=
    ⟨closing.parts plain.closes, accepts_close plain next s closing⟩
  -- Only past a comma are there bytes that have to be gone on with.
  have stays (eq : commaOrClose g sep next s = done s ∨
      commaOrClose g sep next s = missing s sep.afterItem) :
      Resumes Parts (Closing sep) (commaOrClose g sep next) s := by
    refine ⟨?_, [], [], ?_, fun _ => rfl, closed⟩
    · rcases eq with eq | eq
      · exact fun _ => by rw [eq]; rfl
      · exact fun _ => by rw [eq]; rfl
    · rcases eq with eq | eq
      · rw [eq]
        exact .refl s
      · rw [eq, reach_missing plain.afterItem]
        exact .refl s
  cases peek : s.peek with
  | none =>
      exact stays (Or.inr (by simp [commaOrClose, peek]))
  | some b =>
      by_cases comma : b = Byte.comma
      · subst comma
        obtain ⟨depth, text, more, passes, none, accepts⟩ := h peek
        have eq : commaOrClose g sep next s = itemAfterComma sep next (g.skip s.bump) :=
          commaOrClose_comma next peek
        rw [← eq] at depth passes none
        refine ⟨depth, Byte.comma :: text, more, (Scanner.passes_bump peek).trans passes, none, ?_⟩
        intro rest closing
        refine ⟨⟨_, _, rfl, separates_comma⟩, ?_⟩
        intro t alike ahead
        have commaAhead : t.peek = some Byte.comma := Scanner.peek_of_rest ahead
        have like : s.bump.Alike t.bump := ⟨alike.depth, alike.maxDepth⟩
        obtain ⟨ok, stop⟩ := (accepts rest closing).2 t.bump like (Scanner.rest_bump ahead)
        rw [commaOrClose_comma next commaAhead, stop, Scanner.bump, Scanner.advance_advance]
        exact ⟨ok, by simp [Nat.add_comm]⟩
      · by_cases close : b = sep.close
        · exact stays (Or.inl (by simp [commaOrClose, peek, close, plain.closes.notComma]))
        · exact stays (Or.inr (by simp [commaOrClose, peek, comma, close]))

variable (sound : Sound g lex) (complete : Complete g lex apart) (begun : Begun g lex)

section After

include sound complete begun

theorem resumes_afterItem
    (atEnd : ∀ t : Scanner, t.rest = [] → (next t).error ≠ none)
    (each : ∀ t : Scanner, t.rest.length < s.rest.length → Resumes Starts (Closing sep) next t)
    (fresh : ∃ word, Starts word ∧
      ∀ (t : Scanner) (rest : List UInt8), Closing sep rest → Accepts next t word rest) :
    Resumes Stops (Closing sep) (g.afterItem sep next) s := by
  obtain ⟨word, starts, accepts⟩ := fresh
  rw [afterItem_eq]
  refine resumes_skip sound complete begun
    (resumes_commaOrClose plain fun comma => ?_) ?_ (fun rest parts => parts.triviaLength) ?_
  · have shorter : (g.skip (g.skip s).bump).rest.length < s.rest.length :=
      Nat.lt_of_lt_of_le (length_rest_skip_bump_lt g comma) (length_rest_skip_le g s)
    refine resumes_skip sound complete begun (P := Starts)
      (resumes_itemAfterComma plain (each _ shorter) ⟨word, starts, accepts _⟩) ?_
      (fun rest starts => starts.triviaLength) fun _ _ _ _ => trivial
    intro nothing
    have goesOn : itemAfterComma sep next (g.skip (g.skip s).bump) =
        next (g.skip (g.skip s).bump) := by
      simp [itemAfterComma, closeOr, Scanner.peek, nothing]
    rw [goesOn]
    exact atEnd _ nothing
  · intro nothing
    simp [commaOrClose, Scanner.peek, nothing, missing, fail]
  · exact fun trivia rest isTrivia parts =>
      ⟨follows_append (complete.follows _ isTrivia) parts.stops.1, by simp [parts.stops.2]⟩

end After

variable (orderly : ∀ t, Orderly t (item t))
include orderly

omit plain in
theorem series_eq_andThen :
    g.series sep item = fun t => (item t).andThen (g.afterItem sep (g.series sep item)) :=
  funext (series_eq orderly)

/-- One item is accepted before the closing byte. -/
theorem accepts_series
    {word : List UInt8}
    (fresh : ∀ (t : Scanner) (rest : List UInt8), Stops rest → Accepts item t word rest)
    (s : Scanner)
    (closing : Closing sep rest) :
    Accepts (g.series sep item) s word rest := by
  have single := (fresh s rest (closing.parts plain.closes).stops).andThen
    (b := []) (accepts_afterItem (g := g) plain (g.series sep item) s closing)
  rwa [← series_eq_andThen orderly, List.append_nil] at single

include sound complete begun

theorem resumes_series
    {n : Nat}
    (fresh : ∃ word, Starts word ∧
      ∀ (t : Scanner) (rest : List UInt8), Stops rest → Accepts item t word rest)
    (each : ∀ t : Scanner, t.rest.length ≤ n → Resumes Starts Stops item t) :
    ∀ (bound : Nat) (s : Scanner), s.rest.length < bound → bound ≤ n + 1 →
      Resumes Starts (Closing sep) (g.series sep item) s := by
  obtain ⟨word, starts, accepts⟩ := fresh
  have one (t : Scanner) (rest : List UInt8) (closing : Closing sep rest) :
      Accepts (g.series sep item) t word rest := accepts_series plain orderly accepts t closing
  have atEnd (t : Scanner) (nothing : t.rest = []) : (g.series sep item t).error ≠ none :=
    fun ok => rest_ne_nil_of_series orderly sound ok nothing
  intro bound
  induction bound with
  | zero =>
      exact fun s hs => absurd hs (Nat.not_lt_zero _)
  | succ bound ih =>
      intro s hs hn
      have shorter := (orderly s).length_rest_le
      rw [series_eq_andThen orderly]
      refine (each s (by omega)).andThen ⟨[], fun rest closing => ?_⟩ fun _ => ?_
      · exact ⟨(closing.parts plain.closes).stops, accepts_afterItem plain _ s closing⟩
      · exact resumes_afterItem plain sound complete begun atEnd
          (fun t ht => ih t (by omega) (by omega)) ⟨word, starts, one⟩

theorem resumes_itemsOrNone
    (fresh : ∃ word, Starts word ∧
      ∀ (t : Scanner) (rest : List UInt8), Stops rest → Accepts item t word rest)
    (each : ∀ t : Scanner, t.rest.length ≤ s.rest.length → Resumes Starts Stops item t) :
    Resumes (fun _ => True) (Closing sep) (g.itemsOrNone sep item) s := by
  have skipShorter := length_rest_skip_le g s
  have eq : g.itemsOrNone sep item =
      fun t => closeOr sep done (g.series sep item) (g.skip t) := rfl
  have series := resumes_series plain sound complete begun orderly fresh each _ (g.skip s)
    (Nat.lt_succ_self _) (by omega)
  rw [eq]
  refine resumes_skip sound complete begun (P := fun rest => g.triviaLength rest = 0) ?_ ?_
    (fun rest stays => stays) fun _ _ _ _ => trivial
  · by_cases close : (g.skip s).peek = some sep.close
    · have none : closeOr sep done (g.series sep item) (g.skip s) = done (g.skip s) := if_pos close
      refine ⟨fun _ => by rw [none]; rfl, [], [], ?_, fun _ => rfl, ?_⟩
      · rw [none]
        exact .refl _
      · rintro rest closing
        refine ⟨(closing.parts plain.closes).triviaLength, ?_⟩
        obtain ⟨more, rfl⟩ := closing
        intro t _ ahead
        have none : closeOr sep done (g.series sep item) t = done t :=
          if_pos (Scanner.peek_of_rest ahead)
        rw [none]
        exact ⟨rfl, by simp [done]⟩
    · exact (resumes_closeOr plain done close series).imp fun rest starts => starts.triviaLength
  · intro nothing
    have goesOn : closeOr sep done (g.series sep item) (g.skip s) =
        g.series sep item (g.skip s) := by
      simp [closeOr, Scanner.peek, nothing]
    rw [goesOn]
    exact fun ok => rest_ne_nil_of_series orderly sound ok nothing

end Items

/-! ## Containers -/

section Containers

variable {item : Rule} {brackets : Brackets}

theorem accepts_container
    (brackets : Brackets)
    (within : s.deeper.exceeded? = none)
    (h : ∀ rest, Closing sep rest → Accepts (g.itemsOrNone sep item) s.bump.deeper text rest)
    (rest : List UInt8) :
    Accepts (g.container brackets sep item) s (brackets.first :: (text ++ [sep.close])) rest := by
  intro t alike ahead
  have within' : t.deeper.exceeded? = none := by
    rw [← within]
    simp only [Scanner.exceeded?, Scanner.deeper, alike.depth, alike.maxDepth]
    rfl
  have like : s.bump.deeper.Alike t.bump.deeper := ⟨congrArg (· + 1) alike.depth, alike.maxDepth⟩
  have inside : t.bump.deeper.rest = text ++ sep.close :: rest := by
    rw [List.cons_append, List.append_assoc] at ahead
    exact Scanner.rest_bump ahead
  obtain ⟨ok, stop⟩ := h _ ⟨rest, rfl⟩ t.bump.deeper like inside
  have close : (g.itemsOrNone sep item t.bump.deeper).stop.peek = some sep.close := by
    rw [stop]
    exact Scanner.peek_of_rest (Scanner.rest_advance inside)
  have opens := opening_of_within (Scanner.peek_of_rest ahead) within' brackets.missingFirst
    brackets.begins
  simp only [container, andThen, opens, ok, closing_of_peek close]
  rw [stop, bump_leave, List.length_cons, List.length_append, List.length_singleton,
    Nat.add_comm 1]
  exact ⟨trivial, rfl⟩

/-- What follows the first byte of a container. -/
def inside
    (g : Grammar)
    (brackets : Brackets)
    (sep : Separation)
    (item : Rule) : Rule := fun s =>
  (g.itemsOrNone sep item s).andThen (closing sep.close brackets.missingLast brackets.ends)

theorem container_of_within
    (peek : s.peek = some brackets.first)
    (within : s.deeper.exceeded? = none) :
    g.container brackets sep item s =
      Run.andThen ⟨[s.eventTo s.bump brackets.begins], s.bump.deeper, none⟩
        (inside g brackets sep item) := by
  rw [container, opening_of_within peek within]
  rfl

/-- The items of a container are completed if they have failed, and then its last byte follows
them, if it is still to come. -/
theorem inside_completes
    (other : ∀ l, brackets.missingLast ≠ .literal l)
    (items : Resumes (fun _ => True) (Closing sep) (g.itemsOrNone sep item) s) :
    ∃ whole a b,
      (∀ rest, Closing sep rest → Accepts (g.itemsOrNone sep item) s whole rest) ∧
      a ++ b = whole ++ [sep.close] ∧ s.Passes a (inside g brackets sep item s).reach ∧
      ((inside g brackets sep item s).error = none →
        b = [] ∧ (inside g brackets sep item s).stop.depth = s.depth - 1) := by
  obtain ⟨depth, text, more, passes, none, accepts⟩ := items
  have accepted (rest) (closing : Closing sep rest) := (accepts rest closing).2
  by_cases ok : (g.itemsOrNone sep item s).error = Option.none
  · cases none ok
    rw [reach_of_ok ok] at passes
    by_cases close : (g.itemsOrNone sep item s).stop.peek = some sep.close
    · refine ⟨text ++ [], text ++ [sep.close], [], accepted, by simp, ?_, fun _ => ⟨rfl, ?_⟩⟩
      · rw [inside, reach_andThen ok, closing_of_peek close, reach_of_ok rfl]
        exact passes.trans ((Scanner.passes_bump close).trans (.leave _))
      · rw [inside, stop_andThen ok, closing_of_peek close, ← depth ok]
        rfl
    · have refused := closing_of_peek_ne close brackets.missingLast brackets.ends
      refine ⟨text ++ [], text, [sep.close], accepted, by simp, ?_, fun all => ?_⟩
      · rwa [inside, reach_andThen ok, refused, reach_missing other]
      · rw [inside, error_andThen ok, refused] at all
        simp [missing, fail] at all
  · obtain ⟨error, failed⟩ := Option.ne_none_iff_exists'.mp ok
    refine ⟨text ++ more, text, more ++ [sep.close], accepted, by simp, ?_, fun all => ?_⟩
    · rwa [inside, andThen_of_error failed]
    · exact absurd (error_andThen_eq_none.mp all).1 ok

/-- A container that may be opened is closed with its last byte, whatever became of its items. -/
theorem resumes_container
    (other : ∀ l, brackets.missingLast ≠ .literal l)
    (peek : s.peek = some brackets.first)
    (within : s.deeper.exceeded? = none)
    (items : Resumes (fun _ => True) (Closing sep) (g.itemsOrNone sep item) s.bump.deeper) :
    Resumes (fun text => ∃ more, text = brackets.first :: more) (fun _ => True)
      (g.container brackets sep item) s := by
  obtain ⟨whole, a, b, accepts, split, passes, ends⟩ := inside_completes other items
  have run : g.container brackets sep item s =
      Run.andThen ⟨[s.eventTo s.bump brackets.begins], s.bump.deeper, none⟩
        (inside g brackets sep item) := container_of_within peek within
  have opened : s.Passes [brackets.first] s.bump.deeper :=
    (Scanner.passes_bump peek).trans (.deeper _)
  refine ⟨fun ok => ?_, brackets.first :: a, b, ?_, fun ok => ?_, ?_⟩
  · rw [run, error_andThen rfl] at ok
    rw [run, stop_andThen rfl, (ends ok).2]
    rfl
  · rw [run, reach_andThen rfl]
    exact opened.trans passes
  · rw [run, error_andThen rfl] at ok
    exact (ends ok).1
  · intro rest _
    refine ⟨⟨_, rfl⟩, ?_⟩
    rw [List.cons_append, split]
    exact accepts_container brackets within accepts rest

end Containers

/-! ## Values -/

section Values

variable (sound : Sound g lex) (complete : Complete g lex apart) (begun : Begun g lex)

theorem plain_elements :
    Plain elementSeparation := ⟨closes_elements, by simp [elementSeparation]⟩

theorem plain_members :
    Plain memberSeparation := ⟨closes_members, by simp [memberSeparation]⟩

/-- A value that is a container, where it may be opened. -/
theorem resumes_value_container
    (brackets : Brackets)
    {item : Rule}
    (eq : ∀ (t : Scanner) (rest : List UInt8), t.rest = brackets.first :: rest →
      g.value t = g.container brackets sep item t)
    (other : ∀ l, brackets.missingLast ≠ .literal l)
    (starts : ∀ more, Starts (brackets.first :: more))
    (peek : s.peek = some brackets.first)
    (within : s.deeper.exceeded? = none)
    (items : Resumes (fun _ => True) (Closing sep) (g.itemsOrNone sep item) s.bump.deeper) :
    Resumes Starts (fun _ => True) g.value s := by
  obtain ⟨rest, ahead⟩ := Scanner.rest_of_peek peek
  obtain ⟨depth, text, more, passes, none, accepts⟩ := resumes_container other peek within items
  rw [← eq s rest ahead] at depth passes none
  refine ⟨depth, text, more, passes, none, ?_⟩
  intro rest _
  obtain ⟨⟨others, begins⟩, accepted⟩ := accepts rest trivial
  refine ⟨begins ▸ starts others, ?_⟩
  intro t alike ahead
  rw [← List.append_assoc] at begins
  rw [eq t others (ahead.trans begins)]
  exact accepted t alike ahead

/-- A container that may not be opened. -/
theorem value_refused
    {limit : Nat}
    (peek : s.peek = some Byte.openBracket ∨ s.peek = some Byte.openBrace)
    (exceeded : s.deeper.exceeded? = some limit) :
    g.value s = fail s.deeper (.tooDeep s.position limit) := by
  rcases peek with peek | peek
  · obtain ⟨rest, ahead⟩ := Scanner.rest_of_peek peek
    rw [value_array ahead, container, opening_of_exceeded exceeded]
    rfl
  · obtain ⟨rest, ahead⟩ := Scanner.rest_of_peek peek
    rw [value_object ahead, container, opening_of_exceeded exceeded]
    rfl

include complete begun

/-- A scalar replaces a container that may not be opened. -/
theorem resumes_refused
    {limit : Nat}
    (peek : s.peek = some Byte.openBracket ∨ s.peek = some Byte.openBrace)
    (exceeded : s.deeper.exceeded? = some limit) :
    Resumes Starts Stops g.value s := by
  obtain ⟨tree, empty⟩ := begun.emptyScalar
  have refused := value_refused (g := g) peek exceeded
  refine ⟨fun ok => ?_, [], quoted [], ?_, fun ok => ?_, ?_⟩
  · simp [refused, fail] at ok
  · rw [refused, reach_fail (by simp)]
    exact .deeper s
  · simp [refused, fail] at ok
  · exact fun rest stops => ⟨(complete.scalarStarts _ _ empty).append rest,
      accepts_scalar complete empty s stops⟩

include sound

theorem resumes_array
    (peek : s.peek = some Byte.openBracket)
    (within : s.deeper.exceeded? = none)
    (each : ∀ t : Scanner, t.rest.length < s.rest.length → Resumes Starts Stops g.value t) :
    Resumes Starts (fun _ => True) g.value s := by
  obtain ⟨tree, empty⟩ := begun.emptyScalar
  have shorter : s.bump.deeper.rest.length < s.rest.length :=
    (Scanner.passes_bump peek).length_rest_lt (by simp)
  refine resumes_value_container arrayBrackets (fun t rest ahead => value_array ahead)
    (by simp [arrayBrackets])
    (fun more => ⟨_, _, rfl, by decide, by decide, by decide, by decide⟩) peek within ?_
  exact resumes_itemsOrNone plain_elements sound complete begun (orderly_value g)
    ⟨quoted [], complete.scalarStarts _ _ empty, fun t rest => accepts_scalar complete empty t⟩
    fun t ht => each t (by omega)

theorem resumes_object
    (peek : s.peek = some Byte.openBrace)
    (within : s.deeper.exceeded? = none)
    (each : ∀ t : Scanner, t.rest.length < s.rest.length → Resumes Starts Stops g.value t) :
    Resumes Starts (fun _ => True) g.value s := by
  have shorter : s.bump.deeper.rest.length < s.rest.length :=
    (Scanner.passes_bump peek).length_rest_lt (by simp)
  have memberStarts : Starts (quoted [] ++ Byte.colon :: quoted []) :=
    Starts.append (starts_quoted []) _
  refine resumes_value_container objectBrackets (fun t rest ahead => value_object ahead)
    (by simp [objectBrackets])
    (fun more => ⟨_, _, rfl, by decide, by decide, by decide, by decide⟩) peek within ?_
  exact resumes_itemsOrNone plain_members sound complete begun (orderly_member (orderly_value g))
    ⟨_, memberStarts, fun t rest stops => (accepts_member complete begun t stops).1⟩
    fun t ht => resumes_member sound complete begun fun u hu => each u (by omega)

theorem resumes_value :
    ∀ (n : Nat) (s : Scanner), s.rest.length < n → Resumes Starts Stops g.value s := by
  intro n
  induction n with
  | zero =>
      exact fun s hs => absurd hs (Nat.not_lt_zero _)
  | succ n ih =>
      intro s hs
      have each (t : Scanner) (ht : t.rest.length < s.rest.length) := ih t (by omega)
      by_cases array : s.peek = some Byte.openBracket
      · cases limited : s.deeper.exceeded? with
        | none =>
            exact (resumes_array sound complete begun array limited each).before
              fun _ _ => trivial
        | some limit =>
            exact resumes_refused complete begun (.inl array) limited
      · by_cases object : s.peek = some Byte.openBrace
        · cases limited : s.deeper.exceeded? with
          | none =>
              exact (resumes_object sound complete begun object limited each).before
                fun _ _ => trivial
          | some limit =>
              exact resumes_refused complete begun (.inr object) limited
        · exact resumes_scalar sound complete begun array object

/-- A value that is read is read again wherever it stands at a place like that, before everything
that it is apart from. A container ends with its last byte, whatever follows. -/
theorem accepts_value
    (ok : (g.value s).error = none) :
    ∃ text, s.Passes text (g.value s).stop ∧
      ∀ rest, apart text rest → Accepts g.value s text rest := by
  have each (t : Scanner) (_ : t.rest.length < s.rest.length) :=
    resumes_value sound complete begun _ t (Nat.lt_succ_self _)
  have within (peek : s.peek = some Byte.openBracket ∨ s.peek = some Byte.openBrace) :
      s.deeper.exceeded? = none := by
    cases limited : s.deeper.exceeded? with
    | none =>
        rfl
    | some limit =>
        simp [value_refused peek limited, fail] at ok
  by_cases array : s.peek = some Byte.openBracket
  · obtain ⟨text, passes, accepts⟩ :=
      (resumes_array sound complete begun array (within (.inl array)) each).accepts ok
    exact ⟨text, passes, fun rest _ => accepts rest trivial⟩
  · by_cases object : s.peek = some Byte.openBrace
    · obtain ⟨text, passes, accepts⟩ :=
        (resumes_object sound complete begun object (within (.inr object)) each).accepts ok
      exact ⟨text, passes, fun rest _ => accepts rest trivial⟩
    · rw [value_eq] at ok
      obtain ⟨kind, text, tree, reads, scalar, _⟩ := sound.scalar s g.value ok array object
      rw [← value_eq] at reads
      exact ⟨text, reads.passes, fun rest ends => accepts_apart complete scalar s ends⟩

/-! ## Whole inputs -/

/-- Reading that has failed has gone past bytes that others make a document, which is read under
the same limit of depth. -/
theorem read_completes
    (maxDepth : Option Nat)
    (input : List UInt8)
    (failed : (g.read maxDepth input).error ≠ none) :
    ∃ text more, (Scanner.start input maxDepth).Passes text (g.read maxDepth input).reach ∧
      (g.read maxDepth (text ++ more)).error = none := by
  have value : Resumes (fun _ => True) Stops (fun t => g.value (g.skip t))
      (Scanner.start input maxDepth) :=
    resumes_skip sound complete begun (resumes_value sound complete begun _ _ (Nat.lt_succ_self _))
      value_atEnd (fun rest starts => starts.triviaLength) fun _ _ _ _ => trivial
  obtain ⟨text, more, passes, _, accepts⟩ := value.completes
  have failedValue : (g.value (g.skip (Scanner.start input maxDepth))).error ≠ none :=
    fun ok => failed (error_andThen_eq_none.mpr ⟨ok, rfl⟩)
  refine ⟨text, more ++ [Byte.lineFeed], ?_, ?_⟩
  · obtain ⟨error, failedValue⟩ := Option.ne_none_iff_exists'.mp failedValue
    rwa [Grammar.read, andThen_of_error failedValue]
  · have stops : Stops [Byte.lineFeed] := ⟨fun b hb => by cases hb; decide, by simp⟩
    rw [← List.append_assoc]
    obtain ⟨ok, _⟩ := (accepts _ stops).2
      (Scanner.start (text ++ more ++ [Byte.lineFeed]) maxDepth) ⟨rfl, rfl⟩ rfl
    exact error_andThen_eq_none.mpr ⟨ok, rfl⟩

end Values

end Syntax

namespace Grammar

/-- In both dialects, what reading has gone past without a fault begins a document. -/
theorem reach_completes
    (g : Grammar)
    (maxDepth : Option Nat)
    (input : List UInt8)
    (failed : (g.read maxDepth input).error ≠ none) :
    ∃ text more, (Scanner.start input maxDepth).Passes text (g.read maxDepth input).reach ∧
      (g.read maxDepth (text ++ more)).error = none := by
  cases g with
  | strict =>
      exact Syntax.read_completes Syntax.sound_strict Syntax.complete_strict Syntax.begun_strict
        maxDepth input failed
  | relaxed =>
      exact Syntax.read_completes Syntax.sound_relaxed Syntax.complete_relaxed Syntax.begun_relaxed
        maxDepth input failed

end Grammar
end JsonDoc
