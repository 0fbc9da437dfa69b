import JsonDoc.Proofs.Building.Denotation
import JsonDoc.Proofs.Reading.Recursion
import JsonDoc.Proofs.Syntax.Derivation

/-!
# What is read is derived

If the rules of a dialect for its leaves read only what its lexicon derives, the rule for values
reads only values that the lexicon derives, and its events denote the tree that the derivation
stands for: `value_sound`.
-/

namespace JsonDoc
namespace Syntax

open Run Grammar Events

/-- The run reads one token, which covers the text that stands ahead. -/
def ReadsToken
    (kind : EventKind)
    (s : Scanner)
    (run : Run)
    (text : List UInt8) : Prop :=
  ∃ rest, s.rest = text ++ rest ∧ run = token kind s (s.advance text.length)

/-- The rules of a dialect for its leaves read only what a lexicon derives. -/
structure Sound (g : Grammar) (lex : Lexicon) : Prop where
  skip : ∀ bytes : List UInt8, lex.ending (bytes.take (g.triviaLength bytes)) ∧
    (bytes.drop (g.triviaLength bytes) ≠ [] → lex.trivia (bytes.take (g.triviaLength bytes)))
  key : ∀ s : Scanner, (g.key s).error = none →
    ∃ text, ReadsToken .string s (g.key s) text ∧ lex.key text (Builder.content text)
  scalar : ∀ (s : Scanner) (value : Rule), (g.valueOf value s).error = none →
    s.peek ≠ some Byte.openBracket → s.peek ≠ some Byte.openBrace →
    ∃ kind text tree, ReadsToken kind s (g.valueOf value s) text ∧ lex.scalar text tree ∧
      ∀ span, (Event.mk kind span text).scalar? = some tree

variable {g : Grammar} {lex : Lexicon} {s t : Scanner} {run : Run} {text : List UInt8}

theorem ReadsToken.passes
    {kind : EventKind}
    (h : ReadsToken kind s run text) :
    s.Passes text run.stop := by
  obtain ⟨rest, ahead, rfl⟩ := h
  have passes := Scanner.Passes.advance s text.length
  rwa [ahead, List.take_left] at passes

theorem ReadsToken.events
    {kind : EventKind}
    (h : ReadsToken kind s run text) :
    ∃ span, run.events = [⟨kind, span, text⟩] := by
  have same : s.textTo run.stop = text := h.passes.textTo_eq
  obtain ⟨rest, ahead, rfl⟩ := h
  refine ⟨⟨s.position, (s.advance text.length).position⟩, ?_⟩
  have same : s.textTo (s.advance text.length) = text := same
  simp [token, Scanner.eventTo, same]

theorem Sound.trivia
    (sound : Sound g lex)
    (more : (g.skip s).rest ≠ []) :
    ∃ text, lex.trivia text ∧ s.Passes text (g.skip s) :=
  ⟨_, (sound.skip s.rest).2 more, passes_skip g s⟩

theorem Sound.last
    (sound : Sound g lex)
    (s : Scanner) :
    ∃ text, lex.ending text ∧ s.Passes text (g.skip s) :=
  ⟨_, (sound.skip s.rest).1, passes_skip g s⟩

/-! ## Items -/

variable {sep : Separation} {item : Rule}

/-- After an item comes trivia and then the closing byte or a comma. -/
theorem afterItem_sound
    {more : Rule}
    (sound : Sound g lex)
    (ok : (g.afterItem sep more t).error = none) :
    ∃ after u, lex.trivia after ∧ t.Passes after u ∧
      ((u.peek = some sep.close ∧ g.afterItem sep more t = done u) ∨
        (u.peek = some Byte.comma ∧ g.afterItem sep more t = more (g.skip u.bump))) := by
  unfold afterItem at ok ⊢
  simp only at ok ⊢
  cases peek : (g.skip t).peek with
  | none =>
      simp [peek, missing, fail] at ok
  | some b =>
      obtain ⟨after, trivia, passes⟩ := sound.trivia (Scanner.rest_ne_nil_of_peek peek)
      refine ⟨after, g.skip t, trivia, passes, ?_⟩
      simp only [peek] at ok ⊢
      by_cases comma : b = Byte.comma
      · rw [if_pos comma] at ok ⊢
        by_cases close : (g.skip (g.skip t).bump).peek = some sep.close
        · simp [close, fail] at ok
        · rw [if_neg close]
          exact Or.inr ⟨by rw [comma], rfl⟩
      · rw [if_neg comma] at ok ⊢
        by_cases close : b = sep.close
        · rw [if_pos close]
          exact Or.inl ⟨by rw [close], rfl⟩
        · simp [close, missing, fail] at ok

/-- Items are not read where the input ends. -/
theorem rest_ne_nil_of_series
    (orderly : ∀ s, Orderly s (item s))
    (sound : Sound g lex)
    (ok : (g.series sep item s).error = none) :
    s.rest ≠ [] := by
  rw [series_eq orderly] at ok
  obtain ⟨okItem, okAfter⟩ := error_andThen_eq_none.mp ok
  obtain ⟨after, u, _, passes, next⟩ := afterItem_sound sound okAfter
  obtain ⟨b, peek⟩ : ∃ b, u.peek = some b := by
    rcases next with ⟨peek, _⟩ | ⟨peek, _⟩ <;> exact ⟨_, peek⟩
  obtain ⟨core, passesItem⟩ := (orderly s).passes
  intro nil
  have ahead := (passesItem.trans passes).rest
  have none : u.rest = [] := by
    rw [nil] at ahead
    exact (List.append_eq_nil_iff.mp ahead.symm).2
  exact Scanner.rest_ne_nil_of_peek peek none

section Series

variable {α : Type} {text : α → List UInt8} {events : α → List Event} {P : α → Prop}

/-- Items are read one after another, each with trivia around it, up to the closing byte. -/
theorem series_sound
    (sound : Sound g lex)
    (orderly : ∀ s, Orderly s (item s))
    {n : Nat}
    (each : ∀ t : Scanner, t.rest.length ≤ n → (item t).error = none →
      ∃ a, t.Passes (text a) (item t).stop ∧ (item t).events = events a ∧ P a) :
    ∀ (bound : Nat) (s : Scanner) (lead : List UInt8), s.rest.length ≤ bound → bound ≤ n →
      lex.trivia lead → (g.series sep item s).error = none →
      ∃ items : List (Padded α), items ≠ [] ∧ (∀ i ∈ items, lex.Around i ∧ P i.item) ∧
        (g.series sep item s).stop.peek = some sep.close ∧
        (g.series sep item s).events = items.flatMap (fun i => events i.item) ∧
        ∃ passed, s.Passes passed (g.series sep item s).stop ∧
          lead ++ passed = commaSeparated (items.map (Padded.text text)) := by
  intro bound
  induction bound with
  | zero =>
      intro s lead hs _ _ ok
      exact absurd (List.eq_nil_of_length_eq_zero (by omega))
        (rest_ne_nil_of_series orderly sound ok)
  | succ bound ih =>
      intro s lead hs hn isLead ok
      rw [series_eq orderly] at ok ⊢
      obtain ⟨okItem, okAfter⟩ := error_andThen_eq_none.mp ok
      obtain ⟨a, passes, evs, holds⟩ := each s (by omega) okItem
      obtain ⟨after, u, isAfter, passesAfter, next⟩ := afterItem_sound sound okAfter
      rw [stop_andThen okItem, events_andThen okItem, evs]
      rcases next with ⟨close, eq⟩ | ⟨comma, eq⟩
      · rw [eq]
        refine ⟨[⟨lead, a, after⟩], by simp, ?_, close, by simp [done], ?_⟩
        · simpa using ⟨⟨isLead, isAfter⟩, holds⟩
        · exact ⟨_, passes.trans passesAfter, rfl⟩
      · rw [eq] at okAfter ⊢
        have more := rest_ne_nil_of_series orderly sound okAfter
        obtain ⟨before, isBefore, passesBefore⟩ := sound.trivia more
        have passesComma := Scanner.passes_bump comma
        have shorter : (g.skip u.bump).rest.length < s.rest.length :=
          Nat.lt_of_lt_of_le (length_rest_skip_bump_lt g comma)
            (passes.trans passesAfter).length_rest_le
        obtain ⟨items, nonempty, all, stops, evs', passed, passes', same⟩ :=
          ih (g.skip u.bump) before (by omega) (by omega) isBefore okAfter
        obtain ⟨first, others, rfl⟩ := List.exists_cons_of_ne_nil nonempty
        refine ⟨⟨lead, a, after⟩ :: first :: others, by simp, ?_, stops, by simp [evs'], ?_⟩
        · intro i mem
          rcases List.mem_cons.mp mem with rfl | mem
          · exact ⟨⟨isLead, isAfter⟩, holds⟩
          · exact all i mem
        · refine ⟨text a ++ after ++ ([Byte.comma] ++ before) ++ passed,
            ((passes.trans passesAfter).trans (passesComma.trans passesBefore)).trans passes', ?_⟩
          rw [List.map_cons] at same
          rw [List.map_cons, List.map_cons, commaSeparated_cons_cons, ← same]
          simp [Padded.text]

end Series

/-! ## Containers -/

/-- A container is read from its opening byte to its closing byte. -/
theorem container_sound
    (sound : Sound g lex)
    (orderly : ∀ s, Orderly s (item s))
    {brackets : Brackets}
    (peek : s.peek = some brackets.first)
    (ok : (g.container brackets sep item s).error = none) :
    ∃ first last lead u, first.kind = brackets.begins ∧ last.kind = brackets.ends ∧
      lex.trivia lead ∧ s.Passes (brackets.first :: lead) u ∧
      ((u.peek = some sep.close ∧
          g.container brackets sep item s = ⟨[first, last], u.bump.leave, none⟩) ∨
        ((g.series sep item u).error = none ∧
          g.container brackets sep item s = ⟨first :: ((g.series sep item u).events ++ [last]),
            (g.series sep item u).stop.bump.leave, none⟩)) := by
  obtain ⟨okOpen, okRest⟩ := error_andThen_eq_none.mp ok
  have within : s.deeper.exceeded? = none := by
    cases limited : s.deeper.exceeded? with
    | none =>
        rfl
    | some limit =>
        simp [opening_of_exceeded limited, fail] at okOpen
  have opens := opening_of_within peek within brackets.missingFirst brackets.begins
  rw [opens] at okRest
  obtain ⟨okItems, okClose⟩ := error_andThen_eq_none.mp okRest
  have close := peek_of_expect (error_andThen_eq_none.mp (error_andThen_eq_none.mp okClose).1).1
  have passesOpen : s.Passes [brackets.first] s.bump.deeper :=
    (Scanner.passes_bump peek).trans (.deeper _)
  by_cases none : (g.skip s.bump.deeper).peek = some sep.close
  · obtain ⟨lead, isLead, passes⟩ := sound.trivia (Scanner.rest_ne_nil_of_peek none)
    have items : g.itemsOrNone sep item s.bump.deeper = done (g.skip s.bump.deeper) := by
      simp [itemsOrNone, none]
    refine ⟨s.eventTo s.bump brackets.begins,
      (g.skip s.bump.deeper).eventTo (g.skip s.bump.deeper).bump brackets.ends, lead,
      g.skip s.bump.deeper, rfl, rfl, isLead, passesOpen.trans passes, Or.inl ⟨none, ?_⟩⟩
    simp only [container, andThen, opens, items, closing_of_peek none, done]
    rfl
  · have items : g.itemsOrNone sep item s.bump.deeper =
        g.series sep item (g.skip s.bump.deeper) := by
      simp [itemsOrNone, none, series]
    simp only [items] at okItems close
    have more := rest_ne_nil_of_series orderly sound okItems
    obtain ⟨lead, isLead, passes⟩ := sound.trivia more
    refine ⟨s.eventTo s.bump brackets.begins,
      (g.series sep item (g.skip s.bump.deeper)).stop.eventTo
      (g.series sep item (g.skip s.bump.deeper)).stop.bump brackets.ends, lead,
      g.skip s.bump.deeper, rfl, rfl, isLead, passesOpen.trans passes, Or.inr ⟨okItems, ?_⟩⟩
    simp only [container, andThen, opens, items, okItems, closing_of_peek close]
    rfl

/-- The items of a container are read with its brackets around them. -/
theorem container_items_sound
    {α : Type} {text : α → List UInt8} {events : α → List Event} {P : α → Prop}
    (sound : Sound g lex)
    (orderly : ∀ s, Orderly s (item s))
    {brackets : Brackets}
    (peek : s.peek = some brackets.first)
    (each : ∀ t : Scanner, t.rest.length < s.rest.length → (item t).error = none →
      ∃ a, t.Passes (text a) (item t).stop ∧ (item t).events = events a ∧ P a)
    (ok : (g.container brackets sep item s).error = none) :
    ∃ first last, first.kind = brackets.begins ∧ last.kind = brackets.ends ∧
      ((∃ inside, lex.trivia inside ∧
          s.Passes (brackets.first :: (inside ++ [sep.close]))
            (g.container brackets sep item s).stop ∧
          (g.container brackets sep item s).events = [first, last]) ∨
        (∃ items : List (Padded α), items ≠ [] ∧ (∀ i ∈ items, lex.Around i ∧ P i.item) ∧
          s.Passes (Padded.enclosed brackets.first text items sep.close)
            (g.container brackets sep item s).stop ∧
          (g.container brackets sep item s).events =
            first :: (items.flatMap (fun i => events i.item) ++ [last]))) := by
  obtain ⟨first, last, lead, u, opens, closes, isLead, passes, inside⟩ :=
    container_sound sound orderly peek ok
  refine ⟨first, last, opens, closes, ?_⟩
  rcases inside with ⟨close, eq⟩ | ⟨okItems, eq⟩
  · rw [eq]
    exact Or.inl ⟨lead, isLead,
      passes.trans ((Scanner.passes_bump close).trans (.leave _)), rfl⟩
  · have shorter := passes.length_rest_lt (List.cons_ne_nil _ _)
    obtain ⟨items, nonempty, all, close, evs, passed, passesItems, same⟩ :=
      series_sound sound orderly (fun t ht => each t (by omega)) u.rest.length u lead
        (Nat.le_refl _) (Nat.le_refl _) isLead okItems
    rw [eq, evs]
    refine Or.inr ⟨items, nonempty, all, ?_, rfl⟩
    have passesAll := passes.trans
      (passesItems.trans ((Scanner.passes_bump close).trans (.leave _)))
    rw [Padded.enclosed, ← same]
    simpa using passesAll

/-! ## Values -/

/-- The run has read a value that the lexicon derives, and its events denote the same tree. -/
structure Found (lex : Lexicon) (s : Scanner) (run : Run) (spelling : Spelling) : Prop where
  ahead : s.rest ≠ []
  passes : s.Passes spelling.text run.stop
  value : lex.Value spelling.text spelling.tree
  denotes : Denotes run.events spelling.tree

/-- The rule finds a value wherever it succeeds with fewer than `n` bytes ahead. -/
def FindsBelow (lex : Lexicon) (n : Nat) (value : Rule) : Prop :=
  ∀ t : Scanner, t.rest.length < n → (value t).error = none →
    ∃ spelling, Found lex t (value t) spelling

variable {value : Rule}

/-- An element of an array with the events it was read as. -/
structure Element where
  spelling : Spelling
  events : List Event

def Element.part (e : Element) : Part := ⟨e.events, e.spelling.tree⟩

theorem array_sound
    (sound : Sound g lex)
    (orderly : ∀ s, Orderly s (value s))
    (inner : FindsBelow lex s.rest.length value)
    (peek : s.peek = some Byte.openBracket)
    (ok : (g.arrayOf value s).error = none) :
    ∃ spelling, Found lex s (g.arrayOf value s) spelling := by
  have ahead := Scanner.rest_ne_nil_of_peek peek
  have each : ∀ t : Scanner, t.rest.length < s.rest.length → (value t).error = none →
      ∃ e : Element, t.Passes e.spelling.text (value t).stop ∧ (value t).events = e.part.events ∧
        (lex.Value e.spelling.text e.spelling.tree ∧ Denotes e.part.events e.part.tree) := by
    intro t ht okItem
    obtain ⟨spelling, found⟩ := inner t ht okItem
    exact ⟨⟨spelling, (value t).events⟩, found.passes, rfl, found.value, found.denotes⟩
  have peek : s.peek = some arrayBrackets.first := peek
  rw [arrayOf_eq] at ok ⊢
  obtain ⟨first, last, opens, closes, inside⟩ :=
    container_items_sound sound orderly peek each ok
  rcases inside with ⟨inside, isInside, passes, evs⟩ | ⟨items, nonempty, all, passes, evs⟩
  · refine ⟨⟨_, .array []⟩, ahead, passes, .emptyArray isInside, ?_⟩
    rw [evs]
    exact .array [] opens closes (by simp)
  · have same : (items.map (Padded.map Element.spelling)).map (Padded.text Spelling.text) =
        items.map (Padded.text fun e => e.spelling.text) := by
      rw [List.map_map]
      rfl
    rw [Padded.enclosed, ← same] at passes
    refine ⟨⟨_, .array ((items.map (Padded.map Element.spelling)).map (·.item.tree))⟩, ahead,
      passes, .array _ (by simpa using nonempty) ?_ ?_, ?_⟩
    · intro e mem
      obtain ⟨i, here, rfl⟩ := List.mem_map.mp mem
      exact (all i here).1
    · intro e mem
      obtain ⟨i, here, rfl⟩ := List.mem_map.mp mem
      exact (all i here).2.1
    · have parts : ∀ part ∈ items.map (fun i => i.item.part), Denotes part.events part.tree := by
        intro part mem
        obtain ⟨i, here, rfl⟩ := List.mem_map.mp mem
        exact (all i here).2.2
      have denotes := Denotes.array _ opens closes parts
      rw [evs]
      simp only [List.flatMap_map, List.map_map] at denotes ⊢
      exact denotes

/-- A member of an object with the events it was read as. -/
structure Entry where
  member : Member
  key : Event
  events : List Event

def Entry.part (e : Entry) : KeyedPart := ⟨e.key, e.events, e.member.value.tree⟩

/-- What a member of an object is read as. -/
structure Entry.IsDerived (lex : Lexicon) (e : Entry) : Prop where
  keyed : lex.Keyed e.member
  value : lex.Value e.member.value.text e.member.value.tree
  kind : e.key.kind = .string
  content : Builder.content e.key.text = e.member.content
  denotes : Denotes e.events e.member.value.tree

theorem member_sound
    (sound : Sound g lex)
    (inner : FindsBelow lex s.rest.length value)
    (ok : (g.member value s).error = none) :
    ∃ e : Entry, s.Passes e.member.text (g.member value s).stop ∧
      (g.member value s).events = e.part.all ∧ e.IsDerived lex := by
  unfold member at ok ⊢
  obtain ⟨okKey, okRest⟩ := error_andThen_eq_none.mp ok
  obtain ⟨okColon, okValue⟩ := error_andThen_eq_none.mp okRest
  obtain ⟨key, reads, isKey⟩ := sound.key s okKey
  have colon := peek_of_expect okColon
  rw [expect_of_peek colon] at okValue
  have passesKey := reads.passes
  have passesColon := Scanner.passes_bump colon
  obtain ⟨afterKey, isAfterKey, passesAfterKey⟩ :=
    sound.trivia (Scanner.rest_ne_nil_of_peek colon)
  have shorter : (g.skip (g.skip (g.key s).stop).bump).rest.length < s.rest.length :=
    Nat.lt_of_lt_of_le (length_rest_skip_bump_lt g colon)
      (passesKey.trans passesAfterKey).length_rest_le
  obtain ⟨spelling, found⟩ := inner _ shorter okValue
  obtain ⟨beforeValue, isBefore, passesBefore⟩ := sound.trivia found.ahead
  obtain ⟨span, evs⟩ := reads.events
  rw [stop_andThen okKey, stop_andThen okColon, events_andThen okKey, events_andThen okColon,
    expect_of_peek colon, evs]
  refine ⟨⟨⟨key, Builder.content key, afterKey, beforeValue, spelling⟩,
    ⟨.string, span, key⟩, _⟩, ?_, rfl,
    ⟨⟨isKey, isAfterKey, isBefore⟩, found.value, rfl, rfl, found.denotes⟩⟩
  have passes := passesKey.trans
    (passesAfterKey.trans (passesColon.trans (passesBefore.trans found.passes)))
  simpa [Member.text, done] using passes

theorem object_sound
    (sound : Sound g lex)
    (orderly : ∀ s, Orderly s (value s))
    (inner : FindsBelow lex s.rest.length value)
    (peek : s.peek = some Byte.openBrace)
    (ok : (g.objectOf value s).error = none) :
    ∃ spelling, Found lex s (g.objectOf value s) spelling := by
  have ahead := Scanner.rest_ne_nil_of_peek peek
  have each : ∀ t : Scanner, t.rest.length < s.rest.length → (g.member value t).error = none →
      ∃ e : Entry, t.Passes e.member.text (g.member value t).stop ∧
        (g.member value t).events = e.part.all ∧ e.IsDerived lex := by
    intro t ht okItem
    exact member_sound sound (fun u hu => inner u (by omega)) okItem
  have peek : s.peek = some objectBrackets.first := peek
  rw [objectOf_eq] at ok ⊢
  obtain ⟨first, last, opens, closes, inside⟩ :=
    container_items_sound sound (orderly_member orderly) peek each ok
  rcases inside with ⟨inside, isInside, passes, evs⟩ | ⟨items, nonempty, all, passes, evs⟩
  · refine ⟨⟨_, .object []⟩, ahead, passes, .emptyObject isInside, ?_⟩
    rw [evs]
    exact .object [] opens closes (by simp) (by simp)
  · have same : (items.map (Padded.map Entry.member)).map (Padded.text Member.text) =
        items.map (Padded.text fun e => e.member.text) := by
      rw [List.map_map]
      rfl
    have pairs : (items.map (Padded.map Entry.member)).map (·.item.pair) =
        (items.map fun i => i.item.part).map KeyedPart.pair := by
      simp only [List.map_map, List.map_inj_left, Function.comp]
      intro i mem
      exact congrArg (·, _) (all i mem).2.content.symm
    rw [Padded.enclosed, ← same] at passes
    refine ⟨⟨_, .object (Members.ofList
      ((items.map (Padded.map Entry.member)).map (·.item.pair)))⟩, ahead, passes,
      .object _ (by simpa using nonempty) ?_ ?_, ?_⟩
    · intro m mem
      obtain ⟨i, here, rfl⟩ := List.mem_map.mp mem
      exact ⟨(all i here).1, (all i here).2.keyed⟩
    · intro m mem
      obtain ⟨i, here, rfl⟩ := List.mem_map.mp mem
      exact (all i here).2.value
    · have keys : ∀ part ∈ items.map (fun i => i.item.part), part.key.kind = .string := by
        intro part mem
        obtain ⟨i, here, rfl⟩ := List.mem_map.mp mem
        exact (all i here).2.kind
      have parts : ∀ part ∈ items.map (fun i => i.item.part), Denotes part.events part.tree := by
        intro part mem
        obtain ⟨i, here, rfl⟩ := List.mem_map.mp mem
        exact (all i here).2.denotes
      have denotes := Denotes.object _ opens closes keys parts
      rw [evs, pairs]
      simp only [List.flatMap_map] at denotes ⊢
      exact denotes

theorem findsBelow_value
    (sound : Sound g lex) :
    ∀ n, FindsBelow lex n g.value := by
  intro n
  induction n with
  | zero =>
      exact fun t ht => absurd ht (Nat.not_lt_zero _)
  | succ n ih =>
      intro s hs ok
      have inner : FindsBelow lex s.rest.length g.value := fun t ht => ih t (by omega)
      rw [value_eq] at ok ⊢
      by_cases array : s.peek = some Byte.openBracket
      · rw [valueOf_array array] at ok ⊢
        exact array_sound sound (orderly_value g) inner array ok
      · by_cases object : s.peek = some Byte.openBrace
        · rw [valueOf_object object] at ok ⊢
          exact object_sound sound (orderly_value g) inner object ok
        · have ahead : s.rest ≠ [] := by
            intro nil
            simp [valueOf, Scanner.peek, nil, missing, fail] at ok
          obtain ⟨kind, text, tree, reads, scalar, value⟩ :=
            sound.scalar s g.value ok array object
          obtain ⟨span, evs⟩ := reads.events
          refine ⟨⟨text, tree⟩, ahead, reads.passes, .scalar scalar, ?_⟩
          rw [evs]
          exact .scalar (value span)

/-- A value that is read is derived, and its events denote the tree of the derivation. -/
theorem value_sound
    (sound : Sound g lex)
    (ok : (g.value s).error = none) :
    ∃ spelling, Found lex s (g.value s) spelling :=
  findsBelow_value sound (s.rest.length + 1) s (Nat.lt_succ_self _) ok

end Syntax
end JsonDoc
