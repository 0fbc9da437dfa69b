import JsonDoc.Proofs.Syntax.Soundness

/-!
# What is derived is read

If the rules of a dialect for its leaves read all that its lexicon derives, the rule for values
reads every value that the lexicon derives, and its events denote the tree that the derivation
stands for: `value_complete`.
-/

namespace JsonDoc
namespace Syntax

open Run Grammar Events

/-- The text does not go on with a letter, a digit, an underscore or a point, so a number can end
before it. -/
def Delimited (rest : List UInt8) : Prop :=
  ∀ b, rest.head? = some b → Byte.isWordPart b = false ∧ b ≠ Byte.dot

/-- The text begins with a byte that no token goes on with: what makes it `Delimited`, and no
sign, which an exponent without digits could go on with. -/
def Follows (rest : List UInt8) : Prop :=
  ∀ b, rest.head? = some b → Byte.isWordPart b = false ∧ b ≠ Byte.dot ∧ Byte.isSign b = false

/-- A byte that stands for itself: neither trivia nor part of a token that goes on. -/
structure Separates (b : UInt8) : Prop where
  notBlank : Byte.isBlank b = false
  notHash : b ≠ Byte.hash
  notWordPart : Byte.isWordPart b = false
  notDot : b ≠ Byte.dot
  notSign : Byte.isSign b = false

/-- The text begins with a token that does not close a container. -/
def Starts (text : List UInt8) : Prop :=
  ∃ b more, text = b :: more ∧ Byte.isBlank b = false ∧ b ≠ Byte.hash ∧
    b ≠ Byte.closeBracket ∧ b ≠ Byte.closeBrace

/-- The rules of a dialect for its leaves read all that a lexicon derives. Where a scalar ends
depends on what follows; `apart` says after which texts it may. -/
structure Complete (g : Grammar) (lex : Lexicon) (apart : List UInt8 → List UInt8 → Prop) :
    Prop where
  skip : ∀ text rest, lex.trivia text → g.triviaLength rest = 0 →
    g.triviaLength (text ++ rest) = text.length
  ending : ∀ text, lex.ending text → g.triviaLength text = text.length
  follows : ∀ text, lex.trivia text → Follows text
  separate : ∀ text rest, Follows rest → rest ≠ [] → apart text rest
  keyStarts : ∀ text content, lex.key text content → Starts text
  key : ∀ (s : Scanner) (text rest : List UInt8) (content : String), lex.key text content →
    s.rest = text ++ rest → Follows rest →
    g.key s = token .string s (s.advance text.length) ∧ Builder.content text = content
  scalarStarts : ∀ text tree, lex.scalar text tree → Starts text
  scalar : ∀ (s : Scanner) (text rest : List UInt8) (tree : Tree), lex.scalar text tree →
    s.rest = text ++ rest → apart text rest →
    ∃ kind, (∀ value, g.valueOf value s = token kind s (s.advance text.length)) ∧
      ∀ span, (Event.mk kind span text).scalar? = some tree

variable {g : Grammar} {lex : Lexicon} {apart : List UInt8 → List UInt8 → Prop} {s t : Scanner}

theorem separates_comma :
    Separates Byte.comma :=
  ⟨by decide, by decide, by decide, by decide, by decide⟩

theorem separates_colon :
    Separates Byte.colon :=
  ⟨by decide, by decide, by decide, by decide, by decide⟩

theorem Follows.delimited
    {rest : List UInt8}
    (h : Follows rest) :
    Delimited rest :=
  fun b hb => ⟨(h b hb).1, (h b hb).2.1⟩

theorem follows_append
    {text rest : List UInt8}
    (h : Follows text)
    (k : Follows rest) :
    Follows (text ++ rest) := by
  cases text with
  | nil =>
      exact k
  | cons b text =>
      exact h

theorem Separates.follows
    {b : UInt8}
    (h : Separates b)
    (rest : List UInt8) :
    Follows (b :: rest) := by
  intro c hc
  cases hc
  exact ⟨h.notWordPart, h.notDot, h.notSign⟩

theorem triviaLength_cons
    (g : Grammar)
    {b : UInt8}
    (blank : Byte.isBlank b = false)
    (hash : b ≠ Byte.hash)
    (rest : List UInt8) :
    g.triviaLength (b :: rest) = 0 := by
  cases g with
  | strict =>
      simp [triviaLength, blank]
  | relaxed =>
      simp [triviaLength, commentedLength, blank, hash]

/-- Trivia before a token is skipped. -/
theorem Complete.skip_eq
    (complete : Complete g lex apart)
    {text rest : List UInt8} {b : UInt8}
    (trivia : lex.trivia text)
    (ahead : s.rest = text ++ b :: rest)
    (blank : Byte.isBlank b = false)
    (hash : b ≠ Byte.hash) :
    g.skip s = s.advance text.length ∧ (g.skip s).rest = b :: rest := by
  have length := complete.skip text _ trivia (triviaLength_cons g blank hash rest)
  have eq : g.skip s = s.advance text.length := by
    rw [Grammar.skip, ahead, length]
  exact ⟨eq, eq ▸ Scanner.rest_advance ahead⟩

/-! ## Items -/

variable {sep : Separation} {item : Rule}

/-- The closing byte can be told from a comma and from an item. -/
structure Closes (sep : Separation) : Prop where
  separates : Separates sep.close
  notComma : sep.close ≠ Byte.comma
  bracket : sep.close = Byte.closeBracket ∨ sep.close = Byte.closeBrace

theorem closes_elements :
    Closes elementSeparation :=
  ⟨⟨by decide, by decide, by decide, by decide, by decide⟩, by decide, Or.inl rfl⟩

theorem closes_members :
    Closes memberSeparation :=
  ⟨⟨by decide, by decide, by decide, by decide, by decide⟩, by decide, Or.inr rfl⟩

theorem Closes.peek_ne
    {text rest : List UInt8}
    (closes : Closes sep)
    (starts : Starts text)
    (ahead : s.rest = text ++ rest) :
    s.peek ≠ some sep.close := by
  obtain ⟨b, more, rfl, _, _, notBracket, notBrace⟩ := starts
  rw [Scanner.peek_of_rest ahead]
  rcases closes.bracket with close | close <;> simp [close, notBracket, notBrace]

theorem afterItem_close
    (more : Rule)
    (closes : Closes sep)
    (close : (g.skip t).peek = some sep.close) :
    g.afterItem sep more t = done (g.skip t) := by
  simp [afterItem, close, closes.notComma]

theorem afterItem_comma
    (more : Rule)
    (comma : (g.skip t).peek = some Byte.comma)
    (notClose : (g.skip (g.skip t).bump).peek ≠ some sep.close) :
    g.afterItem sep more t = more (g.skip (g.skip t).bump) := by
  simp [afterItem, comma, notClose]

section Series

variable {α β : Type} {text : α → List UInt8} {events : β → List Event} {Q : α → β → Prop}

/-- The rule reads the text of an item, whatever follows that ends the item. -/
def ReadsItem
    (item : Rule)
    (text : List UInt8)
    (events : β → List Event)
    (Q : β → Prop) : Prop :=
  ∀ (s : Scanner) (rest : List UInt8), s.rest = text ++ rest → s.maxDepth = none →
    Follows rest → rest ≠ [] → ∃ b, item s = ⟨events b, s.advance text.length, none⟩ ∧ Q b

omit text events Q in
theorem commaSeparated_item
    (text : α → List UInt8)
    (i : Padded α)
    (others : List (Padded α)) :
    ∃ tail, commaSeparated ((i :: others).map (Padded.text text)) =
      i.before ++ (text i.item ++ tail) := by
  cases others with
  | nil =>
      exact ⟨i.after, rfl⟩
  | cons second others =>
      exact ⟨i.after ++ Byte.comma :: commaSeparated ((second :: others).map (Padded.text text)), by
        simp [Padded.text, commaSeparated_cons_cons]⟩

/-- What stands before an item is skipped. -/
theorem skip_item
    (complete : Complete g lex apart)
    {i : Padded α}
    (around : lex.Around i)
    (starts : Starts (text i.item))
    {tail : List UInt8}
    (ahead : t.rest = i.before ++ (text i.item ++ tail)) :
    g.skip t = t.advance i.before.length ∧ (g.skip t).rest = text i.item ++ tail := by
  obtain ⟨b, more, startsWith, blank, hash, _⟩ := starts
  rw [startsWith, List.cons_append] at ahead ⊢
  exact complete.skip_eq around.1 ahead blank hash

/-- In front of an item a container is not closed. -/
theorem skip_ne_close
    (complete : Complete g lex apart)
    (closes : Closes sep)
    {i : Padded α}
    (around : lex.Around i)
    (starts : Starts (text i.item))
    {others : List (Padded α)} {rest : List UInt8}
    (ahead : t.rest = commaSeparated ((i :: others).map (Padded.text text)) ++ rest) :
    (g.skip t).peek ≠ some sep.close := by
  obtain ⟨tail, split⟩ := commaSeparated_item text i others
  rw [split, List.append_assoc, List.append_assoc] at ahead
  exact closes.peek_ne starts (skip_item complete around starts ahead).2

/-- An item is read up to the byte that ends it, with what stands around it. -/
theorem item_complete
    (complete : Complete g lex apart)
    {i : Padded α}
    (around : lex.Around i)
    (starts : Starts (text i.item))
    (reads : ReadsItem item (text i.item) events (Q i.item))
    {next : UInt8}
    (separates : Separates next)
    {tail : List UInt8}
    (limit : t.maxDepth = none)
    (ahead : t.rest = i.before ++ (text i.item ++ (i.after ++ next :: tail))) :
    ∃ b, Q i.item b ∧
      item (g.skip t) = ⟨events b, (g.skip t).advance (text i.item).length, none⟩ ∧
      (g.skip ((g.skip t).advance (text i.item).length)).rest = next :: tail ∧
      g.skip ((g.skip t).advance (text i.item).length) = t.advance (i.text text).length := by
  obtain ⟨skipped, itemAhead⟩ := skip_item complete around starts ahead
  have follows : Follows (i.after ++ next :: tail) :=
    follows_append (complete.follows _ around.2) (separates.follows _)
  obtain ⟨b, read, holds⟩ := reads (g.skip t) _ itemAhead (by rw [skipped]; exact limit) follows
    (by simp)
  obtain ⟨skippedAfter, nextAhead⟩ := complete.skip_eq around.2
    (Scanner.rest_advance itemAhead) separates.notBlank separates.notHash
  refine ⟨b, holds, read, nextAhead, ?_⟩
  rw [skippedAfter, skipped, Scanner.advance_advance, Scanner.advance_advance]
  simp [Padded.text]

/-- Items with commas between them are read one after another. -/
theorem series_complete
    (complete : Complete g lex apart)
    (closes : Closes sep)
    (orderly : ∀ s, Orderly s (item s))
    (items : List (Padded α)) :
    items ≠ [] → (∀ i ∈ items, lex.Around i) → (∀ i ∈ items, Starts (text i.item)) →
      (∀ i ∈ items, ReadsItem item (text i.item) events (Q i.item)) →
      ∀ (t : Scanner) (rest : List UInt8),
        t.rest = commaSeparated (items.map (Padded.text text)) ++ sep.close :: rest →
        t.maxDepth = none →
        ∃ parts : List (α × β), parts.map Prod.fst = items.map Padded.item ∧
          (∀ p ∈ parts, Q p.1 p.2) ∧
          g.series sep item (g.skip t) = ⟨parts.flatMap (fun p => events p.2),
            t.advance (commaSeparated (items.map (Padded.text text))).length, none⟩ := by
  induction items with
  | nil =>
      exact fun nonempty => absurd rfl nonempty
  | cons i others ih =>
      intro _ around starts reads t rest ahead limit
      cases others with
      | nil =>
          obtain ⟨b, holds, read, nextAhead, stops⟩ :=
            item_complete complete (around i List.mem_cons_self) (starts i List.mem_cons_self)
              (reads i List.mem_cons_self) closes.separates limit
              (by simpa [Padded.text, commaSeparated] using ahead)
          have after := afterItem_close (g.series sep item) closes
            (Scanner.peek_of_rest nextAhead)
          refine ⟨[(i.item, b)], rfl, by simpa using holds, ?_⟩
          rw [series_eq orderly, andThen, read]
          simp only [after, done, stops]
          simp [commaSeparated]
      | cons second others =>
          have split : t.rest = i.before ++ (text i.item ++ (i.after ++ Byte.comma ::
              (commaSeparated ((second :: others).map (Padded.text text)) ++
                sep.close :: rest))) := by
            simpa [Padded.text, commaSeparated_cons_cons] using ahead
          obtain ⟨b, holds, read, nextAhead, stops⟩ :=
            item_complete complete (around i List.mem_cons_self) (starts i List.mem_cons_self)
              (reads i List.mem_cons_self) separates_comma limit split
          have moreAhead := Scanner.rest_bump nextAhead
          obtain ⟨parts, same, all, more⟩ := ih (by simp)
            (fun j mem => around j (List.mem_cons_of_mem _ mem))
            (fun j mem => starts j (List.mem_cons_of_mem _ mem))
            (fun j mem => reads j (List.mem_cons_of_mem _ mem)) _ rest moreAhead
            (by rw [stops]; exact limit)
          have later : second ∈ i :: second :: others := by simp
          have notClose := skip_ne_close complete closes (around second later)
            (starts second later) moreAhead
          have after := afterItem_comma (g.series sep item)
            (Scanner.peek_of_rest nextAhead) notClose
          refine ⟨(i.item, b) :: parts, by simpa using same, ?_, ?_⟩
          · intro p mem
            rcases List.mem_cons.mp mem with rfl | mem
            · exact holds
            · exact all p mem
          · have length : (commaSeparated ((i :: second :: others).map (Padded.text text))).length =
                (i.text text).length +
                  (1 + (commaSeparated ((second :: others).map (Padded.text text))).length) := by
              rw [List.map_cons, List.map_cons, commaSeparated_cons_cons, List.length_append,
                List.length_cons, Nat.add_comm 1]
            rw [series_eq orderly, andThen, read]
            simp only [after, more]
            rw [stops, Scanner.bump, Scanner.advance_advance, Scanner.advance_advance, length]
            rfl

end Series

/-! ## Containers -/

theorem opening_complete
    {byte : UInt8} {rest : List UInt8}
    (ahead : s.rest = byte :: rest)
    (limit : s.maxDepth = none)
    (expected : Expectation)
    (kind : EventKind) :
    opening byte expected kind s = ⟨[s.eventTo s.bump kind], s.bump.deeper, none⟩ := by
  refine opening_of_within (Scanner.peek_of_rest ahead) ?_ expected kind
  have deeper : s.deeper.maxDepth = none := limit
  simp [Scanner.exceeded?, deeper]

/-- The place behind a container that was opened at `s` and that closes after `m` more bytes. -/
theorem bump_leave
    (s : Scanner)
    (m : Nat) :
    (s.bump.deeper.advance m).bump.leave = s.advance (1 + (m + 1)) := by
  have eq : (s.bump.deeper.advance m).bump.leave = ((s.advance 1).advance m).advance 1 := rfl
  rw [eq, Scanner.advance_advance, Scanner.advance_advance]

/-- A container without items is read. -/
theorem container_empty
    (complete : Complete g lex apart)
    (closes : Closes sep)
    (brackets : Brackets)
    (item : Rule)
    {inside rest : List UInt8}
    (trivia : lex.trivia inside)
    (ahead : s.rest = brackets.first :: (inside ++ [sep.close]) ++ rest)
    (limit : s.maxDepth = none) :
    ∃ first last, first.kind = brackets.begins ∧ last.kind = brackets.ends ∧
      g.container brackets sep item s =
        ⟨[first, last], s.advance (brackets.first :: (inside ++ [sep.close])).length, none⟩ := by
  have opens := opening_complete ahead limit brackets.missingFirst brackets.begins
  have inner : s.bump.deeper.rest = inside ++ sep.close :: rest := by
    rw [List.cons_append, List.append_assoc] at ahead
    exact Scanner.rest_bump ahead
  obtain ⟨skipped, closeAhead⟩ :=
    complete.skip_eq trivia inner closes.separates.notBlank closes.separates.notHash
  have close := Scanner.peek_of_rest closeAhead
  have items : g.itemsOrNone sep item s.bump.deeper = done (g.skip s.bump.deeper) := by
    simp [itemsOrNone, close]
  refine ⟨s.eventTo s.bump brackets.begins,
    (g.skip s.bump.deeper).eventTo (g.skip s.bump.deeper).bump brackets.ends, rfl, rfl, ?_⟩
  simp only [container, andThen, opens, items, closing_of_peek close, done]
  rw [skipped, bump_leave, List.length_cons, List.length_append, List.length_singleton,
    Nat.add_comm 1]
  rfl

/-- A container with items is read. -/
theorem container_complete
    {α β : Type} {text : α → List UInt8} {events : β → List Event}
    {Q : α → β → Prop}
    (complete : Complete g lex apart)
    (closes : Closes sep)
    (orderly : ∀ s, Orderly s (item s))
    (brackets : Brackets)
    {items : List (Padded α)}
    (nonempty : items ≠ [])
    (around : ∀ i ∈ items, lex.Around i)
    (starts : ∀ i ∈ items, Starts (text i.item))
    (reads : ∀ i ∈ items, ReadsItem item (text i.item) events (Q i.item))
    {rest : List UInt8}
    (ahead : s.rest = Padded.enclosed brackets.first text items sep.close ++ rest)
    (limit : s.maxDepth = none) :
    ∃ (first last : Event) (parts : List (α × β)), first.kind = brackets.begins ∧
      last.kind = brackets.ends ∧ parts.map Prod.fst = items.map Padded.item ∧
      (∀ p ∈ parts, Q p.1 p.2) ∧
      g.container brackets sep item s =
        ⟨first :: (parts.flatMap (fun p => events p.2) ++ [last]),
          s.advance (Padded.enclosed brackets.first text items sep.close).length, none⟩ := by
  have opens := opening_complete ahead limit brackets.missingFirst brackets.begins
  have inner : s.bump.deeper.rest =
      commaSeparated (items.map (Padded.text text)) ++ sep.close :: rest := by
    rw [Padded.enclosed, List.cons_append, List.append_assoc] at ahead
    exact Scanner.rest_bump ahead
  obtain ⟨parts, same, all, series⟩ :=
    series_complete complete closes orderly items nonempty around starts reads
      s.bump.deeper rest inner limit
  have notClose : (g.skip s.bump.deeper).peek ≠ some sep.close := by
    obtain ⟨i, others, rfl⟩ := List.exists_cons_of_ne_nil nonempty
    exact skip_ne_close complete closes (around i List.mem_cons_self)
      (starts i List.mem_cons_self) inner
  have close : (s.bump.deeper.advance
      (commaSeparated (items.map (Padded.text text))).length).peek = some sep.close :=
    Scanner.peek_of_rest (Scanner.rest_advance inner)
  have read : g.itemsOrNone sep item s.bump.deeper =
      g.series sep item (g.skip s.bump.deeper) := by
    simp [itemsOrNone, notClose, Grammar.series]
  refine ⟨s.eventTo s.bump brackets.begins, (s.bump.deeper.advance
      (commaSeparated (items.map (Padded.text text))).length).eventTo (s.bump.deeper.advance
      (commaSeparated (items.map (Padded.text text))).length).bump brackets.ends,
    parts, rfl, rfl, same, all, ?_⟩
  simp only [container, andThen, opens, read, series, closing_of_peek close]
  rw [bump_leave, Padded.enclosed, List.length_cons, List.length_append, List.length_singleton,
    Nat.add_comm 1]
  rfl

/-! ## Values -/

/-- The text of a value begins with a token. -/
theorem value_starts
    (complete : Complete g lex apart)
    {text : List UInt8} {tree : Tree}
    (h : lex.Value text tree) :
    Starts text := by
  cases h with
  | scalar scalar =>
      exact complete.scalarStarts _ _ scalar
  | emptyArray | array =>
      exact ⟨_, _, rfl, by decide, by decide, by decide, by decide⟩
  | emptyObject | object =>
      exact ⟨_, _, rfl, by decide, by decide, by decide, by decide⟩

/-- What an array is read by. -/
theorem value_array
    {rest : List UInt8}
    (ahead : s.rest = Byte.openBracket :: rest) :
    g.value s = g.container arrayBrackets elementSeparation g.value s := by
  rw [← arrayOf_eq, value_eq, valueOf_array (Scanner.peek_of_rest ahead), ← value_eq]

/-- What an object is read by. -/
theorem value_object
    {rest : List UInt8}
    (ahead : s.rest = Byte.openBrace :: rest) :
    g.value s = g.container objectBrackets memberSeparation (g.member g.value) s := by
  rw [← objectOf_eq, value_eq, valueOf_object (Scanner.peek_of_rest ahead), ← value_eq]

/-- The rule for values reads a text as events that denote a tree. -/
def ReadsValue
    (g : Grammar)
    (s : Scanner)
    (text : List UInt8)
    (tree : Tree) : Prop :=
  ∃ events, g.value s = ⟨events, s.advance text.length, none⟩ ∧ Denotes events tree

/-- The events stand for a value of an array. -/
structure PartOf (spelling : Spelling) (part : Part) : Prop where
  tree : part.tree = spelling.tree
  denotes : Denotes part.events part.tree

/-- The events stand for a member of an object. -/
structure KeyedPartOf (m : Member) (part : KeyedPart) : Prop where
  pair : part.pair = m.pair
  kind : part.key.kind = .string
  denotes : Denotes part.events part.tree

/-- A value is read inside a container, as what follows it there ends it. -/
theorem readsItem_value
    (complete : Complete g lex apart)
    {spelling : Spelling}
    (reads : ∀ (s : Scanner) (rest : List UInt8), s.rest = spelling.text ++ rest →
      s.maxDepth = none → apart spelling.text rest → ReadsValue g s spelling.text spelling.tree) :
    ReadsItem g.value spelling.text Part.events (PartOf spelling) := by
  intro s rest ahead limit follows more
  obtain ⟨events, read, denotes⟩ := reads s rest ahead limit (complete.separate _ _ follows more)
  exact ⟨⟨events, spelling.tree⟩, read, rfl, denotes⟩

theorem readsItem_member
    (complete : Complete g lex apart)
    {m : Member}
    (keyed : lex.Keyed m)
    (starts : Starts m.value.text)
    (reads : ReadsItem g.value m.value.text Part.events (PartOf m.value)) :
    ReadsItem (g.member g.value) m.text KeyedPart.all (KeyedPartOf m) := by
  intro s rest ahead limit follows more
  simp only [Member.text, List.append_assoc, List.cons_append] at ahead
  have keyFollows : Follows (m.afterKey ++ Byte.colon ::
      (m.beforeValue ++ (m.value.text ++ rest))) :=
    follows_append (complete.follows _ keyed.afterKey) (separates_colon.follows _)
  obtain ⟨key, content⟩ := complete.key s _ _ _ keyed.key ahead keyFollows
  obtain ⟨skipped, colonAhead⟩ := complete.skip_eq keyed.afterKey (Scanner.rest_advance ahead)
    separates_colon.notBlank separates_colon.notHash
  have colon := Scanner.peek_of_rest colonAhead
  obtain ⟨b, after, startsWith, blank, hash, _⟩ := starts
  have valueAhead := Scanner.rest_bump colonAhead
  rw [startsWith, List.cons_append] at valueAhead
  obtain ⟨skippedBefore, ahead'⟩ := complete.skip_eq keyed.beforeValue valueAhead blank hash
  rw [← List.cons_append, ← startsWith] at ahead'
  obtain ⟨part, value, same, denotes⟩ := reads _ rest ahead'
    (by rw [skippedBefore, skipped]; exact limit) follows more
  have stops : (g.skip (g.skip (s.advance m.key.length)).bump).advance m.value.text.length =
      s.advance m.text.length := by
    rw [skippedBefore, skipped, Scanner.bump]
    simp only [Scanner.advance_advance, Member.text, List.length_append, List.length_cons]
    congr 1
    omega
  refine ⟨⟨s.eventTo (s.advance m.key.length) .string, part.events, part.tree⟩, ?_, ?_, rfl,
    denotes⟩
  · simp only [member, andThen, key, token, expect_of_peek colon, done, value, stops]
    rfl
  · have text : s.textTo (s.advance m.key.length) = m.key := by
      have passes := Scanner.Passes.advance s m.key.length
      rw [passes.textTo_eq, ahead, List.take_left]
    simp [KeyedPart.pair, Member.pair, Scanner.eventTo, text, content, same]

theorem array_complete
    (complete : Complete g lex apart)
    {elements : List (Padded Spelling)}
    (nonempty : elements ≠ [])
    (around : ∀ e ∈ elements, lex.Around e)
    (starts : ∀ e ∈ elements, Starts e.item.text)
    (reads : ∀ e ∈ elements, ReadsItem g.value e.item.text Part.events (PartOf e.item))
    {rest : List UInt8}
    (ahead : s.rest =
      Padded.enclosed Byte.openBracket Spelling.text elements Byte.closeBracket ++ rest)
    (limit : s.maxDepth = none) :
    ReadsValue g s (Padded.enclosed Byte.openBracket Spelling.text elements Byte.closeBracket)
      (.array (elements.map (·.item.tree))) := by
  obtain ⟨first, last, parts, opens, closes, same, all, read⟩ :=
    container_complete (Q := PartOf) complete closes_elements (orderly_value g) arrayBrackets
      nonempty around starts reads ahead limit
  have denotes := Denotes.array (parts.map Prod.snd) opens closes (by
    intro part mem
    obtain ⟨p, here, rfl⟩ := List.mem_map.mp mem
    exact (all p here).denotes)
  have trees : (parts.map Prod.snd).map Part.tree = elements.map (·.item.tree) := by
    have := congrArg (List.map Spelling.tree) same
    simp only [List.map_map] at this ⊢
    rw [← Function.comp_def, ← this]
    exact List.map_congr_left fun p mem => (all p mem).tree
  rw [List.flatMap_map, trees] at denotes
  exact ⟨_, (value_array ahead).trans read, denotes⟩

theorem object_complete
    (complete : Complete g lex apart)
    {members : List (Padded Member)}
    (nonempty : members ≠ [])
    (around : ∀ m ∈ members, lex.Around m)
    (starts : ∀ m ∈ members, Starts m.item.text)
    (reads : ∀ m ∈ members,
      ReadsItem (g.member g.value) m.item.text KeyedPart.all (KeyedPartOf m.item))
    {rest : List UInt8}
    (ahead : s.rest = Padded.enclosed Byte.openBrace Member.text members Byte.closeBrace ++ rest)
    (limit : s.maxDepth = none) :
    ReadsValue g s (Padded.enclosed Byte.openBrace Member.text members Byte.closeBrace)
      (.object (Members.ofList (members.map (·.item.pair)))) := by
  obtain ⟨first, last, parts, opens, closes, same, all, read⟩ :=
    container_complete (Q := KeyedPartOf) complete closes_members (orderly_member (orderly_value g))
      objectBrackets nonempty around starts reads ahead limit
  have denotes := Denotes.object (parts.map Prod.snd) opens closes
    (by
      intro part mem
      obtain ⟨p, here, rfl⟩ := List.mem_map.mp mem
      exact (all p here).kind)
    (by
      intro part mem
      obtain ⟨p, here, rfl⟩ := List.mem_map.mp mem
      exact (all p here).denotes)
  have pairs : (parts.map Prod.snd).map KeyedPart.pair = members.map (·.item.pair) := by
    have := congrArg (List.map Member.pair) same
    simp only [List.map_map] at this ⊢
    rw [← Function.comp_def, ← this]
    exact List.map_congr_left fun p mem => (all p mem).pair
  rw [List.flatMap_map, pairs] at denotes
  exact ⟨_, (value_object ahead).trans read, denotes⟩

theorem member_starts
    (complete : Complete g lex apart)
    {m : Member}
    (keyed : lex.Keyed m) :
    Starts m.text := by
  obtain ⟨b, more, startsWith, opens⟩ := complete.keyStarts _ _ keyed.key
  exact ⟨b, _, by rw [Member.text, startsWith, List.cons_append], opens⟩

/-- A derived value is read, where what follows ends it, and its events denote its tree. -/
theorem value_complete
    (complete : Complete g lex apart)
    {text : List UInt8} {tree : Tree}
    (h : lex.Value text tree) :
    ∀ (s : Scanner) (rest : List UInt8), s.rest = text ++ rest → s.maxDepth = none →
      apart text rest → ReadsValue g s text tree := by
  induction h with
  | @scalar text tree scalar =>
      intro s rest ahead limit ends
      obtain ⟨kind, read, value⟩ := complete.scalar s text rest tree scalar ahead ends
      refine ⟨_, ?_, .scalar (value ⟨s.position, (s.advance text.length).position⟩)⟩
      have passes := Scanner.Passes.advance s text.length
      rw [ahead, List.take_left] at passes
      rw [value_eq, read, token, Scanner.eventTo, passes.textTo_eq]
  | emptyArray trivia =>
      intro s rest ahead limit _
      obtain ⟨first, last, opens, closes, read⟩ :=
        container_empty complete closes_elements arrayBrackets g.value trivia ahead limit
      exact ⟨_, (value_array ahead).trans read, .array [] opens closes (by simp)⟩
  | array elements nonempty around values ih =>
      intro s rest ahead limit _
      exact array_complete complete nonempty around
        (fun e mem => value_starts complete (values e mem))
        (fun e mem => readsItem_value complete (ih e mem)) ahead limit
  | emptyObject trivia =>
      intro s rest ahead limit _
      obtain ⟨first, last, opens, closes, read⟩ :=
        container_empty complete closes_members objectBrackets (g.member g.value) trivia ahead
          limit
      exact ⟨_, (value_object ahead).trans read, .object [] opens closes (by simp) (by simp)⟩
  | object members nonempty around values ih =>
      intro s rest ahead limit _
      have reads := fun m mem => readsItem_member complete (around m mem).2
        (value_starts complete (values m mem)) (readsItem_value complete (ih m mem))
      exact object_complete complete nonempty (fun m mem => (around m mem).1)
        (fun m mem => member_starts complete (around m mem).2) reads ahead limit

/-- A text is derived as a value for one tree only. -/
theorem value_unique
    (complete : Complete g lex apart)
    {text : List UInt8} {tree tree' : Tree}
    (h : lex.Value text tree)
    (h' : lex.Value text tree') :
    tree = tree' := by
  have ends : apart text [Byte.comma] :=
    complete.separate text [Byte.comma] (separates_comma.follows []) (by simp)
  have read {other : Tree} (value : lex.Value text other) :=
    value_complete complete value (Scanner.start (text ++ [Byte.comma]) none) _ rfl rfl ends
  obtain ⟨events, run, denotes⟩ := read h
  obtain ⟨events', run', denotes'⟩ := read h'
  rw [run] at run'
  cases run'
  have build := Builder.build_of_denotes denotes
  rw [Builder.build_of_denotes denotes'] at build
  cases build
  rfl

end Syntax
end JsonDoc
