import JsonDoc.Builder

/-!
# What events stand for

`Events.Denotes` gives sequences of events a meaning by the grammar of values,

```text
value ::= scalar | arrayBegin value* arrayEnd | objectBegin (string value)* objectEnd
```

without a stack and without offsets. The builder agrees with it: a sequence that denotes a tree is
built into that tree, `build_of_denotes`.
-/

namespace JsonDoc

/-- The value of an event that is one by itself. -/
def Event.scalar? (event : Event) : Option Tree :=
  match event.kind with
  | .string => some (.string (Builder.content event.text))
  | .number => (NumberText.value? (Utf8.decode event.text)).map .number
  | .boolean => some (.boolean (event.text == Literal.true.word))
  | .null => some .null
  | _ => none

namespace Events

/-- Some events with the tree that they stand for. -/
structure Part where
  events : List Event
  tree : Tree

/-- The event of a key with the events of its value. -/
structure KeyedPart where
  key : Event
  events : List Event
  tree : Tree

namespace KeyedPart

def all (part : KeyedPart) : List Event := part.key :: part.events

/-- What a key and its value stand for. -/
def pair
    (part : KeyedPart) : String × Tree :=
  (Builder.content part.key.text, part.tree)

end KeyedPart

/-- The sequences of events that stand for trees. -/
inductive Denotes : List Event → Tree → Prop
  | scalar {event : Event} {tree : Tree} : event.scalar? = some tree → Denotes [event] tree
  | array {first last : Event} (parts : List Part) :
      first.kind = .arrayBegin → last.kind = .arrayEnd →
      (∀ part ∈ parts, Denotes part.events part.tree) →
      Denotes (first :: (parts.flatMap Part.events ++ [last])) (.array (parts.map Part.tree))
  | object {first last : Event} (parts : List KeyedPart) :
      first.kind = .objectBegin → last.kind = .objectEnd →
      (∀ part ∈ parts, part.key.kind = .string) →
      (∀ part ∈ parts, Denotes part.events part.tree) →
      Denotes (first :: (parts.flatMap KeyedPart.all ++ [last]))
        (.object (Members.ofList (parts.map KeyedPart.pair)))

end Events

namespace Builder

open Events

/-- A value is expected next. -/
def Expects (b : Builder) : Prop :=
  match b.stack with
  | [] => b.root = none
  | .array _ :: _ => True
  | .object _ pending :: _ => pending ≠ none

/-- The builder after it has taken a whole value. -/
def put (b : Builder) (tree : Tree) : Builder := (b.attach tree ⟨0, 0⟩).builder

variable {b : Builder} {tree : Tree} {event : Event}

/-- Where a value is expected it is attached, whatever its span. -/
theorem attach_of_expects
    (h : b.Expects)
    (tree : Tree)
    (span : Span) :
    (b.attach tree span).builder = b.put tree ∧ (b.attach tree span).error = none := by
  obtain ⟨stack, root⟩ := b
  cases stack with
  | nil =>
      simp only [Expects] at h
      simp [put, attach, h, accept]
  | cons frame rest =>
      cases frame with
      | array reversed =>
          simp [put, attach, accept]
      | object members pending =>
          cases pending with
          | none =>
              simp [Expects] at h
          | some key =>
              simp [put, attach]

theorem takeAll_append
    (first : List Event) :
    ∀ (b c : Builder) (events : List Event),
      b.takeAll first = (c, none) → b.takeAll (first ++ events) = c.takeAll events := by
  induction first with
  | nil =>
      intro b c events h
      simp only [takeAll, Prod.mk.injEq, and_true] at h
      rw [h, List.nil_append]
  | cons event first ih =>
      intro b c events h
      simp only [takeAll, List.cons_append] at h ⊢
      split at h
      · simp at h
      · rename_i taken
        simpa [taken] using ih _ c events h

theorem takeAll_cons
    {c : Builder}
    (events : List Event)
    (taken : (b.take event).builder = c)
    (fits : (b.take event).error = none) :
    b.takeAll (event :: events) = c.takeAll events := by
  simp [takeAll, fits, taken]

theorem take_scalar
    (h : b.Expects)
    (scalar : event.scalar? = some tree) :
    (b.take event).builder = b.put tree ∧ (b.take event).error = none := by
  obtain ⟨kind, span, text⟩ := event
  cases kind with
  | objectBegin | objectEnd | arrayBegin | arrayEnd =>
      simp [Event.scalar?] at scalar
  | string =>
      simp only [Event.scalar?, Option.some.injEq] at scalar
      subst scalar
      have value : b.takeString (content text) span = b.attach (.string (content text)) span := by
        unfold takeString
        split
        · rename_i members rest stack
          simp [Expects, stack] at h
        · rfl
      simpa [take, value] using attach_of_expects h _ span
  | number =>
      simp only [Event.scalar?, Option.map_eq_some_iff] at scalar
      obtain ⟨n, value, rfl⟩ := scalar
      simpa [take, value] using attach_of_expects h (.number n) span
  | boolean =>
      simp only [Event.scalar?, Option.some.injEq] at scalar
      subst scalar
      simpa [take] using attach_of_expects h _ span
  | null =>
      simp only [Event.scalar?, Option.some.injEq] at scalar
      subst scalar
      simpa [take] using attach_of_expects h _ span

/-- Where a value is expected a container may open. -/
theorem openFrame_of_expects
    (h : b.Expects)
    (frame : Frame)
    (span : Span) :
    (b.openFrame frame span).builder = { b with stack := frame :: b.stack } ∧
      (b.openFrame frame span).error = none := by
  obtain ⟨stack, root⟩ := b
  cases stack with
  | nil =>
      simp only [Expects] at h
      simp [openFrame, h, accept]
  | cons top rest =>
      cases top with
      | array reversed =>
          simp [openFrame, accept]
      | object members pending =>
          cases pending with
          | none =>
              simp [Expects] at h
          | some key =>
              simp [openFrame, accept]

/-- The values of an array go onto its frame one after another. -/
theorem takeAll_parts
    (root : Option Tree)
    (rest : List Frame)
    (parts : List Part)
    (each : ∀ part ∈ parts, ∀ b : Builder, b.Expects →
      b.takeAll part.events = (b.put part.tree, none)) :
    ∀ reversed : List Tree,
      takeAll ⟨.array reversed :: rest, root⟩ (parts.flatMap Part.events) =
        (⟨.array ((parts.map Part.tree).reverse ++ reversed) :: rest, root⟩, none) := by
  induction parts with
  | nil =>
      intro reversed
      rfl
  | cons part parts ih =>
      intro reversed
      have first : takeAll ⟨.array reversed :: rest, root⟩ part.events =
          (⟨.array (part.tree :: reversed) :: rest, root⟩, none) :=
        each part List.mem_cons_self _ trivial
      have more := ih (fun p mem => each p (List.mem_cons_of_mem part mem)) (part.tree :: reversed)
      rw [List.flatMap_cons, takeAll_append _ _ _ _ first, more]
      simp

/-- The members of an object go into its frame one after another, each after its key. -/
theorem takeAll_keyedParts
    (root : Option Tree)
    (rest : List Frame)
    (parts : List KeyedPart)
    (keys : ∀ part ∈ parts, part.key.kind = .string)
    (each : ∀ part ∈ parts, ∀ b : Builder, b.Expects →
      b.takeAll part.events = (b.put part.tree, none)) :
    ∀ members : Members Tree,
      takeAll ⟨.object members none :: rest, root⟩ (parts.flatMap KeyedPart.all) =
        (⟨.object (members.insertAll (parts.map KeyedPart.pair)) none :: rest, root⟩, none) := by
  induction parts with
  | nil =>
      intro members
      rfl
  | cons part parts ih =>
      intro members
      have key : takeAll ⟨.object members none :: rest, root⟩ [part.key] =
          (⟨.object members (some (content part.key.text)) :: rest, root⟩, none) := by
        simp [takeAll, take, keys part List.mem_cons_self, takeString, accept]
      have value : takeAll ⟨.object members (some (content part.key.text)) :: rest, root⟩
            part.events =
          (⟨.object (members.insert (content part.key.text) part.tree) none :: rest, root⟩,
            none) := by
        refine each part List.mem_cons_self _ ?_
        simp [Expects]
      have more := ih (fun p mem => keys p (List.mem_cons_of_mem part mem))
        (fun p mem => each p (List.mem_cons_of_mem part mem))
        (members.insert (content part.key.text) part.tree)
      have all : part.all = [part.key] ++ part.events := rfl
      rw [List.flatMap_cons, all, List.append_assoc, takeAll_append _ _ _ _ key,
        takeAll_append _ _ _ _ value, more]
      rfl

/-- Where a value is expected, events that denote a tree are taken as that tree. -/
theorem takeAll_of_denotes
    {events : List Event} {tree : Tree}
    (h : Denotes events tree) :
    ∀ b : Builder, b.Expects → b.takeAll events = (b.put tree, none) := by
  induction h with
  | scalar scalar =>
      intro b hb
      obtain ⟨taken, fits⟩ := take_scalar hb scalar
      rw [takeAll_cons [] taken fits]
      rfl
  | @array first last parts opens closes _ each =>
      intro b hb
      obtain ⟨taken, fits⟩ := openFrame_of_expects hb (.array []) first.span
      have inside := takeAll_parts b.root b.stack parts each []
      obtain ⟨attached, placed⟩ := attach_of_expects hb (.array (parts.map Part.tree)) last.span
      rw [takeAll_cons _ (by simpa [take, opens] using taken) (by simpa [take, opens] using fits),
        takeAll_append _ _ _ _ inside]
      simp [takeAll, take, closes, closeFrame, attached, placed]
  | @object first last parts opens closes keys _ each =>
      intro b hb
      obtain ⟨taken, fits⟩ := openFrame_of_expects hb (.object [] none) first.span
      have inside := takeAll_keyedParts b.root b.stack parts keys each []
      obtain ⟨attached, placed⟩ := attach_of_expects hb
        (.object (Members.ofList (parts.map KeyedPart.pair))) last.span
      rw [takeAll_cons _ (by simpa [take, opens] using taken) (by simpa [take, opens] using fits),
        takeAll_append _ _ _ _ inside]
      rw [Members.ofList] at attached placed ⊢
      simp [takeAll, take, closes, closeFrame, attached, placed]

/-- Events that denote a tree are built into it. -/
theorem build_of_denotes
    {events : List Event} {tree : Tree}
    (h : Denotes events tree) :
    build events = .ok tree := by
  have all := takeAll_of_denotes h empty rfl
  have root : (empty.put tree).root = some tree := rfl
  have stack : (empty.put tree).stack = [] := rfl
  simp [build, all, finish, root, stack]

end Builder
end JsonDoc
