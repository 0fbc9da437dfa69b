import JsonDoc.Proofs.Building.Denotation

/-!
# What the builder accepts

A sequence of events is taken to its end and finished as a tree exactly if it denotes the tree,
`takeAll_finish_iff`. What denotes a tree is built into it by `build_of_denotes`. For the converse
the stack is read as an account of the events taken so far: each open container stands for its
begin event and for the events of what it holds. Taking one event keeps the account,
`Accounts.take`, and so does taking many, `Accounts.takeAll`; an account that is closed is a
derivation.
-/

namespace JsonDoc

namespace Members

variable {α : Type}

theorem get?_insertAll
    (key : String)
    (pairs : List (String × α)) :
    ∀ members : Members α,
      (members.insertAll pairs).get? key =
        ((pairs.reverse.find? fun pair => pair.1 == key).map (·.2)).or (members.get? key) := by
  induction pairs with
  | nil =>
      intro members
      simp
  | cons pair pairs ih =>
      intro members
      rw [insertAll_cons, ih, get?_insert, List.reverse_cons, List.find?_append]
      cases later : pairs.reverse.find? fun pair => pair.1 == key with
      | some last =>
          simp
      | none =>
          by_cases same : pair.1 = key <;> simp [same]

/-- Of equal keys the last one counts. -/
theorem get?_ofList
    (pairs : List (String × α))
    (key : String) :
    (ofList pairs).get? key = (pairs.reverse.find? fun pair => pair.1 == key).map (·.2) := by
  rw [ofList, get?_insertAll, get?_nil, Option.or_none]

end Members

namespace Events

/-- The events of a container that is still open: its begin event and the events of what its
frame holds. -/
inductive Opens : Frame → List Event → Prop
  | array {first : Event} (parts : List Part) :
      first.kind = .arrayBegin →
      (∀ part ∈ parts, Denotes part.events part.tree) →
      Opens (.array (parts.map Part.tree).reverse) (first :: parts.flatMap Part.events)
  | object {first : Event} (parts : List KeyedPart) :
      first.kind = .objectBegin →
      (∀ part ∈ parts, part.key.kind = .string) →
      (∀ part ∈ parts, Denotes part.events part.tree) →
      Opens (.object (Members.ofList (parts.map KeyedPart.pair)) none)
        (first :: parts.flatMap KeyedPart.all)
  | key {members : Members Tree} {events : List Event} {key : Event} :
      Opens (.object members none) events → key.kind = .string →
      Opens (.object members (some (Builder.content key.text))) (events ++ [key])

/-- The events that the open containers stand for, the outermost container first. -/
inductive OpensAll : List Frame → List Event → Prop
  | nil : OpensAll [] []
  | cons {frame : Frame} {outer : List Frame} {before inside : List Event} :
      OpensAll outer before → Opens frame inside → OpensAll (frame :: outer) (before ++ inside)

variable {events : List Event} {tree : Tree}

namespace Opens

theorem item
    {reversed : List Tree} {value : List Event}
    (h : Opens (.array reversed) events)
    (isValue : Denotes value tree) :
    Opens (.array (tree :: reversed)) (events ++ value) := by
  cases h with
  | @array first parts opens each =>
      have all : ∀ part ∈ parts ++ [⟨value, tree⟩], Denotes part.events part.tree := by
        intro part mem
        rcases List.mem_append.mp mem with mem | mem
        · exact each part mem
        · rw [List.mem_singleton.mp mem]
          exact isValue
      simpa using Opens.array _ opens all

theorem member
    {members : Members Tree} {key : String} {value : List Event}
    (h : Opens (.object members (some key)) events)
    (isValue : Denotes value tree) :
    Opens (.object (members.insert key tree) none) (events ++ value) := by
  cases h with
  | @key _ _ k h isKey =>
      cases h with
      | @object first parts opens keys each =>
          have allKeys : ∀ part ∈ parts ++ [⟨k, value, tree⟩], part.key.kind = .string := by
            intro part mem
            rcases List.mem_append.mp mem with mem | mem
            · exact keys part mem
            · rw [List.mem_singleton.mp mem]
              exact isKey
          have all : ∀ part ∈ parts ++ [⟨k, value, tree⟩], Denotes part.events part.tree := by
            intro part mem
            rcases List.mem_append.mp mem with mem | mem
            · exact each part mem
            · rw [List.mem_singleton.mp mem]
              exact isValue
          have inserted := Opens.object _ opens allKeys all
          simpa [Members.ofList, Members.insertAll, KeyedPart.pair, KeyedPart.all] using inserted

theorem closeArray
    {reversed : List Tree} {last : Event}
    (h : Opens (.array reversed) events)
    (closes : last.kind = .arrayEnd) :
    Denotes (events ++ [last]) (.array reversed.reverse) := by
  cases h with
  | array parts opens each =>
      simpa using Denotes.array parts opens closes each

theorem closeObject
    {members : Members Tree} {last : Event}
    (h : Opens (.object members none) events)
    (closes : last.kind = .objectEnd) :
    Denotes (events ++ [last]) (.object members) := by
  cases h with
  | object parts opens keys each =>
      simpa using Denotes.object parts opens closes keys each

end Opens
end Events

namespace Builder

open Events

/-- The builder stands for the events that it has taken: it holds the tree that they denote, or
they are those of its open containers. -/
inductive Accounts : Builder → List Event → Prop
  | within {stack : List Frame} {events : List Event} :
      OpensAll stack events → Accounts ⟨stack, none⟩ events
  | complete {tree : Tree} {events : List Event} :
      Denotes events tree → Accounts ⟨[], some tree⟩ events

variable {b c : Builder} {tree : Tree} {event : Event} {before events : List Event} {span : Span}

namespace Accounts

/-- A value that is attached goes to the account of the innermost container. -/
theorem attach
    (h : b.Accounts before)
    (isValue : Denotes events tree)
    (span : Span)
    (fits : (b.attach tree span).error = none) :
    (b.attach tree span).builder.Accounts (before ++ events) := by
  cases h with
  | complete _ =>
      simp [Builder.attach, refuse] at fits
  | within opens =>
      cases opens with
      | nil =>
          exact .complete isValue
      | @cons frame outer before inside others inner =>
          rw [List.append_assoc]
          cases frame with
          | array reversed =>
              exact .within (.cons others (inner.item isValue))
          | object members pending =>
              cases pending with
              | none =>
                  simp [Builder.attach, refuse] at fits
              | some key =>
                  exact .within (.cons others (inner.member isValue))

theorem openFrame
    {frame : Frame}
    (h : b.Accounts before)
    (opens : Opens frame [event])
    (fits : (b.openFrame frame span).error = none) :
    (b.openFrame frame span).builder.Accounts (before ++ [event]) := by
  cases h with
  | complete _ =>
      simp [Builder.openFrame, refuse] at fits
  | @within stack _ outer =>
      have all : OpensAll (frame :: stack) (before ++ [event]) := .cons outer opens
      cases outer with
      | nil =>
          exact .within all
      | @cons top _ _ _ _ _ =>
          cases top with
          | array reversed =>
              exact .within all
          | object members pending =>
              cases pending with
              | none =>
                  simp [Builder.openFrame, refuse] at fits
              | some key =>
                  exact .within all

/-- A container that is closed is a value of the one around it. -/
theorem closeFrame
    {container : Container}
    (h : b.Accounts before)
    (closes : event.kind = match container with | .array => .arrayEnd | .object => .objectEnd)
    (fits : (b.closeFrame container span).error = none) :
    (b.closeFrame container span).builder.Accounts (before ++ [event]) := by
  cases h with
  | complete _ =>
      simp [Builder.closeFrame, refuse] at fits
  | within opens =>
      cases opens with
      | nil =>
          simp [Builder.closeFrame, refuse] at fits
      | @cons frame outer before inside others inner =>
          have account : Accounts ⟨outer, none⟩ before := .within others
          rw [List.append_assoc]
          cases container with
          | array =>
              cases frame with
              | array reversed =>
                  exact account.attach (inner.closeArray closes) span fits
              | object members pending =>
                  simp [Builder.closeFrame, refuse] at fits
          | object =>
              cases frame with
              | array reversed =>
                  simp [Builder.closeFrame, refuse] at fits
              | object members pending =>
                  cases pending with
                  | none =>
                      exact account.attach (inner.closeObject closes) span fits
                  | some key =>
                      simp [Builder.closeFrame, refuse] at fits

/-- A string is a key where an object has none waiting, and a value elsewhere. -/
theorem takeString
    (h : b.Accounts before)
    (isString : event.kind = .string)
    (fits : (b.takeString (content event.text) span).error = none) :
    (b.takeString (content event.text) span).builder.Accounts (before ++ [event]) := by
  have isValue : Denotes [event] (.string (content event.text)) :=
    .scalar (by simp [Event.scalar?, isString])
  cases h with
  | complete isTree =>
      exact (Accounts.complete isTree).attach isValue span fits
  | within opens =>
      cases opens with
      | nil =>
          exact (Accounts.within .nil).attach isValue span fits
      | @cons frame outer before inside others inner =>
          have account : Accounts ⟨frame :: outer, none⟩ (before ++ inside) :=
            .within (.cons others inner)
          cases frame with
          | array reversed =>
              exact account.attach isValue span fits
          | object members pending =>
              cases pending with
              | none =>
                  rw [List.append_assoc]
                  exact .within (.cons others (.key inner isString))
              | some key =>
                  exact account.attach isValue span fits

/-- Taking one event keeps the account. -/
theorem take
    (h : b.Accounts before)
    (fits : (b.take event).error = none) :
    (b.take event).builder.Accounts (before ++ [event]) := by
  unfold Builder.take at fits ⊢
  cases kind : event.kind with
  | objectBegin =>
      simp only [kind] at fits ⊢
      exact h.openFrame (.object [] kind (by simp) (by simp)) fits
  | arrayBegin =>
      simp only [kind] at fits ⊢
      exact h.openFrame (.array [] kind (by simp)) fits
  | objectEnd =>
      simp only [kind] at fits ⊢
      exact h.closeFrame kind fits
  | arrayEnd =>
      simp only [kind] at fits ⊢
      exact h.closeFrame kind fits
  | string =>
      simp only [kind] at fits ⊢
      exact h.takeString kind fits
  | number =>
      simp only [kind] at fits ⊢
      cases value : NumberText.value? (Utf8.decode event.text) with
      | none =>
          simp [value, refuse] at fits
      | some n =>
          simp only [value] at fits ⊢
          exact h.attach (.scalar (by simp [Event.scalar?, kind, value])) event.span fits
  | boolean =>
      simp only [kind] at fits ⊢
      exact h.attach (.scalar (by simp [Event.scalar?, kind])) event.span fits
  | null =>
      simp only [kind] at fits ⊢
      exact h.attach (.scalar (by simp [Event.scalar?, kind])) event.span fits

/-- Taking events one after another keeps the account. -/
theorem takeAll
    (events : List Event) :
    ∀ {b : Builder} {before : List Event},
      b.Accounts before → b.takeAll events = (c, none) → c.Accounts (before ++ events) := by
  induction events with
  | nil =>
      intro b before h all
      simp only [Builder.takeAll, Prod.mk.injEq, and_true] at all
      rw [List.append_nil, ← all]
      exact h
  | cons event events ih =>
      intro b before h all
      simp only [Builder.takeAll] at all
      split at all
      · simp at all
      · rename_i fits
        have more := ih (h.take fits) all
        rwa [List.append_assoc] at more

theorem finish
    (h : b.Accounts events)
    (finished : b.finish = .ok tree) :
    Denotes events tree := by
  cases h with
  | complete isTree =>
      cases finished
      exact isTree
  | within opens =>
      cases opens with
      | nil =>
          simp [Builder.finish] at finished
      | cons _ _ =>
          simp [Builder.finish] at finished

end Accounts

/-- A sequence of events is taken to its end and finished as a tree exactly if it denotes the
tree; in an object the last of equal keys counts. -/
theorem takeAll_finish_iff
    (events : List Event)
    (tree : Tree) :
    ((∃ b, empty.takeAll events = (b, none) ∧ b.finish = .ok tree) ↔ Denotes events tree) ∧
      ∀ (pairs : List (String × Tree)) (key : String),
        (Members.ofList pairs).get? key =
          (pairs.reverse.find? fun pair => pair.1 == key).map (·.2) := by
  refine ⟨⟨?_, ?_⟩, Members.get?_ofList⟩
  · rintro ⟨b, all, finished⟩
    have account : b.Accounts ([] ++ events) := (Accounts.within .nil).takeAll events all
    exact account.finish finished
  · intro h
    have all := takeAll_of_denotes h empty rfl
    exact ⟨empty.put tree, all, rfl⟩

end Builder
end JsonDoc
