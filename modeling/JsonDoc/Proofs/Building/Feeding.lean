import JsonDoc.Proofs.Building.Denotation

/-!
# Feeding on after errors

A builder that has refused an event can be fed with others. Whatever it is fed with, it is never in
a state in which an open container has no place for its value: `Sound` says so, and each event keeps
it, `Sound.take`. A container is given its place when it opens and put there when it closes, and
between the two any events may come, also such that close other containers or drop them.

So an event that is refused changes nothing, unless it closes a container in the wrong way: then
that container is dropped, and nothing else. `feed_sound` says both of all the states that feeding
leads to.
-/

namespace JsonDoc

/-- The kind of the event that ends a container. -/
def Container.endKind : Container → EventKind
  | .array => .arrayEnd
  | .object => .objectEnd

/-- A value has a place in the container: in an object a key waits for it. -/
def Frame.Awaits : Frame → Prop
  | .array _ => True
  | .object _ pending => pending ≠ none

/-- The error of closing the container with its own end: a key must not wait for its value. -/
def Frame.dangling? (span : Span) : Frame → Option BuildError
  | .object _ (some key) => some (.danglingKey key span)
  | _ => none

/-- Whether the error is that of a container that cannot be closed in this way. -/
def BuildError.drops : BuildError → Bool
  | .mismatchedEnd .. | .danglingKey .. => true
  | _ => false

namespace Builder

/-- The builder after some events, some of which it may have refused. -/
def feed (b : Builder) (events : List Event) : Builder :=
  events.foldl (fun b event => (b.take event).builder) b

/-- The builder after its innermost container is gone. -/
def pop (b : Builder) : Builder := { b with stack := b.stack.tail }

/-- Nothing is open beside a finished document, and each open container has a place in the one
around it. -/
structure Sound (b : Builder) : Prop where
  finished : b.root ≠ none → b.stack = []
  placed : ∀ frame ∈ b.stack.tail, frame.Awaits

variable {b : Builder} {frame : Frame} {outer : List Frame} {root : Option Tree} {tree : Tree}
variable {event : Event} {span : Span}

theorem sound_empty :
    empty.Sound := ⟨fun _ => rfl, by simp [empty]⟩

theorem expects_cons :
    Expects ⟨frame :: outer, root⟩ ↔ frame.Awaits := by
  cases frame <;> rfl

namespace Sound

/-- Where the innermost container stands, a value is expected. -/
theorem expects_pop
    (h : Sound ⟨frame :: outer, root⟩) :
    Expects ⟨outer, root⟩ := by
  cases outer with
  | nil =>
      exact Classical.not_not.mp fun some => List.cons_ne_nil _ _ (h.finished some)
  | cons around outer =>
      exact expects_cons.mpr (h.placed around List.mem_cons_self)

theorem pop
    (h : Sound ⟨frame :: outer, root⟩) :
    Sound ⟨outer, root⟩ where
  finished some := absurd (h.finished some) (List.cons_ne_nil _ _)
  placed around mem := h.placed around (List.mem_of_mem_tail mem)

/-- A container that opens where a value is expected has its place there. -/
theorem push
    (h : b.Sound)
    (expects : b.Expects)
    (frame : Frame) :
    Sound { b with stack := frame :: b.stack } := by
  obtain ⟨stack, root⟩ := b
  cases stack with
  | nil =>
      exact ⟨fun some => absurd expects some, by simp⟩
  | cons around outer =>
      refine ⟨fun some => absurd (h.finished some) (List.cons_ne_nil _ _), ?_⟩
      intro other mem
      rcases List.mem_cons.mp mem with rfl | mem
      · exact expects_cons.mp expects
      · exact h.placed other mem

/-- What the innermost container holds, and whether a key waits in it, says nothing about places. -/
theorem replace
    (h : Sound ⟨frame :: outer, root⟩)
    (other : Frame) :
    Sound ⟨other :: outer, root⟩ :=
  h.pop.push h.expects_pop other

theorem put
    (h : b.Sound)
    (expects : b.Expects)
    (tree : Tree) :
    (b.put tree).Sound := by
  obtain ⟨stack, root⟩ := b
  cases stack with
  | nil =>
      obtain rfl : root = none := expects
      exact ⟨fun _ => rfl, by simp [Builder.put, attach, accept]⟩
  | cons around outer =>
      cases around with
      | array reversed =>
          exact h.replace _
      | object members pending =>
          cases pending with
          | none =>
              exact absurd rfl (expects_cons.mp expects)
          | some key =>
              exact h.replace _

end Sound

/-! ## One event -/

/-- What an event can do to a builder: the builder after it, and the error if it was refused. -/
inductive Effect (b : Builder) : Builder → Option BuildError → Prop
  | opens (frame : Frame) : b.Expects → Effect b { b with stack := frame :: b.stack } none
  | value (tree : Tree) : b.Expects → Effect b (b.put tree) none
  | key {members : Members Tree} {outer : List Frame} (key : String) :
      b.stack = .object members none :: outer →
      Effect b { b with stack := .object members (some key) :: outer } none
  | closes (tree : Tree) : b.stack ≠ [] → b.pop.Expects → Effect b (b.pop.put tree) none
  | drops {e : BuildError} : e.drops → b.stack ≠ [] → Effect b b.pop (some e)
  | refuses {e : BuildError} : e.drops = false → Effect b b (some e)

/-- No value is expected after a whole document, and in an object before a key. -/
theorem cases_of_not_expects
    (h : ¬ b.Expects) :
    (∃ document, b = ⟨[], some document⟩) ∨
      ∃ members outer root, b = ⟨.object members none :: outer, root⟩ := by
  obtain ⟨stack, root⟩ := b
  cases stack with
  | nil =>
      obtain ⟨document, rfl⟩ := Option.ne_none_iff_exists'.mp h
      exact Or.inl ⟨document, rfl⟩
  | cons frame outer =>
      cases frame with
      | array reversed =>
          exact absurd trivial h
      | object members pending =>
          obtain rfl := Classical.not_not.mp h
          exact Or.inr ⟨members, outer, root, rfl⟩

/-- A value is attached where one is expected, and refused elsewhere. -/
theorem effect_attach
    (b : Builder)
    (tree : Tree)
    (span : Span) :
    Effect b (b.attach tree span).builder (b.attach tree span).error := by
  by_cases expects : b.Expects
  · obtain ⟨attached, fits⟩ := attach_of_expects expects tree span
    rw [attached, fits]
    exact .value tree expects
  · rcases cases_of_not_expects expects with ⟨document, rfl⟩ | ⟨members, outer, root, rfl⟩
    · exact .refuses rfl
    · exact .refuses rfl

theorem effect_openFrame
    (b : Builder)
    (frame : Frame)
    (span : Span) :
    Effect b (b.openFrame frame span).builder (b.openFrame frame span).error := by
  by_cases expects : b.Expects
  · obtain ⟨opened, fits⟩ := openFrame_of_expects expects frame span
    rw [opened, fits]
    exact .opens frame expects
  · rcases cases_of_not_expects expects with ⟨document, rfl⟩ | ⟨members, outer, root, rfl⟩
    · exact .refuses rfl
    · exact .refuses rfl

/-- The container around the innermost one expects a value, so what is closed can be put there. -/
theorem Sound.effect_closeFrame
    (h : b.Sound)
    (container : Container)
    (span : Span) :
    Effect b (b.closeFrame container span).builder (b.closeFrame container span).error := by
  obtain ⟨stack, root⟩ := b
  cases stack with
  | nil =>
      exact .refuses rfl
  | cons frame outer =>
      have closes (tree : Tree) : Effect ⟨frame :: outer, root⟩
          (attach ⟨outer, root⟩ tree span).builder (attach ⟨outer, root⟩ tree span).error := by
        obtain ⟨attached, fits⟩ := attach_of_expects h.expects_pop tree span
        rw [attached, fits]
        exact .closes tree (List.cons_ne_nil _ _) h.expects_pop
      cases container with
      | array =>
          cases frame with
          | array reversed =>
              exact closes _
          | object members pending =>
              exact .drops rfl (List.cons_ne_nil _ _)
      | object =>
          cases frame with
          | array reversed =>
              exact .drops rfl (List.cons_ne_nil _ _)
          | object members pending =>
              cases pending with
              | none =>
                  exact closes _
              | some key =>
                  exact .drops rfl (List.cons_ne_nil _ _)

theorem effect_takeString
    (b : Builder)
    (content : String)
    (span : Span) :
    Effect b (b.takeString content span).builder (b.takeString content span).error := by
  unfold takeString
  split
  · rename_i members outer stack
    exact .key content stack
  · exact effect_attach b _ span

theorem Sound.effect_take
    (h : b.Sound)
    (event : Event) :
    Effect b (b.take event).builder (b.take event).error := by
  unfold take
  cases event.kind with
  | objectBegin | arrayBegin =>
      exact effect_openFrame b _ event.span
  | objectEnd | arrayEnd =>
      exact h.effect_closeFrame _ event.span
  | string =>
      exact effect_takeString b _ event.span
  | number =>
      simp only
      split
      · exact .refuses rfl
      · exact effect_attach b _ event.span
  | boolean | null =>
      exact effect_attach b _ event.span

/-- Every event keeps the places of the open containers, also one that is refused. -/
theorem Sound.take
    (h : b.Sound)
    (event : Event) :
    (b.take event).builder.Sound := by
  have effect := h.effect_take event
  generalize (b.take event).builder = c, (b.take event).error = error at effect
  obtain ⟨stack, root⟩ := b
  cases effect with
  | opens frame expects =>
      exact h.push expects frame
  | value tree expects =>
      exact h.put expects tree
  | key key open_ =>
      cases open_
      exact h.replace _
  | closes tree some expects =>
      obtain ⟨frame, outer, rfl⟩ := List.exists_cons_of_ne_nil some
      exact h.pop.put expects tree
  | drops _ some =>
      obtain ⟨frame, outer, rfl⟩ := List.exists_cons_of_ne_nil some
      exact h.pop
  | refuses _ =>
      exact h

/-- What a refused event leaves. -/
theorem Sound.refused
    (h : b.Sound)
    {e : BuildError}
    (refused : (b.take event).error = some e) :
    (e.drops → b.stack ≠ []) ∧ (b.take event).builder = if e.drops then b.pop else b := by
  have effect := h.effect_take event
  rw [refused] at effect
  generalize (b.take event).builder = c at effect
  cases effect with
  | drops drops some =>
      exact ⟨fun _ => some, (if_pos drops).symm⟩
  | refuses keeps =>
      simp [keeps]

/-- The innermost container closes with its own end, unless a key in it waits for a value. -/
theorem Sound.error_closeFrame
    (h : Sound ⟨frame :: outer, root⟩)
    (span : Span) :
    (closeFrame ⟨frame :: outer, root⟩ frame.container span).error = frame.dangling? span := by
  have attached (tree : Tree) : (attach ⟨outer, root⟩ tree span).error = none :=
    (attach_of_expects h.expects_pop tree span).2
  cases frame with
  | array reversed =>
      exact attached _
  | object members pending =>
      cases pending with
      | none =>
          exact attached _
      | some key =>
          rfl

theorem Sound.error_take
    (h : b.Sound)
    (innermost : b.stack = frame :: outer)
    (ends : event.kind = frame.container.endKind) :
    (b.take event).error = frame.dangling? event.span := by
  obtain ⟨stack, root⟩ := b
  obtain rfl : stack = frame :: outer := innermost
  rw [← h.error_closeFrame]
  cases frame with
  | array _ | object _ _ =>
      simp only [Frame.container, Container.endKind] at ends
      simp only [Builder.take, ends, Frame.container]

/-! ## Many events -/

theorem Sound.feed
    (events : List Event) :
    ∀ {b : Builder}, b.Sound → (b.feed events).Sound := by
  induction events with
  | nil =>
      exact id
  | cons event events ih =>
      exact fun h => ih (h.take event)

/-- Whatever a builder is fed with, refused events included: beside a finished document nothing is
open, and a key waits in each open object but the innermost container. So a container that closes
with its own end is refused for a waiting key only. A refused event leaves the builder as it was,
and one that closes a container in the wrong way leaves it without that container. -/
theorem feed_sound
    (events : List Event) :
    ((empty.feed events).root ≠ none → (empty.feed events).stack = []) ∧
      (∀ frame ∈ (empty.feed events).stack.tail, frame.Awaits) ∧
      (∀ frame outer event, (empty.feed events).stack = frame :: outer →
        event.kind = frame.container.endKind →
        ((empty.feed events).take event).error = frame.dangling? event.span) ∧
      ∀ event e, ((empty.feed events).take event).error = some e →
        (e.drops → (empty.feed events).stack ≠ []) ∧
        ((empty.feed events).take event).builder =
          if e.drops then (empty.feed events).pop else empty.feed events := by
  have sound : (empty.feed events).Sound := sound_empty.feed events
  exact ⟨sound.finished, sound.placed, fun _ _ _ => sound.error_take, fun _ _ => sound.refused⟩

/-- An array as the value of a key. -/
def openArray : List Event :=
  [⟨.objectBegin, ⟨0, 1⟩, [Byte.openBrace]⟩, ⟨.string, ⟨1, 4⟩, [Byte.quote, 0x6B, Byte.quote]⟩,
    ⟨.arrayBegin, ⟨5, 6⟩, [Byte.openBracket]⟩]

/-- The array may be closed. The end of an object drops it, and the object keeps its key. -/
theorem feed_sound_openArray :
    (empty.feed openArray).stack = [.array [], .object [] (some "k")] ∧
      (∀ frame ∈ [Frame.object [] (some "k")], frame.Awaits) ∧
      ((empty.feed openArray).take ⟨.arrayEnd, ⟨6, 7⟩, [Byte.closeBracket]⟩).error = none ∧
      ((empty.feed openArray).take ⟨.objectEnd, ⟨6, 7⟩, [Byte.closeBrace]⟩).error =
        some (.mismatchedEnd .array ⟨6, 7⟩) ∧
      ((empty.feed openArray).take ⟨.objectEnd, ⟨6, 7⟩, [Byte.closeBrace]⟩).builder =
        (empty.feed openArray).pop := by
  obtain ⟨_, placed, closes, refused⟩ := feed_sound openArray
  exact ⟨rfl, placed, closes _ _ _ rfl rfl, rfl, (refused _ (.mismatchedEnd .array ⟨6, 7⟩) rfl).2⟩

end Builder
end JsonDoc
