import JsonDoc.Proofs.Building.Acceptance
import JsonDoc.Proofs.Reading.DepthLimit
import JsonDoc.Proofs.Tree.Leaves

/-!
# What is in a built tree

The leaves of a tree are those of the events that it is built from, its members are in order, and
its containers are nested as deep as the events are: `Denotes.allContent`, `Denotes.allNumbers`,
`Denotes.ordered` and `Denotes.containerDepth_le`.
-/

namespace JsonDoc

/-! ## Nesting of containers -/

namespace Tree

mutual

/-- How many containers are nested in one another, none in a scalar. -/
def containerDepth : Tree → Nat
  | .array items => containerDepthItems items + 1
  | .object members => containerDepthMembers members + 1
  | _ => 0

/-- The greatest depth of the items. -/
def containerDepthItems : List Tree → Nat
  | [] => 0
  | item :: items => max (containerDepth item) (containerDepthItems items)

/-- The greatest depth of the values of members. -/
def containerDepthMembers : List (String × Tree) → Nat
  | [] => 0
  | (_, value) :: members => max (containerDepth value) (containerDepthMembers members)

end

theorem containerDepthItems_le
    {items : List Tree} {n : Nat} :
    containerDepthItems items ≤ n ↔ ∀ item ∈ items, item.containerDepth ≤ n := by
  induction items with
  | nil =>
      simp [containerDepthItems]
  | cons item items ih =>
      rw [containerDepthItems, Nat.max_le, ih, List.forall_mem_cons]

theorem containerDepthMembers_le
    {members : List (String × Tree)} {n : Nat} :
    containerDepthMembers members ≤ n ↔ ∀ member ∈ members, member.2.containerDepth ≤ n := by
  induction members with
  | nil =>
      simp [containerDepthMembers]
  | cons member members ih =>
      rw [containerDepthMembers, Nat.max_le, ih, List.forall_mem_cons]

end Tree

namespace Event

variable {limit depth rise : Nat} {before inside after : List Event} {event : Event} {tree : Tree}

/-- The values that are no containers. -/
theorem scalar?_cases
    (h : event.scalar? = some tree) :
    (event.kind = .string ∧ tree = .string (Builder.content event.text)) ∨
      (event.kind = .number ∧
        ∃ n, NumberText.value? (Utf8.decode event.text) = some n ∧ tree = .number n) ∨
      (event.kind = .boolean ∧ ∃ b, tree = .boolean b) ∨ event.kind = .null ∧ tree = .null := by
  unfold scalar? at h
  cases kind : event.kind with
  | objectBegin | objectEnd | arrayBegin | arrayEnd =>
      simp [kind] at h
  | string =>
      simp only [kind, Option.some.injEq] at h
      exact Or.inl ⟨rfl, h.symm⟩
  | number =>
      simp only [kind, Option.map_eq_some_iff] at h
      obtain ⟨n, value, same⟩ := h
      exact Or.inr (Or.inl ⟨rfl, n, value, same.symm⟩)
  | boolean =>
      simp only [kind, Option.some.injEq] at h
      exact Or.inr (Or.inr (Or.inl ⟨rfl, _, h.symm⟩))
  | null =>
      simp only [kind, Option.some.injEq] at h
      exact Or.inr (Or.inr (Or.inr ⟨rfl, h.symm⟩))

theorem isScalar_of_scalar?
    (h : event.scalar? = some tree) :
    event.kind.isScalar := by
  rcases scalar?_cases h with ⟨kind, _⟩ | ⟨kind, _⟩ | ⟨kind, _⟩ | ⟨kind, _⟩ <;> rw [kind] <;> rfl

/-- What stands between events that open a number of containers more than they close. -/
theorem Within.between
    (h : Within limit depth (before ++ (inside ++ after)))
    (level : opened before = closed before + rise) :
    Within limit (depth + rise) inside := by
  intro start isPrefix
  have within := h (before ++ start)
    ((List.prefix_append_right_inj before).mpr (isPrefix.trans (List.prefix_append inside after)))
  rw [opened_append, closed_append] at within
  omega

/-- A single event opens a container, closes one, or does neither. -/
theorem opened_singleton
    (begins : event.kind.isBegin) :
    opened [event] = closed [event] + 1 := by
  simp [opened, closed, begins, isEnd_of_isBegin begins]

theorem closed_singleton
    (ends : event.kind.isEnd) :
    closed [event] = opened [event] + 1 := by
  simp [opened, closed, ends, isBegin_of_isEnd ends]

theorem balanced_singleton
    (scalar : event.kind.isScalar) :
    opened [event] = closed [event] := by
  have all : ∀ e ∈ [event], e.kind.isScalar := by simpa using scalar
  rw [opened_scalars all, closed_scalars all]

variable {α : Type} {events : α → List Event} {parts : List α}

theorem balanced_flatMap
    (each : ∀ part ∈ parts, opened (events part) = closed (events part)) :
    opened (parts.flatMap events) = closed (parts.flatMap events) := by
  induction parts with
  | nil =>
      rfl
  | cons part parts ih =>
      obtain ⟨first, others⟩ := List.forall_mem_cons.mp each
      rw [List.flatMap_cons, opened_append, closed_append, first, ih others]

variable {first last : Event}

theorem balanced_container
    (begins : first.kind.isBegin)
    (ends : last.kind.isEnd)
    (each : ∀ part ∈ parts, opened (events part) = closed (events part)) :
    opened (first :: (parts.flatMap events ++ [last])) =
      closed (first :: (parts.flatMap events ++ [last])) := by
  have opens := opened_singleton begins
  have closes := closed_singleton ends
  have inside := balanced_flatMap each
  rw [← List.singleton_append, opened_append, closed_append, opened_append, closed_append]
  omega

/-- The parts of a container stand one level below it. -/
theorem within_parts
    (h : Within limit depth (first :: (parts.flatMap events ++ [last])))
    (begins : first.kind.isBegin)
    (each : ∀ part ∈ parts, opened (events part) = closed (events part)) :
    depth + 1 ≤ limit ∧ ∀ part ∈ parts, Within limit (depth + 1) (events part) := by
  have opens := opened_singleton begins
  constructor
  · have room := h [first] ⟨_, rfl⟩
    omega
  · intro part mem
    obtain ⟨front, back, rfl⟩ := List.append_of_mem mem
    have balanced := balanced_flatMap fun earlier isIn => each earlier (List.mem_append_left _ isIn)
    have level : opened ([first] ++ front.flatMap events) =
        closed ([first] ++ front.flatMap events) + 1 := by
      rw [opened_append, closed_append]
      omega
    have around : Within limit depth ([first] ++ front.flatMap events ++
        (events part ++ (back.flatMap events ++ [last]))) := by
      simpa using h
    exact around.between level

end Event

namespace Events

open Event

variable {events : List Event} {tree : Tree}

/-! ## Leaves -/

/-- What holds of the content of every string event holds of all strings and keys. -/
theorem Denotes.allContent
    {P : String → Prop}
    (h : Denotes events tree)
    (each : ∀ event ∈ events, event.kind = .string → P (Builder.content event.text)) :
    tree.AllContent P := by
  induction h with
  | @scalar event tree value =>
      have isString := each event List.mem_cons_self
      rcases scalar?_cases value with ⟨kind, rfl⟩ | ⟨_, n, _, rfl⟩ | ⟨_, b, rfl⟩ | ⟨_, rfl⟩
      · exact .string (isString kind)
      · exact .number n
      · exact .boolean b
      · exact .null
  | @array first last parts _ _ _ ih =>
      refine .array (List.forall_mem_map.mpr fun part mem => ih part mem fun event here => ?_)
      refine each event (List.mem_cons_of_mem _ (List.mem_append_left _ ?_))
      exact List.mem_flatMap.mpr ⟨part, mem, here⟩
  | @object first last parts _ _ keys _ ih =>
      have inside {part : KeyedPart} (mem : part ∈ parts) {event : Event}
          (here : event ∈ part.all) :
          event.kind = .string → P (Builder.content event.text) := by
        refine each event (List.mem_cons_of_mem _ (List.mem_append_left _ ?_))
        exact List.mem_flatMap.mpr ⟨part, mem, here⟩
      refine .object ?_ ?_
      · intro member mem
        obtain ⟨part, here, rfl⟩ := List.mem_map.mp (Members.mem_ofList mem)
        exact inside here List.mem_cons_self (keys part here)
      · intro member mem
        obtain ⟨part, here, rfl⟩ := List.mem_map.mp (Members.mem_ofList mem)
        exact ih part here fun event isIn => inside here (List.mem_cons_of_mem _ isIn)

/-- What holds of the values of number tokens holds of all numbers. -/
theorem Denotes.allNumbers
    {P : Binary64 → Prop}
    (h : Denotes events tree)
    (each : ∀ text n, NumberText.value? text = some n → P n) :
    tree.AllNumbers P := by
  induction h with
  | scalar value =>
      rcases scalar?_cases value with ⟨_, rfl⟩ | ⟨_, n, isValue, rfl⟩ | ⟨_, b, rfl⟩ | ⟨_, rfl⟩
      · exact .string _
      · exact .number (each _ n isValue)
      · exact .boolean b
      · exact .null
  | array parts _ _ _ ih =>
      exact .array (List.forall_mem_map.mpr ih)
  | object parts _ _ _ _ ih =>
      refine .object fun member mem => ?_
      obtain ⟨part, here, rfl⟩ := List.mem_map.mp (Members.mem_ofList mem)
      exact ih part here

/-! ## Order -/

/-- The members of every object that events stand for are in order. -/
theorem Denotes.ordered
    (h : Denotes events tree) :
    tree.Ordered := by
  induction h with
  | scalar value =>
      rcases scalar?_cases value with ⟨_, rfl⟩ | ⟨_, n, _, rfl⟩ | ⟨_, b, rfl⟩ | ⟨_, rfl⟩
      · exact .string _
      · exact .number n
      · exact .boolean b
      · exact .null
  | array parts _ _ _ ih =>
      exact .array (List.forall_mem_map.mpr ih)
  | object parts _ _ _ _ ih =>
      refine .object (Members.sorted_ofList _) fun member mem => ?_
      obtain ⟨part, here, rfl⟩ := List.mem_map.mp (Members.mem_ofList mem)
      exact ih part here

/-! ## Nesting -/

theorem balanced_keyedPart
    {part : KeyedPart}
    (isKey : part.key.kind = .string)
    (balanced : opened part.events = closed part.events) :
    opened part.all = closed part.all := by
  have scalar : part.key.kind.isScalar := by
    rw [isKey]
    rfl
  have key := balanced_singleton scalar
  rw [KeyedPart.all, ← List.singleton_append, opened_append, closed_append]
  omega

/-- A tree closes as many containers as it opens. -/
theorem Denotes.balanced
    (h : Denotes events tree) :
    opened events = closed events := by
  induction h with
  | scalar value =>
      exact balanced_singleton (isScalar_of_scalar? value)
  | array parts opens closes _ ih =>
      exact balanced_container (by rw [opens]; rfl) (by rw [closes]; rfl) ih
  | object parts opens closes keys _ ih =>
      refine balanced_container (by rw [opens]; rfl) (by rw [closes]; rfl) fun part mem => ?_
      exact balanced_keyedPart (keys part mem) (ih part mem)

/-- Containers are nested no deeper than their events. -/
theorem Denotes.containerDepth_le
    {limit depth : Nat}
    (h : Denotes events tree)
    (within : Within limit depth events) :
    depth + tree.containerDepth ≤ limit := by
  induction h generalizing depth with
  | @scalar event tree value =>
      have room : depth ≤ limit := by simpa using within [] (List.nil_prefix)
      rcases scalar?_cases value with ⟨_, rfl⟩ | ⟨_, n, _, rfl⟩ | ⟨_, b, rfl⟩ | ⟨_, rfl⟩ <;>
        simpa [Tree.containerDepth] using room
  | @array first last parts opens _ each ih =>
      have begins : first.kind.isBegin := by
        rw [opens]
        rfl
      obtain ⟨room, inside⟩ := within_parts within begins fun part mem => (each part mem).balanced
      have below : Tree.containerDepthItems (parts.map Part.tree) ≤ limit - (depth + 1) := by
        refine Tree.containerDepthItems_le.mpr (List.forall_mem_map.mpr fun part mem => ?_)
        have := ih part mem (inside part mem)
        omega
      rw [Tree.containerDepth]
      omega
  | @object first last parts opens _ keys each ih =>
      have begins : first.kind.isBegin := by
        rw [opens]
        rfl
      obtain ⟨room, inside⟩ := within_parts within begins fun part mem =>
        balanced_keyedPart (keys part mem) (each part mem).balanced
      have below : Tree.containerDepthMembers (Members.ofList (parts.map KeyedPart.pair)) ≤
          limit - (depth + 1) := by
        refine Tree.containerDepthMembers_le.mpr fun member mem => ?_
        obtain ⟨part, here, rfl⟩ := List.mem_map.mp (Members.mem_ofList mem)
        have isKey : part.key.kind.isScalar := by
          rw [keys part here]
          rfl
        -- the value follows its key
        have around : Within limit (depth + 1) ([part.key] ++ (part.events ++ [])) := by
          simpa [KeyedPart.all] using inside part here
        have value : Within limit (depth + 1 + 0) part.events :=
          around.between (balanced_singleton isKey)
        have := ih part here value
        simp only [KeyedPart.pair]
        omega
      rw [Tree.containerDepth]
      omega

end Events

namespace Builder

open Events

/-- What is built is what the events denote. -/
theorem denotes_of_build
    {events : List Event} {tree : Tree}
    (h : build events = .ok tree) :
    Denotes events tree := by
  unfold build at h
  split at h
  · simp at h
  · rename_i b all
    have account : b.Accounts ([] ++ events) := (Accounts.within .nil).takeAll events all
    exact account.finish h

end Builder
end JsonDoc
