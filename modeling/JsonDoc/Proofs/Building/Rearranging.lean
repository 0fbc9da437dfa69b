import JsonDoc.Proofs.Building.Contents
import JsonDoc.Proofs.Tree.Rekeying
import Mathlib.Tactic.Choose

/-!
# Members in another order

The builder puts the members of an object in order as they come, so as long as no key comes twice,
their order among the events does not matter: `exists_denotes_of_rearranged`. This holds in all
objects at once, however deep they are.
-/

namespace JsonDoc

/-- Two events are the same token, wherever they stand. -/
structure Event.SameToken (event moved : Event) : Prop where
  kind : moved.kind = event.kind
  text : moved.text = event.text

theorem Event.SameToken.scalar?
    {event moved : Event}
    (same : event.SameToken moved) :
    moved.scalar? = event.scalar? := by
  unfold Event.scalar?
  rw [same.kind, same.text]

/-- A scalar has a value, unless it is a number and its text is none. -/
theorem Event.exists_scalar?
    {event : Event}
    (isScalar : event.kind.isScalar)
    (isNumber : event.kind = .number → (NumberText.value? (Utf8.decode event.text)).isSome) :
    ∃ tree, event.scalar? = some tree := by
  unfold Event.scalar?
  cases kind : event.kind with
  | objectBegin | objectEnd | arrayBegin | arrayEnd =>
      rw [kind] at isScalar
      cases isScalar
  | number =>
      obtain ⟨n, value⟩ := Option.isSome_iff_exists.mp (isNumber kind)
      exact ⟨.number n, by rw [value]; rfl⟩
  | string | boolean | null =>
      exact ⟨_, rfl⟩

namespace Events

/-- The events of one value in two sequences. -/
structure Pairing where
  events : List Event
  moved : List Event

/-- The events of one member in two sequences. -/
structure KeyedPairing where
  key : Event
  events : List Event
  movedKey : Event
  moved : List Event

namespace KeyedPairing

def all (pairing : KeyedPairing) : List Event := pairing.key :: pairing.events

def allMoved
    (pairing : KeyedPairing) : List Event :=
  pairing.movedKey :: pairing.moved

end KeyedPairing

/-- The members of an object in two orders, under keys that are all different. -/
structure Arranged (members arranged : List KeyedPairing) : Prop where
  perm : members.Perm arranged
  isKey : ∀ member ∈ members, member.key.kind = .string
  sameKey : ∀ member ∈ members, member.key.SameToken member.movedKey
  distinct : (members.map fun member => Builder.content member.key.text).Nodup

/-- Well-formed sequences of events with the same tokens up to the order of the members in each
object. -/
inductive Rearranged : List Event → List Event → Prop
  | scalar {event moved : Event} : event.kind.isScalar → event.SameToken moved →
      Rearranged [event] [moved]
  | array {first last first' last' : Event} (pairings : List Pairing) :
      first.kind = .arrayBegin → last.kind = .arrayEnd →
      first.SameToken first' → last.SameToken last' →
      (∀ pairing ∈ pairings, Rearranged pairing.events pairing.moved) →
      Rearranged (first :: (pairings.flatMap Pairing.events ++ [last]))
        (first' :: (pairings.flatMap Pairing.moved ++ [last']))
  | object {first last first' last' : Event} (members arranged : List KeyedPairing) :
      first.kind = .objectBegin → last.kind = .objectEnd →
      first.SameToken first' → last.SameToken last' →
      Arranged members arranged →
      (∀ member ∈ members, Rearranged member.events member.moved) →
      Rearranged (first :: (members.flatMap KeyedPairing.all ++ [last]))
        (first' :: (arranged.flatMap KeyedPairing.allMoved ++ [last']))

/-- The texts of all number tokens are numbers. -/
def NumbersValid (events : List Event) : Prop :=
  ∀ event ∈ events, event.kind = .number → (NumberText.value? (Utf8.decode event.text)).isSome

theorem NumbersValid.inside
    {first last : Event} {events : List Event}
    (valid : NumbersValid (first :: (events ++ [last]))) :
    NumbersValid events :=
  fun event mem => valid event (List.mem_cons_of_mem _ (List.mem_append_left _ mem))

theorem NumbersValid.part
    {α : Type} {parts : List α} {events : α → List Event}
    (valid : NumbersValid (parts.flatMap events))
    {part : α}
    (mem : part ∈ parts) :
    NumbersValid (events part) :=
  fun event here => valid event (List.mem_flatMap.mpr ⟨part, mem, here⟩)

namespace KeyedPairing

/-- The member as it is in the first sequence. -/
def part (value : KeyedPairing → Tree) (member : KeyedPairing) : KeyedPart :=
  ⟨member.key, member.events, value member⟩

/-- The member as it is in the second sequence. -/
def movedPart
    (value : KeyedPairing → Tree)
    (member : KeyedPairing) : KeyedPart :=
  ⟨member.movedKey, member.moved, value member⟩

end KeyedPairing

theorem Arranged.isMovedKey
    {members arranged : List KeyedPairing}
    (same : Arranged members arranged) :
    ∀ member ∈ arranged, member.movedKey.kind = .string := by
  intro member mem
  have here := same.perm.mem_iff.mpr mem
  exact (same.sameKey member here).kind.trans (same.isKey member here)

/-- Whatever the order of the members, they make up the same object. -/
theorem Arranged.ofList_eq
    {members arranged : List KeyedPairing}
    (same : Arranged members arranged)
    (value : KeyedPairing → Tree) :
    Members.ofList ((members.map (KeyedPairing.part value)).map KeyedPart.pair) =
      Members.ofList ((arranged.map (KeyedPairing.movedPart value)).map KeyedPart.pair) := by
  have moved : (members.map (KeyedPairing.movedPart value)).map KeyedPart.pair =
      (members.map (KeyedPairing.part value)).map KeyedPart.pair := by
    rw [List.map_map, List.map_map]
    refine List.map_congr_left fun member mem => ?_
    simp only [Function.comp_apply, KeyedPart.pair, KeyedPairing.part, KeyedPairing.movedPart,
      (same.sameKey member mem).text]
  have keys : ((members.map (KeyedPairing.part value)).map KeyedPart.pair).map Prod.fst =
      members.map fun member => Builder.content member.key.text := by
    rw [List.map_map, List.map_map]
    rfl
  rw [← moved] at keys ⊢
  exact Members.ofList_eq_of_perm (keys ▸ same.distinct)
    ((same.perm.map (KeyedPairing.movedPart value)).map KeyedPart.pair)

/-- Rearranged events stand for the same tree. -/
theorem exists_denotes_of_rearranged
    {events moved : List Event}
    (same : Rearranged events moved)
    (valid : NumbersValid events) :
    ∃ tree, Denotes events tree ∧ Denotes moved tree := by
  induction same with
  | @scalar event moved isScalar same =>
      obtain ⟨tree, value⟩ := Event.exists_scalar? isScalar (valid event List.mem_cons_self)
      exact ⟨tree, .scalar value, .scalar (same.scalar?.trans value)⟩
  | @array first last first' last' pairings opens closes sameFirst sameLast _ ih =>
      choose! tree values using fun pairing mem => ih pairing mem (valid.inside.part mem)
      have denotes := Denotes.array (pairings.map fun pairing => ⟨pairing.events, tree pairing⟩)
        opens closes (List.forall_mem_map.mpr fun pairing mem => (values pairing mem).1)
      have denotesMoved := Denotes.array (pairings.map fun pairing => ⟨pairing.moved, tree pairing⟩)
        (sameFirst.kind.trans opens) (sameLast.kind.trans closes)
        (List.forall_mem_map.mpr fun pairing mem => (values pairing mem).2)
      rw [List.flatMap_map, List.map_map] at denotes denotesMoved
      exact ⟨_, denotes, denotesMoved⟩
  | @object first last first' last' members arranged opens closes sameFirst sameLast same _ ih =>
      choose! tree values using fun member mem => ih member mem fun event here =>
        valid.inside.part mem event (List.mem_cons_of_mem _ here)
      have denotes := Denotes.object (members.map (KeyedPairing.part tree)) opens closes
        (List.forall_mem_map.mpr same.isKey)
        (List.forall_mem_map.mpr fun member mem => (values member mem).1)
      have denotesMoved := Denotes.object (arranged.map (KeyedPairing.movedPart tree))
        (sameFirst.kind.trans opens) (sameLast.kind.trans closes)
        (List.forall_mem_map.mpr same.isMovedKey)
        (List.forall_mem_map.mpr fun member mem => (values member (same.perm.mem_iff.mpr mem)).2)
      rw [← same.ofList_eq tree] at denotesMoved
      rw [List.flatMap_map] at denotes denotesMoved
      exact ⟨_, denotes, denotesMoved⟩

end Events
end JsonDoc
