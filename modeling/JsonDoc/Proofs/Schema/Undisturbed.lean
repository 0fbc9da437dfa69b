import JsonDoc.Proofs.Schema.Heedless

/-!
# Schemas that do not disturb each other

A schema is undisturbed by another one if it is heedless of the members that the other one may fill
in. Two schemas that are undisturbed by each other can be passed in either order, with the same
data at the end: `passes_swap`. The two ends differ neither under the keys that the one may fill in
nor under any other ones.
-/

namespace JsonDoc
namespace Schema

open Check JsonDoc.Tree

variable {engine : Pattern.Engine}

/-- The schema may fill in a member under the key. -/
def Fillable (root : Tree) (key : String) : Prop :=
  ∃ rules, Relation.ReflTransGen Applied root (.object rules) ∧
    ∃ entry ∈ propertySchemas rules, entry.1 = key ∧ entry.2.get? Keyword.default.name ≠ none

/-- The second schema does not look at what the first one may fill in. -/
def Undisturbed
    (first second : Tree) : Prop :=
  Fills first → Heedless (Fillable first) second

section Near

variable {free held : String → Prop} {schema lower : Tree}

/-- Near trees change as their parts do, if these do not stand under held keys. -/
theorem spreads_near :
    Spreads (Near free held) (fun key a b => ¬ held key ∧ Near free held a b)
      fun _ => Near free held where
  refl tree _ := .refl tree
  trans _ _ _ := .trans
  replace _ _ _ _ ordered here := fun ⟨notHeld, near⟩ =>
    MembersNear.of_replace ordered here near notHeld
  set items i a b _ here near := by
    refine .array List.length_set.symm ?_
    intro j c d hc hd
    rw [List.getElem?_set] at hd
    split at hd
    · rename_i same
      subst same
      obtain ⟨inside, _⟩ := List.getElem?_eq_some_iff.mp here
      rw [if_pos inside] at hd
      cases here.symm.trans hc
      cases hd
      exact near
    · cases hc.symm.trans hd
      exact .refl _

theorem Fillable.of_applied
    {key : String}
    (applied : Applied schema lower)
    (fillable : Fillable lower key) :
    Fillable schema key := by
  obtain ⟨rules, reached, entry⟩ := fillable
  exact ⟨rules, .head applied reached, entry⟩

theorem Fillable.fills
    {key : String}
    (fillable : Fillable schema key) :
    Fills schema := by
  obtain ⟨rules, reached, entry, mem, _, given⟩ := fillable
  exact ⟨rules, reached, entry, mem, given⟩

theorem position_of_applied
    (reached : Relation.ReflTransGen Applied schema lower) :
    Position schema lower := by
  induction reached with
  | refl =>
      exact .root
  | tail _ applied ih =>
      exact .child ih applied.child

/-- No member under a held key is filled in or has a schema of its own. -/
def Apart (held : String → Prop) : Tree → Prop :=
  Throughout fun rules => ∀ entry ∈ propertySchemas rules, ¬ held entry.1

theorem Heedless.apart
    (heedless : Heedless held schema) :
    Apart held schema :=
  fun rules reached => (heedless rules (position_of_applied reached)).properties

variable {options : ValidatorOptions}

/-- Walking changes data under the keys only that it may fill in. -/
theorem leaves_walk_near
    (height depth : Nat)
    (ordered : schema.Ordered)
    (fills : ∀ key, Fillable schema key → free key)
    (apart : Apart held schema) :
    WalkLeaves (walk engine options height depth) (Near free held) schema := by
  intro path place
  refine walk_induction
    (fun schema check => schema.Ordered → (∀ key, Fillable schema key → free key) →
      Apart held schema → Leaves Tree.Ordered (Near free held) check)
    (fun _ _ _ _ => looks_pass.leaves spreads_near.refl)
    (fun _ e _ _ _ => (looks_raise e).leaves spreads_near.refl) ?_ height depth schema path place
    ordered fills apart
  intro height depth rules path place below ordered fills apart
  have spread := fun schema applied path place => below schema applied path place
    (Applied.ordered applied ordered) (fun key fillable => fills key (fillable.of_applied applied))
    (apart.below applied)
  refine leaves_level spreads_near ordered ⟨?_, ?_, ?_⟩
    fun schema mem => spread schema (applied_branch mem)
  · intro entry mem path place data good
    obtain ⟨goodLeft, near⟩ :=
      spread entry.2 (applied_part (part_of_property mem)) path place data good
    exact ⟨goodLeft, apart.here entry mem, near⟩
  · exact fun i schema isItem => spread schema
      (applied_part (part_of_item (mem_itemSchemas isItem)))
  · intro entry mem value isDefault members _ _
    have isFree : free entry.1 :=
      fills entry.1 ⟨rules, .refl, entry, mem, rfl, by rw [isDefault]; exact Option.some_ne_none _⟩
    exact MembersNear.of_insert isFree (apart.here entry mem) value

end Near

/-! ## Two schemas -/

section Two

variable {options : ValidatorOptions} {height depth : Nat} {first second : Tree}
variable {path place place' : Pointer} {data : Tree}
variable (ordered : first.Ordered) (good : data.Ordered)

include ordered good

theorem leaves_undisturbed
    (undisturbed : Undisturbed second first) :
    (walk engine options height depth first path place data).data.Ordered ∧
      Near (Fillable first) (Fillable second) data
        (walk engine options height depth first path place data).data := by
  have apart : Apart (Fillable second) first := by
    by_cases fills : Fills second
    · exact (undisturbed fills).apart
    · exact fun _ _ _ _ fillable => fills fillable.fills
  exact leaves_walk_near height depth ordered (fun _ => id) apart path place data good

/-- The second schema comes to the same before the first one and after it. -/
theorem alike_undisturbed
    (undisturbed : Undisturbed first second)
    (undisturbed' : Undisturbed second first) :
    let left := (walk engine options height depth first path place data).data
    (walk engine options height depth second path place' data).verdict =
        (walk engine options height depth second path place' left).verdict ∧
      Near (Fillable first) (Fillable second)
        (walk engine options height depth second path place' data).data
        (walk engine options height depth second path place' left).data := by
  intro left
  by_cases fills : Fills first
  · exact alike_walk height depth (undisturbed fills) path place' _ _
      (leaves_undisturbed ordered good undisturbed').2
  · have still : data = left :=
      (leaves_walk_eq height depth ordered fills path place data good).2
    rw [← still]
    exact ⟨rfl, .refl _⟩

end Two

/-- Schemas that do not disturb each other are passed in either order. -/
theorem passes_swap
    {options : ValidatorOptions} {height depth : Nat} {first second : Tree}
    {path place place' : Pointer} {data mid out : Tree}
    (ordered : first.Ordered)
    (ordered' : second.Ordered)
    (good : data.Ordered)
    (undisturbed : Undisturbed first second)
    (undisturbed' : Undisturbed second first)
    (passes : (walk engine options height depth first path place data).Passes mid)
    (passes' : (walk engine options height depth second path place' mid).Passes out) :
    ∃ mid', (walk engine options height depth second path place' data).Passes mid' ∧
      (walk engine options height depth first path place mid').Passes out := by
  obtain ⟨verdict, rfl⟩ := passes
  obtain ⟨verdict', rfl⟩ := passes'
  obtain ⟨goodMid, _⟩ := leaves_undisturbed ordered good undisturbed'
  obtain ⟨goodMid', _⟩ := leaves_undisturbed ordered' good undisturbed
  obtain ⟨goodOut, nearOut⟩ := leaves_undisturbed ordered' goodMid undisturbed
  obtain ⟨goodEnd, nearEnd⟩ := leaves_undisturbed ordered goodMid' undisturbed'
  obtain ⟨same, near⟩ := alike_undisturbed ordered good undisturbed undisturbed'
  obtain ⟨same', near'⟩ := alike_undisturbed ordered' good undisturbed' undisturbed
  refine ⟨_, ⟨same.trans verdict', rfl⟩, same'.symm.trans verdict, ?_⟩
  exact eq_of_near (nearEnd.symm.trans near) (near'.symm.trans nearOut) goodEnd goodOut

end Schema
end JsonDoc
