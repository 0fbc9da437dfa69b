import JsonDoc.Proofs.Schema.FillingItems
import JsonDoc.Proofs.Schema.FillingMembers

/-!
# Levels and filled data

The two halves of a level: the keywords for nodes of all kinds, of which only `allOf` fills in
anything, and those for the kind of the node, where objects and arrays are filled. What `enum`,
`anyOf`, `oneOf` and `not` accept need not be accepted once members are filled in, so they repeat
only as long as nothing has changed.
-/

namespace JsonDoc
namespace Schema

open Check JsonDoc.Tree

variable {engine : Pattern.Engine}

section Level

variable {walk : Walk} {rules : Rules} {path place : Pointer} {collectAll : Bool}
variable {R S T : Tree → Tree → Prop} {M : Members Tree → Members Tree → Prop}

/-! ## Keywords for the kind -/

theorem looks_matching
    (content : String) :
    Looks (matching engine rules content path place) := by
  unfold matching
  split
  · exact looks_pass
  · rename_i source _
    cases compiled : engine.compile (Escape.decodeText source) with
    | none =>
        simp only [compiled]
        exact looks_raise _
    | some occursIn =>
        simp only [compiled]
        exact looks_demand (fun _ => occursIn content) path
          fun _ => .unmatched (Escape.decodeText source)
  · exact looks_raise _

theorem looks_stringCheck
    (content : String) :
    Looks (stringCheck engine collectAll rules content path place) := by
  refine looks_all ?_
  simp only [List.forall_mem_cons]
  refine ⟨?_, ?_, looks_matching content, by simp⟩
  · exact looks_ofKeyword fun least =>
      looks_demand (fun _ => decide (least ≤ content.utf8ByteSize)) path
        fun _ => .tooShort content.utf8ByteSize least
  · exact looks_ofKeyword fun most =>
      looks_demand (fun _ => decide (content.utf8ByteSize ≤ most)) path
        fun _ => .tooLong content.utf8ByteSize most

theorem looks_numberCheck
    (n : Binary64) :
    Looks (numberCheck collectAll rules n path place) := by
  refine looks_all ?_
  simp only [List.forall_mem_cons]
  refine ⟨?_, ?_, ?_, by simp⟩
  · refine looks_ofKeyword fun divisor => ?_
    split
    · exact looks_raise _
    · exact looks_demand (fun _ => isMultiple n divisor) path fun _ => .notMultiple n divisor
  · exact looks_ofKeyword fun (most, exclusive) =>
      looks_demand (fun _ => if exclusive then n.lt most else n.le most) path
        fun _ => .aboveMaximum n most exclusive
  · exact looks_ofKeyword fun (least, exclusive) =>
      looks_demand (fun _ => if exclusive then least.lt n else least.le n) path
        fun _ => .belowMinimum n least exclusive

/-- Nothing is filled in where there are no members. -/
theorem kindCheck_scalar
    {data : Tree}
    (notObject : data.isObject = false)
    (notArray : data.isArray = false) :
    (kindCheck engine collectAll walk rules path place data).data = data := by
  cases data with
  | object _ =>
      cases notObject
  | array _ =>
      cases notArray
  | string content =>
      exact looks_stringCheck content _
  | number n =>
      exact looks_numberCheck n _
  | null | boolean =>
      rfl

theorem repeats_kindCheck
    (lifts : Lifts R M)
    (object : Repeats OrderedMembers M (objectCheck collectAll walk rules path place))
    (array : Repeats OrderedItems (List.Forall₂ R) (arrayCheck collectAll walk rules path place)) :
    Repeats Tree.Ordered R (kindCheck engine collectAll walk rules path place) := by
  intro data out later ordered passes orderedLater moved
  cases data with
  | object members =>
      obtain ⟨members', passed, rfl⟩ := passes_map.mp passes
      obtain ⟨members'', rfl, change⟩ := (lifts.object members' later).mp moved
      have again := object members members' members'' ordered passed orderedLater change
      exact passes_map.mpr ⟨members'', again, rfl⟩
  | array items =>
      obtain ⟨items', passed, rfl⟩ := passes_map.mp passes
      obtain ⟨items'', rfl, change⟩ := (lifts.array items' later).mp moved
      have again := array items items' items'' (fun _ => ordered.item) passed
        (fun _ => orderedLater.item) change
      exact passes_map.mpr ⟨items'', again, rfl⟩
  | null | boolean | number | string =>
      obtain ⟨verdict, rfl⟩ := passes
      rw [kindCheck_scalar rfl rfl] at moved
      rw [lifts.scalar _ later moved rfl rfl]
      exact ⟨verdict, kindCheck_scalar rfl rfl⟩

/-! ## Keywords for all kinds -/

/-- The check of `enum`. -/
def enumCheck (rules : Rules) (path place : Pointer) : Check Tree :=
  match rules.find? .enumeration with
  | none => Check.pass
  | some value => enumerated value path place

/-- The check of `type`. -/
def typeCheck (rules : Rules) (path place : Pointer) : Check Tree :=
  match rules.find? .type with
  | none => Check.pass
  | some value => typed value path place

theorem generalChecks_eq
    (collectAll : Bool)
    (walk : Walk)
    (rules : Rules)
    (path place : Pointer) :
    generalChecks collectAll walk rules path place =
      [enumCheck rules path place, typeCheck rules path place,
       combined walk rules path place .allOf (passesAll collectAll path),
       combined walk rules path place .anyOf (passesAny path),
       combined walk rules path place .oneOf (passesOne path),
       combined walk rules path place .not (passesNone path)] := rfl

theorem looks_enumCheck :
    Looks (enumCheck rules path place) := by
  unfold enumCheck
  split
  · exact looks_pass
  · exact looks_enumerated _

theorem looks_typeCheck :
    Looks (typeCheck rules path place) := by
  unfold typeCheck
  split
  · exact looks_pass
  · exact looks_typed _

theorem repeats_typeCheck :
    Repeats Tree.Ordered Extends (typeCheck rules path place) := by
  unfold typeCheck
  split
  · exact repeats_pass
  · exact repeats_typed _

theorem enumCheck_of_absent
    (absent : rules.find? .enumeration = none) :
    enumCheck rules path place = Check.pass := by
  simp only [enumCheck, absent]

theorem typeCheck_of_absent
    (absent : rules.find? .type = none) :
    typeCheck rules path place = Check.pass := by
  simp only [typeCheck, absent]

theorem combined_of_absent
    {keyword : Keyword} {combine : List (Check Tree) → Check Tree}
    (absent : rules.find? keyword = none) :
    combined walk rules path place keyword combine = Check.pass := by
  simp only [combined, absent]

/-- The check of the keywords that come after `allOf`. -/
def othersCheck
    (collectAll : Bool)
    (walk : Walk)
    (rules : Rules)
    (path place : Pointer) : Check Tree :=
  Check.all collectAll
    [combined walk rules path place .anyOf (passesAny path),
     combined walk rules path place .oneOf (passesOne path),
     combined walk rules path place .not (passesNone path)]

theorem looks_othersCheck :
    Looks (othersCheck collectAll walk rules path place) := by
  refine looks_all ?_
  simp only [List.forall_mem_cons]
  exact ⟨looks_combined .anyOf looks_passesAny, looks_combined .oneOf looks_passesOne,
    looks_combined .not looks_passesNone, by simp⟩

/-- What comes before `allOf` must bear what that fills in as well as any later change `R`. What
comes after it must only bear the latter. -/
theorem repeats_generalChecks
    (lifts : Lifts S M)
    (bears : ∀ a b c, c.Ordered → S a b → R b c → T a c)
    (extended : ∀ a b, b.Ordered → T a b → Extends a b)
    (enumeration : Repeats Tree.Ordered T (enumCheck rules path place))
    (moves : Moves Tree.Ordered S
      (combined walk rules path place .allOf (passesAll collectAll path)))
    (allOf : Repeats Tree.Ordered R
      (combined walk rules path place .allOf (passesAll collectAll path)))
    (others : Repeats Tree.Ordered R (othersCheck collectAll walk rules path place)) :
    Repeats Tree.Ordered R
      (Check.all collectAll (generalChecks collectAll walk rules path place)) := by
  have movesFromAllOf : Moves Tree.Ordered S (Check.all collectAll
      (combined walk rules path place .allOf (passesAll collectAll path) ::
        [combined walk rules path place .anyOf (passesAny path),
         combined walk rules path place .oneOf (passesOne path),
         combined walk rules path place .not (passesNone path)])) :=
    moves_of_sequence (sequence_all_cons _ _) lifts.trans moves
      (looks_othersCheck.moves lifts.refl)
  rw [generalChecks_eq]
  refine repeats_of_sequence (sequence_all_cons _ _) bears
    (looks_enumCheck.moves fun _ _ => trivial) ?_ enumeration ?_
  · exact moves_of_sequence (sequence_all_cons _ _) lifts.trans (looks_typeCheck.moves lifts.refl)
      movesFromAllOf
  refine repeats_of_sequence (sequence_all_cons _ _) bears
    (looks_typeCheck.moves fun _ _ => trivial) movesFromAllOf (repeats_typeCheck.mono extended) ?_
  exact repeats_before_looks (sequence_all_cons _ _) moves.keeps looks_othersCheck allOf others

end Level

end Schema
end JsonDoc
