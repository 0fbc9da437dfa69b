import JsonDoc.Proofs.Binary64.Equality
import JsonDoc.Proofs.Schema.Meaning
import JsonDoc.Proofs.Tree.Leaves
import Mathlib.Data.List.Forall2

/-!
# Equal trees

Equal trees are the same up to their numbers, and the numbers at one position are two finite numbers
within the tolerance, or an infinity and any number but NaN: `approxEq_iff_sameUpTo`. So a number
that has overflowed equals all the numbers of a document that stand in its place.
-/

namespace JsonDoc
namespace Tree

/-- The trees are the same but for their numbers, which are related where they stand in the same
position. -/
inductive SameUpTo (R : Binary64 → Binary64 → Prop) : Tree → Tree → Prop
  | null : SameUpTo R .null .null
  | boolean (value : Bool) : SameUpTo R (.boolean value) (.boolean value)
  | number {x y : Binary64} : R x y → SameUpTo R (.number x) (.number y)
  | string (content : String) : SameUpTo R (.string content) (.string content)
  | array {items items' : List Tree} :
      List.Forall₂ (SameUpTo R) items items' → SameUpTo R (.array items) (.array items')
  | object {members members' : Members Tree} :
      members.map Prod.fst = members'.map Prod.fst →
      List.Forall₂ (SameUpTo R) (members.map Prod.snd) (members'.map Prod.snd) →
      SameUpTo R (.object members) (.object members')

section SameUpTo

variable {R : Binary64 → Binary64 → Prop} {items items' : List Tree}
    {members members' : Members Tree}

theorem SameUpTo.kindName
    {a b : Tree}
    (h : SameUpTo R a b) :
    a.kindName = b.kindName := by
  cases h <;> rfl

theorem sameUpTo_boolean
    {value value' : Bool} :
    SameUpTo R (.boolean value) (.boolean value') ↔ value = value' := by
  constructor
  · intro h
    cases h with
    | boolean =>
        rfl
  · rintro rfl
    exact .boolean value

theorem sameUpTo_number
    {x y : Binary64} :
    SameUpTo R (.number x) (.number y) ↔ R x y := by
  constructor
  · intro h
    cases h with
    | number related =>
        exact related
  · exact .number

theorem sameUpTo_string
    {content content' : String} :
    SameUpTo R (.string content) (.string content') ↔ content = content' := by
  constructor
  · intro h
    cases h with
    | string =>
        rfl
  · rintro rfl
    exact .string content

theorem sameUpTo_array :
    SameUpTo R (.array items) (.array items') ↔ List.Forall₂ (SameUpTo R) items items' := by
  constructor
  · intro h
    cases h with
    | array same =>
        exact same
  · exact .array

theorem sameUpTo_object :
    SameUpTo R (.object members) (.object members') ↔
      members.map Prod.fst = members'.map Prod.fst ∧
        List.Forall₂ (SameUpTo R) (members.map Prod.snd) (members'.map Prod.snd) := by
  constructor
  · intro h
    cases h with
    | object keys values =>
        exact ⟨keys, values⟩
  · rintro ⟨keys, values⟩
    exact .object keys values

end SameUpTo

section Parts

variable {R : Binary64 → Binary64 → Prop}

theorem approxEqItems_iff
    {items : List Tree}
    (each : ∀ item ∈ items, ∀ b, item.approxEq b ↔ SameUpTo R item b)
    (items' : List Tree) :
    approxEqItems items items' ↔ List.Forall₂ (SameUpTo R) items items' := by
  induction items generalizing items' with
  | nil =>
      cases items' <;> simp [approxEqItems]
  | cons item items ih =>
      rw [List.forall_mem_cons] at each
      cases items' with
      | nil =>
          simp [approxEqItems]
      | cons item' items' =>
          rw [approxEqItems, Bool.and_eq_true, List.forall₂_cons, each.1, ih each.2]

theorem approxEqMembers_iff
    {members : Members Tree}
    (each : ∀ member ∈ members, ∀ b, member.2.approxEq b ↔ SameUpTo R member.2 b)
    (members' : Members Tree) :
    approxEqMembers members members' ↔ members.map Prod.fst = members'.map Prod.fst ∧
      List.Forall₂ (SameUpTo R) (members.map Prod.snd) (members'.map Prod.snd) := by
  induction members generalizing members' with
  | nil =>
      cases members' <;> simp [approxEqMembers]
  | cons member members ih =>
      rw [List.forall_mem_cons] at each
      cases members' with
      | nil =>
          simp [approxEqMembers]
      | cons member' members' =>
          rw [approxEqMembers, Bool.and_eq_true, Bool.and_eq_true, beq_iff_eq, each.1, ih each.2,
            List.map_cons, List.map_cons, List.map_cons, List.map_cons, List.cons.injEq,
            List.forall₂_cons, and_and_and_comm]

end Parts

/-- Trees of two kinds are neither equal nor the same up to anything. -/
theorem iff_of_kindName
    {R : Binary64 → Binary64 → Prop} {a b : Tree}
    (h : a.approxEq b = false)
    (kinds : a.kindName ≠ b.kindName) :
    a.approxEq b ↔ SameUpTo R a b :=
  iff_of_false (by simp [h]) fun same => kinds same.kindName

/-- Equality of trees whose numbers agree, by induction on a bound for the height. -/
theorem approxEq_iff_of_height
    (height : Nat) :
    ∀ a : Tree, a.height ≤ height → ∀ b, a.approxEq b ↔ SameUpTo Binary64.Agree a b := by
  induction height with
  | zero =>
      intro a low
      cases a <;> simp [height] at low
  | succ height ih =>
      intro a low b
      cases a with
      | null =>
          cases b with
          | null =>
              exact iff_of_true rfl .null
          | boolean | number | string | array | object =>
              exact iff_of_kindName rfl (by simp [kindName])
      | boolean value =>
          cases b with
          | boolean value' =>
              rw [approxEq, beq_iff_eq, sameUpTo_boolean]
          | null | number | string | array | object =>
              exact iff_of_kindName rfl (by simp [kindName])
      | number n =>
          cases b with
          | number n' =>
              rw [approxEq, Binary64.approxEq_iff_agree, sameUpTo_number]
          | null | boolean | string | array | object =>
              exact iff_of_kindName rfl (by simp [kindName])
      | string content =>
          cases b with
          | string content' =>
              rw [approxEq, beq_iff_eq, sameUpTo_string]
          | null | boolean | number | array | object =>
              exact iff_of_kindName rfl (by simp [kindName])
      | array items =>
          have each (item : Tree) (mem : item ∈ items) := ih item (by
            have := height_le_heightItems mem
            rw [Tree.height] at low
            omega)
          cases b with
          | array items' =>
              rw [approxEq, approxEqItems_iff each, sameUpTo_array]
          | null | boolean | number | string | object =>
              exact iff_of_kindName rfl (by simp [kindName])
      | object members =>
          have each (member : String × Tree) (mem : member ∈ members) := ih member.2 (by
            have := height_le_heightMembers mem
            rw [Tree.height] at low
            omega)
          cases b with
          | object members' =>
              rw [approxEq, approxEqMembers_iff each, sameUpTo_object]
          | null | boolean | number | string | array =>
              exact iff_of_kindName rfl (by simp [kindName])

/-- Trees are equal if they have the same shape, keys and strings, and the numbers at each position
are finite and within the tolerance of each other, or no NaN and one of them an infinity. -/
theorem approxEq_iff_sameUpTo
    (a b : Tree) :
    a.approxEq b ↔ SameUpTo Binary64.Agree a b :=
  approxEq_iff_of_height a.height a Nat.le.refl b

/-- A number that overflows equals one and the infinity of the other sign. -/
theorem approxEq_overflow :
    NumberText.value? "1e400".toList = some (Binary64.infinity false) ∧
      (Tree.number (Binary64.infinity false)).approxEq (.number Binary64.one) ∧
      (Tree.number (Binary64.infinity false)).approxEq (.number (Binary64.infinity true)) := by
  decide +kernel

/-! ## Symmetry and reflexivity -/

mutual

/-- It does not matter on which side a tree stands. -/
theorem approxEq_comm :
    ∀ a b : Tree, a.approxEq b = b.approxEq a
  | .null, b => by
      cases b <;> rfl
  | .boolean value, b => by
      cases b with
      | boolean value' =>
          rw [approxEq, approxEq, BEq.comm]
      | null | number | string | array | object =>
          rfl
  | .number n, b => by
      cases b with
      | number n' =>
          rw [approxEq, approxEq, Binary64.approxEq_comm]
      | null | boolean | string | array | object =>
          rfl
  | .string content, b => by
      cases b with
      | string content' =>
          rw [approxEq, approxEq, BEq.comm]
      | null | boolean | number | array | object =>
          rfl
  | .array items, b => by
      cases b with
      | array items' =>
          rw [approxEq, approxEq, approxEqItems_comm items]
      | null | boolean | number | string | object =>
          rfl
  | .object members, b => by
      cases b with
      | object members' =>
          rw [approxEq, approxEq, approxEqMembers_comm members]
      | null | boolean | number | string | array =>
          rfl

theorem approxEqItems_comm :
    ∀ items items' : List Tree, approxEqItems items items' = approxEqItems items' items
  | [], items' => by
      cases items' <;> rfl
  | item :: items, items' => by
      cases items' with
      | nil =>
          rfl
      | cons item' items' =>
          rw [approxEqItems, approxEqItems, approxEq_comm item, approxEqItems_comm items]

theorem approxEqMembers_comm :
    ∀ members members' : List (String × Tree),
      approxEqMembers members members' = approxEqMembers members' members
  | [], members' => by
      cases members' <;> rfl
  | (key, value) :: members, members' => by
      cases members' with
      | nil =>
          rfl
      | cons member' members' =>
          rw [approxEqMembers, approxEqMembers, approxEq_comm value, approxEqMembers_comm members,
            BEq.comm]

end

theorem approxEqItems_self
    {items : List Tree}
    (each : ∀ item ∈ items, item.approxEq item) :
    approxEqItems items items := by
  induction items with
  | nil =>
      rfl
  | cons item items ih =>
      rw [List.forall_mem_cons] at each
      rw [approxEqItems, each.1, ih each.2, Bool.and_self]

theorem approxEqMembers_self
    {members : Members Tree}
    (each : ∀ member ∈ members, member.2.approxEq member.2) :
    approxEqMembers members members := by
  induction members with
  | nil =>
      rfl
  | cons member members ih =>
      rw [List.forall_mem_cons] at each
      rw [approxEqMembers, each.1, ih each.2, beq_self_eq_true, Bool.and_self, Bool.and_self]

/-- A tree without NaN equals itself. -/
theorem approxEq_self
    {tree : Tree}
    (numbers : tree.AllNumbers fun n => n.isNaN = false) :
    tree.approxEq tree := by
  induction numbers with
  | null =>
      rfl
  | boolean value =>
      exact beq_self_eq_true value
  | number notNaN =>
      exact Binary64.approxEq_self notNaN
  | string content =>
      exact beq_self_eq_true content
  | array _ ih =>
      exact approxEqItems_self ih
  | object _ ih =>
      exact approxEqMembers_self ih

end Tree
end JsonDoc
