import JsonDoc.Proofs.Tree.Ordered
import JsonDoc.Tree.Basic

/-!
# Leaves of trees

`Tree.AllContent` says something of every string and every key of a tree. `Tree.reread` replaces
the leaves, which is what writing and reading does to a tree.
-/

namespace JsonDoc
namespace Tree

/-- The content of every string and of every key satisfies a condition. -/
inductive AllContent (P : String → Prop) : Tree → Prop
  | null : AllContent P .null
  | boolean (value : Bool) : AllContent P (.boolean value)
  | number (value : Binary64) : AllContent P (.number value)
  | string {content : String} : P content → AllContent P (.string content)
  | array {items : List Tree} : (∀ item ∈ items, AllContent P item) → AllContent P (.array items)
  | object {members : List (String × Tree)} :
      (∀ member ∈ members, P member.1) → (∀ member ∈ members, AllContent P member.2) →
      AllContent P (.object members)

/-- Every number satisfies a condition. -/
inductive AllNumbers (P : Binary64 → Prop) : Tree → Prop
  | null : AllNumbers P .null
  | boolean (value : Bool) : AllNumbers P (.boolean value)
  | number {value : Binary64} : P value → AllNumbers P (.number value)
  | string (content : String) : AllNumbers P (.string content)
  | array {items : List Tree} : (∀ item ∈ items, AllNumbers P item) → AllNumbers P (.array items)
  | object {members : List (String × Tree)} :
      (∀ member ∈ members, AllNumbers P member.2) → AllNumbers P (.object members)

theorem allNumbers_number
    {P : Binary64 → Prop} {value : Binary64} :
    AllNumbers P (.number value) ↔ P value := by
  constructor
  · intro h
    cases h with
    | number holds =>
        exact holds
  · exact .number

theorem allNumbers_array
    {P : Binary64 → Prop} {items : List Tree} :
    AllNumbers P (.array items) ↔ ∀ item ∈ items, AllNumbers P item := by
  constructor
  · intro h
    cases h with
    | array all =>
        exact all
  · exact .array

theorem allNumbers_object
    {P : Binary64 → Prop} {members : List (String × Tree)} :
    AllNumbers P (.object members) ↔ ∀ member ∈ members, AllNumbers P member.2 := by
  constructor
  · intro h
    cases h with
    | object all =>
        exact all
  · exact .object

/-! ## Reading what was written -/

section Reread

variable (number : Binary64 → Tree) (content : String → String)

mutual

/-- The tree with its numbers and contents replaced. Keys that become equal are one key then. -/
def reread : Tree → Tree
  | .number value => number value
  | .string text => .string (content text)
  | .array items => .array (rereadItems items)
  | .object members => .object (Members.ofList (rereadMembers members))
  | .boolean value => .boolean value
  | .null => .null

def rereadItems : List Tree → List Tree
  | [] => []
  | item :: items => reread item :: rereadItems items

def rereadMembers : List (String × Tree) → List (String × Tree)
  | [] => []
  | (key, value) :: members => (content key, reread value) :: rereadMembers members

end

variable {number content}

theorem rereadItems_eq
    (items : List Tree) :
    rereadItems number content items = items.map (reread number content) := by
  induction items with
  | nil =>
      rfl
  | cons item items ih =>
      rw [rereadItems, ih, List.map_cons]

theorem rereadMembers_eq
    (members : List (String × Tree)) :
    rereadMembers number content members =
      members.map fun member => (content member.1, reread number content member.2) := by
  induction members with
  | nil =>
      rfl
  | cons member members ih =>
      obtain ⟨key, value⟩ := member
      rw [rereadMembers, ih, List.map_cons]

end Reread

/-! ## Normal trees -/

/-- What a number is as text: zero has no sign there, and a number that is not finite is null. -/
def normalNumber (value : Binary64) : Tree :=
  if value.isZero then .number Binary64.zero
  else if value.isFinite then .number value
  else .null

mutual

/-- The tree with zeros without sign and with null for the numbers that are not finite. -/
def normal : Tree → Tree
  | .number value => normalNumber value
  | .array items => .array (normalItems items)
  | .object members => .object (normalMembers members)
  | .string content => .string content
  | .boolean value => .boolean value
  | .null => .null

def normalItems : List Tree → List Tree
  | [] => []
  | item :: items => normal item :: normalItems items

def normalMembers : List (String × Tree) → List (String × Tree)
  | [] => []
  | (key, value) :: members => (key, normal value) :: normalMembers members

end

theorem normalItems_eq
    (items : List Tree) :
    normalItems items = items.map normal := by
  induction items with
  | nil =>
      rfl
  | cons item items ih =>
      rw [normalItems, ih, List.map_cons]

theorem normalMembers_eq
    (members : List (String × Tree)) :
    normalMembers members = members.map fun member => (member.1, normal member.2) := by
  induction members with
  | nil =>
      rfl
  | cons member members ih =>
      obtain ⟨key, value⟩ := member
      rw [normalMembers, ih, List.map_cons]

/-- Where the members are in order, only the numbers change. -/
theorem reread_normal
    {tree : Tree}
    (ordered : tree.Ordered) :
    tree.reread normalNumber id = tree.normal := by
  induction ordered with
  | null | boolean | number | string =>
      rfl
  | array _ ih =>
      rw [reread, normal, rereadItems_eq, normalItems_eq]
      exact congrArg Tree.array (List.map_congr_left ih)
  | @object members sorted _ ih =>
      have same : members.map (fun member => (id member.1, reread normalNumber id member.2)) =
          members.map fun member => (member.1, normal member.2) :=
        List.map_congr_left fun member mem => by rw [ih member mem, id]
      have still : Members.Sorted (members.map fun member => (member.1, normal member.2)) :=
        List.pairwise_map.mpr sorted
      rw [reread, normal, rereadMembers_eq, normalMembers_eq, same, Members.ofList_sorted still]

end Tree
end JsonDoc
