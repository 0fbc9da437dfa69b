import JsonDoc.Proofs.Building.Rearranging
import JsonDoc.Proofs.Text.Order
import JsonDoc.Proofs.Writer.Derivation
import JsonDoc.Writer.Canonical

/-!
# The order of written members

Canonical text shows the members of every object in the order of the bytes of their keys,
`Writer.shows_node`. So events whose members come in another order, in whatever objects, give the
same canonical text.
-/

namespace JsonDoc

namespace Writer

/-- A tree with its text. -/
structure ShownItem where
  tree : Tree
  text : String

/-- A key and its value with the text of that. -/
structure ShownMember where
  key : String
  tree : Tree
  text : String

namespace ShownMember

def pair (member : ShownMember) : String × Tree := (member.key, member.tree)

/-- The text of the whole member. -/
def whole (indent : Nat) (member : ShownMember) : String :=
  "\"" ++ member.key ++ "\"" ++ afterKey indent ++ member.text

end ShownMember

/-- The text shows the tree at a level, each object with its members in the order of the bytes of
their keys, no key twice. -/
inductive Shows (indent : Nat) : Nat → Tree → String → Prop
  | null {level : Nat} : Shows indent level .null "null"
  | boolean {level : Nat} (value : Bool) :
      Shows indent level (.boolean value) (if value then "true" else "false")
  | number {level : Nat} (n : Binary64) : Shows indent level (.number n) (canonicalNumber n)
  | string {level : Nat} (content : String) :
      Shows indent level (.string content) ("\"" ++ content ++ "\"")
  | array {level : Nat} (items : List ShownItem) :
      (∀ item ∈ items, Shows indent (level + 1) item.tree item.text) →
      Shows indent level (.array (items.map ShownItem.tree))
        (enclose indent level "[" "]" (items.map ShownItem.text))
  | object {level : Nat} (members : List ShownMember) :
      members.Pairwise (fun first second =>
        Utf8.ofText first.key < Utf8.ofText second.key) →
      (∀ member ∈ members, Shows indent (level + 1) member.tree member.text) →
      Shows indent level (.object (members.map ShownMember.pair))
        (enclose indent level "\x7b" "\x7d" (members.map (ShownMember.whole indent)))

/-- An item as it is written. -/
def shownItem (indent level : Nat) (tree : Tree) : ShownItem :=
  ⟨tree, node canonical indent level tree⟩

/-- A member as it is written. -/
def shownMember (indent level : Nat) (pair : String × Tree) : ShownMember :=
  ⟨pair.1, pair.2, node canonical indent level pair.2⟩

theorem shows_array
    {indent level : Nat} {trees : List Tree}
    (each : ∀ tree ∈ trees,
      Shows indent (level + 1) tree (node canonical indent (level + 1) tree)) :
    Shows indent level (.array trees) (node canonical indent level (.array trees)) := by
  have same : (trees.map (shownItem indent (level + 1))).map ShownItem.tree = trees := by
    rw [List.map_map]
    exact List.map_id trees
  have texts : (trees.map (shownItem indent (level + 1))).map ShownItem.text =
      items canonical indent (level + 1) trees := by
    rw [List.map_map, items_eq]
    rfl
  rw [node, ← texts, ← congrArg Tree.array same]
  exact .array _ (List.forall_mem_map.mpr each)

theorem shows_object
    {indent level : Nat} {pairs : List (String × Tree)}
    (sorted : Members.Sorted pairs)
    (each : ∀ pair ∈ pairs,
      Shows indent (level + 1) pair.2 (node canonical indent (level + 1) pair.2)) :
    Shows indent level (.object pairs) (node canonical indent level (.object pairs)) := by
  have same : (pairs.map (shownMember indent (level + 1))).map ShownMember.pair = pairs := by
    rw [List.map_map]
    exact List.map_id pairs
  have texts : (pairs.map (shownMember indent (level + 1))).map (ShownMember.whole indent) =
      members canonical indent (level + 1) pairs := by
    rw [List.map_map, members_eq]
    rfl
  rw [node, ← texts, ← congrArg Tree.object same]
  exact .object _ (List.pairwise_map.mpr (sorted.imp Utf8.ofText_lt))
    (List.forall_mem_map.mpr each)

theorem shows_node
    (indent : Nat)
    {tree : Tree}
    (ordered : tree.Ordered) :
    ∀ level, Shows indent level tree (node canonical indent level tree) := by
  induction ordered with
  | null =>
      exact fun _ => .null
  | boolean value =>
      intro level
      cases value with
      | true =>
          exact .boolean true
      | false =>
          exact .boolean false
  | number n =>
      exact fun _ => .number n
  | string content =>
      exact fun _ => .string content
  | array _ ih =>
      exact fun level => shows_array fun tree mem => ih tree mem (level + 1)
  | object sorted _ ih =>
      exact fun level => shows_object sorted fun pair mem => ih pair mem (level + 1)

end Writer

namespace Builder

open Events

/-- The order of the members in the objects of a document does not matter. It is built into the same
tree and has the same canonical text, which shows the members of every object in one order. -/
theorem build_rearranged
    {events moved : List Event}
    (same : Rearranged events moved)
    (valid : NumbersValid events) :
    ∃ tree, build events = .ok tree ∧ build moved = .ok tree ∧ ∀ options : WriterOptions,
      ∃ text, (build events).map (·.write options) = .ok text ∧
        (build moved).map (·.write options) = .ok text ∧
        Writer.Shows options.indent 0 tree text := by
  obtain ⟨tree, denotes, denotesMoved⟩ := exists_denotes_of_rearranged same valid
  have built := build_of_denotes denotes
  have builtMoved := build_of_denotes denotesMoved
  refine ⟨tree, built, builtMoved, fun options => ⟨tree.write options, ?_, ?_, ?_⟩⟩
  · rw [built]
    rfl
  · rw [builtMoved]
    rfl
  · exact Writer.shows_node options.indent denotes.ordered 0

/-- Two members of an object in another order, and two in an object inside it. -/
theorem build_rearranged_nested :
    let token (kind : EventKind) (start : Nat) (text : List UInt8) : Event :=
      ⟨kind, ⟨start, start + text.length⟩, text⟩
    let inner : List Event :=
      [token .objectBegin 5 [0x7B], token .string 6 [0x22, 0x79, 0x22], token .number 10 [0x31],
        token .string 12 [0x22, 0x78, 0x22], token .number 16 [0x32], token .objectEnd 17 [0x7D]]
    let innerMoved : List Event :=
      [token .objectBegin 14 [0x7B], token .string 15 [0x22, 0x78, 0x22], token .number 19 [0x32],
        token .string 21 [0x22, 0x79, 0x22], token .number 25 [0x31], token .objectEnd 26 [0x7D]]
    let events : List Event :=
      [token .objectBegin 0 [0x7B], token .string 1 [0x22, 0x62, 0x22]] ++ inner ++
        [token .string 19 [0x22, 0x61, 0x22], token .null 23 [0x6E, 0x75, 0x6C, 0x6C],
          token .objectEnd 27 [0x7D]]
    let moved : List Event :=
      [token .objectBegin 0 [0x7B], token .string 1 [0x22, 0x61, 0x22],
        token .null 5 [0x6E, 0x75, 0x6C, 0x6C], token .string 10 [0x22, 0x62, 0x22]] ++
          innerMoved ++
        [token .objectEnd 27 [0x7D]]
    ∃ tree, build events = .ok tree ∧ build moved = .ok tree ∧ ∀ options : WriterOptions,
      ∃ text, (build events).map (·.write options) = .ok text ∧
        (build moved).map (·.write options) = .ok text ∧
        Writer.Shows options.indent 0 tree text := by
  intro token inner innerMoved events moved
  let one : KeyedPairing := ⟨token .string 6 [0x22, 0x79, 0x22], [token .number 10 [0x31]],
    token .string 21 [0x22, 0x79, 0x22], [token .number 25 [0x31]]⟩
  let two : KeyedPairing := ⟨token .string 12 [0x22, 0x78, 0x22], [token .number 16 [0x32]],
    token .string 15 [0x22, 0x78, 0x22], [token .number 19 [0x32]]⟩
  let object : KeyedPairing := ⟨token .string 1 [0x22, 0x62, 0x22], inner,
    token .string 10 [0x22, 0x62, 0x22], innerMoved⟩
  let null : KeyedPairing := ⟨token .string 19 [0x22, 0x61, 0x22],
    [token .null 23 [0x6E, 0x75, 0x6C, 0x6C]], token .string 1 [0x22, 0x61, 0x22],
    [token .null 5 [0x6E, 0x75, 0x6C, 0x6C]]⟩
  have inside : Rearranged inner innerMoved := by
    refine .object [one, two] [two, one] rfl rfl ⟨rfl, rfl⟩ ⟨rfl, rfl⟩
      ⟨.swap two one [], ?_, ?_, by decide⟩ ?_ <;> simp only [List.forall_mem_cons]
    · exact ⟨rfl, rfl, nofun⟩
    · exact ⟨⟨rfl, rfl⟩, ⟨rfl, rfl⟩, nofun⟩
    · exact ⟨.scalar rfl ⟨rfl, rfl⟩, .scalar rfl ⟨rfl, rfl⟩, nofun⟩
  have same : Rearranged events moved := by
    refine .object [object, null] [null, object] rfl rfl ⟨rfl, rfl⟩ ⟨rfl, rfl⟩
      ⟨.swap null object [], ?_, ?_, by decide⟩ ?_ <;> simp only [List.forall_mem_cons]
    · exact ⟨rfl, rfl, nofun⟩
    · exact ⟨⟨rfl, rfl⟩, ⟨rfl, rfl⟩, nofun⟩
    · exact ⟨inside, .scalar rfl ⟨rfl, rfl⟩, nofun⟩
  have valid : NumbersValid events := by
    unfold NumbersValid
    decide
  exact build_rearranged same valid

end Builder
end JsonDoc
