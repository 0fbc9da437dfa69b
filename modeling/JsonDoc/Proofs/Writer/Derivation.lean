import JsonDoc.Proofs.Syntax.Derivation
import JsonDoc.Proofs.Text.Encoding
import JsonDoc.Proofs.Tree.Leaves
import JsonDoc.Writer.Basic

/-!
# Written trees are derived

Texts in brackets are derived by standard JSON if each of them is, `value_enclose_array` and
`value_enclose_object`, whoever writes them and whatever the indentation is. So if a style writes
the leaves of trees as strict tokens, the texts of whole trees are derived: `node_value`. The tree
of the derivation has the leaves that the tokens stand for.
-/

namespace JsonDoc
namespace Writer

open Syntax Utf8

/-- A style whose leaves are strict tokens: numbers with the trees that they stand for, and contents
that stay as they are written. -/
structure Style.Reads (style : Style) (number : Binary64 → Tree) (P : String → Prop) : Prop where
  number : ∀ n, StrictScalar (ofText (style.number n)) (number n)
  content : ∀ content, P content → IsContent (ofText (style.content content))

/-! ## Blanks -/

theorem blanks_newline
    (indent level : Nat) :
    Blanks (ofText (newline indent level)) := by
  have spaces (count : Nat) : encode (List.replicate count ' ') = List.replicate count 0x20 := by
    induction count with
    | zero =>
        rfl
    | succ count ih =>
        rw [List.replicate_succ, encode_cons, ih]
        rfl
  unfold newline
  split
  · exact blanks_nil
  · have text : ofText (String.ofList ('\n' :: List.replicate (indent * level) ' ')) =
        0x0A :: List.replicate (indent * level) 0x20 := by
      rw [ofText, String.toList_ofList, encode_cons, spaces]
      rfl
    intro b mem
    rw [text] at mem
    rcases List.mem_cons.mp mem with rfl | mem
    · decide
    · rw [List.eq_of_mem_replicate mem]
      decide

/-! ## Items on lines -/

/-- Items with the same text before each of them and another one after the last. -/
def onLines {α : Type} (before last : List UInt8) : List α → List (Padded α)
  | [] => []
  | [item] => [⟨before, item, last⟩]
  | item :: next :: items => ⟨before, item, []⟩ :: onLines before last (next :: items)

section OnLines

variable {α : Type} {before last : List UInt8}

theorem onLines_ne_nil
    {items : List α}
    (h : items ≠ []) :
    onLines before last items ≠ [] := by
  match items, h with
  | [_], _ => simp [onLines]
  | _ :: _ :: _, _ => simp [onLines]

/-- What stands around the items does not matter for what they are taken for. -/
theorem map_onLines
    {β : Type}
    (f : α → β)
    (items : List α) :
    (onLines before last items).map (fun padded => f padded.item) = items.map f := by
  induction items with
  | nil =>
      rfl
  | cons item items ih =>
      cases items with
      | nil =>
          rfl
      | cons next items =>
          rw [onLines, List.map_cons, ih]
          rfl

theorem mem_onLines
    {items : List α} {padded : Padded α}
    (h : padded ∈ onLines before last items) :
    padded.item ∈ items ∧ padded.before = before ∧ (padded.after = [] ∨ padded.after = last) := by
  induction items with
  | nil =>
      simp [onLines] at h
  | cons item items ih =>
      cases items with
      | nil =>
          rw [onLines, List.mem_singleton] at h
          subst h
          exact ⟨List.mem_cons_self, rfl, Or.inr rfl⟩
      | cons next items =>
          rw [onLines] at h
          rcases List.mem_cons.mp h with rfl | h
          · exact ⟨List.mem_cons_self, rfl, Or.inl rfl⟩
          · obtain ⟨mem, around⟩ := ih h
            exact ⟨List.mem_cons_of_mem _ mem, around⟩

/-- The texts of items on lines, with commas between them. -/
theorem commaSeparated_onLines
    {β : Type} {text : β → String} {f : β → α} {bytes : α → List UInt8}
    (same : ∀ b, bytes (f b) = ofText (text b))
    (line : String)
    (b : β)
    (bs : List β) :
    commaSeparated ((onLines (ofText line) last ((b :: bs).map f)).map (Padded.text bytes)) =
      ofText line ++ (ofText (("," ++ line).intercalate ((b :: bs).map text)) ++ last) := by
  induction bs generalizing b with
  | nil =>
      simp [onLines, commaSeparated, Padded.text, same]
  | cons next bs ih =>
      have comma : ofText "," = [Byte.comma] := by decide
      have step := ih next
      obtain ⟨second, rest, eq⟩ := List.exists_cons_of_ne_nil
        (onLines_ne_nil (List.cons_ne_nil _ _) :
          onLines (ofText line) last ((next :: bs).map f) ≠ [])
      rw [eq, List.map_cons] at step
      rw [List.map_cons] at eq
      rw [List.map_cons, List.map_cons, onLines, eq, List.map_cons, List.map_cons,
        commaSeparated_cons_cons, step]
      simp [Padded.text, same, String.intercalate_cons_cons, comma]

end OnLines

theorem enclose_nil
    (indent level : Nat)
    {opening closing : String} {first final : UInt8}
    (opens : ofText opening = [first])
    (closes : ofText closing = [final]) :
    ofText (enclose indent level opening closing []) = first :: ([] ++ [final]) := by
  rw [enclose, if_pos List.isEmpty_nil, ofText_append, opens, closes]
  rfl

/-- Texts in brackets are derived from items on lines. -/
theorem enclose_eq
    {α β : Type}
    (indent level : Nat)
    {opening closing : String} {first final : UInt8}
    (opens : ofText opening = [first])
    (closes : ofText closing = [final])
    {text : β → String} {f : β → α} {bytes : α → List UInt8}
    (same : ∀ b, bytes (f b) = ofText (text b))
    {bs : List β}
    (some : bs ≠ []) :
    ofText (enclose indent level opening closing (bs.map text)) =
      Padded.enclosed first bytes
        (onLines (ofText (newline indent (level + 1))) (ofText (newline indent level)) (bs.map f))
        final := by
  obtain ⟨b, bs, rfl⟩ := List.exists_cons_of_ne_nil some
  unfold enclose Padded.enclosed
  rw [commaSeparated_onLines same, if_neg (by simp)]
  simp [opens, closes]

theorem around_onLines
    {α : Type} {indent level : Nat} {items : List α} {padded : Padded α}
    (mem : padded ∈ onLines (ofText (newline indent (level + 1)))
      (ofText (newline indent level)) items) :
    Lexicon.strict.Around padded := by
  obtain ⟨_, before, after⟩ := mem_onLines mem
  constructor
  · rw [before]
    exact blanks_newline indent (level + 1)
  · rcases after with after | after
    · rw [after]
      exact blanks_nil
    · rw [after]
      exact blanks_newline indent level

/-! ## Leaves -/

theorem scalar_null :
    StrictScalar (ofText "null") .null := by
  have text : ofText "null" = Literal.null.word := by decide
  rw [text]
  exact .null

theorem scalar_true :
    StrictScalar (ofText "true") (.boolean true) := by
  have text : ofText "true" = Literal.true.word := by decide
  rw [text]
  exact .true

theorem scalar_false :
    StrictScalar (ofText "false") (.boolean false) := by
  have text : ofText "false" = Literal.false.word := by decide
  rw [text]
  exact .false

/-- Content between quotes. -/
theorem ofText_quotes
    (content : String) :
    ofText ("\"" ++ content ++ "\"") = Syntax.quoted (ofText content) := by
  have quote : ofText "\"" = [Byte.quote] := by decide
  simp [Syntax.quoted, quote]

theorem scalar_string
    {content : String}
    (valid : IsContent (ofText content)) :
    StrictScalar (ofText ("\"" ++ content ++ "\"")) (.string content) := by
  have token := StrictScalar.string valid
  rwa [toText_ofText, ← ofText_quotes] at token

/-! ## Items in brackets -/

section Enclosing

variable {α : Type} {content text : α → String} {tree : α → Tree} {items : List α}

/-- An item of an array, with the tree that its text stands for. -/
def element (text : α → String) (tree : α → Tree) (item : α) : Spelling :=
  ⟨ofText (text item), tree item⟩

/-- A member of an object, with the content between the quotes of its key. -/
def member
    (indent : Nat)
    (content text : α → String)
    (tree : α → Tree)
    (item : α) : Member where
  key := Syntax.quoted (ofText (content item))
  content := content item
  afterKey := []
  beforeValue := if indent = 0 then [] else [0x20]
  value := element text tree item

theorem member_text
    (indent : Nat)
    (content text : α → String)
    (tree : α → Tree)
    (item : α) :
    (member indent content text tree item).text =
      ofText ("\"" ++ content item ++ "\"" ++ afterKey indent ++ text item) := by
  have colon : ofText ":" = [Byte.colon] := by decide
  have colonSpace : ofText ": " = [Byte.colon, 0x20] := by decide
  rw [ofText_append, ofText_append, ofText_quotes]
  unfold afterKey
  split
  · rename_i compact
    simp [member, Member.text, element, compact, colon]
  · rename_i indented
    simp [member, Member.text, element, indented, colonSpace]

theorem keyed_member
    {indent : Nat} {item : α}
    (valid : IsContent (ofText (content item))) :
    Lexicon.strict.Keyed (member indent content text tree item) where
  key := by
    have token := StrictKey.string valid
    rw [toText_ofText] at token
    exact token
  afterKey := blanks_nil
  beforeValue := by
    simp only [member]
    split
    · exact blanks_nil
    · exact fun b mem => by
        rw [List.mem_singleton.mp mem]
        decide

/-- Values on lines of their own, in brackets, are an array. -/
theorem value_enclose_array
    (indent level : Nat)
    (values : ∀ item ∈ items, Lexicon.strict.Value (ofText (text item)) (tree item)) :
    Lexicon.strict.Value
      (ofText (enclose indent level "[" "]" (items.map text)))
      (.array (items.map tree)) := by
  have opens : ofText "[" = [Byte.openBracket] := by decide
  have closes : ofText "]" = [Byte.closeBracket] := by decide
  by_cases none : items = []
  · subst none
    rw [List.map_nil, List.map_nil, enclose_nil indent level opens closes]
    exact .emptyArray blanks_nil
  · have parts : (onLines (ofText (newline indent (level + 1))) (ofText (newline indent level))
        (items.map (element text tree))).map (·.item.tree) = items.map tree := by
      rw [map_onLines, List.map_map]
      rfl
    have same (item : α) : (element text tree item).text = ofText (text item) := rfl
    rw [enclose_eq indent level opens closes same none, ← parts]
    refine .array _ (onLines_ne_nil (by simpa using none)) (fun e mem => around_onLines mem) ?_
    intro e mem
    obtain ⟨item, here, eq⟩ := List.mem_map.mp (mem_onLines mem).1
    rw [← eq]
    exact values item here

/-- Keys with values on lines of their own, in braces, are an object. -/
theorem value_enclose_object
    (indent level : Nat)
    (contents : ∀ item ∈ items, IsContent (ofText (content item)))
    (values : ∀ item ∈ items, Lexicon.strict.Value (ofText (text item)) (tree item)) :
    Lexicon.strict.Value
      (ofText (enclose indent level "\x7b" "\x7d" (items.map fun item =>
        "\"" ++ content item ++ "\"" ++ afterKey indent ++ text item)))
      (.object (Members.ofList (items.map fun item => (content item, tree item)))) := by
  have opens : ofText "\x7b" = [Byte.openBrace] := by decide
  have closes : ofText "\x7d" = [Byte.closeBrace] := by decide
  by_cases none : items = []
  · subst none
    rw [List.map_nil, List.map_nil, enclose_nil indent level opens closes]
    exact .emptyObject blanks_nil
  · have parts : (onLines (ofText (newline indent (level + 1))) (ofText (newline indent level))
        (items.map (member indent content text tree))).map (·.item.pair) =
          items.map fun item => (content item, tree item) := by
      rw [map_onLines, List.map_map]
      rfl
    have same := member_text indent content text tree
    rw [enclose_eq indent level opens closes same none, ← parts]
    refine .object _ (onLines_ne_nil (by simpa using none)) ?_ ?_
    · intro m mem
      refine ⟨around_onLines mem, ?_⟩
      obtain ⟨item, here, eq⟩ := List.mem_map.mp (mem_onLines mem).1
      rw [← eq]
      exact keyed_member (contents item here)
    · intro m mem
      obtain ⟨item, here, eq⟩ := List.mem_map.mp (mem_onLines mem).1
      rw [← eq]
      exact values item here

end Enclosing

/-! ## Trees -/

variable {style : Style} {number : Binary64 → Tree} {P : String → Prop}

theorem items_eq
    (style : Style)
    (indent level : Nat)
    (trees : List Tree) :
    items style indent level trees = trees.map (node style indent level) := by
  induction trees with
  | nil =>
      rfl
  | cons tree trees ih =>
      rw [items, ih, List.map_cons]

theorem members_eq
    (style : Style)
    (indent level : Nat)
    (pairs : List (String × Tree)) :
    members style indent level pairs = pairs.map fun pair =>
      quoted style pair.1 ++ afterKey indent ++ node style indent level pair.2 := by
  induction pairs with
  | nil =>
      rfl
  | cons pair pairs ih =>
      obtain ⟨key, value⟩ := pair
      rw [members, ih, List.map_cons]

/-- The derivation of a written tree, by induction on the tree for all levels. -/
theorem node_value
    (reads : style.Reads number P)
    (indent : Nat)
    {tree : Tree}
    (contents : tree.AllContent P) :
    ∀ level, Lexicon.strict.Value
      (ofText (node style indent level tree))
      (tree.reread number style.content) := by
  induction contents with
  | null =>
      exact fun level => .scalar scalar_null
  | boolean value =>
      cases value with
      | true =>
          exact fun level => .scalar scalar_true
      | false =>
          exact fun level => .scalar scalar_false
  | number value =>
      exact fun level => .scalar (reads.number value)
  | @string content valid =>
      exact fun level => .scalar (scalar_string (reads.content content valid))
  | array _ ih =>
      intro level
      rw [node, items_eq, Tree.reread, Tree.rereadItems_eq]
      exact value_enclose_array indent level fun tree mem => ih tree mem (level + 1)
  | object keys _ ih =>
      intro level
      rw [node, members_eq, Tree.reread, Tree.rereadMembers_eq]
      exact value_enclose_object indent level
        (fun pair mem => reads.content pair.1 (keys pair mem))
        (fun pair mem => ih pair mem (level + 1))

end Writer
end JsonDoc
