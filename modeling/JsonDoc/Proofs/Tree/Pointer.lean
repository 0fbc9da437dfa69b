import JsonDoc.Proofs.Tree.Extension
import JsonDoc.Tree.Pointer

/-!
# Pointers and where they lead

The text of a pointer is read back as the pointer, whatever its keys are: no slash is left inside
an escaped key, so the text falls into the escaped keys again, and escaping is undone key by key.

A pointer that leads to a node still does so after members were put in.
-/

namespace JsonDoc
namespace Pointer

/-! ## Texts -/

theorem slash_not_mem_escape
    (key : List Char) :
    '/' ∉ escape key := by
  intro slash
  obtain ⟨c, _, mem⟩ := List.mem_flatMap.mp slash
  split at mem
  · simp at mem
  · split at mem
    · simp at mem
    · rename_i other
      exact other (List.mem_singleton.mp mem).symm

theorem unescape_cons
    {c : Char}
    (h : c ≠ '~')
    (rest : List Char) :
    unescape (c :: rest) = c :: unescape rest := by
  conv_lhs => unfold unescape
  split <;> simp_all

theorem unescape_escape
    (key : List Char) :
    unescape (escape key) = key := by
  induction key with
  | nil =>
      rfl
  | cons c key ih =>
      unfold escape at ih ⊢
      rw [List.flatMap_cons]
      by_cases tilde : c = '~'
      · subst tilde
        simp [unescape, ih]
      · by_cases slash : c = '/'
        · subst slash
          simp [unescape, ih]
        · rw [if_neg tilde, if_neg slash, List.singleton_append, unescape_cons tilde, ih]

theorem parts_of_no_slash
    {part : List Char}
    (h : '/' ∉ part) :
    parts part = [part] := by
  induction part with
  | nil =>
      rfl
  | cons c part ih =>
      obtain ⟨here, rest⟩ := not_or.mp (mt List.mem_cons.mpr h)
      simp only [parts, if_neg (Ne.symm here), ih rest]

/-- A part ends at the next slash. -/
theorem parts_append_slash
    {part : List Char}
    (h : '/' ∉ part)
    (rest : List Char) :
    parts (part ++ '/' :: rest) = part :: parts rest := by
  induction part with
  | nil =>
      simp [parts]
  | cons c part ih =>
      obtain ⟨here, others⟩ := not_or.mp (mt List.mem_cons.mpr h)
      rw [List.cons_append, parts, if_neg (Ne.symm here), ih others]

/-- The parts of a text are the escaped keys it was put together from. -/
theorem parts_tokens
    (tokens : List String) :
    ∀ token : String,
      parts (escape token.toList ++ tokens.flatMap fun token => '/' :: escape token.toList) =
        (token :: tokens).map fun token => escape token.toList := by
  induction tokens with
  | nil =>
      intro token
      rw [List.flatMap_nil, List.append_nil, parts_of_no_slash (slash_not_mem_escape _)]
      rfl
  | cons next tokens ih =>
      intro token
      rw [List.flatMap_cons, List.cons_append, parts_append_slash (slash_not_mem_escape _), ih next]
      rfl

/-- The text of a pointer is read back as the pointer. -/
theorem ofText?_text
    (pointer : Pointer) :
    ofText? pointer.text = some pointer := by
  obtain ⟨tokens⟩ := pointer
  unfold ofText? text
  rw [String.toList_ofList]
  cases tokens with
  | nil =>
      rfl
  | cons token tokens =>
      have undone (token : String) : String.ofList (unescape (escape token.toList)) = token := by
        rw [unescape_escape, String.ofList_toList]
      simp [List.flatMap_cons, parts_tokens, List.map_map, Function.comp_def, undone]

/-- The token of an index spells that index. -/
theorem index?_toString
    (index : Nat) :
    index? (toString index) = some index := by
  have digits : ∀ c ∈ Nat.toDigits 10 index, c.isDigit = true :=
    fun c mem => Nat.isDigit_of_mem_toDigits (by decide) (by decide) mem
  have noSign (rest : List Char) : Nat.toDigits 10 index ≠ '+' :: rest := by
    intro signed
    have sign : '+'.isDigit = true := digits '+' (signed ▸ List.mem_cons_self)
    cases sign
  have nonempty : Nat.toDigits 10 index ≠ [] := Nat.toDigits_ne_nil
  have all : (Nat.toDigits 10 index).all Char.isDigit = true := List.all_eq_true.mpr digits
  have value : Nat.ofDigitChars 10 (Nat.toDigits 10 index) 0 = index :=
    Nat.ofDigitChars_toDigits (by decide) (by decide)
  unfold index?
  rw [Nat.toString_eq_repr, Nat.toList_repr]
  split
  · rename_i rest signed
    exact absurd signed (noSign rest)
  · simp [nonempty, all, value]

end Pointer

namespace Tree

/-! ## Nodes -/

theorem at?_cons
    (node : Tree)
    (token : String)
    (tokens : List String) :
    node.at? ⟨token :: tokens⟩ = (node.child? token).bind (·.at? ⟨tokens⟩) := rfl

theorem at?_child
    (node : Tree)
    (pointer : Pointer)
    (token : String) :
    node.at? (pointer.child token) = (node.at? pointer).bind (·.child? token) := by
  simp [at?, Pointer.child, List.foldlM_append]

theorem child?_item
    (items : List Tree)
    (index : Nat) :
    (Tree.array items).child? (toString index) = items[index]? := by
  simp only [child?, Pointer.index?_toString, Option.bind_some]

/-- The text of a pointer leads where the pointer does. -/
theorem atText?_text
    (node : Tree)
    (pointer : Pointer) :
    node.atText? pointer.text = node.at? pointer := by
  rw [atText?, Pointer.ofText?_text, Option.bind_some]

theorem Extends.child?
    {a b child : Tree} {token : String}
    (h : Extends a b)
    (here : a.child? token = some child) :
    ∃ child', b.child? token = some child' ∧ Extends child child' := by
  cases h with
  | null | boolean | number | string =>
      cases here
  | array same items =>
      obtain ⟨index, spelled, here⟩ := Option.bind_eq_some_iff.mp here
      obtain ⟨inside, _⟩ := List.getElem?_eq_some_iff.mp here
      have there := List.getElem?_eq_getElem (same ▸ inside)
      exact ⟨_, Option.bind_eq_some_iff.mpr ⟨index, spelled, there⟩, items index _ _ here there⟩
  | object size keys members =>
      exact MembersExtend.get? (.object size keys members) here

/-- No node is lost when members are put in. -/
theorem Extends.at?
    {a b node : Tree} {pointer : Pointer}
    (h : Extends a b)
    (here : a.at? pointer = some node) :
    ∃ node', b.at? pointer = some node' ∧ Extends node node' := by
  obtain ⟨tokens⟩ := pointer
  induction tokens generalizing a b with
  | nil =>
      cases here
      exact ⟨b, rfl, h⟩
  | cons token tokens ih =>
      rw [at?_cons] at here
      obtain ⟨child, first, rest⟩ := Option.bind_eq_some_iff.mp here
      obtain ⟨child', first', extended⟩ := h.child? first
      obtain ⟨node', rest', extendedNode⟩ := ih extended rest
      exact ⟨node', Option.bind_eq_some_iff.mpr ⟨child', first', rest'⟩, extendedNode⟩

end Tree
end JsonDoc
