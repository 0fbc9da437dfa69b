import JsonDoc.Proofs.Tree.Ordered
import Mathlib.Data.List.Forall2

/-!
# Extended trees

A tree extends another one if it is the same but for new members: at every depth scalars are the
same, arrays have as many items, and no member is lost. Putting in a member that was missing, and
putting an extended value in its place, extends an object.
-/

namespace JsonDoc

/-- Lists agree item by item if they are equally long and agree at every index. -/
theorem forall₂_iff_getElem?
    {α β : Type} {R : α → β → Prop} {as : List α} {bs : List β} :
    List.Forall₂ R as bs ↔
      as.length = bs.length ∧ ∀ (i : Nat) (a : α) (b : β), as[i]? = some a → bs[i]? = some b →
        R a b := by
  rw [List.forall₂_iff_get]
  refine and_congr_right fun _ => ⟨fun all i a b ha hb => ?_, fun all i hi hi' => ?_⟩
  · obtain ⟨hi, rfl⟩ := List.getElem?_eq_some_iff.mp ha
    obtain ⟨hi', rfl⟩ := List.getElem?_eq_some_iff.mp hb
    exact all i hi hi'
  · exact all i _ _ (List.getElem?_eq_getElem hi) (List.getElem?_eq_getElem hi')

namespace Members

variable {α : Type} {members : Members α} {key : String}

theorem contains_of_get?
    {value : α}
    (h : members.get? key = some value) :
    members.contains key = true := by
  simp [contains, h]

theorem get?_replace
    (members : Members α)
    (key : String)
    (value : α)
    (other : String) :
    get? (members.replace key value) other =
      if other = key then (members.get? key).map fun _ => value else members.get? other := by
  unfold replace
  induction members with
  | nil =>
      simp
  | cons first rest ih =>
      obtain ⟨k, v⟩ := first
      by_cases here : k = key
      · subst here
        by_cases same : k = other
        · simp [get?_cons, same]
        · simp [get?_cons, same, Ne.symm same, ih]
      · by_cases same : k = other
        · subst same
          simp [get?_cons, here]
        · simp [get?_cons, same, here, ih]

@[simp] theorem contains_replace
    (members : Members α)
    (key : String)
    (value : α)
    (other : String) :
    (members.replace key value).contains other = members.contains other := by
  rw [contains, contains, get?_replace]
  split
  · rename_i same
    rw [same, Option.isSome_map]
  · rfl

theorem contains_insert
    (here : members.contains key = true)
    (other : String)
    (value : α) :
    (members.insert other value).contains key = true := by
  rw [contains, get?_insert]
  split
  · rfl
  · exact here

theorem length_replace
    (members : Members α)
    (key : String)
    (value : α) :
    (members.replace key value).length = members.length := List.length_map _

theorem length_insert
    (h : members.contains key = false)
    (value : α) :
    (members.insert key value).length = members.length + 1 := by
  induction members with
  | nil =>
      rfl
  | cons first rest ih =>
      obtain ⟨k, v⟩ := first
      have other : k ≠ key := by
        rintro rfl
        simp [contains, get?_cons] at h
      have absent : contains rest key = false := by
        simpa [contains, get?_cons, other] using h
      rw [insert]
      split
      · rfl
      · rw [if_neg (Ne.symm other), List.length_cons, ih absent, List.length_cons]

theorem sorted_replace
    (sorted : members.Sorted)
    (key : String)
    (value : α) :
    (members.replace key value).Sorted := by
  have keys (member : String × α) :
      (if member.1 = key then (key, value) else member).1 = member.1 := by
    split
    · rename_i same
      exact same.symm
    · rfl
  refine List.pairwise_map.mpr (sorted.imp ?_)
  intro a b before
  rw [keys, keys]
  exact before

theorem mem_replace
    {member : String × α} {value : α}
    (mem : member ∈ members.replace key value) :
    member.2 = value ∨ member ∈ members := by
  obtain ⟨old, here, rfl⟩ := List.mem_map.mp mem
  split
  · exact Or.inl rfl
  · exact Or.inr here

end Members

namespace Tree

/-! ## Order -/

variable {members members' : Members Tree} {key : String} {value : Tree}

theorem Ordered.item
    {items : List Tree} {item : Tree}
    (ordered : (Tree.array items).Ordered)
    (mem : item ∈ items) :
    item.Ordered := by
  cases ordered with
  | array all =>
      exact all item mem

theorem Ordered.sorted
    (ordered : (Tree.object members).Ordered) :
    members.Sorted := by
  cases ordered with
  | object sorted _ =>
      exact sorted

theorem Ordered.member
    (ordered : (Tree.object members).Ordered)
    (h : members.get? key = some value) :
    value.Ordered := by
  cases ordered with
  | object _ all =>
      exact all _ (Members.mem_of_get? h)

theorem Ordered.singleton
    (child : value.Ordered) :
    (Tree.object [(key, value)]).Ordered :=
  .object (List.pairwise_singleton _ _) (List.forall_mem_singleton.mpr child)

theorem Ordered.insert
    (ordered : (Tree.object members).Ordered)
    (child : value.Ordered) :
    (Tree.object (members.insert key value)).Ordered := by
  cases ordered with
  | object sorted all =>
      refine .object (Members.sorted_insert sorted key value) ?_
      intro member mem
      rcases Members.mem_insert mem with rfl | old
      · exact child
      · exact all member old

theorem Ordered.replace
    (ordered : (Tree.object members).Ordered)
    (child : value.Ordered) :
    (Tree.object (members.replace key value)).Ordered := by
  cases ordered with
  | object sorted all =>
      refine .object (Members.sorted_replace sorted key value) ?_
      intro member mem
      rcases Members.mem_replace mem with eq | old
      · rw [eq]
        exact child
      · exact all member old

/-! ## Extensions -/

/-- The second tree is the first one with members added at any depth. -/
inductive Extends : Tree → Tree → Prop
  | null : Extends .null .null
  | boolean (value : Bool) : Extends (.boolean value) (.boolean value)
  | number (value : Binary64) : Extends (.number value) (.number value)
  | string (content : String) : Extends (.string content) (.string content)
  | array {items items' : List Tree} :
      items.length = items'.length →
      (∀ (i : Nat) (a b : Tree), items[i]? = some a → items'[i]? = some b → Extends a b) →
      Extends (.array items) (.array items')
  | object {members members' : Members Tree} :
      members.length ≤ members'.length →
      (∀ key, members.contains key = true → members'.contains key = true) →
      (∀ (key : String) (a b : Tree), members.get? key = some a → members'.get? key = some b →
        Extends a b) →
      Extends (.object members) (.object members')

/-- Members with members added, here or below. -/
def MembersExtend (members members' : Members Tree) : Prop :=
  Extends (.object members) (.object members')

theorem Extends.refl
    {tree : Tree}
    (ordered : tree.Ordered) :
    Extends tree tree := by
  induction ordered with
  | null =>
      exact .null
  | boolean value =>
      exact .boolean value
  | number value =>
      exact .number value
  | string content =>
      exact .string content
  | array _ ih =>
      refine .array rfl ?_
      intro i a b ha hb
      cases ha.symm.trans hb
      exact ih a (List.mem_of_getElem? ha)
  | object _ _ ih =>
      refine .object (Nat.le_refl _) (fun _ here => here) ?_
      intro key a b ha hb
      cases ha.symm.trans hb
      exact ih _ (Members.mem_of_get? ha)

theorem Extends.trans
    {a b c : Tree}
    (h : Extends a b)
    (k : Extends b c) :
    Extends a c := by
  induction h generalizing c with
  | null | boolean _ | number _ | string _ =>
      exact k
  | array same items ih =>
      cases k with
      | array same' items' =>
          refine .array (same.trans same') ?_
          intro i a c ha hc
          obtain ⟨inside, _⟩ := List.getElem?_eq_some_iff.mp ha
          have hb := List.getElem?_eq_getElem (same ▸ inside)
          exact ih i a _ ha hb (items' i _ c hb hc)
  | @object members members' size keys children ih =>
      cases k with
      | object size' keys' children' =>
          refine .object (Nat.le_trans size size') (fun key here => keys' key (keys key here)) ?_
          intro key a c ha hc
          obtain ⟨b, hb⟩ := Option.isSome_iff_exists.mp
            (keys key (Members.contains_of_get? ha))
          exact ih key a b ha hb (children' key b c hb hc)

theorem Extends.kindName
    {a b : Tree}
    (h : Extends a b) :
    b.kindName = a.kindName := by
  cases h <;> rfl

/-- Arrays are extended item by item. -/
theorem extends_array_iff
    {items : List Tree} {tree : Tree} :
    Extends (.array items) tree ↔ ∃ items', tree = .array items' ∧
      List.Forall₂ Extends items items' := by
  constructor
  · intro h
    cases h with
    | @array _ items' same all =>
        exact ⟨items', rfl, forall₂_iff_getElem?.mpr ⟨same, all⟩⟩
  · rintro ⟨items', rfl, each⟩
    obtain ⟨same, all⟩ := forall₂_iff_getElem?.mp each
    exact .array same all

theorem extends_object_iff
    {tree : Tree} :
    Extends (.object members) tree ↔ ∃ members', tree = .object members' ∧
      MembersExtend members members' := by
  constructor
  · intro h
    cases h with
    | @object _ members' size keys children =>
        exact ⟨members', rfl, .object size keys children⟩
  · rintro ⟨members', rfl, h⟩
    exact h

namespace MembersExtend

theorem length_le
    (h : MembersExtend members members') :
    members.length ≤ members'.length := by
  cases h with
  | object size _ _ =>
      exact size

/-- A member is still there, extended. -/
theorem get?
    (h : MembersExtend members members')
    (here : Members.get? members key = some value) :
    ∃ value', Members.get? members' key = some value' ∧ Extends value value' := by
  cases h with
  | object _ keys children =>
      obtain ⟨value', there⟩ := Option.isSome_iff_exists.mp
        (keys key (Members.contains_of_get? here))
      exact ⟨value', there, children key value value' here there⟩

/-- A missing member is put in. -/
theorem insert
    (ordered : (Tree.object members).Ordered)
    (absent : Members.contains members key = false)
    (value : Tree) :
    MembersExtend members (members.insert key value) := by
  have other {k : String} {a : Tree} (here : Members.get? members k = some a) : key ≠ k := by
    rintro rfl
    have there := Members.contains_of_get? here
    rw [absent] at there
    cases there
  refine .object ?_ ?_ ?_
  · rw [Members.length_insert absent]
    exact Nat.le_succ _
  · exact fun k here => Members.contains_insert here key value
  · intro k a b here there
    rw [Members.get?_insert, if_neg (other here)] at there
    cases here.symm.trans there
    exact .refl (ordered.member here)

/-- A member is extended in its place. -/
theorem replace
    (ordered : (Tree.object members).Ordered)
    (here : Members.get? members key = some value)
    {value' : Tree}
    (h : Extends value value') :
    MembersExtend members (members.replace key value') := by
  refine .object ?_ ?_ ?_
  · exact Nat.le_of_eq (Members.length_replace _ _ _).symm
  · exact fun k present => (Members.contains_replace members key value' k).trans present
  · intro k a b old new
    rw [Members.get?_replace] at new
    by_cases same : k = key
    · subst same
      cases here.symm.trans old
      simp only [here, if_true, Option.map_some, Option.some.injEq] at new
      exact new ▸ h
    · rw [if_neg same] at new
      cases old.symm.trans new
      exact .refl (ordered.member old)

end MembersExtend

end Tree
end JsonDoc
