import JsonDoc.Proofs.Tree.Leaves
import Mathlib.Data.List.Nodup
import Mathlib.Data.List.Perm.Basic

/-!
# Members under other keys

As long as no two keys fall together, it does not matter in which order members are given, nor
whether they are put in order before they are renamed: `Members.ofList_map_ofList`. What a tree
means, `Tree.decoded`, has the escapes of all its strings and keys decoded.
-/

namespace JsonDoc

namespace Members

variable {α β : Type} {members members' : Members α} {pairs pairs' : List (String × α)}

theorem Sorted.nodup
    (sorted : members.Sorted) :
    members.Nodup := by
  refine List.Pairwise.imp ?_ sorted
  rintro a _ before rfl
  exact String.lt_irrefl _ before

/-- There is only one order. -/
theorem Sorted.eq_of_perm
    (sorted : members.Sorted)
    (sorted' : members'.Sorted)
    (perm : members.Perm members') :
    members = members' :=
  perm.eq_of_pairwise (fun _ _ _ _ before after => absurd after (String.lt_asymm before)) sorted
    sorted'

theorem perm_insert
    {key : String}
    (value : α)
    (new : ∀ member ∈ members, member.1 ≠ key) :
    (members.insert key value).Perm ((key, value) :: members) := by
  induction members with
  | nil =>
      exact .refl _
  | cons first rest ih =>
      obtain ⟨k, v⟩ := first
      obtain ⟨other, others⟩ := List.forall_mem_cons.mp new
      unfold insert
      split
      · exact .refl _
      · rw [if_neg (Ne.symm other)]
        exact ((ih others).cons (k, v)).trans (.swap _ _ _)

theorem perm_insertAll
    (pairs : List (String × α)) :
    ∀ {members : Members α},
      ((members ++ pairs).map Prod.fst).Nodup →
        (members.insertAll pairs).Perm (members ++ pairs) := by
  induction pairs with
  | nil =>
      intro members _
      rw [insertAll_nil, List.append_nil]
  | cons pair pairs ih =>
      intro members distinct
      obtain ⟨key, value⟩ := pair
      have new : ∀ member ∈ members, member.1 ≠ key := by
        intro member mem same
        rw [List.map_append, List.nodup_append] at distinct
        exact distinct.2.2 _ (List.mem_map_of_mem mem) key (by simp) same
      have moved : (members.insert key value ++ pairs).Perm (members ++ (key, value) :: pairs) :=
        ((perm_insert value new).append_right pairs).trans List.perm_middle.symm
      rw [insertAll_cons]
      exact (ih ((moved.map Prod.fst).nodup_iff.mpr distinct)).trans moved

/-- Members are the pairs they are made of, if these have different keys. -/
theorem perm_ofList
    (distinct : (pairs.map Prod.fst).Nodup) :
    (ofList pairs).Perm pairs :=
  perm_insertAll pairs distinct

theorem ofList_eq_of_perm
    (distinct : (pairs.map Prod.fst).Nodup)
    (perm : pairs.Perm pairs') :
    ofList pairs = ofList pairs' := by
  have distinct' := (perm.map Prod.fst).nodup_iff.mp distinct
  exact (sorted_ofList pairs).eq_of_perm (sorted_ofList pairs')
    (((perm_ofList distinct).trans perm).trans (perm_ofList distinct').symm)

/-- Members that are put in order may be changed before or after that. -/
theorem ofList_map_ofList
    {f : String × α → String × β}
    (distinct : (pairs.map Prod.fst).Nodup)
    (distinct' : ((pairs.map f).map Prod.fst).Nodup) :
    ofList ((ofList pairs).map f) = ofList (pairs.map f) := by
  have perm := (perm_ofList distinct).map f
  exact ofList_eq_of_perm ((perm.map Prod.fst).nodup_iff.mpr distinct') perm

/-- Values may be changed in place. -/
theorem map_ofList
    (f : α → β)
    (distinct : (pairs.map Prod.fst).Nodup) :
    (ofList pairs).map (fun member => (member.1, f member.2)) =
      ofList (pairs.map fun member => (member.1, f member.2)) := by
  have sorted : Sorted ((ofList pairs).map fun member => (member.1, f member.2)) :=
    List.pairwise_map.mpr (sorted_ofList pairs)
  have keys : (pairs.map fun member => (member.1, f member.2)).map Prod.fst =
      pairs.map Prod.fst := by
    rw [List.map_map]
    rfl
  rw [← ofList_map_ofList distinct (keys.symm ▸ distinct), ofList_sorted sorted]

end Members

namespace Tree

/-- The tree with the meanings of its strings and keys in their place. -/
def decoded (tree : Tree) : Tree := tree.reread .number Escape.decodeText

/-- The keys of every object have different meanings. -/
inductive KeysApart : Tree → Prop
  | null : KeysApart .null
  | boolean (value : Bool) : KeysApart (.boolean value)
  | number (value : Binary64) : KeysApart (.number value)
  | string (content : String) : KeysApart (.string content)
  | array {items : List Tree} : (∀ item ∈ items, KeysApart item) → KeysApart (.array items)
  | object {members : List (String × Tree)} :
      (members.map fun member => Escape.decodeText member.1).Nodup →
      (∀ member ∈ members, KeysApart member.2) → KeysApart (.object members)

theorem decoded_normalNumber
    (n : Binary64) :
    (normalNumber n).decoded = normalNumber n := by
  unfold normalNumber
  split
  · rfl
  · split <;> rfl

theorem decoded_object
    (members : List (String × Tree)) :
    (Tree.object members).decoded = .object (Members.ofList
      (members.map fun member => (Escape.decodeText member.1, member.2.decoded))) := by
  rw [decoded, reread, rereadMembers_eq]
  rfl

theorem decoded_array
    (items : List Tree) :
    (Tree.array items).decoded = .array (items.map decoded) := by
  rw [decoded, reread, rereadItems_eq]
  rfl

theorem KeysApart.ordered_decoded
    {tree : Tree}
    (h : tree.KeysApart) :
    tree.decoded.Ordered := by
  induction h with
  | null =>
      exact .null
  | boolean value =>
      exact .boolean value
  | number n =>
      exact .number n
  | string text =>
      exact .string _
  | array _ ih =>
      rw [decoded_array]
      exact .array (List.forall_mem_map.mpr ih)
  | object _ _ ih =>
      rw [decoded_object]
      refine .object (Members.sorted_ofList _) fun member mem => ?_
      obtain ⟨old, here, rfl⟩ := List.mem_map.mp (Members.mem_ofList mem)
      exact ih old here

theorem AllNumbers.decoded
    {P : Binary64 → Prop} {tree : Tree}
    (h : tree.AllNumbers P) :
    tree.decoded.AllNumbers P := by
  induction h with
  | null =>
      exact .null
  | boolean value =>
      exact .boolean value
  | number holds =>
      exact .number holds
  | string text =>
      exact .string _
  | array _ ih =>
      rw [decoded_array]
      exact .array (List.forall_mem_map.mpr ih)
  | object _ ih =>
      rw [decoded_object]
      refine .object fun member mem => ?_
      obtain ⟨old, here, rfl⟩ := List.mem_map.mp (Members.mem_ofList mem)
      exact ih old here

end Tree
end JsonDoc
