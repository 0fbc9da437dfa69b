import JsonDoc.Tree.Basic

/-!
# Ordered trees

Trees whose objects hold each key once, in increasing order, as every object does that was built by
inserting members.
-/

namespace JsonDoc

namespace Members

variable {α : Type}

theorem mem_of_get?
    {members : Members α} {key : String} {value : α}
    (h : members.get? key = some value) :
    (key, value) ∈ members := by
  unfold get? at h
  obtain ⟨member, found, rfl⟩ := Option.map_eq_some_iff.mp h
  have same : member.1 = key := by simpa using List.find?_some found
  rw [← same]
  exact List.mem_of_find?_eq_some found

theorem Sorted.unique
    {members : Members α}
    (sorted : members.Sorted)
    {key : String} {a b : α}
    (ha : (key, a) ∈ members)
    (hb : (key, b) ∈ members) :
    a = b := by
  induction members with
  | nil =>
      simp at ha
  | cons first rest ih =>
      obtain ⟨below, restSorted⟩ := List.pairwise_cons.mp sorted
      rcases List.mem_cons.mp ha with rfl | laterA
      · rcases List.mem_cons.mp hb with eq | laterB
        · cases eq
          rfl
        · have before : key < key := below (key, b) laterB
          exact absurd before (String.lt_irrefl key)
      · rcases List.mem_cons.mp hb with rfl | laterB
        · have before : key < key := below (key, a) laterA
          exact absurd before (String.lt_irrefl key)
        · exact ih restSorted laterA laterB

/-- A key holds what stands beside it. -/
theorem Sorted.get?_of_mem
    {members : Members α}
    (sorted : members.Sorted)
    {key : String} {value : α}
    (mem : (key, value) ∈ members) :
    members.get? key = some value := by
  induction members with
  | nil =>
      simp at mem
  | cons first rest ih =>
      obtain ⟨k, v⟩ := first
      rw [get?_cons]
      by_cases same : k = key
      · subst same
        rw [if_pos rfl, sorted.unique List.mem_cons_self mem]
      · have later : (key, value) ∈ rest := by simpa [Ne.symm same] using mem
        rw [if_neg same, ih (List.pairwise_cons.mp sorted).2 later]

/-- Putting back what a key holds changes nothing. -/
theorem replace_get?
    {members : Members α}
    (sorted : members.Sorted)
    {key : String} {value : α}
    (h : members.get? key = some value) :
    members.replace key value = members := by
  have held := mem_of_get? h
  unfold replace
  rw [List.map_congr_left (g := id), List.map_id]
  intro member mem
  obtain ⟨k, v⟩ := member
  by_cases same : k = key
  · subst same
    have eq : v = value := sorted.unique mem held
    simp [eq]
  · simp [same]

/-- A key after all others goes to the end. -/
theorem insert_last
    {members : Members α} {key : String}
    (value : α)
    (last : ∀ member ∈ members, member.1 < key) :
    members.insert key value = members ++ [(key, value)] := by
  induction members with
  | nil =>
      rfl
  | cons first rest ih =>
      obtain ⟨k, v⟩ := first
      have before : k < key := last (k, v) List.mem_cons_self
      have notBefore : ¬ key < k := String.lt_asymm before
      have other : key ≠ k := fun same => String.lt_irrefl k (same ▸ before)
      rw [insert, if_neg notBefore, if_neg other,
        ih fun member mem => last member (List.mem_cons_of_mem _ mem), List.cons_append]

theorem insertAll_sorted
    (pairs : List (String × α)) :
    ∀ members : Members α, Sorted (members ++ pairs) →
      members.insertAll pairs = members ++ pairs := by
  induction pairs with
  | nil =>
      intro members _
      simp
  | cons pair pairs ih =>
      intro members sorted
      have last : ∀ member ∈ members, member.1 < pair.1 := fun member mem =>
        (List.pairwise_append.mp sorted).2.2 member mem pair List.mem_cons_self
      have shift : members ++ [pair] ++ pairs = members ++ pair :: pairs := by simp
      rw [insertAll_cons, insert_last pair.2 last, ih _ (by rw [shift]; exact sorted), shift]

/-- Members in order are built from themselves. -/
theorem ofList_sorted
    {members : Members α}
    (sorted : members.Sorted) :
    ofList members = members := insertAll_sorted members [] sorted

theorem mem_insertAll
    (pairs : List (String × α)) :
    ∀ {members : Members α} {member : String × α}, member ∈ members.insertAll pairs →
      member ∈ members ∨ member ∈ pairs := by
  induction pairs with
  | nil =>
      exact fun mem => Or.inl mem
  | cons pair pairs ih =>
      intro members member mem
      rcases ih mem with earlier | later
      · rcases mem_insert earlier with rfl | old
        · exact Or.inr List.mem_cons_self
        · exact Or.inl old
      · exact Or.inr (List.mem_cons_of_mem _ later)

theorem mem_ofList
    {pairs : List (String × α)} {member : String × α}
    (mem : member ∈ ofList pairs) :
    member ∈ pairs := by
  rcases mem_insertAll pairs mem with nothing | here
  · simp at nothing
  · exact here

end Members

namespace Tree

/-- Every object of the tree holds its members in the order of their keys, each key once. -/
inductive Ordered : Tree → Prop
  | null : Ordered .null
  | boolean (value : Bool) : Ordered (.boolean value)
  | number (value : Binary64) : Ordered (.number value)
  | string (content : String) : Ordered (.string content)
  | array {items : List Tree} : (∀ item ∈ items, Ordered item) → Ordered (.array items)
  | object {members : List (String × Tree)} :
      Members.Sorted members → (∀ member ∈ members, Ordered member.2) → Ordered (.object members)

end Tree
end JsonDoc
