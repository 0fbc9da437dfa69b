/-!
# Object members

The members of an object are a list of keys with what they hold, in increasing order of the keys.
Strings are ordered by code points, which is also the order of their UTF-8 bytes. `insert` keeps
the order, and a later insertion under the same key replaces the earlier one.
-/

namespace JsonDoc

/-- Keys with what they hold. -/
abbrev Members (α : Type) := List (String × α)

namespace Members

variable {α : Type}

/-- What a key holds. -/
def get? (members : Members α) (key : String) : Option α :=
  (members.find? fun member => member.1 == key).map (·.2)

def contains (members : Members α) (key : String) : Bool := (members.get? key).isSome

/-- Puts a value under a key, in the place that the order of keys gives it. -/
def insert : Members α → String → α → Members α
  | [], key, value => [(key, value)]
  | (k, v) :: rest, key, value =>
    if key < k then (key, value) :: (k, v) :: rest
    else if key = k then (key, value) :: rest
    else (k, v) :: insert rest key value

/-- Replaces what a key holds; nothing happens without the key. -/
def replace (members : Members α) (key : String) (value : α) : Members α :=
  members.map fun member => if member.1 = key then (key, value) else member

/-- Puts in pairs one after another. -/
def insertAll (members : Members α) (pairs : List (String × α)) : Members α :=
  pairs.foldl (fun members pair => members.insert pair.1 pair.2) members

/-- Members in any order; the last of equal keys counts. -/
def ofList (pairs : List (String × α)) : Members α := insertAll [] pairs

/-- The members in increasing order of their keys, each key once. -/
def Sorted (members : Members α) : Prop := members.Pairwise fun a b => a.1 < b.1

@[simp] theorem get?_nil
    (key : String) :
    get? ([] : Members α) key = none := rfl

theorem get?_cons
    (k : String)
    (v : α)
    (rest : Members α)
    (key : String) :
    get? ((k, v) :: rest) key = if k = key then some v else get? rest key := by
  by_cases h : k = key <;> simp [get?, h]

theorem get?_insert
    (members : Members α)
    (key : String)
    (value : α)
    (other : String) :
    get? (members.insert key value) other =
      if key = other then some value else members.get? other := by
  induction members with
  | nil => simp [insert, get?_cons]
  | cons member rest ih =>
      obtain ⟨k, v⟩ := member
      grind [insert, get?_cons]

theorem mem_insert
    {members : Members α} {key : String} {value : α} {member : String × α}
    (h : member ∈ members.insert key value) :
    member = (key, value) ∨ member ∈ members := by
  induction members with
  | nil => simp_all [insert]
  | cons first rest ih =>
      obtain ⟨k, v⟩ := first
      grind [insert]

theorem sorted_insert
    {members : Members α}
    (h : members.Sorted)
    (key : String)
    (value : α) :
    (members.insert key value).Sorted := by
  induction members with
  | nil => simp [insert, Sorted]
  | cons first rest ih =>
      obtain ⟨k, v⟩ := first
      obtain ⟨below, rest_sorted⟩ := List.pairwise_cons.mp h
      unfold insert
      split
      · rename_i key_lt
        refine List.pairwise_cons.mpr ⟨?_, h⟩
        intro member mem
        rcases List.mem_cons.mp mem with rfl | mem
        · exact key_lt
        · exact String.lt_trans key_lt (below member mem)
      · split
        · rename_i _ key_eq
          exact List.pairwise_cons.mpr ⟨key_eq ▸ below, rest_sorted⟩
        · rename_i not_lt not_eq
          refine List.pairwise_cons.mpr ⟨?_, ih rest_sorted⟩
          intro member mem
          rcases mem_insert mem with rfl | mem
          · exact Std.lt_of_le_of_ne (String.not_lt.mp not_lt) (Ne.symm not_eq)
          · exact below member mem

@[simp] theorem insertAll_nil
    (members : Members α) :
    members.insertAll [] = members := rfl

@[simp] theorem insertAll_cons
    (members : Members α)
    (pair : String × α)
    (pairs : List (String × α)) :
    members.insertAll (pair :: pairs) = (members.insert pair.1 pair.2).insertAll pairs := rfl

theorem sorted_insertAll
    (pairs : List (String × α)) :
    ∀ {members : Members α}, members.Sorted → (members.insertAll pairs).Sorted := by
  induction pairs with
  | nil => exact fun h => h
  | cons pair pairs ih => exact fun h => ih (sorted_insert h pair.1 pair.2)

theorem sorted_ofList
    (pairs : List (String × α)) :
    (ofList pairs).Sorted :=
  sorted_insertAll pairs List.Pairwise.nil

end Members
end JsonDoc
