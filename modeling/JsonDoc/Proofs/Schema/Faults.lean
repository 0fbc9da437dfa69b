import JsonDoc.Schema.Walk

/-!
# Errors about keywords

Whatever is wrong with the value of a keyword, the error names the keyword and the place of the
schema object that holds it: `Faulty`. There is one lemma for each way in which values are read.
-/

namespace JsonDoc

/-- The error is about the keyword and tells the place. -/
def SchemaError.IsAt
    (e : SchemaError)
    (keyword : Keyword)
    (place : Pointer) : Prop :=
  e = .unsupported keyword place ∨ ∃ flaw, e = .invalid keyword place flaw

namespace Schema

/-- The error is about a keyword of the schema object at a place. -/
def Faulty (rules : Rules) (place : Pointer) (e : SchemaError) : Prop :=
  ∃ keyword, (rules.find? keyword).isSome = true ∧ e.IsAt keyword place

section Values

variable {rules : Rules} {keyword : Keyword} {place : Pointer} {value : Tree} {e : SchemaError}

theorem faulty_invalid
    (found : rules.find? keyword = some value)
    (flaw : SchemaFlaw) :
    Faulty rules place (.invalid keyword place flaw) :=
  ⟨keyword, by rw [found, Option.isSome_some], Or.inr ⟨flaw, rfl⟩⟩

theorem faulty_types
    (found : rules.find? .type = some value)
    (failed : Rules.types place value = .error e) :
    Faulty rules place e := by
  unfold Rules.types at failed
  simp only [Except.bind] at failed
  split at failed
  · rename_i e' malformed
    cases failed
    split at malformed
    · cases malformed
    · split at malformed
      · cases malformed
      · cases malformed
        exact faulty_invalid found _
    · cases malformed
      exact faulty_invalid found _
  · split at failed
    · cases failed
      exact faulty_invalid found _
    · cases failed

theorem faulty_schemas
    (found : rules.find? keyword = some value)
    (failed : Rules.schemas keyword place value = .error e) :
    Faulty rules place e := by
  unfold Rules.schemas at failed
  split at failed
  · cases failed
  · split at failed
    · cases failed
    · cases failed
      exact faulty_invalid found _
  · cases failed
    exact faulty_invalid found _

theorem faulty_number
    (failed : rules.number keyword place = .error e) :
    Faulty rules place e := by
  unfold Rules.number at failed
  split at failed
  · cases failed
  · rename_i found
    split at failed
    · cases failed
    · cases failed
      exact faulty_invalid found _
  · rename_i found
    cases failed
    exact faulty_invalid found _

/-- A number that is read stands under its keyword. -/
theorem find?_of_number
    {n : Binary64}
    (read : rules.number keyword place = .ok (some n)) :
    ∃ value, rules.find? keyword = some value := by
  unfold Rules.number at read
  split at read
  · cases read
  · rename_i found
    exact ⟨_, found⟩
  · cases read

theorem faulty_count
    (failed : rules.count keyword place = .error e) :
    Faulty rules place e := by
  unfold Rules.count at failed
  split at failed
  · cases failed
  · rename_i found
    split at failed
    · cases failed
    · cases failed
      exact faulty_invalid found _
  · rename_i found
    cases failed
    exact faulty_invalid found _

/-- A count that is read stands under its keyword. -/
theorem find?_of_count
    {n : Nat}
    (read : rules.count keyword place = .ok (some n)) :
    ∃ value, rules.find? keyword = some value := by
  unfold Rules.count at read
  split at read
  · cases read
  · rename_i found
    exact ⟨_, found⟩
  · cases read

theorem faulty_exclusive
    {bound : Keyword} {hasBound : Bool}
    (failed : rules.exclusive keyword bound hasBound place = .error e) :
    Faulty rules place e := by
  unfold Rules.exclusive at failed
  split at failed
  · cases failed
  · rename_i found
    split at failed
    · cases failed
      exact faulty_invalid found _
    · split at failed
      · cases failed
      · cases failed
        exact faulty_invalid found _

theorem faulty_bound
    {exclusiveKeyword : Keyword}
    (failed : rules.bound keyword exclusiveKeyword place = .error e) :
    Faulty rules place e := by
  unfold Rules.bound at failed
  split at failed
  · rename_i malformed
    cases failed
    exact faulty_number malformed
  · split at failed
    · rename_i malformed
      cases failed
      exact faulty_exclusive malformed
    · cases failed

/-- A bound that is read stands under its keyword. -/
theorem find?_of_bound
    {exclusiveKeyword : Keyword} {limit : Binary64 × Bool}
    (read : rules.bound keyword exclusiveKeyword place = .ok (some limit)) :
    ∃ value, rules.find? keyword = some value := by
  unfold Rules.bound at read
  split at read
  · cases read
  · rename_i number
    split at read
    · cases read
    · obtain ⟨n, rfl, _⟩ := Option.map_eq_some_iff.mp (Except.ok.inj read)
      exact find?_of_number number

end Values

end Schema
end JsonDoc
