import JsonDoc.Proofs.Schema.Meaning
import JsonDoc.Proofs.Schema.Searching

/-!
# Keywords decide what they mean

One lemma for each keyword: its check decides the condition that `Schema.Satisfies` has for it.
The checks for schemas below come as a `Walk`, and so do the conditions that they decide.
-/

namespace JsonDoc
namespace Schema

open Check Outcome

variable {rules : Rules} {path place : Pointer} {collectAll : Bool} {data : Tree}

/-! ## Values of keywords -/

theorem number?_of_number
    {keyword : Keyword} {value : Option Binary64}
    (h : rules.number keyword place = .ok value) :
    number? rules keyword = value := by
  unfold Rules.number at h
  unfold number?
  split at h
  · rename_i none
    cases h
    rw [none]
    rfl
  · rename_i n some
    rw [some]
    split at h
    · cases h
      rfl
    · cases h
  · cases h

theorem count?_of_count
    {keyword : Keyword} {value : Option Nat}
    (h : rules.count keyword place = .ok value) :
    count? rules keyword = value := by
  unfold Rules.count at h
  unfold count? number?
  split at h
  · rename_i none
    cases h
    rw [none]
    rfl
  · rename_i n some
    rw [some]
    split at h
    · cases h
      rfl
    · cases h
  · cases h

theorem decides_demand_le
    {α : Type}
    (data : α)
    (a b : Nat)
    (path : Pointer)
    (breach : Breach) :
    (demand (decide (a ≤ b)) path breach data).Decides data (a ≤ b) :=
  (decides_demand data _ path breach).congr (by simp)

/-- A check for a count. -/
theorem decides_count
    {α : Type} {data : α} {keyword : Keyword} {check : Nat → Check α}
    {P : Nat → Prop}
    (h : ∀ n, (check n data).Decides data (P n)) :
    (ofKeyword (rules.count keyword place) check data).Decides data
      (∀ n, count? rules keyword = some n → P n) :=
  decides_ofKeyword (fun _ read => count?_of_count read) fun n _ => h n

/-- A bound that is read is the number of its keyword, with the flag beside it. -/
theorem bound_eq
    {keyword exclusiveKeyword : Keyword} {value : Option (Binary64 × Bool)}
    (h : rules.bound keyword exclusiveKeyword place = .ok value) :
    ∃ exclusive, (exclusive = true ↔ Set rules exclusiveKeyword) ∧
      value = (number? rules keyword).map fun limit => (limit, exclusive) := by
  unfold Rules.bound at h
  split at h
  · cases h
  · rename_i limit number
    split at h
    · cases h
    · rename_i exclusive flag
      cases h
      refine ⟨exclusive, ?_, by rw [number?_of_number number]⟩
      unfold Rules.exclusive at flag
      unfold Set
      split at flag
      · rename_i none
        cases flag
        simp [none]
      · rename_i value some
        rw [some]
        split at flag
        · cases flag
        · split at flag
          · cases flag
            simp
          · cases flag

theorem hasType_iff
    (data : Tree)
    (name : String) :
    Rules.hasType data name = true ↔ HasType data name := by
  unfold Rules.hasType HasType
  split
  · rename_i any
    simp [any]
  · rename_i notAny
    split
    · rename_i integer
      subst integer
      cases data <;> simp [Tree.isInteger, Tree.kindName]
    · rename_i notInteger
      simp [notAny, notInteger]

theorem mem_of_names?
    {items : List Tree} :
    ∀ {names : List String},
      Rules.names? items = some names → ∀ name, name ∈ names ↔ .string name ∈ items := by
  unfold Rules.names?
  induction items with
  | nil =>
      intro names h name
      cases h
      simp
  | cons item items ih =>
      intro names h name
      simp only [List.mapM_cons, Option.bind_eq_bind, Option.bind_eq_some_iff] at h
      obtain ⟨first, content, rest, more, eq⟩ := h
      cases eq
      cases item with
      | string s =>
          cases content
          simp [ih more]
      | null | boolean | number | array | object =>
          cases content

/-- The names that are read are those that the value lists. -/
theorem lists_of_types
    {value : Tree} {names : List String}
    (h : Rules.types place value = .ok names)
    (name : String) :
    name ∈ names ↔ Lists value name := by
  unfold Rules.types at h
  unfold Lists
  cases value with
  | string content =>
      simp only [Except.bind] at h
      cases unknown : [content].find? fun name => !Rules.typeNames.contains name with
      | some other =>
          simp only [unknown] at h
          cases h
      | none =>
          simp only [unknown, Except.ok.injEq] at h
          subst h
          simp [eq_comm]
  | array items =>
      simp only [Except.bind] at h
      cases read : Rules.names? items with
      | none =>
          simp [read] at h
      | some listed =>
          cases unknown : listed.find? fun name => !Rules.typeNames.contains name with
          | some other =>
              simp only [read, unknown] at h
              cases h
          | none =>
              simp only [read, unknown, Except.ok.injEq] at h
              subst h
              rw [mem_of_names? read]
              simp
  | null | boolean | number | object =>
      cases h

/-! ## Keywords for all kinds -/

theorem decides_enumerated
    (data : Tree) :
    ((match rules.find? .enumeration with
      | none => Check.pass
      | some value => enumerated value path place) data).Decides data
        (∀ options : List Tree, rules.find? .enumeration = some (Tree.array options) →
          ∃ option ∈ options, option.approxEq data) := by
  cases rules.find? .enumeration with
  | none =>
      exact (decides_pass data).congr (by simp)
  | some value =>
      cases value with
      | array options =>
          exact (decides_demand data _ path _).congr (by simp)
      | null | boolean | number | string | object =>
          exact decides_raise data _ _

theorem decides_typed
    (data : Tree) :
    ((match rules.find? .type with
      | none => Check.pass
      | some value => typed value path place) data).Decides data
        (∀ value : Tree, rules.find? .type = some value →
          ∃ name, Lists value name ∧ HasType data name) := by
  cases rules.find? .type with
  | none =>
      exact (decides_pass data).congr (by simp)
  | some value =>
      simp only [typed]
      cases read : Rules.types place value with
      | error e =>
          exact decides_raise data e _
      | ok names =>
          refine (decides_demand data _ path _).congr ?_
          simp only [List.any_eq_true, hasType_iff, Option.some.injEq, forall_eq',
            lists_of_types read]

/-- The schemas that a keyword lists. -/
def Branches (rules : Rules) (keyword : Keyword) (schemas : List Tree) : Prop :=
  rules.find? keyword = some (.array schemas) ∨
    (keyword = .not ∧ ∃ schema, rules.find? .not = some (.object schema) ∧
      schemas = [.object schema])

variable {walk : Walk} {P : Tree → Prop}

theorem decidesEach_mapIdx
    {schemas : List Tree} :
    ∀ check : Nat → Tree → Check Tree,
      (∀ i, ∀ schema ∈ schemas, (check i schema data).Decides data (P schema)) →
      DecidesEach data P (schemas.mapIdx check) schemas := by
  induction schemas with
  | nil =>
      intro check _
      exact .nil
  | cons schema schemas ih =>
      intro check h
      rw [List.mapIdx_cons]
      refine .cons (h 0 schema List.mem_cons_self) (ih _ ?_)
      exact fun i other mem => h (i + 1) other (List.mem_cons_of_mem _ mem)

theorem decidesEach_branches
    {keyword : Keyword} {schemas : List Tree}
    (h : ∀ schema ∈ schemas, ∀ path place, (walk schema path place data).Decides data (P schema)) :
    DecidesEach data P (branches walk keyword schemas path place) schemas :=
  decidesEach_mapIdx _ fun _ schema mem => h schema mem _ _

theorem decides_passesAll
    {checks : List (Check Tree)} {schemas : List Tree}
    (h : DecidesEach data P checks schemas) :
    (passesAll collectAll path checks data).Decides data (∀ schema ∈ schemas, P schema) := by
  have all : (Check.all collectAll checks data).Decides data (∀ schema ∈ schemas, P schema) :=
    decides_all h
  unfold passesAll
  simp only
  split
  · intro passed verdict
    exact all passed verdict
  · exact all

theorem decides_passesAny
    {checks : List (Check Tree)} {schemas : List Tree}
    (h : DecidesEach data P checks schemas) :
    (passesAny path checks data).Decides data (∃ schema ∈ schemas, P schema) := by
  rw [passesAny_eq]
  refine decides_concluded fun found read => ?_
  rw [← firstPassed_isSome h 0 found read]
  cases found <;> simp

theorem decides_passesNone
    {checks : List (Check Tree)} {schemas : List Tree}
    (h : DecidesEach data P checks schemas) :
    (passesNone path checks data).Decides data (∀ schema ∈ schemas, ¬ P schema) := by
  rw [passesNone_eq]
  refine decides_concluded fun found read => ?_
  have isSome := firstPassed_isSome h 0 found read
  cases found <;> simpa using isSome

theorem decides_passesOne
    {checks : List (Check Tree)} {schemas : List Tree}
    (h : DecidesEach data P checks schemas) :
    (passesOne path checks data).Decides data (ExactlyOne P schemas) := by
  rw [passesOne_eq]
  refine decides_concluded fun count counted => ?_
  rw [← countPassed_zero h count counted]
  simp

/-- A keyword that lists schemas, with what its way to combine them decides. -/
theorem decides_combined
    {keyword : Keyword} {combine : List (Check Tree) → Check Tree}
    {Q : List Tree → Prop}
    (h : ∀ schemas, Branches rules keyword schemas →
      (combine (branches walk keyword schemas path place) data).Decides data (Q schemas)) :
    (combined walk rules path place keyword combine data).Decides data
      (∀ schemas, Branches rules keyword schemas → Q schemas) := by
  unfold combined
  cases found : rules.find? keyword with
  | none =>
      refine (decides_pass data).congr ?_
      simp only [true_iff]
      rintro schemas (array | ⟨rfl, schema, object, _⟩)
      · rw [found] at array
        cases array
      · rw [found] at object
        cases object
  | some value =>
      simp only
      cases value with
      | array items =>
          have listed : Branches rules keyword items := Or.inl found
          refine (h items listed).congr ?_
          constructor
          · rintro holds schemas (array | ⟨rfl, schema, object, _⟩)
            · rw [found] at array
              cases array
              exact holds
            · rw [found] at object
              cases object
          · exact fun all => all items listed
      | object members =>
          by_cases not : keyword = .not
          · subst not
            have listed : Branches rules .not [.object members] := Or.inr ⟨rfl, _, found, rfl⟩
            refine (h [.object members] listed).congr ?_
            constructor
            · rintro holds schemas (array | ⟨_, schema, object, rfl⟩)
              · rw [found] at array
                cases array
              · rw [found] at object
                cases object
                exact holds
            · exact fun all => all [.object members] listed
          · simp only [Rules.schemas, if_neg not]
            exact decides_raise data _ _
      | null | boolean | number | string =>
          exact decides_raise data _ _

/-- A walk decides what a predicate says of a schema, on all data of a kind. -/
def WalkDecides (walk : Walk) (P : Tree → Tree → Prop) (schema : Tree) : Prop :=
  ∀ path place data, data.Ordered → (walk schema path place data).Decides data (P schema data)

variable {Q : Tree → Tree → Prop}

theorem Branches.child
    {keyword : Keyword} {schemas : List Tree} {schema : Tree}
    (listed : Branches rules keyword schemas)
    (mem : schema ∈ schemas)
    (combines : keyword ∈ [.allOf, .anyOf, .oneOf, .not]) :
    Child (.object rules) schema := by
  rcases listed with array | ⟨rfl, below, object, rfl⟩
  · exact .branch combines array mem
  · rw [List.mem_singleton.mp mem]
    exact .negated object

/-- Only `not` lists anything but an array. -/
theorem branches_iff
    (keyword : Keyword)
    (other : keyword ≠ .not)
    (schemas : List Tree) :
    Branches rules keyword schemas ↔ rules.find? keyword = some (.array schemas) := by
  constructor
  · rintro (array | ⟨rfl, _⟩)
    · exact array
    · exact absurd rfl other
  · exact Or.inl

theorem decides_generalChecks
    (ordered : data.Ordered)
    (walks : ∀ schema, Child (.object rules) schema → WalkDecides walk Q schema) :
    (all collectAll (generalChecks collectAll walk rules path place) data).Decides data
      (GeneralFits rules (fun schema _ => Q schema) data) := by
  have each {keyword : Keyword} (combines : keyword ∈ [.allOf, .anyOf, .oneOf, .not])
      (schemas : List Tree) (listed : Branches rules keyword schemas) :
      DecidesEach data (Q · data) (branches walk keyword schemas path place) schemas :=
    decidesEach_branches fun schema mem path place =>
      walks schema (listed.child mem combines) path place data ordered
  unfold generalChecks
  refine (decides_all_cons (decides_enumerated data) (decides_all_cons (decides_typed data)
    (decides_all_cons (decides_combined fun schemas listed =>
      decides_passesAll (each (by decide) schemas listed))
    (decides_all_cons (decides_combined fun schemas listed =>
      decides_passesAny (each (by decide) schemas listed))
    (decides_all_cons (decides_combined fun schemas listed =>
      decides_passesOne (each (by decide) schemas listed))
    (decides_all_cons (decides_combined fun schemas listed =>
      decides_passesNone (each (by decide) schemas listed))
    (decides_all_nil data))))))).congr ?_
  simp only [branches_iff .allOf (by decide), branches_iff .anyOf (by decide),
    branches_iff .oneOf (by decide)]
  constructor
  · rintro ⟨enumeration, type, allOf, anyOf, oneOf, not, _⟩
    refine ⟨enumeration, type, allOf, ?_, ?_, ?_, ?_⟩
    · intro schemas found
      obtain ⟨schema, mem, holds⟩ := anyOf schemas found
      exact ⟨schema, mem, holds⟩
    · exact fun schemas found => (exactlyOne_iff schemas).mp (oneOf schemas found)
    · exact fun schemas found => not schemas (Or.inl found)
    · intro schema found
      exact not [.object schema] (Or.inr ⟨rfl, schema, found, rfl⟩) _ List.mem_cons_self
  · intro fits
    refine ⟨fits.enumeration, fits.type, fits.allOf, ?_, ?_, ?_, trivial⟩
    · intro schemas found
      obtain ⟨schema, mem, holds⟩ := fits.anyOf schemas found
      exact ⟨schema, mem, holds⟩
    · exact fun schemas found => (exactlyOne_iff schemas).mpr (fits.oneOf schemas found)
    · rintro schemas (found | ⟨_, schema, found, rfl⟩)
      · exact fits.not schemas found
      · intro below mem
        rw [List.mem_singleton.mp mem]
        exact fits.negated schema found

end Schema
end JsonDoc
