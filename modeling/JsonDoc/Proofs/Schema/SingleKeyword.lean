import JsonDoc.Proofs.Schema.FillingLevel
import JsonDoc.Proofs.Schema.Reordering
import JsonDoc.Schema.Validator

/-!
# Schemas of one keyword

A schema that holds a single keyword for nodes of one kind asks for nothing else: at the root, and
within the depth limit, it is the check of that kind, `outcome_single`.
-/

namespace JsonDoc

theorem Rules.find?_single
    (keyword : Keyword)
    (value : Tree)
    (other : Keyword) :
    Rules.find? [(keyword.name, value)] other = if other = keyword then some value else none := by
  rw [Rules.find?, Members.get?_cons, Members.get?_nil]
  simp only [Keyword.name_injective.eq_iff, eq_comm]

theorem Outcome.pass_join
    {α β : Type}
    (data : α)
    (second : Outcome β) :
    (Check.pass data).join second = second := by
  obtain ⟨data', violations, filled, verdict⟩ := second
  cases verdict <;> rfl

namespace Schema

variable {engine : Pattern.Engine}

/-- The keywords for nodes of all kinds. -/
def generalKeywords : List Keyword := [.enumeration, .type, .allOf, .anyOf, .oneOf, .not]

variable {keyword : Keyword} {collectAll : Bool} {walk : Walk} {path place : Pointer}

theorem generalChecks_single
    (special : keyword ∉ generalKeywords)
    (value data : Tree) :
    Check.all collectAll (generalChecks collectAll walk [(keyword.name, value)] path place) data =
      Check.pass data := by
  have absent (other : Keyword) (general : other ∈ generalKeywords) :
      Rules.find? [(keyword.name, value)] other = none := by
    rw [Rules.find?_single, if_neg]
    rintro rfl
    exact special general
  rw [generalChecks_eq, enumCheck_of_absent (absent .enumeration (by simp [generalKeywords])),
    typeCheck_of_absent (absent .type (by simp [generalKeywords])),
    combined_of_absent (absent .allOf (by simp [generalKeywords])),
    combined_of_absent (absent .anyOf (by simp [generalKeywords])),
    combined_of_absent (absent .oneOf (by simp [generalKeywords])),
    combined_of_absent (absent .not (by simp [generalKeywords]))]
  rfl

theorem level_single
    (special : keyword ∉ generalKeywords)
    (value data : Tree) :
    level engine collectAll walk [(keyword.name, value)] path place data =
      kindCheck engine collectAll walk [(keyword.name, value)] path place data := by
  rw [level, Check.whenPassed, generalChecks_single special]
  exact Outcome.pass_join data _

end Schema

namespace Validator

open Schema

variable {engine : Pattern.Engine}
variable {keyword : Keyword} {options : ValidatorOptions}

/-- Within the limit a schema at the root is checked as one level. -/
theorem outcome_object
    (room : options.maxDepth ≠ some 0)
    (rules : Rules)
    (data : Tree) :
    outcome (.object rules) options data engine =
      level engine options.collectAll (walk engine options (Tree.heightMembers rules) 1)
        rules Pointer.root
        Pointer.root data := by
  have shallow : options.maxDepth.filter (· ≤ 0) = none := by
    rw [Option.filter_eq_none_iff]
    intro depth isLimit zero
    rw [decide_eq_true_eq, Nat.le_zero] at zero
    exact room (zero ▸ isLimit)
  rw [outcome, Tree.height, walk, applyOnce, shallow]

/-- A limit of zero leaves no room for any schema. -/
theorem outcome_tooDeep
    (none : options.maxDepth = some 0)
    (rules : Rules)
    (data : Tree) :
    outcome (.object rules) options data engine = Check.raise (.tooDeep 0 Pointer.root) data := by
  rw [outcome, Tree.height, walk, applyOnce, none]
  rfl

theorem outcome_single
    (room : options.maxDepth ≠ some 0)
    (special : keyword ∉ generalKeywords)
    (value data : Tree) :
    outcome (.object [(keyword.name, value)]) options data engine =
      kindCheck engine options.collectAll
        (walk engine options (Tree.heightMembers [(keyword.name, value)]) 1) [(keyword.name, value)]
        Pointer.root Pointer.root data := by
  rw [outcome_object room, level_single special]

end Validator
end JsonDoc
