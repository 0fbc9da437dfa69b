import JsonDoc.Proofs.Schema.Containers
import JsonDoc.Proofs.Schema.SingleKeyword
import JsonDoc.Proofs.Tree.Equality

/-!
# Items that are not equal

`uniqueItems` looks at each pair of items once, with the earlier item on the left, and ends at the
first pair that is equal. As equality is symmetric, its verdict is the same for every order of the
items, and it passes exactly if no two items at different positions are equal:
`isValid_distinctItems`. Equality is not transitive, so there are no classes of equal items behind
this.
-/

namespace JsonDoc

namespace Schema

variable {items items' : List Tree}

/-- Both items of a pair may come first. -/
theorem pairwise_distinct_iff
    (items : List Tree) :
    (items.Pairwise fun a b => ¬ a.approxEq b) ↔
      ∀ (i j : Nat) (hi : i < items.length) (hj : j < items.length), i ≠ j →
        ¬ items[i].approxEq items[j] := by
  rw [List.pairwise_iff_getElem]
  constructor
  · intro ascending i j hi hj different
    rcases Nat.lt_or_gt_of_ne different with before | after
    · exact ascending i j hi hj before
    · rw [Tree.approxEq_comm]
      exact ascending j i hj hi after
  · exact fun all i j hi hj before => all i j hi hj (Nat.ne_of_lt before)

theorem isNone_duplicate?
    (items : List Tree) :
    (duplicate? 0 items).isNone ↔ items.Pairwise fun a b => ¬ a.approxEq b := by
  rw [Option.isNone_iff_eq_none, duplicate?_eq_none]

/-- An equal pair stays one when the items change places. -/
theorem isNone_duplicate?_perm
    (perm : items.Perm items') :
    (duplicate? 0 items).isNone = (duplicate? 0 items').isNone := by
  rw [Bool.eq_iff_iff, isNone_duplicate?, isNone_duplicate?]
  refine perm.pairwise_iff fun different => ?_
  rwa [Tree.approxEq_comm]

/-- The schema that asks for items that are not equal. -/
def distinctItems : Tree := .object [(Keyword.uniqueItems.name, .boolean true)]

/-- No other keyword for arrays looks at the items. -/
theorem arrayCheck_distinctItems
    (collectAll : Bool)
    (walk : Walk)
    (path place : Pointer)
    (items : List Tree) :
    (arrayCheck collectAll walk [(Keyword.uniqueItems.name, .boolean true)] path place
      items).verdict = .ok (duplicate? 0 items).isNone := by
  have found (keyword : Keyword) := Rules.find?_single .uniqueItems (.boolean true) keyword
  have checks : arrayCheck collectAll walk [(Keyword.uniqueItems.name, .boolean true)] path place =
      Check.all collectAll [Check.pass, Check.pass, Check.pass,
        unique [(Keyword.uniqueItems.name, .boolean true)] path place] := by
    simp only [arrayCheck, itemsCheck, Rules.count, found, reduceCtorEq, if_false, Check.ofKeyword]
  have searched : unique [(Keyword.uniqueItems.name, .boolean true)] path place items =
      (duplicate? 0 items).elim (Check.pass items) fun pair =>
        Check.violate path (.equalItems pair.1 pair.2) items := by
    simp only [unique, found, if_true]
    cases duplicate? 0 items with
    | none =>
        rfl
    | some pair =>
        rfl
  simp only [checks, Check.all, Check.pass, Outcome.goesOn, Bool.true_or, if_true, searched]
  cases duplicate? 0 items with
  | none =>
      cases collectAll <;> rfl
  | some pair =>
      cases collectAll <;> rfl

end Schema

namespace Validator

open Schema

variable {engine : Pattern.Engine}
variable {options : ValidatorOptions}

theorem isValid_eq_of_verdict
    {schema data : Tree} {verdict : Except SchemaError Bool}
    (h : (outcome schema options data engine).verdict = verdict) :
    isValid schema options data engine = verdict := by
  rw [isValid, check, checkAndFill, report, h]
  cases verdict <;> rfl

theorem isValid_duplicate?
    (room : options.maxDepth ≠ some 0)
    (items : List Tree) :
    isValid distinctItems options (.array items) engine = .ok (duplicate? 0 items).isNone := by
  refine isValid_eq_of_verdict ?_
  rw [distinctItems, outcome_single room (by simp [generalKeywords])]
  exact arrayCheck_distinctItems _ _ _ _ items

/-- Equality is symmetric, and reflexive where no number is a NaN. So `uniqueItems` gives one
verdict for all orders of the items, and within the depth limit it passes exactly if no two items at
different positions are equal. -/
theorem isValid_distinctItems
    (engine : Pattern.Engine) :
    (∀ a b : Tree, a.approxEq b = b.approxEq a) ∧
      (∀ tree : Tree, (tree.AllNumbers fun n => n.isNaN = false) → tree.approxEq tree) ∧
      (∀ (options : ValidatorOptions) (items items' : List Tree), items.Perm items' →
        isValid distinctItems options (.array items) engine =
          isValid distinctItems options (.array items') engine) ∧
      ∀ (options : ValidatorOptions) (items : List Tree), options.maxDepth ≠ some 0 →
        ∃ valid, isValid distinctItems options (.array items) engine = .ok valid ∧
          (valid ↔ ∀ (i j : Nat) (hi : i < items.length) (hj : j < items.length), i ≠ j →
            ¬ items[i].approxEq items[j]) := by
  refine ⟨Tree.approxEq_comm, fun _ => Tree.approxEq_self, ?_, ?_⟩
  · intro options items items' perm
    by_cases none : options.maxDepth = some 0
    · have same (items : List Tree) : isValid distinctItems options (.array items) engine =
          .error (.tooDeep 0 Pointer.root) :=
        isValid_eq_of_verdict (by rw [distinctItems, outcome_tooDeep none, Check.raise])
      rw [same, same]
    · rw [isValid_duplicate? none, isValid_duplicate? none, isNone_duplicate?_perm perm]
  · intro options items room
    refine ⟨_, isValid_duplicate? room items, ?_⟩
    rw [isNone_duplicate?, pairwise_distinct_iff]

/-- One and an infinity are equal in either order, with a NaN around that equals nothing. -/
theorem isValid_distinctItems_overflow :
    (Tree.number Binary64.one).AllNumbers (fun n => n.isNaN = false) ∧
      ({} : ValidatorOptions).maxDepth ≠ some 0 ∧
      [Tree.number Binary64.one, .number Binary64.nan, .number (Binary64.infinity false)].Perm
        [.number (Binary64.infinity false), .number Binary64.one, .number Binary64.nan] ∧
      (Tree.number Binary64.one).approxEq (.number Binary64.one) ∧
      isValid distinctItems {} (.array
        [.number Binary64.one, .number Binary64.nan, .number (Binary64.infinity false)]) =
          .ok false ∧
      isValid distinctItems {} (.array
        [.number (Binary64.infinity false), .number Binary64.one, .number Binary64.nan]) =
          .ok false := by
  obtain ⟨_, self, order, verdict⟩ := isValid_distinctItems Pattern.plain
  have notNaN : (Tree.number Binary64.one).AllNumbers fun n => n.isNaN = false :=
    .number (by decide)
  have room : ({} : ValidatorOptions).maxDepth ≠ some 0 := by decide
  have perm : [Tree.number Binary64.one, .number Binary64.nan,
        .number (Binary64.infinity false)].Perm
      [.number (Binary64.infinity false), .number Binary64.one, .number Binary64.nan] :=
    @List.perm_append_comm _ [_, _] [_]
  have equal : (Tree.number Binary64.one).approxEq (.number (Binary64.infinity false)) := by
    decide +kernel
  obtain ⟨valid, done, distinct⟩ := verdict {}
    [.number Binary64.one, .number Binary64.nan, .number (Binary64.infinity false)] room
  have invalid : valid = false := by
    refine Bool.eq_false_iff.mpr fun passes => ?_
    exact distinct.mp passes 0 2 (by decide) (by decide) (by decide) equal
  rw [invalid] at done
  exact ⟨notNaN, room, perm, self _ notNaN, done, (order {} _ _ perm).symm.trans done⟩

end Validator
end JsonDoc
