import JsonDoc.Proofs.Schema.Keywords

/-!
# Keywords for strings and numbers

What the keywords for strings and numbers decide.
-/

namespace JsonDoc
namespace Schema

open Check Outcome

variable {engine : Pattern.Engine} {rules : Rules} {path place : Pointer} {collectAll : Bool}
variable {data : Tree}

/-! ## Strings -/

theorem decides_matching
    (content : String) :
    (matching engine rules content path place data).Decides data
      (∀ source occursIn, rules.find? .pattern = some (.string source) →
        engine.compile (Escape.decodeText source) = some occursIn → occursIn content) := by
  unfold matching
  cases found : rules.find? .pattern with
  | none =>
      exact (decides_pass data).congr (by simp)
  | some value =>
      cases value with
      | string source =>
          simp only
          cases compiled : engine.compile (Escape.decodeText source) with
          | none =>
              exact decides_raise data _ _
          | some occursIn =>
              refine (decides_demand data _ path _).congr ?_
              constructor
              · intro occurs source' occursIn' same compiled'
                cases same
                rw [compiled] at compiled'
                cases compiled'
                exact occurs
              · exact fun all => all source occursIn rfl compiled
      | null | boolean | number | array | object =>
          exact decides_raise data _ _

theorem decides_stringCheck
    (content : String) :
    (stringCheck engine collectAll rules content path place data).Decides data
      (StringFits engine rules content) := by
  unfold stringCheck
  refine (decides_all_cons (decides_count (P := fun n => n ≤ content.utf8ByteSize) fun n => ?_)
    (decides_all_cons (decides_count (P := fun n => content.utf8ByteSize ≤ n) fun n => ?_)
      (decides_all_cons (decides_matching content) (decides_all_nil data)))).congr ?_
  · exact decides_demand_le data n _ path _
  · exact decides_demand_le data _ n path _
  · constructor
    · rintro ⟨least, most, pattern, _⟩
      exact ⟨⟨least, most⟩, pattern⟩
    · rintro ⟨⟨least, most⟩, pattern⟩
      exact ⟨least, most, pattern, trivial⟩

/-! ## Numbers -/

theorem decides_multipleOf
    (n : Binary64) :
    (ofKeyword (rules.number .multipleOf place) (fun divisor =>
      if divisor.le Binary64.zero then raise (.invalid .multipleOf place .notPositive)
      else demand (isMultiple n divisor) path (.notMultiple n divisor)) data).Decides data
      (∀ divisor, number? rules .multipleOf = some divisor →
        (n.div divisor).approxEq (n.div divisor).round) := by
  refine decides_ofKeyword (fun _ read => number?_of_number read) ?_
  intro divisor _
  split
  · exact decides_raise data _ _
  · exact decides_demand data _ path _

/-- A bound, with the comparison for the flag beside it. -/
theorem decides_bound
    {keyword exclusiveKeyword : Keyword} {breach : Binary64 → Bool → Breach}
    (strict weak : Binary64 → Bool) :
    (ofKeyword (rules.bound keyword exclusiveKeyword place) (fun (limit, exclusive) =>
      demand (if exclusive then strict limit else weak limit) path
        (breach limit exclusive)) data).Decides data
      (∀ limit, number? rules keyword = some limit →
        (Set rules exclusiveKeyword → strict limit) ∧
        (¬ Set rules exclusiveKeyword → weak limit)) := by
  cases read : rules.bound keyword exclusiveKeyword place with
  | error e =>
      exact decides_raise data e _
  | ok value =>
      obtain ⟨exclusive, flag, rfl⟩ := bound_eq read
      cases number? rules keyword with
      | none =>
          exact (decides_pass data).congr (by simp)
      | some limit =>
          refine (decides_demand data _ path _).congr ?_
          cases exclusive with
          | true =>
              have set : Set rules exclusiveKeyword := flag.mp rfl
              simp [set]
          | false =>
              have notSet : ¬ Set rules exclusiveKeyword := fun set => by
                simpa using flag.mpr set
              simp [notSet]

theorem decides_numberCheck
    (n : Binary64) :
    (numberCheck collectAll rules n path place data).Decides data (NumberFits rules n) := by
  unfold numberCheck
  refine (decides_all_cons (decides_multipleOf n)
    (decides_all_cons (decides_bound (fun most => n.lt most) fun most => n.le most)
      (decides_all_cons (decides_bound (fun least => least.lt n) fun least => least.le n)
        (decides_all_nil data)))).congr ?_
  constructor
  · rintro ⟨multipleOf, maximum, minimum, _⟩
    exact ⟨multipleOf, maximum, minimum⟩
  · rintro ⟨multipleOf, maximum, minimum⟩
    exact ⟨multipleOf, maximum, minimum, trivial⟩

end Schema
end JsonDoc
