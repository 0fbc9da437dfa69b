import JsonDoc.Proofs.Schema.Refilling
import JsonDoc.Proofs.Schema.ReorderedLevel
import JsonDoc.Proofs.Schema.Undisturbed

/-!
# The order of branches

The branches of `allOf` are walked one after the other on the same data, which each of them may fill
in. So their order can decide whether a document is valid: `check_order_matters`. It does not if no
branch looks at what another one may fill in: `check_reordered`. That holds for the branches of an
`allOf` at the root, and of one anywhere below it.
-/

namespace JsonDoc
namespace Schema

open Check JsonDoc.Tree

variable {engine : Pattern.Engine}

/-- No branch looks at what another one may fill in. -/
def Independent (branches : List Tree) : Prop :=
  branches.Pairwise fun first second => Undisturbed first second ∧ Undisturbed second first

section Branches

variable {options : ValidatorOptions} {height height' depth : Nat} {path place place' : Pointer}
variable {schemas schemas' : List Tree} {rules rules' : Rules} {collectAll : Bool}

theorem Independent.perm
    (independent : Independent schemas)
    (perm : schemas.Perm schemas') :
    Independent schemas' :=
  (perm.pairwise_iff fun h => h.symm).mp independent

/-- Walking with one branch and with another one can change places. -/
theorem exchanges_branches
    (ordered : ∀ schema ∈ schemas, schema.Ordered)
    (independent : Independent schemas) :
    (branches (walk engine options height depth) .allOf schemas path place).Pairwise
      fun first second =>
        Exchanges Tree.Ordered first second ∧ Exchanges Tree.Ordered second first := by
  rw [List.pairwise_iff_getElem]
  intro i j before after less
  simp only [branches, List.length_mapIdx] at before after
  simp only [branches, List.getElem_mapIdx]
  obtain ⟨undisturbed, undisturbed'⟩ :=
    List.pairwise_iff_getElem.mp independent i j before after less
  have orderedFirst := ordered _ (List.getElem_mem before)
  have orderedSecond := ordered _ (List.getElem_mem after)
  exact ⟨fun _ _ _ good => passes_swap orderedFirst orderedSecond good undisturbed undisturbed',
    fun _ _ _ good => passes_swap orderedSecond orderedFirst good undisturbed' undisturbed⟩

theorem keeps_branches
    (ordered : ∀ schema ∈ schemas, schema.Ordered) :
    ∀ check ∈ branches (walk engine options height depth) .allOf schemas path place,
      Moves Tree.Ordered (fun _ _ => True) check := by
  intro check mem
  obtain ⟨i, inside, rfl⟩ := List.mem_mapIdx.mp mem
  exact (moves_walk_extends height depth (ordered _ (List.getElem_mem inside)) _ _).keeps

/-- The checks of branches can be put in another order as well. Each of them keeps its place. -/
theorem perm_branches
    {walk : Walk}
    (perm : schemas.Perm schemas') :
    ∃ permuted, (branches walk .allOf schemas path place).Perm permuted ∧
      List.Forall₂ (fun schema check => ∃ place, check = walk schema path place) schemas'
        permuted := by
  have each : List.Forall₂ (fun schema check => ∃ place, check = walk schema path place) schemas
      (branches walk .allOf schemas path place) := by
    unfold branches
    refine List.forall₂_iff_get.mpr ⟨by simp, fun i before after => ?_⟩
    simp
  obtain ⟨permuted, same, perm'⟩ := List.perm_comp_forall₂ perm.symm each
  exact ⟨permuted, perm'.symm, same⟩

/-- Independent branches concur with the same branches in another order. -/
theorem concurs_permuted
    (perm : schemas.Perm schemas')
    (independent : Independent schemas)
    (ordered : ∀ schema ∈ schemas, schema.Ordered)
    (same : ∀ schema ∈ schemas,
      WalksConcur (walk engine options height depth) (walk engine options height' depth)
        schema schema) :
    Concurs Tree.Ordered
      (Check.all collectAll (branches (walk engine options height depth) .allOf schemas path place))
      (Check.all collectAll
        (branches (walk engine options height' depth) .allOf schemas' path place')) := by
  have ordered' (schema : Tree) (mem : schema ∈ schemas') : schema.Ordered :=
    ordered schema (perm.mem_iff.mpr mem)
  obtain ⟨permuted, permutes, stood⟩ := perm_branches perm
  refine concurs_all_of_perm permutes ?_ (keeps_branches ordered) (keeps_branches ordered')
    (exchanges_branches ordered independent) (exchanges_branches ordered' (independent.perm perm))
  obtain ⟨sameLength, each⟩ := List.forall₂_iff_get.mp stood
  unfold branches
  refine List.forall₂_iff_get.mpr ⟨by simp [sameLength], fun i before after => ?_⟩
  rw [List.length_mapIdx] at after
  obtain ⟨place, isWalk⟩ := each i after before
  rw [isWalk]
  simpa using same _ (perm.mem_iff.mpr (List.getElem_mem after)) path place _

/-- `allOf` concurs if its branches are reordered or have changed places. -/
theorem concurs_allOf
    (ordered : (Tree.object rules).Ordered)
    (related : RelatedRules Independent rules rules')
    (below : ∀ schema schema', Child (.object rules) schema → Child (.object rules') schema' →
      Reordered Independent schema schema' →
      WalksConcur (walk engine options height depth) (walk engine options height' depth)
        schema schema') :
    Concurs Tree.Ordered
      (combined (walk engine options height depth) rules path place .allOf
        (passesAll collectAll path))
      (combined (walk engine options height' depth) rules' path place' .allOf
        (passesAll collectAll path)) := by
  rcases related.allOf with allOf | ⟨schemas, schemas', found, found', perm, independent⟩
  · exact concurs_combined below (by decide) allOf fun _ _ h => concurs_passesAll (concurs_all h)
  · unfold combined
    rw [found, found']
    refine concurs_passesAll (concurs_permuted perm independent
      (fun _ => (ordered.member found).item) fun schema mem => ?_)
    exact below schema schema (.branch (by decide) found mem)
      (.branch (by decide) found' (perm.mem_iff.mp mem)) (.refl schema)

end Branches

/-! ## Walks -/

/-- Walking with a schema and with a reordered one concurs. -/
theorem walksConcur_reordered
    (engine : Pattern.Engine)
    (options : ValidatorOptions)
    (height : Nat) :
    ∀ (height' depth : Nat) (schema schema' : Tree), schema.height ≤ height →
      schema'.height ≤ height' → schema.Ordered → Reordered Independent schema schema' →
      WalksConcur (walk engine options height depth) (walk engine options height' depth)
        schema schema' := by
  induction height with
  | zero =>
      intro _ _ schema _ low
      cases schema <;> simp [Tree.height] at low
  | succ height ih =>
      intro height' depth schema schema' low low' ordered reordered path place place'
      cases schema with
      | object rules =>
          obtain ⟨rules', rfl, related⟩ := reordered.level ordered
          cases height' with
          | zero =>
              simp [Tree.height] at low'
          | succ height' =>
              rw [walk, walk, applyOnce, applyOnce]
              cases options.maxDepth.filter (· ≤ depth) with
              | some limit =>
                  exact concurs_raise
              | none =>
                  have below : ∀ schema schema', Child (.object rules) schema →
                      Child (.object rules') schema' → Reordered Independent schema schema' →
                      WalksConcur (walk engine options height (depth + 1))
                        (walk engine options height' (depth + 1)) schema schema' := by
                    intro schema schema' child child' reordered
                    have lower := child.height_lt
                    have lower' := child'.height_lt
                    exact ih height' (depth + 1) schema schema' (by omega) (by omega)
                      (child.ordered ordered) reordered
                  exact concurs_level below related.others ordered
                    (concurs_allOf ordered related below)
      | null | boolean | number | string | array =>
          exact concurs_raise

/-- A schema fills in members only under the keys of its properties. -/
theorem Fillable.mem
    {schema : Tree} {key : String} {keys : List String}
    (fillable : Fillable schema key)
    (h : Throughout (fun rules => ∀ entry ∈ propertySchemas rules, entry.1 ∈ keys) schema) :
    key ∈ keys := by
  obtain ⟨rules, reached, entry, mem, rfl, _⟩ := fillable
  exact h rules reached entry mem

end Schema

namespace Validator

open Schema

variable {engine : Pattern.Engine}

/-- Putting the branches of an `allOf` in another order does not change whether a document is valid,
if no branch looks at what another one may fill in. -/
theorem check_reordered
    (schema schema' data : Tree)
    (options : ValidatorOptions)
    (report report' : Report)
    (engine : Pattern.Engine)
    (orderedSchema : schema.Ordered)
    (ordered : data.Ordered)
    (reorders : Reorders Independent schema schema')
    (done : check schema options data engine = .ok report)
    (done' : check schema' options data engine = .ok report') :
    report'.valid = report.valid := by
  have concurs := walksConcur_reordered engine options schema.height schema'.height 0 schema schema'
    Nat.le.refl Nat.le.refl orderedSchema (Or.inr reorders)
  exact (concurs Pointer.root Pointer.root Pointer.root data ordered _ _
    (outcome_of_report done).1 (outcome_of_report done').1).1.symm

/-- A schema that fills in a member. -/
def filling : Tree := .object [("properties", withDefault)]

/-- Two branches that fill in different members, of which the second one requires a third. -/
def fillsApart : List Tree :=
  [filling, .object [("properties", .object [("b", .object [("default", .null)])]),
    ("required", .array [.string "c"])]]

/-- Branches for a member. -/
def forMember (branches : List Tree) : Tree :=
  .object [("properties", .object [("x", .object [("allOf", .array branches)])])]

theorem ordered_fillsApart :
    (forMember fillsApart).Ordered := by
  have first : filling.Ordered := .singleton (.singleton (.singleton .null))
  have properties : (Tree.object [("b", .object [("default", .null)])]).Ordered :=
    .singleton (.singleton .null)
  have names : (Tree.array [.string "c"]).Ordered := .array (by simp [Tree.Ordered.string])
  refine .singleton (.singleton (.singleton (.array ?_)))
  simp only [fillsApart, List.forall_mem_cons]
  refine ⟨first, .object (by unfold Members.Sorted; decide) ?_, by simp⟩
  simp only [List.forall_mem_cons]
  exact ⟨properties, names, by simp⟩

theorem throughout_default
    (condition : Rules → Prop)
    (here : condition [("default", .null)]) :
    Throughout condition (.object [("default", .null)]) :=
  throughout_object.mpr ⟨here, nofun⟩

theorem heedless_default
    (keys : String → Prop) :
    Heedless keys (.object [("default", .null)]) :=
  everywhere_object ⟨nofun, rfl, rfl, nofun, nofun, nofun⟩ nofun

theorem independent_fillsApart :
    Independent fillsApart := by
  have first : Throughout (fun rules => ∀ entry ∈ propertySchemas rules, entry.1 ∈ ["a"]) filling :=
    throughout_object.mpr ⟨List.forall_mem_singleton.mpr (by decide),
      List.forall_mem_singleton.mpr (throughout_default _ nofun)⟩
  have second : Throughout (fun rules => ∀ entry ∈ propertySchemas rules, entry.1 ∈ ["b"])
      (.object [("properties", .object [("b", .object [("default", .null)])]),
        ("required", .array [.string "c"])]) :=
    throughout_object.mpr ⟨List.forall_mem_singleton.mpr (by decide),
      List.forall_mem_singleton.mpr (throughout_default _ nofun)⟩
  refine List.pairwise_pair.mpr ⟨fun _ => everywhere_object ⟨nofun, rfl, rfl, nofun, ?_, ?_⟩ ?_,
    fun _ => everywhere_object ⟨nofun, rfl, rfl, nofun, ?_, nofun⟩ ?_⟩
  · refine List.forall_mem_singleton.mpr fun fillable => ?_
    exact absurd (fillable.mem first) (by decide)
  · rintro names name ⟨⟩ mem fillable
    obtain rfl : name = "c" := by simpa using mem
    exact absurd (fillable.mem first) (by decide)
  · exact List.forall_mem_singleton.mpr (heedless_default _)
  · refine List.forall_mem_singleton.mpr fun fillable => ?_
    exact absurd (fillable.mem second) (by decide)
  · exact List.forall_mem_singleton.mpr (heedless_default _)

theorem reorders_fillsApart :
    Reorders Independent (forMember fillsApart) (forMember fillsApart.reverse) := by
  have allOf : Reorders Independent (.object [("allOf", .array fillsApart)])
      (.object [("allOf", .array fillsApart.reverse)]) :=
    .allOf rfl (List.reverse_perm _).symm independent_fillsApart
  have found : Members.get? [("x", Tree.object [("allOf", .array fillsApart)])] "x" =
      some (.object [("allOf", .array fillsApart)]) := rfl
  exact .property rfl found allOf

theorem check_reordered_fillsApart :
    let data := Tree.object [("x", .object [("c", .null)])]
    check (forMember fillsApart) {} data = .ok ⟨true, []⟩ ∧
      ∃ report', check (forMember fillsApart.reverse) {} data = .ok report' ∧
        report'.valid = true := by
  intro data
  have done : check (forMember fillsApart) {} data = .ok ⟨true, []⟩ := rfl
  have done' : check (forMember fillsApart.reverse) {} data = .ok ⟨true, []⟩ := rfl
  have same := check_reordered _ _ data {} _ _ _ ordered_fillsApart (.singleton (.singleton .null))
    reorders_fillsApart done done'
  exact ⟨done, _, done', same⟩

/-- Two branches. -/
def bothOf
    (first second : Tree) : Tree :=
  .object [("allOf", .array [first, second])]

/-- A document is valid with two branches in one order only. -/
def OrderMatters (first second data : Tree) : Prop :=
  Reorders (fun _ => True) (bothOf first second) (bothOf second first) ∧
    ∃ report report', check (bothOf first second) {} data = .ok report ∧
      check (bothOf second first) {} data = .ok report' ∧ report.valid = true ∧
      report'.valid = false

theorem orderMatters_of
    {first second data : Tree} {report report' : Report}
    (done : check (bothOf first second) {} data = .ok report)
    (done' : check (bothOf second first) {} data = .ok report')
    (valid : report.valid = true)
    (invalid : report'.valid = false) :
    OrderMatters first second data :=
  ⟨.allOf rfl (.swap _ _ _) trivial, report, report', done, done', valid, invalid⟩

/-- What a branch fills in matters to another one that requires it, has a schema for it, counts
members, compares objects, or tries out a schema that does so. -/
theorem check_order_matters :
    OrderMatters filling (.object [("required", .array [.string "a"])]) (.object []) ∧
      OrderMatters (.object [("properties", .object [("a", .object [("type", .string "string")])])])
        filling (.object []) ∧
      OrderMatters filling (.object [("minProperties", .number .one)]) (.object []) ∧
      OrderMatters onlyEmpty filling (.object []) ∧
      OrderMatters (.object [("enum", .array [.object []])]) filling (.object []) ∧
      OrderMatters (.object [("uniqueItems", .boolean true)]) (.object [("items", filling)])
        (.array [.object [], .object [("a", .null)]]) ∧
      OrderMatters (.object [("not", .object [("required", .array [.string "a"])])]) filling
        (.object []) :=
  ⟨orderMatters_of rfl rfl rfl rfl, orderMatters_of rfl rfl rfl rfl,
    orderMatters_of rfl rfl rfl rfl, orderMatters_of rfl rfl rfl rfl,
    orderMatters_of rfl rfl rfl rfl, orderMatters_of rfl rfl rfl rfl,
    orderMatters_of rfl rfl rfl rfl⟩

end Validator
end JsonDoc
