import JsonDoc.Proofs.Schema.Leaving
import JsonDoc.Schema.Validator

/-!
# Checking a filled document again

A document that was found valid is found valid again, and nothing more is filled in, if nothing was
filled in the first time or the schema is settled. Defaults that are filled in late can break what
has been checked before, and at the end stands an example for each keyword that settled schemas
must do without there.
-/

namespace JsonDoc
namespace Schema

open Check JsonDoc.Tree

variable {engine : Pattern.Engine}

/-! ## Levels -/

section Levels

variable {walk : Walk} {rules : Rules} {path place : Pointer} {collectAll : Bool}
variable {R : Tree → Tree → Prop} {M : Members Tree → Members Tree → Prop}

/-- Putting in a missing member is a change of the kind. -/
def Puts (M : Members Tree → Members Tree → Prop) : Prop :=
  ∀ (members : Members Tree) (key : String) (value : Tree), OrderedMembers members →
    members.contains key = false → M members (members.insert key value)

theorem puts_extend :
    Puts MembersExtend :=
  fun _ _ value ordered absent => MembersExtend.insert ordered absent value

theorem partsSpread
    (lifts : Lifts R M)
    (puts : HasDefault rules → Puts M)
    (h : ∀ schema ∈ partSchemas rules, WalkLeaves walk R schema) :
    PartsSpread walk rules R (fun _ => R) fun _ => R where
  property entry mem := h entry.2 (part_of_property mem)
  item _ schema isItem := h schema (part_of_item (mem_itemSchemas isItem))
  default entry mem value isDefault members ordered absent := by
    have has : HasDefault rules := ⟨entry, mem, by rw [isDefault]; exact Option.some_ne_none value⟩
    exact lifts.object_iff.mpr (puts has members entry.1 value ordered absent)

theorem leaves_kind
    (lifts : Lifts R M)
    (ordered : (Tree.object rules).Ordered)
    (puts : HasDefault rules → Puts M)
    (h : ∀ schema ∈ partSchemas rules, WalkLeaves walk R schema) :
    Leaves Tree.Ordered R (kindCheck engine collectAll walk rules path place) :=
  leaves_kindCheck lifts.spreads ordered (partsSpread lifts puts h)

theorem repeats_kind_extended
    (ordered : (Tree.object rules).Ordered)
    (lasting : LastingRules rules)
    (leaves : ∀ schema ∈ partSchemas rules, WalkLeaves walk Extends schema)
    (h : ∀ schema ∈ partSchemas rules, WalkRepeats walk Extends schema) :
    Repeats Tree.Ordered Extends (kindCheck engine collectAll walk rules path place) := by
  have spreads := lifts_extends.spreads
  have parts := partsSpread lifts_extends (fun _ => puts_extend) leaves
  have movesEntry := fun entry mem =>
    lifts_extends.moves_members (leaves_entry spreads ordered parts path place entry mem)
  have repeatsEntry : ∀ entry ∈ propertySchemas rules,
      Repeats OrderedMembers MembersExtend (property walk entry.1 entry.2 path place) := by
    intro entry mem
    have default := ordered_default (ordered_entry (ordered_properties ordered) mem)
    exact repeats_property_extended default (lasting.given entry mem)
      (h entry.2 (part_of_property mem))
  refine repeats_kindCheck lifts_extends ?_ ?_
  · refine repeats_objectCheck lifts_extends ⟨?_, ?_⟩ ?_ ?_
    · exact fun _ _ => MembersExtend.length_le
    · exact fun given => absurd lasting.unlimited given
    · exact lifts_extends.moves_members (leaves_properties spreads ordered parts)
    · exact repeats_properties_extended movesEntry repeatsEntry
  · refine repeats_arrayCheck lifts_extends ?_ ?_ ?_
    · exact fun asked => absurd asked lasting.repeating
    · exact (leaves_itemsCheck spreads parts.item).moves.keeps
    · exact repeats_itemsCheck fun schema mem => h schema (part_of_item mem)

theorem repeats_kind_eq
    (ordered : (Tree.object rules).Ordered)
    (leaves : ∀ schema ∈ partSchemas rules, WalkLeaves walk Extends schema)
    (h : ∀ schema ∈ partSchemas rules, WalkRepeats walk Eq schema) :
    Repeats Tree.Ordered Eq (kindCheck engine collectAll walk rules path place) := by
  have spreads := lifts_extends.spreads
  have parts := partsSpread lifts_extends (fun _ => puts_extend) leaves
  refine repeats_kindCheck lifts_eq ?_ ?_
  · refine repeats_objectCheck lifts_eq ⟨?_, ?_⟩ ?_ ?_
    · rintro a _ rfl
      exact Nat.le_refl _
    · rintro _ a _ rfl
      exact Nat.le_refl _
    · exact lifts_extends.moves_members (leaves_properties spreads ordered parts)
    · refine repeats_properties_eq (ordered_properties ordered).sorted ?_ ?_ ?_
      · exact fun entry mem => ordered_default (ordered_entry (ordered_properties ordered) mem)
      · exact fun entry mem =>
          lifts_extends.moves_members (leaves_entry spreads ordered parts path place entry mem)
      · exact fun entry mem => h entry.2 (part_of_property mem)
  · refine repeats_arrayCheck lifts_eq ?_ ?_ ?_
    · rintro _ a b same
      rwa [List.forall₂_eq_eq_eq] at same
    · exact (leaves_itemsCheck spreads parts.item).moves.keeps
    · exact repeats_itemsCheck fun schema mem => h schema (part_of_item mem)

theorem repeats_general_extended
    (plain : Plain rules)
    (leaves : ∀ schema ∈ allOfSchemas rules, WalkLeaves walk Extends schema)
    (h : ∀ schema ∈ allOfSchemas rules, WalkRepeats walk Extends schema) :
    Repeats Tree.Ordered Extends
      (Check.all collectAll (generalChecks collectAll walk rules path place)) := by
  refine repeats_generalChecks lifts_extends (fun a b c _ => lifts_extends.trans a b c)
    (fun _ _ _ => id) ?_ (leaves_allOf lifts_extends.spreads leaves).moves
    (repeats_allOf lifts_extends (fun schema mem => (leaves schema mem).moves) h) ?_
  · rw [enumCheck_of_absent (plain .enumeration (by simp))]
    exact repeats_pass
  · rw [othersCheck, combined_of_absent (plain .anyOf (by simp)),
      combined_of_absent (plain .oneOf (by simp)), combined_of_absent (plain .not (by simp))]
    refine repeats_all lifts_extends.refl lifts_extends.trans ?_ ?_
    · simp [moves_pass lifts_extends.refl]
    · simp [repeats_pass]

theorem repeats_general_eq
    (enumeration : (∀ schema ∈ allOfSchemas rules, WalkLeaves walk Eq schema) ∨
      rules.find? .enumeration = none)
    (order : (allOfSchemas rules).Pairwise fun a b =>
      WalkMoves walk Eq b ∨ WalkRepeats walk Extends a)
    (leaves : ∀ schema ∈ allOfSchemas rules, WalkLeaves walk Extends schema)
    (h : ∀ schema ∈ allOfSchemas rules, WalkRepeats walk Eq schema) :
    Repeats Tree.Ordered Eq
      (Check.all collectAll (generalChecks collectAll walk rules path place)) := by
  have allOf : Repeats Tree.Ordered Eq
      (combined walk rules path place .allOf (passesAll collectAll path)) :=
    repeats_allOf_eq (fun schema mem => (leaves schema mem).moves) h order
  rcases enumeration with still | absent
  · refine repeats_generalChecks lifts_eq (fun _ _ _ _ => Eq.trans) ?_ looks_enumCheck.repeats_eq
      (leaves_allOf lifts_eq.spreads still).moves allOf looks_othersCheck.repeats_eq
    rintro _ b ordered rfl
    exact Extends.refl ordered
  · refine repeats_generalChecks lifts_extends ?_ (fun _ _ _ => id) ?_
      (leaves_allOf lifts_extends.spreads leaves).moves allOf looks_othersCheck.repeats_eq
    · rintro _ _ _ _ extended rfl
      exact extended
    · rw [enumCheck_of_absent absent]
      exact repeats_pass

section Extending

variable (ordered : (Tree.object rules).Ordered)
variable (leaves : ∀ schema, Applied (.object rules) schema → WalkLeaves walk Extends schema)

include ordered leaves

/-- Members may be filled in by the second half of a level, if the first half bears it. -/
theorem repeats_level_of_general_extended
    (general : Repeats Tree.Ordered Extends
      (Check.all collectAll (generalChecks collectAll walk rules path place)))
    (smaller : ∀ a b, b.Ordered → R a b → Extends a b)
    (kind : Repeats Tree.Ordered R (kindCheck engine collectAll walk rules path place)) :
    Repeats Tree.Ordered R (level engine collectAll walk rules path place) := by
  have leavesBranches := fun schema mem => leaves schema (applied_branch mem)
  have leavesParts := fun schema mem => leaves schema (applied_part mem)
  refine repeats_of_sequence (sequence_whenPassed _ _) ?_
    (leaves_generalChecks lifts_extends.spreads leavesBranches).moves.keeps
    (leaves_kind lifts_extends ordered (fun _ => puts_extend) leavesParts).moves general kind
  exact fun a b c orderedLater first later => first.trans (smaller b c orderedLater later)

theorem repeats_level_extended
    (lasting : LastingRules rules)
    (h : ∀ schema, Applied (.object rules) schema → WalkRepeats walk Extends schema) :
    Repeats Tree.Ordered Extends (level engine collectAll walk rules path place) := by
  refine repeats_level_of_general_extended ordered leaves ?_ (fun _ _ _ => id) ?_
  · exact repeats_general_extended lasting.plain
      (fun schema mem => leaves schema (applied_branch mem))
      (fun schema mem => h schema (applied_branch mem))
  · exact repeats_kind_extended ordered lasting (fun schema mem => leaves schema (applied_part mem))
      (fun schema mem => h schema (applied_part mem))

/-- A settled level repeats: what comes before something that may be filled in bears it. -/
theorem repeats_level_eq
    (settled : SettledRules rules)
    (still : ∀ schema, Applied (.object rules) schema → ¬ Fills schema → WalkLeaves walk Eq schema)
    (bears : ∀ schema, Applied (.object rules) schema → Lasting schema →
      WalkRepeats walk Extends schema)
    (h : ∀ schema, Applied (.object rules) schema → WalkRepeats walk Eq schema) :
    Repeats Tree.Ordered Eq (level engine collectAll walk rules path place) := by
  have leavesBranches := fun schema mem => leaves schema (applied_branch mem)
  have kind : Repeats Tree.Ordered Eq (kindCheck engine collectAll walk rules path place) :=
    repeats_kind_eq ordered (fun schema mem => leaves schema (applied_part mem))
      (fun schema mem => h schema (applied_part mem))
  by_cases filling : HasDefault rules ∨ ∃ schema ∈ partSchemas rules, Fills schema
  · obtain ⟨plain, lasting⟩ := settled.parts filling
    refine repeats_level_of_general_extended ordered leaves ?_ ?_ kind
    · refine repeats_general_extended plain leavesBranches fun schema mem => ?_
      exact bears schema (applied_branch mem) (lasting schema mem)
    · rintro _ b orderedLater rfl
      exact Extends.refl orderedLater
  · obtain ⟨noDefault, noPart⟩ := not_or.mp filling
    have stillKind :
        Leaves Tree.Ordered Eq (kindCheck engine collectAll walk rules path place) := by
      refine leaves_kind lifts_eq ordered (fun has => absurd has noDefault) ?_
      intro schema mem
      exact still schema (applied_part mem) fun fills => noPart ⟨schema, mem, fills⟩
    refine repeats_of_sequence (sequence_whenPassed _ _) (fun _ _ _ _ => Eq.trans)
      (leaves_generalChecks lifts_extends.spreads leavesBranches).moves.keeps stillKind.moves
      (repeats_general_eq ?_ ?_ leavesBranches fun schema mem => h schema (applied_branch mem)) kind
    · by_cases fills : ∃ branch ∈ allOfSchemas rules, Fills branch
      · exact Or.inr (settled.enumeration fills)
      · refine Or.inl fun schema mem => still schema (applied_branch mem) fun here => ?_
        exact fills ⟨schema, mem, here⟩
    · refine settled.order.imp_of_mem ?_
      intro a b memA memB order
      by_cases fills : Fills b
      · exact Or.inr (bears a (applied_branch memA) (order fills))
      · exact Or.inl (still b (applied_branch memB) fills).moves

end Extending

end Levels

/-! ## Walks -/

section Walks

variable {options : ValidatorOptions}

/-- Walking only adds members. -/
theorem leaves_walk_extends
    (height depth : Nat)
    {schema : Tree}
    (ordered : schema.Ordered) :
    WalkLeaves (walk engine options height depth) Extends schema := by
  intro path place
  refine walk_induction (fun schema check => schema.Ordered → Leaves Tree.Ordered Extends check)
    (fun _ _ => looks_pass.leaves lifts_extends.refl)
    (fun _ e _ => (looks_raise e).leaves lifts_extends.refl) ?_ height depth schema path place
    ordered
  intro height depth rules path place below ordered
  have spread := fun schema applied path place =>
    below schema applied path place (applied.ordered ordered)
  have parts := partsSpread lifts_extends (fun _ => puts_extend)
    fun schema mem => spread schema (applied_part mem)
  exact leaves_level lifts_extends.spreads ordered parts
    fun schema mem => spread schema (applied_branch mem)

theorem moves_walk_extends
    (height depth : Nat)
    {schema : Tree}
    (ordered : schema.Ordered) :
    WalkMoves (walk engine options height depth) Extends schema :=
  (leaves_walk_extends height depth ordered).moves

/-- Walking with a schema that fills in nothing leaves the data as it is. -/
theorem leaves_walk_eq
    (height depth : Nat)
    {schema : Tree}
    (ordered : schema.Ordered)
    (still : ¬ Fills schema) :
    WalkLeaves (walk engine options height depth) Eq schema := by
  intro path place
  refine walk_induction
    (fun schema check => schema.Ordered → ¬ Fills schema → Leaves Tree.Ordered Eq check)
    (fun _ _ _ => looks_pass.leaves lifts_eq.refl)
    (fun _ e _ _ => (looks_raise e).leaves lifts_eq.refl) ?_ height depth schema path place
    ordered still
  intro height depth rules path place below ordered still
  have noDefault := (not_fills_iff.mp still).here
  have stays := fun schema applied path place => below schema applied path place
    (applied.ordered ordered) fun fills => still (fills.of_applied applied)
  have parts := partsSpread lifts_eq (fun has => absurd has noDefault)
    fun schema mem => stays schema (applied_part mem)
  exact leaves_level lifts_eq.spreads ordered parts
    fun schema mem => stays schema (applied_branch mem)

/-- Walking with a lasting schema repeats whatever is filled in. -/
theorem repeats_walk_extends
    (height depth : Nat)
    {schema : Tree}
    (ordered : schema.Ordered)
    (lasting : Lasting schema) :
    WalkRepeats (walk engine options height depth) Extends schema := by
  intro path place
  refine walk_induction
    (fun schema check => schema.Ordered → Lasting schema → Repeats Tree.Ordered Extends check)
    (fun _ _ _ => repeats_pass) (fun _ _ _ _ => repeats_raise) ?_ height depth schema path place
    ordered lasting
  intro height depth rules path place below ordered lasting
  refine repeats_level_extended ordered ?_ lasting.here ?_
  · exact fun _ applied => leaves_walk_extends height depth (applied.ordered ordered)
  · exact fun schema applied path place =>
      below schema applied path place (applied.ordered ordered) (lasting.below applied)

/-- Walking with a settled schema repeats. -/
theorem repeats_walk_eq
    (height depth : Nat)
    {schema : Tree}
    (ordered : schema.Ordered)
    (settled : Settled schema) :
    WalkRepeats (walk engine options height depth) Eq schema := by
  intro path place
  refine walk_induction
    (fun schema check => schema.Ordered → Settled schema → Repeats Tree.Ordered Eq check)
    (fun _ _ _ => repeats_pass) (fun _ _ _ _ => repeats_raise) ?_ height depth schema path place
    ordered settled
  intro height depth rules path place below ordered settled
  refine repeats_level_eq ordered ?_ settled.here ?_ ?_ ?_
  · exact fun _ applied => leaves_walk_extends height depth (applied.ordered ordered)
  · exact fun _ applied => leaves_walk_eq height depth (applied.ordered ordered)
  · exact fun _ applied => repeats_walk_extends height depth (applied.ordered ordered)
  · exact fun schema applied path place =>
      below schema applied path place (applied.ordered ordered) (settled.below applied)

end Walks

end Schema

namespace Validator

open Check Schema

variable {engine : Pattern.Engine}

section Again

variable {schema data data' : Tree} {options : ValidatorOptions} {report : Report}

/-- A report tells the verdict and the violations. -/
theorem outcome_of_report
    {outcome : Outcome Tree}
    (told : Validator.report outcome = .ok report) :
    outcome.verdict = .ok report.valid ∧ outcome.violations = report.violations := by
  unfold Validator.report at told
  cases verdict : outcome.verdict with
  | error e =>
      rw [verdict] at told
      cases told
  | ok passed =>
      rw [verdict] at told
      cases told
      exact ⟨rfl, rfl⟩

theorem passes_of_valid
    (done : checkAndFill schema options data engine = (.ok report, data'))
    (valid : report.valid = true) :
    (outcome schema options data engine).Passes data' := by
  unfold checkAndFill at done
  simp only [Prod.mk.injEq] at done
  obtain ⟨told, filled⟩ := done
  exact ⟨(outcome_of_report told).1.trans (congrArg _ valid), filled⟩

theorem valid_of_passes
    (passes : (outcome schema options data engine).Passes data') :
    ∃ report, checkAndFill schema options data engine = (.ok report, data') ∧
      report.valid = true := by
  obtain ⟨verdict, filled⟩ := passes
  refine ⟨⟨true, (outcome schema options data engine).violations⟩, ?_, rfl⟩
  simp [checkAndFill, Validator.report, verdict, filled, Except.map]

/-- A document that is found valid is found valid again as it was left, and is left so. -/
def StaysValid
    (schema : Tree)
    (options : ValidatorOptions)
    (data : Tree)
    (engine : Pattern.Engine := Pattern.plain) : Prop :=
  ∀ report data', checkAndFill schema options data engine = (.ok report, data') →
    report.valid = true →
    ∃ report', checkAndFill schema options data' engine = (.ok report', data') ∧
      report'.valid = true

/-- Documents stay valid if nothing is filled in, or if the schema is settled. -/
theorem staysValid_of_settled
    (schema : Tree)
    (options : ValidatorOptions)
    (data : Tree)
    (engine : Pattern.Engine)
    (orderedSchema : schema.Ordered)
    (ordered : data.Ordered)
    (bears : (checkAndFill schema options data engine).2 = data ∨ Settled schema) :
    StaysValid schema options data engine := by
  intro report data' done valid
  rcases bears with same | settled
  · rw [done] at same
    cases same
    exact ⟨report, done, valid⟩
  · have passes := passes_of_valid done valid
    have orderedOut : data'.Ordered :=
      (moves_walk_extends schema.height 0 orderedSchema Pointer.root Pointer.root data data' ordered
        passes).1
    refine valid_of_passes ?_
    exact repeats_walk_eq schema.height 0 orderedSchema settled Pointer.root Pointer.root data data'
      data' ordered passes orderedOut rfl

/-- Properties with one that has a default. -/
def withDefault : Tree := .object [("a", .object [("default", .null)])]

/-- A member is filled in, and required, after a branch of `allOf` has been passed. -/
def requiredDefault : Tree :=
  .object [("allOf", .array [.object [("type", .string "object")]]), ("properties", withDefault),
    ("required", .array [.string "a"])]

theorem ordered_requiredDefault :
    requiredDefault.Ordered := by
  have branch : (Tree.object [("type", .string "object")]).Ordered := .singleton (.string _)
  have properties : withDefault.Ordered := .singleton (.singleton .null)
  refine .object (by unfold Members.Sorted; decide) ?_
  simp only [List.forall_mem_cons]
  refine ⟨.array ?_, properties, .array ?_, by simp⟩
  · exact List.forall_mem_singleton.mpr branch
  · exact List.forall_mem_singleton.mpr (.string _)

theorem settled_requiredDefault :
    Settled requiredDefault := by
  have lasting : Lasting (.object [("type", .string "object")]) :=
    throughout_object.mpr ⟨⟨by decide, rfl, nofun, nofun⟩, nofun⟩
  have still : ¬ Fills (.object [("type", .string "object")]) :=
    not_fills_iff.mpr (throughout_object.mpr ⟨nofun, nofun⟩)
  have still' : ¬ Fills (.object [("default", .null)]) :=
    not_fills_iff.mpr (throughout_object.mpr ⟨nofun, nofun⟩)
  refine throughout_object.mpr ⟨⟨?_, fun _ => rfl, List.pairwise_singleton _ _⟩, ?_⟩
  · exact fun _ => ⟨by decide, List.forall_mem_singleton.mpr lasting⟩
  · exact List.forall_mem_cons.mpr ⟨settled_of_not_fills still,
      List.forall_mem_singleton.mpr (settled_of_not_fills still')⟩

theorem staysValid_requiredDefault :
    checkAndFill requiredDefault {} (.object []) = (.ok ⟨true, []⟩, .object [("a", .null)]) ∧
      StaysValid requiredDefault {} (.object []) := by
  refine ⟨rfl, ?_⟩
  exact staysValid_of_settled requiredDefault {} (.object []) _ ordered_requiredDefault
    (.object .nil (by simp)) (Or.inr settled_requiredDefault)

/-- A document does not stay valid if the second check fails, or changes it once more. -/
theorem not_staysValid
    {report' : Report}
    (data' data'' : Tree)
    (first : checkAndFill schema options data engine = (.ok report, data'))
    (valid : report.valid = true)
    (again : checkAndFill schema options data' engine = (.ok report', data''))
    (broken : report'.valid = false ∨ data'' ≠ data') :
    ¬ StaysValid schema options data engine := by
  intro stays
  obtain ⟨_, same, validAgain⟩ := stays report data' first valid
  cases again.symm.trans same
  rcases broken with invalid | changed
  · cases invalid.symm.trans validAgain
  · exact changed rfl

/-- No object but the empty one. -/
def onlyEmpty : Tree := .object [("maxProperties", .number .zero)]

/-- A default that is filled in late breaks what has been checked before: `enum`, `anyOf`, `oneOf`
and `not` of the same level, and in an earlier branch of `allOf` also the count of members, unique
items and a property without default, be it that this is broken or that it fills in more. -/
theorem not_staysValid_of_late_default :
    ¬ StaysValid (.object [("enum", .array [.object []]), ("properties", withDefault)]) {}
        (.object []) ∧
      ¬ StaysValid (.object [("anyOf", .array [onlyEmpty]), ("properties", withDefault)]) {}
        (.object []) ∧
      ¬ StaysValid (.object [("oneOf", .array [onlyEmpty]), ("properties", withDefault)]) {}
        (.object []) ∧
      ¬ StaysValid (.object [("not", .object [("required", .array [.string "a"])]),
        ("properties", withDefault)]) {} (.object []) ∧
      ¬ StaysValid (.object [("allOf", .array [onlyEmpty, .object [("properties", withDefault)]])])
        {} (.object []) ∧
      ¬ StaysValid (.object [("allOf", .array [.object [("uniqueItems", .boolean true)],
        .object [("items", .object [("properties", withDefault)])]])]) {}
        (.array [.object [], .object [("a", .null)]]) ∧
      ¬ StaysValid (.object [("allOf", .array [
        .object [("properties", .object [("a", .object [("type", .string "string")])])],
        .object [("properties", withDefault)]])]) {} (.object []) ∧
      ¬ StaysValid (.object [("allOf", .array [
        .object [("properties", .object [("a", .object [("properties", withDefault)])])],
        .object [("properties", .object [("a", .object [("default", .object [])])])]])]) {}
        (.object []) := by
  refine ⟨?_, ?_, ?_, ?_, ?_, ?_, ?_, ?_⟩
  · exact not_staysValid _ _ rfl rfl rfl (Or.inl rfl)
  · exact not_staysValid _ _ rfl rfl rfl (Or.inl rfl)
  · exact not_staysValid _ _ rfl rfl rfl (Or.inl rfl)
  · exact not_staysValid _ _ rfl rfl rfl (Or.inl rfl)
  · exact not_staysValid _ _ rfl rfl rfl (Or.inl rfl)
  · exact not_staysValid _ _ rfl rfl rfl (Or.inl rfl)
  · exact not_staysValid _ _ rfl rfl rfl (Or.inl rfl)
  · have further : Tree.object [("a", .object [("a", .null)])] ≠ .object [("a", .object [])] := by
      simp
    exact not_staysValid _ _ rfl rfl rfl (Or.inr further)

end Again

end Validator
end JsonDoc
