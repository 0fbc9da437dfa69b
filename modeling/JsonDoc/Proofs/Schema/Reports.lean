import JsonDoc.Proofs.Schema.BreakingOff
import JsonDoc.Proofs.Schema.Refilling

/-!
# Reports and violations

A document is reported valid exactly if no violation is listed: `report_candid`. Every check that
fails lists a violation, and no check lists one otherwise, `Outcome.Candid`.

The branches of `anyOf`, `oneOf` and `not` are only probed. To say that nothing of what a probe
finds is told, the run is compared with others in which the probed branches are not the same:
`walkBy` takes what they are altered by. They may tell of any violations instead, and the whole
outcome stays the same. The run may break off where a branch would be probed, and then all that it
has found so far is at the front of what the whole run reports.
-/

namespace JsonDoc

namespace Outcome

variable {α β : Type}

/-- A verdict and the violations tell the same. -/
def Candid (outcome : Outcome α) : Prop :=
  ∀ passed, outcome.verdict = .ok passed → (passed = true ↔ outcome.violations = [])

variable {outcome : Outcome α}

theorem Candid.noted
    (h : outcome.Candid)
    (path : Pointer) :
    (outcome.noted path).Candid := by
  intro passed verdict
  rw [noted_verdict] at verdict
  cases passed with
  | true =>
      simpa only [Outcome.noted, verdict] using h true verdict
  | false =>
      simp [Outcome.noted, verdict]

theorem Candid.andThen
    {goes : Bool} {keep : α → β} {next : α → Outcome β}
    (h : outcome.Candid)
    (k : ∀ data, (next data).Candid) :
    (outcome.andThen goes keep next).Candid := by
  intro passed verdict
  unfold Outcome.andThen at verdict ⊢
  split
  · rw [if_pos ‹_›] at verdict
    obtain ⟨a, b, first, second, rfl⟩ := Check.verdict_join verdict
    rw [Bool.and_eq_true, h a first, k _ b second]
    exact List.append_eq_nil_iff.symm
  · rw [if_neg ‹_›] at verdict
    exact h passed verdict

end Outcome

namespace Schema

open Check Outcome

variable {engine : Pattern.Engine}

/-! ## Runs with altered probes -/

/-- The check of one schema, with a walk of its own for the branches that are probed. -/
def applyOnceBy
    (engine : Pattern.Engine)
    (options : ValidatorOptions)
    (depth : Nat)
    (walk probed : Walk) : Walk :=
  fun schema path place =>
    match schema with
    | .object rules =>
      match options.maxDepth.filter (· ≤ depth) with
      | some limit => Check.raise (.tooDeep limit path)
      | none => levelBy engine options.collectAll walk probed rules path place
    | other => Check.raise (.invalid .schema place (.notAnObject other.kindName))

/-- The walk, but that branches are probed by what `alter` makes of it. -/
def walkBy
    (engine : Pattern.Engine)
    (options : ValidatorOptions)
    (alter : Walk → Walk) : Nat → Nat → Walk
  | 0, _ => fun _ _ _ => Check.pass
  | height + 1, depth =>
    let below := walkBy engine options alter height (depth + 1)
    applyOnceBy engine options depth below (alter below)

/-- A walk that reports what it is given instead of what it finds. -/
def reporting
    (heard : Tree → Pointer → Pointer → Tree → List Violation)
    (walk : Walk) : Walk :=
  fun schema path place node =>
    { walk schema path place node with violations := heard schema path place node }

/-- A walk that raises an error at the nodes and schemas where it is given one. -/
def stopping
    (stop : Pointer → Pointer → Option SchemaError)
    (walk : Walk) : Walk :=
  fun schema path place =>
    match stop path place with
    | some e => Check.raise e
    | none => walk schema path place

/-- Where nothing is altered, the walk is the one that is run. -/
theorem walkBy_id
    (options : ValidatorOptions)
    (height : Nat) :
    ∀ depth, walkBy engine options id height depth = walk engine options height depth := by
  induction height with
  | zero =>
      exact fun _ => rfl
  | succ height ih =>
      intro depth
      rw [walkBy, walk, ih]
      rfl

section Altered

variable {options : ValidatorOptions} {alter alter' : Walk → Walk}
variable {R : ∀ {α : Type}, Outcome α → Outcome α → Prop}
variable {Q : Outcome Tree → Outcome Tree → Prop}

/-- Walks with different alterations come to related outcomes, if altering makes probed branches of
related walks related. -/
theorem related_walkBy
    (respects : Respects options.collectAll options.collectAll (fun _ => True) R Q)
    (alters : ∀ walk walk' : Walk,
      (∀ schema path place, Related R (walk schema path place) (walk' schema path place)) →
      ∀ schema path place, Related Q (alter walk schema path place)
        (alter' walk' schema path place))
    (height : Nat) :
    ∀ depth schema path place, Related R
      (walkBy engine options alter height depth schema path place)
      (walkBy engine options alter' height depth schema path place) := by
  induction height with
  | zero =>
      exact fun _ _ _ _ => respects.related_pass
  | succ height ih =>
      intro depth schema path place
      rw [walkBy, walkBy]
      unfold applyOnceBy
      cases schema with
      | object rules =>
          simp only
          cases options.maxDepth.filter (· ≤ depth) with
          | some limit =>
              exact respects.related_raise trivial
          | none =>
              exact respects.level (fun _ _ => trivial)
                (fun schema path place _ => ih (depth + 1) schema path place)
                fun schema path place _ => alters _ _ (ih (depth + 1)) schema path place
      | null | boolean | number | string | array =>
          exact respects.related_raise trivial

end Altered

/-! ## Relations -/

/-- Verdict and violations tell the same throughout, whatever the probed branches do. -/
theorem respects_candid
    (collectAll : Bool) :
    Respects collectAll collectAll (fun _ => True) (fun outcome _ => outcome.Candid)
      fun _ _ => True where
  pass _ := by
    rintro _ ⟨⟩
    simp [Check.pass]
  violate _ _ _ := by
    rintro _ ⟨⟩
    simp [Check.violate]
  raise _ _ _ := by
    rintro _ ⟨⟩
  map _ h := h
  after _ h := h
  noted path h := h.noted path
  andThen _ _ h k := h.andThen k
  decides {branch} _ _ _ node _ k := by
    unfold decides
    cases branch.verdict with
    | error e =>
        rintro _ ⟨⟩
    | ok passed =>
        exact k passed

/-- Probed branches only count by their verdicts and what they log. -/
theorem respects_eq
    (collectAll : Bool) :
    Respects collectAll collectAll (fun _ => True) (fun outcome outcome' => outcome = outcome')
      fun branch branch' => branch.verdict = branch'.verdict ∧ branch.filled = branch'.filled where
  pass _ := rfl
  violate _ _ _ := rfl
  raise _ _ _ := rfl
  map f h := congrArg (Outcome.map f) h
  after filled h := congrArg (Outcome.after filled) h
  noted path h := congrArg (Outcome.noted path) h
  andThen keep flags h k := by
    rcases flags with ⟨rfl, rfl⟩ | ⟨rfl, rfl⟩ <;> rw [h, funext k]
  decides node h k := by
    unfold decides
    rw [h.1, h.2, funext k]

end Schema

namespace Validator

open Schema Outcome

variable {engine : Pattern.Engine}

/-- The outcome of a run in which probed branches are altered. -/
def outcomeBy
    (alter : Walk → Walk)
    (schema : Tree)
    (options : ValidatorOptions)
    (data : Tree)
    (engine : Pattern.Engine) : Outcome Tree :=
  walkBy engine options alter schema.height 0 schema Pointer.root Pointer.root data

theorem outcomeBy_id
    (schema : Tree)
    (options : ValidatorOptions)
    (data : Tree)
    (engine : Pattern.Engine) :
    outcomeBy id schema options data engine = outcome schema options data engine := by
  rw [outcomeBy, walkBy_id, outcome]

variable (schema : Tree) (options : ValidatorOptions) (data : Tree) (engine : Pattern.Engine)

theorem outcome_candid :
    (outcome schema options data engine).Candid := by
  have related : Related _ (walkBy engine options id schema.height 0 schema .root .root)
      (walkBy engine options id schema.height 0 schema .root .root) :=
    related_walkBy (respects_candid options.collectAll) (fun _ _ _ _ _ _ _ => trivial)
      schema.height 0 schema .root .root
  rw [← outcomeBy_id]
  exact related data

/-- What probed branches report shows nowhere. -/
theorem outcomeBy_reporting
    (heard : Tree → Pointer → Pointer → Tree → List Violation) :
    outcomeBy (reporting heard) schema options data engine =
      outcome schema options data engine := by
  rw [← outcomeBy_id]
  refine related_walkBy (respects_eq options.collectAll) ?_ schema.height 0 schema .root .root data
  intro walk walk' same schema path place node
  rw [id, ← same schema path place node]
  exact ⟨rfl, rfl⟩

/-- A run that breaks off at a probed branch has found what the whole run finds first. -/
theorem outcomeBy_stopping
    (stop : Pointer → Pointer → Option SchemaError) :
    BreaksOff (fun _ => True) (outcomeBy (stopping stop) schema options data engine)
      (outcome schema options data engine) := by
  rw [← outcomeBy_id]
  refine related_walkBy (respects_breaksOff options.collectAll _) ?_
    schema.height 0 schema .root .root data
  intro walk walk' alike schema path place node
  unfold stopping
  cases stop path place with
  | some e =>
      exact Or.inr ⟨e, rfl, trivial, List.nil_prefix⟩
  | none =>
      exact alike schema path place node

/-- A report is valid exactly if it lists no violation. The outcome is the same whatever the
branches of `anyOf`, `oneOf` and `not` report, and if the run breaks off where a branch is to be
probed, then what it has found so far is where the report begins. -/
theorem report_candid
    {report : Report}
    (done : check schema options data engine = .ok report ∨
      ∃ filled, checkAndFill schema options data engine = (.ok report, filled)) :
    (report.valid = true ↔ report.violations = []) ∧
      (∀ heard, outcomeBy (reporting heard) schema options data engine =
        outcome schema options data engine) ∧
      ∀ stop, (outcomeBy (stopping stop) schema options data engine).violations <+:
        report.violations := by
  have told : Validator.report (outcome schema options data engine) = .ok report := by
    rcases done with done | ⟨filled, done⟩
    · exact done
    · exact congrArg Prod.fst done
  obtain ⟨verdict, violations⟩ := outcome_of_report told
  rw [← violations]
  exact ⟨outcome_candid schema options data engine report.valid verdict,
    outcomeBy_reporting schema options data engine,
    fun stop => (outcomeBy_stopping schema options data engine stop).violations⟩

/-- A member of a wrong type that passes neither of two branches, which both report more. -/
def probedMember : Tree :=
  .object [("properties", .object [("a", .object
    [("anyOf", .array [.object [("type", .string "number")], .object [("type", .string "array")]]),
     ("type", .string "string")])])]

/-- What the branches report is not told. A run that breaks off at the second one has found the
wrong type and has not decided on the branches yet. -/
theorem report_candid_probedMember :
    ∃ report, check probedMember ⟨none, true⟩ (.object [("a", .null)]) = .ok report ∧
      report.violations = [⟨⟨["a"]⟩, .wrongType ["string"] "null"⟩, ⟨⟨["a"]⟩, .notAny⟩] ∧
      (report.valid = true ↔ report.violations = []) ∧
      (∀ heard, outcomeBy (reporting heard) probedMember ⟨none, true⟩ (.object [("a", .null)])
          Pattern.plain =
        outcome probedMember ⟨none, true⟩ (.object [("a", .null)]) Pattern.plain) ∧
      (outcomeBy (stopping fun _ place => if place = ⟨["properties", "a", "anyOf", "1"]⟩ then
          some (.tooDeep 0 place) else none) probedMember ⟨none, true⟩
        (.object [("a", .null)]) Pattern.plain).violations =
          [⟨⟨["a"]⟩, .wrongType ["string"] "null"⟩] ∧
      ∀ stop, (outcomeBy (stopping stop) probedMember ⟨none, true⟩
        (.object [("a", .null)]) Pattern.plain).violations <+: report.violations := by
  obtain ⟨candid, unheard, kept⟩ :=
    report_candid probedMember ⟨none, true⟩ (.object [("a", .null)]) Pattern.plain (Or.inl rfl)
  exact ⟨_, rfl, rfl, candid, unheard, rfl, kept⟩

end Validator
end JsonDoc
