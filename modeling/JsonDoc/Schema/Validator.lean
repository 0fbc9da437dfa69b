import JsonDoc.Log
import JsonDoc.Pattern.Search
import JsonDoc.Schema.Walk

/-!
# Validating documents

`Validator.checkAndFill` checks a document by a schema and fills in the defaults of the schema on
the way; `Validator.check` does the same to a copy. A schema is a tree as well, and its height
bounds how deep schemas can be nested. The engine for patterns can be chosen.
-/

namespace JsonDoc

/-- What is told of a document that was checked. -/
structure Report where
  valid : Bool
  violations : List Violation

namespace Report

/-- The violation that was found first. -/
def first? (report : Report) : Option Violation := report.violations.head?

end Report

namespace Validator

/-- The whole outcome of checking a document by a schema. -/
def outcome (schema : Tree) (options : ValidatorOptions) (data : Tree)
    (engine : Pattern.Engine) : Outcome Tree :=
  Schema.walk engine options schema.height 0 schema Pointer.root Pointer.root data

/-- The report of an outcome. -/
def report {α : Type} (outcome : Outcome α) : Except SchemaError Report :=
  outcome.verdict.map fun valid => ⟨valid, outcome.violations⟩

/-- Checks a document and fills in defaults. The document comes back in every case, with what was
filled in before an error. -/
def checkAndFill (schema : Tree) (options : ValidatorOptions) (data : Tree)
    (engine : Pattern.Engine := Pattern.plain) : Except SchemaError Report × Tree :=
  let done := outcome schema options data engine
  (report done, done.data)

/-- Checks a document. -/
def check (schema : Tree) (options : ValidatorOptions) (data : Tree)
    (engine : Pattern.Engine := Pattern.plain) : Except SchemaError Report :=
  (checkAndFill schema options data engine).1

/-- Whether a document conforms to a schema. -/
def isValid (schema : Tree) (options : ValidatorOptions) (data : Tree)
    (engine : Pattern.Engine := Pattern.plain) : Except SchemaError Bool :=
  (check schema options data engine).map (·.valid)

/-- The records of checking a document. -/
def log (schema : Tree) (options : ValidatorOptions) (data : Tree)
    (engine : Pattern.Engine := Pattern.plain) : List LogRecord :=
  ⟨.debug, "validating " ++ data.kindName ++ " document"⟩ ::
    (outcome schema options data engine).filled.map fun place =>
      ⟨.debug, "injecting default value at `" ++ place.text ++ "`"⟩

end Validator
end JsonDoc
