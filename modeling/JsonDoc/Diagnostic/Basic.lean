import JsonDoc.Fault
import JsonDoc.Schema.Error

/-!
# Diagnostics

What a report shows of an error beside its sentence: a code, advice, and labels that point into
the source.
-/

namespace JsonDoc

/-- A remark about some bytes of the source. -/
structure Label where
  text : String
  offset : Nat
  length : Nat
deriving DecidableEq, Repr

/-- What a report shows of an error. -/
structure Diagnostic where
  message : String
  code : String
  help : Option String
  labels : List Label
deriving DecidableEq, Repr

namespace ParseError

/-- What a report shows of a parse error. An overrun points at the end, between bytes. -/
def diagnostic (e : ParseError) : Diagnostic where
  message := e.message
  code := match e with
    | unexpected .. => "parser::syntax"
    | overrun .. => "parser::overrun"
    | tooDeep .. => "parser::depth_exceeded"
  help := match e with
    | unexpected .. => some "The parser found a byte it did not expect in this position."
    | overrun .. =>
      some "The buffer ended in the middle of a token. Retry once more bytes are available."
    | tooDeep .. => some "Raise `ParserOptions::max_depth` if deeply nested input is expected."
  labels := match e with
    | unexpected offset expected => [⟨"Expected " ++ expected.text ++ " here", offset, 1⟩]
    | overrun offset _ => [⟨"Input ended here", offset, 0⟩]
    | tooDeep offset _ => [⟨"Container opened past the depth limit", offset, 1⟩]

end ParseError

namespace BuildError

/-- The label text of a build error. -/
def labelText : BuildError → String
  | unbalancedEnd _ => "Nothing to close here"
  | mismatchedEnd opened _ => "Expected the end of an " ++ opened.name
  | missingKey _ => "Expected a string key before this value"
  | danglingKey .. => "Object ends here"
  | multipleRoots _ => "The document was already complete"
  | unterminated _ => ""
  | empty => ""
  | invalidNumber .. => "Not a decodable number"
  | trailingData _ => "Trailing data starts here"

/-- What a report shows of a build error. -/
def diagnostic (e : BuildError) : Diagnostic where
  message := e.message
  code := match e with
    | unbalancedEnd _ => "builder::unbalanced_end"
    | mismatchedEnd .. => "builder::mismatched_end"
    | missingKey _ => "builder::missing_key"
    | danglingKey .. => "builder::dangling_key"
    | multipleRoots _ => "builder::multiple_roots"
    | unterminated _ => "builder::unterminated"
    | empty => "builder::empty"
    | invalidNumber .. => "builder::invalid_number"
    | trailingData _ => "builder::trailing_data"
  help := match e with
    | trailingData _ => some "A document holds exactly one root value."
    | _ => none
  labels := (e.span?.map fun span => (⟨e.labelText, span.start, span.length⟩ : Label)).toList

end BuildError

namespace SchemaError

/-- What a report shows of a schema error. -/
def diagnostic (e : SchemaError) : Diagnostic where
  message := e.message
  code := match e with
    | unsupported .. => "schema::unsupported"
    | invalid .. => "schema::invalid"
    | tooDeep .. => "schema::depth_exceeded"
  help := match e with
    | unsupported .. =>
      some ("The validator recognises this keyword but cannot evaluate it; the document was " ++
        "neither accepted nor rejected.")
    | invalid .. => none
    | tooDeep .. =>
      some "Raise `ValidatorOptions::max_depth` if deeply nested documents are expected."
  labels := []

end SchemaError

namespace Fault

/-- What a report shows of a fault. -/
def diagnostic : Fault → Diagnostic
  | parse error => error.diagnostic
  | build error => error.diagnostic
  | unreadable name =>
    { message := message (unreadable name)
      code := "json::io"
      help := some "Check that the file exists and is readable."
      labels := [] }

end Fault
end JsonDoc
