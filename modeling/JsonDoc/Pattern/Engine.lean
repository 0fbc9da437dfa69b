/-!
# Engines for patterns

Schemas ask strings to match patterns, and what a pattern matches is left to an engine: the
validator only hands texts to it. Whatever is said of the validator holds for all engines.
-/

namespace JsonDoc
namespace Pattern

/-- An engine for patterns. -/
structure Engine where
  /-- What becomes of the text of a pattern: the test whether it occurs in a text, or nothing if it
  is malformed. -/
  compile : String → Option (String → Bool)

end Pattern
end JsonDoc
