/-!
# Log records

What the library tells of its work while it runs.
-/

namespace JsonDoc

/-- How much a record matters. -/
inductive LogLevel where
  | trace
  | debug
  | warn
deriving DecidableEq, Repr

namespace LogLevel

def name : LogLevel → String
  | trace => "TRACE"
  | debug => "DEBUG"
  | warn => "WARN"

end LogLevel

/-- One record. -/
structure LogRecord where
  level : LogLevel
  message : String
deriving DecidableEq, Repr

namespace LogRecord

/-- The line that shows a record. -/
def line (record : LogRecord) : String := record.level.name ++ " " ++ record.message

end LogRecord
end JsonDoc
