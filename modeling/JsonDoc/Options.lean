/-!
# Options

What a caller may choose, with its defaults, and how choices are read from configuration data.
-/

namespace JsonDoc

/-! ## Settings -/

/-- A value in a configuration. -/
inductive Setting where
  | null
  | flag (on : Bool)
  /-- A natural number. -/
  | count (n : Nat)
  | text (word : String)
  /-- Anything else. -/
  | other
deriving DecidableEq, Repr

/-- Values by name, or by position. -/
inductive Settings where
  | named (fields : List (String × Setting))
  | listed (values : List Setting)
deriving DecidableEq, Repr

namespace Settings

/-- The value of the field that has a name and a position. -/
def value? : Settings → Nat → String → Option Setting
  | named fields, _, name => (fields.find? fun field => field.1 == name).map (·.2)
  | listed values, position, _ => values[position]?

/-- Whether there are no more values than fields; unknown names do no harm. -/
def fits : Settings → Nat → Bool
  | named _, _ => true
  | listed values, fields => decide (values.length ≤ fields)

end Settings

namespace Setting

/-- A natural number of 64 bits. -/
def asCount? : Setting → Option Nat
  | count n => if n < 0x10000000000000000 then some n else none
  | _ => none

/-- A natural number of 64 bits, or none. -/
def asLimit? : Setting → Option (Option Nat)
  | null => some none
  | setting => setting.asCount?.map some

def asFlag? : Setting → Option Bool
  | flag on => some on
  | _ => none

/-- What a setting says, or a default without the setting. -/
def orDefault {α : Type} (setting : Option Setting) (read : Setting → Option α) (value : α) :
    Option α :=
  match setting with
  | none => some value
  | some setting => read setting

end Setting

/-! ## Options -/

/-- The greatest nesting that is read, and the greatest nesting of schemas that is applied, unless
a caller asks for another. -/
def defaultMaxDepth : Nat := 512

/-- Options of the reader. -/
structure ParserOptions where
  /-- The greatest number of containers that may be open at once, if there is a limit. -/
  maxDepth : Option Nat := some defaultMaxDepth
deriving DecidableEq, Repr

/-- Options of the validator. -/
structure ValidatorOptions where
  /-- The greatest nesting of schemas that is applied, if there is a limit. -/
  maxDepth : Option Nat := some defaultMaxDepth
  /-- Whether checking goes on after the first violation. -/
  collectAll : Bool := true
deriving DecidableEq, Repr

/-- Options of the canonical writer. -/
structure WriterOptions where
  /-- The number of spaces for each level; zero puts everything on one line. -/
  indent : Nat := 2
deriving DecidableEq, Repr

/-- The setting of a limit. -/
def Setting.ofLimit : Option Nat → Setting
  | none => .null
  | some limit => .count limit

namespace ParserOptions

/-- Reads the options from settings. -/
def ofSettings? (settings : Settings) : Option ParserOptions :=
  if settings.fits 1 then
    (Setting.orDefault (settings.value? 0 "max_depth") Setting.asLimit?
      (some defaultMaxDepth)).map fun maxDepth => ⟨maxDepth⟩
  else none

/-- The options as settings. -/
def toSettings (options : ParserOptions) : List (String × Setting) :=
  [("max_depth", .ofLimit options.maxDepth)]

end ParserOptions

namespace ValidatorOptions

/-- Reads the options from settings. -/
def ofSettings? (settings : Settings) : Option ValidatorOptions :=
  if settings.fits 2 then
    (Setting.orDefault (settings.value? 0 "max_depth") Setting.asLimit?
      (some defaultMaxDepth)).bind fun maxDepth =>
    (Setting.orDefault (settings.value? 1 "collect_all") Setting.asFlag? true).map fun collectAll =>
      ⟨maxDepth, collectAll⟩
  else none

/-- The options as settings. -/
def toSettings (options : ValidatorOptions) : List (String × Setting) :=
  [("max_depth", .ofLimit options.maxDepth), ("collect_all", .flag options.collectAll)]

end ValidatorOptions

namespace WriterOptions

/-- Everything on one line, without blanks. -/
def compact : WriterOptions := ⟨0⟩

/-- Reads the options from settings. -/
def ofSettings? (settings : Settings) : Option WriterOptions :=
  if settings.fits 1 then
    (Setting.orDefault (settings.value? 0 "indent") Setting.asCount? 2).map fun indent => ⟨indent⟩
  else none

/-- The options as settings. -/
def toSettings (options : WriterOptions) : List (String × Setting) :=
  [("indent", .count options.indent)]

end WriterOptions
end JsonDoc
