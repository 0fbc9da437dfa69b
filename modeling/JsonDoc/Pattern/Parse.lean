import JsonDoc.Pattern.Basic
import JsonDoc.Text.Hex

/-!
# The text of patterns

`Pattern.parse?` reads a pattern: literals, `.`, bracketed classes with ranges and set operations,
`\d \w \s \b` and their complements, anchors, groups, `|`, repetitions, and the flags `i`, `m` and
`s`. There are no look-around assertions and no back-references. Whether a repetition is greedy
does not matter for a search, so both kinds are read alike.

Each step of a reader takes at least one character, so the length of the text bounds the steps.
-/

namespace JsonDoc
namespace Pattern

/-- The settings that a pattern can change for what follows. -/
structure Flags where
  ignoreCase : Bool
  /-- Whether `^` and `$` also match at line feeds. -/
  multiLine : Bool
  /-- Whether `.` matches a line feed. -/
  dotAll : Bool
deriving DecidableEq, Repr

namespace Flags

/-- The setting of a flag's letter; greediness can be swapped without any effect. -/
def set? (flags : Flags) (letter : Char) (on : Bool) : Option Flags :=
  match letter with
  | 'i' => some { flags with ignoreCase := on }
  | 'm' => some { flags with multiLine := on }
  | 's' => some { flags with dotAll := on }
  | 'U' => some flags
  | 'u' => if on then some flags else none
  | _ => none

/-- Reads flags up to the `:` or `)` that ends them. No letter comes twice, and a minus sign, which
turns off the flags after it, comes once and before a letter. -/
def read? (flags : Flags) (negated dangling : Bool) (seen : List Char) :
    List Char → Option (Flags × Char × List Char)
  | [] => none
  | c :: rest =>
    if c = ':' ∨ c = ')' then
      if dangling then none else some (flags, c, rest)
    else if c = '-' then
      if negated then none else read? flags true true seen rest
    else if seen.contains c then none
    else
      match flags.set? c (!negated) with
      | none => none
      | some flags => read? flags negated false (c :: seen) rest

end Flags

/-- The character of some hexadecimal digits; there must be one digit at least. -/
def charOfHex? (digits : List Char) : Option Char :=
  if digits.isEmpty then none
  else
    (digits.foldlM (fun n c => (Hex.digit? c).map (n * 16 + ·)) 0).bind fun code =>
      if h : code.isValidChar then some (Char.ofNatAux code h) else none

/-- The character of a hexadecimal escape after its letter: digits in braces, or exactly `count`
digits. -/
def hexEscape? (count : Nat) : List Char → Option (Char × List Char)
  | [] => none
  | c :: rest =>
    if c = '\x7b' then
      match rest.dropWhile (· != '\x7d') with
      | [] => none
      | _ :: after =>
        (charOfHex? (rest.takeWhile (· != '\x7d'))).map fun found => (found, after)
    else if (c :: rest).length < count then none
    else (charOfHex? ((c :: rest).take count)).map fun found => (found, (c :: rest).drop count)

/-- What a backslash escape stands for. -/
inductive Escaped where
  | character (c : Char)
  | characters (of : CharacterClass)
  | place (assertion : Assertion)

/-- The kinds of word boundary that are named in braces. -/
def boundaryNames : List (String × Assertion) :=
  [("\x7bstart\x7d", .wordStart), ("\x7bend\x7d", .wordEnd),
    ("\x7bstart-half\x7d", .wordStartHalf), ("\x7bend-half\x7d", .wordEndHalf)]

/-- The assertion after `\b`. A brace before a letter must open one of the known names. -/
def boundary? (chars : List Char) : Option (Escaped × List Char) :=
  match boundaryNames.find? fun entry => entry.1.toList.isPrefixOf chars with
  | some (name, assertion) => some (.place assertion, chars.drop name.length)
  | none =>
    match chars with
    | '\x7b' :: c :: _ =>
      if c.isAlpha || c == '-' then none else some (.place .wordBoundary, chars)
    | _ => some (.place .wordBoundary, chars)

/-- Reads an escape after its backslash. ASCII characters other than letters and digits stand for
themselves. -/
def escape? : List Char → Option (Escaped × List Char)
  | [] => none
  | c :: rest =>
    match c with
    | 'd' => some (.characters .digit, rest)
    | 'D' => some (.characters (.complement .digit), rest)
    | 'w' => some (.characters .word, rest)
    | 'W' => some (.characters (.complement .word), rest)
    | 's' => some (.characters .blank, rest)
    | 'S' => some (.characters (.complement .blank), rest)
    | 'b' => boundary? rest
    | 'B' => some (.place .noWordBoundary, rest)
    | 'A' => some (.place .textStart, rest)
    | 'z' => some (.place .textEnd, rest)
    | '<' => some (.place .wordStart, rest)
    | '>' => some (.place .wordEnd, rest)
    | 'a' => some (.character '\x07', rest)
    | 'f' => some (.character '\x0c', rest)
    | 't' => some (.character '\t', rest)
    | 'n' => some (.character '\n', rest)
    | 'r' => some (.character '\r', rest)
    | 'v' => some (.character '\x0b', rest)
    | 'x' => (hexEscape? 2 rest).map fun (found, after) => (.character found, after)
    | 'u' => (hexEscape? 4 rest).map fun (found, after) => (.character found, after)
    | 'U' => (hexEscape? 8 rest).map fun (found, after) => (.character found, after)
    | c =>
      if decide (c.toNat < 0x80) && !c.isAlphanum then some (.character c, rest) else none

/-! ## Classes -/

/-- The classes named inside `[:` and `:]`. -/
def namedClasses : List (String × CharacterClass) :=
  let number := CharacterClass.range 0x30 0x39
  let upper := CharacterClass.range 0x41 0x5A
  let lower := CharacterClass.range 0x61 0x7A
  let letter := upper.union lower
  [("alnum", number.union letter), ("alpha", letter), ("ascii", .range 0x00 0x7F),
    ("blank", (CharacterClass.single '\t').union (.single ' ')),
    ("cntrl", (CharacterClass.range 0x00 0x1F).union (.range 0x7F 0x7F)), ("digit", number),
    ("graph", .range 0x21 0x7E), ("lower", lower), ("print", .range 0x20 0x7E),
    ("punct", ((CharacterClass.range 0x21 0x2F).union (.range 0x3A 0x40)).union
      ((CharacterClass.range 0x5B 0x60).union (.range 0x7B 0x7E))),
    ("space", (CharacterClass.range 0x09 0x0D).union (.single ' ')), ("upper", upper),
    ("word", (number.union letter).union (.single '_')),
    ("xdigit", (number.union (.range 0x41 0x46)).union (.range 0x61 0x66))]

/-- A named class after its opening bracket, if one comes next. -/
def namedClass? (chars : List Char) : Option (CharacterClass × List Char) :=
  match chars with
  | ':' :: rest =>
    let (negated, rest) := match rest with
      | '^' :: rest => (true, rest)
      | rest => (false, rest)
    let name := String.ofList (rest.takeWhile (· != ':'))
    match rest.dropWhile (· != ':') with
    | ':' :: ']' :: after =>
      (namedClasses.find? fun entry => entry.1 == name).map fun entry =>
        (if negated then .complement entry.2 else entry.2, after)
    | _ => none
  | _ => none

/-- One end of a range, or a class that stands for itself. -/
def classItem? : List Char → Option ((Char ⊕ CharacterClass) × List Char)
  | [] => none
  | '\\' :: rest =>
    match escape? rest with
    | some (.character c, after) => some (.inl c, after)
    | some (.characters of, after) => some (.inr of, after)
    | _ => none
  | c :: rest => some (.inl c, rest)

/-- A character, a range of characters or an escaped class. A minus sign makes a range unless a
closing bracket or another minus sign follows it. -/
def classRange? (chars : List Char) : Option (CharacterClass × List Char) :=
  match classItem? chars with
  | none => none
  | some (first, rest) =>
    let alone := match first with
      | .inl c => CharacterClass.single c
      | .inr of => of
    match rest with
    | '-' :: next :: _ =>
      if next = ']' ∨ next = '-' then some (alone, rest)
      else
        match first, classItem? (rest.drop 1) with
        | .inl low, some (.inl high, after) =>
          if low.toNat ≤ high.toNat then some (.range low.toNat high.toNat, after) else none
        | _, _ => none
    | _ => some (alone, rest)

/-- What joins two parts of a class. -/
inductive ClassOperation where
  | intersection
  | difference
  | symmetricDifference

/-- The class so far, joined with what stands before the last operation. -/
def joinClass : Option (CharacterClass × ClassOperation) → CharacterClass → CharacterClass
  | none, right => right
  | some (left, .intersection), right => .intersection left right
  | some (left, .difference), right => .difference left right
  | some (left, .symmetricDifference), right => .symmetricDifference left right

/-- The start of a class after its bracket: whether it is negated, the minus signs or the closing
bracket that stand for themselves, and what follows. -/
def classOpening (chars : List Char) : Bool × CharacterClass × List Char :=
  let (negated, rest) := match chars with
    | '^' :: rest => (true, rest)
    | rest => (false, rest)
  match rest with
  | '-' :: _ => (negated, .single '-', rest.dropWhile (· == '-'))
  | ']' :: rest => (negated, .single ']', rest)
  | rest => (negated, .none, rest)

/-- The rest of a class up to its closing bracket. -/
def classBody? : Nat → Option (CharacterClass × ClassOperation) → CharacterClass → List Char →
    Option (CharacterClass × List Char)
  | 0, _, _, _ => none
  | bound + 1, left, current, chars =>
    match chars with
    | [] => none
    | ']' :: rest => some (joinClass left current, rest)
    | '&' :: '&' :: rest =>
      classBody? bound (some (joinClass left current, .intersection)) .none rest
    | '-' :: '-' :: rest =>
      classBody? bound (some (joinClass left current, .difference)) .none rest
    | '~' :: '~' :: rest =>
      classBody? bound (some (joinClass left current, .symmetricDifference)) .none rest
    | '[' :: rest =>
      match namedClass? rest with
      | some (of, after) => classBody? bound left (current.union of) after
      | none =>
        let (negated, opened, inner) := classOpening rest
        match classBody? bound none opened inner with
        | none => none
        | some (of, after) =>
          classBody? bound left (current.union (if negated then .complement of else of)) after
    | chars =>
      match classRange? chars with
      | none => none
      | some (of, after) => classBody? bound left (current.union of) after

/-- A class after its opening bracket. -/
def class? (chars : List Char) : Option (CharacterClass × List Char) :=
  let (negated, opened, inner) := classOpening chars
  (classBody? (chars.length + 1) none opened inner).map fun (of, after) =>
    (if negated then .complement of else of, after)

/-! ## Repetitions -/

/-- A count: decimal digits with blanks around them, below `2 ^ 32`. -/
def count? (chars : List Char) : Option (Nat × List Char) :=
  let start := chars.dropWhile Blank.isBlank
  let digits := start.takeWhile Char.isDigit
  let value := Nat.ofDigitChars 10 digits 0
  if digits.isEmpty || decide (0x100000000 ≤ value) then none
  else some (value, (start.dropWhile Char.isDigit).dropWhile Blank.isBlank)

/-- Bounds after an opening brace: one count, or two around a comma, of which the second may be
missing. -/
def bounds? (chars : List Char) : Option (Nat × Option Nat × List Char) :=
  match count? chars with
  | none => none
  | some (least, '\x7d' :: rest) => some (least, some least, rest)
  | some (least, ',' :: '\x7d' :: rest) => some (least, none, rest)
  | some (least, ',' :: rest) =>
    match count? rest with
    | some (most, '\x7d' :: rest) => if least ≤ most then some (least, some most, rest) else none
    | _ => none
  | some _ => none

/-- The bounds of a repetition, if one comes next; the outer option says whether one is there, the
inner one whether it is well formed. -/
def repetition? : List Char → Option (Option (Nat × Option Nat × List Char))
  | '*' :: rest => some (some (0, none, rest))
  | '+' :: rest => some (some (1, none, rest))
  | '?' :: rest => some (some (0, some 1, rest))
  | '\x7b' :: rest => some (bounds? rest)
  | _ => none

/-! ## Groups -/

/-- What an opening parenthesis starts. -/
inductive Opening where
  /-- A group with its name and the flags inside it. -/
  | group (name : Option String) (flags : Flags)
  /-- New flags for the rest of the group around. -/
  | setting (flags : Flags)

/-- Whether a character may stand in a group name. -/
def isNameCharacter (first : Bool) (c : Char) : Bool :=
  c == '_' || c.isAlpha ||
    (decide (0x80 ≤ c.toNat) && WordCharacter.isWord c) ||
    (!first && (c.isDigit || c == '.' || c == '[' || c == ']'))

/-- A group name up to its closing angle bracket. -/
def groupName? (chars : List Char) : Option (String × List Char) :=
  let name := chars.takeWhile (· != '>')
  match name, chars.dropWhile (· != '>') with
  | c :: more, _ :: rest =>
    if isNameCharacter true c && more.all (isNameCharacter false) then
      some (String.ofList name, rest)
    else none
  | _, _ => none

/-- What follows an opening parenthesis. -/
def opening? (flags : Flags) : List Char → Option (Opening × List Char)
  | '?' :: 'P' :: '<' :: rest =>
    (groupName? rest).map fun (name, after) => (.group (some name) flags, after)
  | '?' :: '<' :: rest =>
    (groupName? rest).map fun (name, after) => (.group (some name) flags, after)
  | '?' :: ')' :: _ => none
  | '?' :: rest =>
    match flags.read? false false [] rest with
    | none => none
    | some (inner, ':', after) => some (.group none inner, after)
    | some (inner, _, after) =>
      if (repetition? after).isSome then none else some (.setting inner, after)
  | rest => some (.group none flags, rest)

/-! ## Expressions -/

/-- The sequence of some items, the last one first. -/
def ofItems (reversed : List Pattern) : Pattern :=
  match reversed with
  | [] => .empty
  | last :: before => before.foldl (fun tail item => .sequence item tail) last

/-- The choice between some branches, the last one first. -/
def ofBranches (last : Pattern) (before : List Pattern) : Pattern :=
  before.foldl (fun rest branch => .choice branch rest) last

/-- What an escape stands for outside a class. -/
def ofEscaped (flags : Flags) : Escaped → Pattern
  | .character c => .one flags.ignoreCase (.single c)
  | .characters of => .one flags.ignoreCase of
  | .place assertion => .assert assertion

/-- What a character that is no operator stands for. -/
def ofCharacter (flags : Flags) : Char → Pattern
  | '.' =>
    .one flags.ignoreCase
      (if flags.dotAll then .complement .none else .complement (.single '\n'))
  | '^' => .assert (if flags.multiLine then .lineStart else .textStart)
  | '$' => .assert (if flags.multiLine then .lineEnd else .textEnd)
  | c => .one flags.ignoreCase (.single c)

/-- Reads branches up to a closing parenthesis or the end: `branches` are the branches before this
one and `items` what this one has so far, both with the last one first. -/
def expression? : Nat → Flags → List Pattern → List Pattern → List Char →
    Option (Pattern × List Char)
  | 0, _, _, _, _ => none
  | bound + 1, flags, branches, items, chars =>
    match repetition? chars with
    | some none => none
    | some (some (least, most, rest)) =>
      match items with
      | [] => none
      | item :: before =>
        let rest := match rest with
          | '?' :: rest => rest
          | rest => rest
        expression? bound flags branches (.times item least most :: before) rest
    | none =>
      match chars with
      | [] => some (ofBranches (ofItems items) branches, [])
      | ')' :: _ => some (ofBranches (ofItems items) branches, chars)
      | '|' :: rest => expression? bound flags (ofItems items :: branches) [] rest
      | '(' :: rest =>
        match opening? flags rest with
        | none => none
        | some (.setting flags, after) => expression? bound flags branches items after
        | some (.group name inner, after) =>
          match expression? bound inner [] [] after with
          | some (body, ')' :: after) =>
            expression? bound flags branches (.group name body :: items) after
          | _ => none
      | '[' :: rest =>
        match class? rest with
        | none => none
        | some (of, after) =>
          expression? bound flags branches (.one flags.ignoreCase of :: items) after
      | '\\' :: rest =>
        match escape? rest with
        | none => none
        | some (escaped, after) =>
          expression? bound flags branches (ofEscaped flags escaped :: items) after
      | c :: rest => expression? bound flags branches (ofCharacter flags c :: items) rest

/-- The pattern that a text describes, if it is one: all of it is read, and no two groups share a
name. -/
def parse? (text : List Char) : Option Pattern :=
  match expression? (text.length + 1) ⟨false, false, false⟩ [] [] text with
  | some (pattern, []) => if pattern.names.Nodup then some pattern else none
  | _ => none

end Pattern
end JsonDoc
