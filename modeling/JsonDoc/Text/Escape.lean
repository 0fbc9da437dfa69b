import JsonDoc.Text.Hex

/-!
# Escape sequences

The content of a string token is kept as it is written, escapes included. `Escape.decode` gives
the text that such content means and `Escape.encode` gives content for a text.
-/

namespace JsonDoc
namespace Escape

/-- Reads `count` hexadecimal digits onto `value`. The first character that is not one ends the
reading without a value and is consumed with the digits before it. -/
def readHex : Nat → Nat → List Char → Option Nat × List Char
  | 0, value, chars => (some value, chars)
  | _ + 1, _, [] => (none, [])
  | count + 1, value, c :: chars =>
    match Hex.digit? c with
    | none => (none, chars)
    | some digit => readHex count (value * 16 + digit) chars

theorem length_readHex_le
    (count value : Nat)
    (chars : List Char) :
    (readHex count value chars).2.length ≤ chars.length := by
  induction count generalizing value chars with
  | zero => simp [readHex]
  | succ count ih =>
      cases chars with
      | nil => simp [readHex]
      | cons c chars =>
          simp only [readHex]
          split
          · simp
          · exact Nat.le_trans (ih _ _) (by simp)

/-- Whether a code unit is the first half of a surrogate pair. -/
def isHighSurrogate (unit : Nat) : Bool := decide (0xD800 ≤ unit) && decide (unit < 0xDC00)

/-- Whether a code unit is the second half of a surrogate pair. -/
def isLowSurrogate (unit : Nat) : Bool := decide (0xDC00 ≤ unit) && decide (unit < 0xE000)

/-- The second half of a surrogate pair, if an escape for one comes next. -/
def lowSurrogate? : List Char → Option (Nat × List Char)
  | '\\' :: 'u' :: chars =>
    match readHex 4 0 chars with
    | (some unit, rest) => if isLowSurrogate unit then some (unit, rest) else none
    | (none, _) => none
  | _ => none

/-- The character of a `\u` escape whose digits come next, and what follows it. A lone half of a
surrogate pair and digits that cannot be read both mean the replacement character. -/
def readUnit (chars : List Char) : Char × List Char :=
  match readHex 4 0 chars with
  | (none, rest) => ('\uFFFD', rest)
  | (some unit, rest) =>
    if isHighSurrogate unit then
      match lowSurrogate? rest with
      | some (low, after) =>
        (Char.ofNat (0x10000 + (unit - 0xD800) * 0x400 + (low - 0xDC00)), after)
      | none => ('\uFFFD', rest)
    else if isLowSurrogate unit then ('\uFFFD', rest)
    else (Char.ofNat unit, rest)

theorem length_lowSurrogate?_le
    {chars rest : List Char} {unit : Nat}
    (h : lowSurrogate? chars = some (unit, rest)) :
    rest.length ≤ chars.length := by
  unfold lowSurrogate? at h
  split at h
  · rename_i after
    have hle := length_readHex_le 4 0 after
    split at h
    · rename_i heq
      simp only [heq] at hle
      split at h
      · simp only [Option.some.injEq, Prod.mk.injEq] at h
        obtain ⟨-, rfl⟩ := h
        simp only [List.length_cons]
        omega
      · simp at h
    · simp at h
  · simp at h

theorem length_readUnit_le
    (chars : List Char) :
    (readUnit chars).2.length ≤ chars.length := by
  have hle := length_readHex_le 4 0 chars
  unfold readUnit
  split
  · rename_i heq
    simpa [heq] using hle
  · rename_i heq
    simp only [heq] at hle
    split
    · split
      · rename_i hlow
        exact Nat.le_trans (length_lowSurrogate?_le hlow) hle
      · exact hle
    · split <;> exact hle

/-- What a backslash and one character other than `u` mean; an unknown escape means itself. -/
def simple : Char → List Char
  | '"' => ['"']
  | '\\' => ['\\']
  | '/' => ['/']
  | 'b' => ['\x08']
  | 'f' => ['\x0c']
  | 'n' => ['\n']
  | 'r' => ['\r']
  | 't' => ['\t']
  | c => ['\\', c]

/-- The text that the content of a string token means. -/
def decode : List Char → List Char
  | [] => []
  | ['\\'] => ['\\']
  | '\\' :: 'u' :: chars => (readUnit chars).1 :: decode (readUnit chars).2
  | '\\' :: c :: chars => simple c ++ decode chars
  | c :: chars => c :: decode chars
termination_by chars => chars.length
decreasing_by
  · have := length_readUnit_le chars
    simp only [List.length_cons]
    omega
  · simp only [List.length_cons]
    omega
  · simp only [List.length_cons]
    omega

/-- A `\u` escape with four digits. -/
def unit (code : Nat) : List Char :=
  ['\\', 'u', Nat.digitChar (code / 4096 % 16), Nat.digitChar (code / 256 % 16),
    Nat.digitChar (code / 16 % 16), Nat.digitChar (code % 16)]

/-- A character inside a string token: quotes, backslashes and control characters are escaped, by
two characters where such an escape exists. -/
def encodeChar (c : Char) : List Char :=
  match c with
  | '"' => ['\\', '"']
  | '\\' => ['\\', '\\']
  | '\n' => ['\\', 'n']
  | '\r' => ['\\', 'r']
  | '\t' => ['\\', 't']
  | '\x08' => ['\\', 'b']
  | '\x0c' => ['\\', 'f']
  | c => if c.toNat < 0x20 then unit c.toNat else [c]

/-- The content of a string token for a text. -/
def encode (chars : List Char) : List Char := chars.flatMap encodeChar

/-- `decode` on strings. -/
def decodeText (content : String) : String := String.ofList (decode content.toList)

/-- `encode` on strings. -/
def encodeText (text : String) : String := String.ofList (encode text.toList)

@[simp] theorem decode_nil :
    decode [] = [] := by simp [decode]

@[simp] theorem encode_cons
    (c : Char)
    (chars : List Char) :
    encode (c :: chars) = encodeChar c ++ encode chars := by
  simp [encode]

end Escape
end JsonDoc
