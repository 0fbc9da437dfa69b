/-!
# UTF-8

`Utf8.decode` reads any bytes as text. It is a machine that takes one byte at a time, so decoding
a longer input goes on from the state in which a shorter one stopped. Each maximal invalid part
becomes one replacement character.
-/

namespace JsonDoc
namespace Utf8

/-- What stands for a part that is not valid. -/
def replacement : Char := '\uFFFD'

/-- Where the decoder stands between two bytes. -/
inductive State where
  /-- Between characters. -/
  | between
  /-- Inside a character: the bits so far, the range of the next byte, and how many bytes follow
  that one. -/
  | within (bits : Nat) (low high : UInt8) (more : Nat)
deriving DecidableEq, Repr

/-- One byte between characters: the characters it completes, and the state after it. -/
def lead (b : UInt8) : List Char × State :=
  if b < 0x80 then ([Char.ofNat b.toNat], .between)
  else if b < 0xC2 then ([replacement], .between)
  else if b < 0xE0 then ([], .within (b.toNat - 0xC0) 0x80 0xBF 0)
  else if b = 0xE0 then ([], .within 0x0 0xA0 0xBF 1)
  else if b = 0xED then ([], .within 0xD 0x80 0x9F 1)
  else if b < 0xF0 then ([], .within (b.toNat - 0xE0) 0x80 0xBF 1)
  else if b = 0xF0 then ([], .within 0x0 0x90 0xBF 2)
  else if b < 0xF4 then ([], .within (b.toNat - 0xF0) 0x80 0xBF 2)
  else if b = 0xF4 then ([], .within 0x4 0x80 0x8F 2)
  else ([replacement], .between)

/-- One byte. A byte that cannot continue the open character closes it as invalid and starts
afresh. -/
def step : State → UInt8 → List Char × State
  | .between, b => lead b
  | .within bits low high more, b =>
    if low ≤ b ∧ b ≤ high then
      let bits := bits * 64 + b.toNat % 64
      match more with
      | 0 => ([Char.ofNat bits], .between)
      | more + 1 => ([], .within bits 0x80 0xBF more)
    else
      let (chars, state) := lead b
      (replacement :: chars, state)

/-- What the end of the input adds: a character that is still open is invalid. -/
def flush : State → List Char
  | .between => []
  | .within .. => [replacement]

/-- The text of the bytes after a state. -/
def decodeFrom : State → List UInt8 → List Char
  | state, [] => flush state
  | state, b :: bytes => (step state b).1 ++ decodeFrom (step state b).2 bytes

/-- The text of the bytes. -/
def decode (bytes : List UInt8) : List Char := decodeFrom .between bytes

/-- The text of the bytes as a string. -/
def toText (bytes : List UInt8) : String := String.ofList (decode bytes)

/-- The bytes of a text. -/
def encode (chars : List Char) : List UInt8 := chars.flatMap String.utf8EncodeChar

/-- The bytes of a string. -/
def ofText (text : String) : List UInt8 := encode text.toList

@[simp] theorem toList_toText
    (bytes : List UInt8) :
    (toText bytes).toList = decode bytes := by
  simp [toText]

@[simp] theorem encode_append
    (s t : List Char) :
    encode (s ++ t) = encode s ++ encode t := by
  simp [encode]

@[simp] theorem ofText_append
    (s t : String) :
    ofText (s ++ t) = ofText s ++ ofText t := by
  simp [ofText]

theorem decodeFrom_append
    (state : State)
    (a b : List UInt8) :
    ∃ chars, ∃ next, decodeFrom state a = chars ++ flush next ∧
      decodeFrom state (a ++ b) = chars ++ decodeFrom next b := by
  induction a generalizing state with
  | nil => exact ⟨[], state, by simp [decodeFrom], by simp⟩
  | cons x a ih =>
      obtain ⟨chars, next, h₁, h₂⟩ := ih (step state x).2
      exact ⟨(step state x).1 ++ chars, next, by simp [decodeFrom, h₁], by simp [decodeFrom, h₂]⟩

end Utf8
end JsonDoc
