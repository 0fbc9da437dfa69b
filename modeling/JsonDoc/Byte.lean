/-!
# Bytes of the JSON grammars

The bytes that have a meaning of their own, and the classes of bytes that tokens are made of.
-/

namespace JsonDoc
namespace Byte

abbrev lineFeed : UInt8 := 0x0A
abbrev quote : UInt8 := 0x22
abbrev hash : UInt8 := 0x23
abbrev plus : UInt8 := 0x2B
abbrev comma : UInt8 := 0x2C
abbrev minus : UInt8 := 0x2D
abbrev dot : UInt8 := 0x2E
abbrev zero : UInt8 := 0x30
abbrev colon : UInt8 := 0x3A
abbrev openBracket : UInt8 := 0x5B
abbrev backslash : UInt8 := 0x5C
abbrev closeBracket : UInt8 := 0x5D
abbrev underscore : UInt8 := 0x5F
abbrev lowerF : UInt8 := 0x66
abbrev lowerN : UInt8 := 0x6E
abbrev lowerT : UInt8 := 0x74
abbrev lowerU : UInt8 := 0x75
abbrev openBrace : UInt8 := 0x7B
abbrev closeBrace : UInt8 := 0x7D

/-- Space, tab, line feed and carriage return. -/
def isBlank (b : UInt8) : Bool := b == 0x20 || b == 0x09 || b == 0x0A || b == 0x0D

/-- A byte that may not stand in a string token by itself. -/
def isControl (b : UInt8) : Bool := b < 0x20

def isDigit (b : UInt8) : Bool := 0x30 ≤ b && b ≤ 0x39

/-- A digit other than zero. -/
def isPositiveDigit (b : UInt8) : Bool := 0x31 ≤ b && b ≤ 0x39

def isOctalDigit (b : UInt8) : Bool := 0x30 ≤ b && b ≤ 0x37

def isBinaryDigit (b : UInt8) : Bool := b == 0x30 || b == 0x31

def isHexDigit (b : UInt8) : Bool :=
  isDigit b || (0x41 ≤ b && b ≤ 0x46) || (0x61 ≤ b && b ≤ 0x66)

/-- An ASCII letter. -/
def isLetter (b : UInt8) : Bool := (0x41 ≤ b && b ≤ 0x5A) || (0x61 ≤ b && b ≤ 0x7A)

/-- `x` or `X`, which marks a hexadecimal literal. -/
def isHexMark (b : UInt8) : Bool := b == 0x78 || b == 0x58

/-- `b` or `B`, which marks a binary literal. -/
def isBinaryMark (b : UInt8) : Bool := b == 0x62 || b == 0x42

/-- `e` or `E`, which marks an exponent. -/
def isExponentMark (b : UInt8) : Bool := b == 0x65 || b == 0x45

def isSign (b : UInt8) : Bool := b == plus || b == minus

/-- A byte that a bare word may start with. -/
def isWordStart (b : UInt8) : Bool := isLetter b || b == underscore

/-- A byte that a bare word may go on with. -/
def isWordPart (b : UInt8) : Bool := isLetter b || isDigit b || b == underscore

end Byte
end JsonDoc
