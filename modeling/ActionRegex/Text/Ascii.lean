/-!
# ASCII bytes

Patterns are read byte by byte, and every byte with a meaning of its own is ASCII. This module
names those bytes and the few classes of them that the readers test.
-/

namespace ActionRegex.Ascii

/-! ## Single bytes -/

def tab : UInt8 := 0x09

def newline : UInt8 := 0x0a

def carriageReturn : UInt8 := 0x0d

def escape : UInt8 := 0x1b

def space : UInt8 := 0x20

def doubleQuote : UInt8 := 0x22

def quote : UInt8 := 0x27

def leftParen : UInt8 := 0x28

def rightParen : UInt8 := 0x29

def star : UInt8 := 0x2a

def plus : UInt8 := 0x2b

def comma : UInt8 := 0x2c

def minus : UInt8 := 0x2d

def dot : UInt8 := 0x2e

def question : UInt8 := 0x3f

def leftBracket : UInt8 := 0x5b

def backslash : UInt8 := 0x5c

def rightBracket : UInt8 := 0x5d

def caret : UInt8 := 0x5e

def underscore : UInt8 := 0x5f

def leftBrace : UInt8 := 0x7b

def bar : UInt8 := 0x7c

def rightBrace : UInt8 := 0x7d

/-- The byte of an ASCII character. -/
def ofChar (c : Char) : UInt8 := c.toUInt8

/-! ## Classes -/

/-- Space, tab, carriage return and newline: what may stand between the items of a pattern. -/
def isBlank (b : UInt8) : Bool :=
  b == space || b == tab || b == carriageReturn || b == newline

def isDigit (b : UInt8) : Bool := 0x30 ≤ b && b ≤ 0x39

def isLetter (b : UInt8) : Bool := (0x61 ≤ b && b ≤ 0x7a) || (0x41 ≤ b && b ≤ 0x5a)

/-- A byte that may follow the first letter of a name. -/
def isWordByte (b : UInt8) : Bool := isLetter b || isDigit b || b == underscore

/-- A visible character: `!` to `~`. -/
def isGraphic (b : UInt8) : Bool := 0x21 ≤ b && b ≤ 0x7e

/-- A byte that starts or continues a character outside ASCII. -/
def isHigh (b : UInt8) : Bool := 0x80 ≤ b

/-- The value of a hexadecimal digit of either case. -/
def hexValue? (b : UInt8) : Option UInt8 :=
  if isDigit b then some (b - 0x30)
  else if 0x61 ≤ b && b ≤ 0x66 then some (b - 0x61 + 10)
  else if 0x41 ≤ b && b ≤ 0x46 then some (b - 0x41 + 10)
  else none

/-- The value of a run of decimal digits. -/
def decimal (digits : List UInt8) : Nat :=
  digits.foldl (fun n d => 10 * n + (d.toNat - 0x30)) 0

/-! ## Printed bytes -/

/-- A lower-case hexadecimal digit. -/
def hexDigit (n : Nat) : Char :=
  if n < 10 then Char.ofNat (0x30 + n) else Char.ofNat (0x61 + (n - 10))

/-- The two lower-case hexadecimal digits of a byte. -/
def hexPair (b : UInt8) : String :=
  String.ofList [hexDigit (b.toNat / 16), hexDigit (b.toNat % 16)]

/-- The character of an ASCII byte. -/
def toChar (b : UInt8) : Char := Char.ofNat b.toNat

/-- How a byte is shown to people: quoted when it is printable, as `\xNN` otherwise. -/
def display (b : UInt8) : String :=
  if 0x20 ≤ b && b ≤ 0x7e then String.ofList [toChar quote, toChar b, toChar quote]
  else "\\x" ++ hexPair b

end ActionRegex.Ascii
