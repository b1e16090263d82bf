/-!
# Blanks and lines

Blank characters are those with the Unicode property White_Space: 25 code points. Lines end at a
newline; a carriage return right before it belongs to the line end, and a text that ends with a
newline has no empty line after it.
-/

namespace ActionRegex.Text

/-! ## Blanks -/

/-- The code points with the property White_Space, as ranges. -/
def blankRanges : List (Nat × Nat) :=
  [(0x09, 0x0d), (0x20, 0x20), (0x85, 0x85), (0xa0, 0xa0), (0x1680, 0x1680), (0x2000, 0x200a),
    (0x2028, 0x2029), (0x202f, 0x202f), (0x205f, 0x205f), (0x3000, 0x3000)]

/-- Whether a character is blank. -/
def isBlank (c : Char) : Bool :=
  blankRanges.any fun range => range.1 ≤ c.toNat && c.toNat ≤ range.2

/-- The text from its first character that is not blank. -/
def trimStart (text : List Char) : List Char := text.dropWhile isBlank

/-- The text up to its last character that is not blank. -/
def trimEnd (text : List Char) : List Char := (text.reverse.dropWhile isBlank).reverse

/-- The text without blanks on either side. -/
def trim (text : List Char) : List Char := trimEnd (trimStart text)

/-- What stands before and after the first character that satisfies a condition. -/
def splitFirst (p : Char → Bool) (text : List Char) : Option (List Char × List Char) :=
  match text.dropWhile fun c => !p c with
  | [] => none
  | _ :: rest => some (text.takeWhile fun c => !p c, rest)

/-! ## Lines -/

/-- Removes a carriage return from the end of a line. The line comes last character first and leaves
in the order of the text. -/
def endLine : List Char → List Char
  | '\r' :: rest => rest.reverse
  | line => line.reverse

/-- Splits a text at its newlines. `line` holds the characters since the last one, latest first. -/
def linesFrom (line : List Char) : List Char → List (List Char)
  | [] => if line.isEmpty then [] else [line.reverse]
  | c :: rest => if c = '\n' then endLine line :: linesFrom [] rest else linesFrom (c :: line) rest

/-- The lines of a text, without their line ends. -/
def lines (text : List Char) : List (List Char) := linesFrom [] text

end ActionRegex.Text
