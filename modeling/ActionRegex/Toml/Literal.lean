import ActionRegex.Text.Ascii
import ActionRegex.Text.Blank

/-!
# Numbers and dates

Which texts are numbers and dates in a TOML document. A whole number has to fit into 64 bits with a
sign, any other must not be too large for a float of 64 bits; a date has to be one of the calendar.
-/

namespace ActionRegex.Toml

/-! ## Digits -/

/-- Digits, with single underscores between them at most. -/
def isDigits (isDigit : Char → Bool) : List Char → Bool
  | [] => false
  | [c] => isDigit c
  | c :: '_' :: rest => isDigit c && isDigits isDigit rest
  | c :: rest => isDigit c && isDigits isDigit rest

/-- The value of a digit in a base, up to 16. -/
def digitValue? (base : Nat) (c : Char) : Option Nat :=
  let value? := if c.toNat < 0x80 then (Ascii.hexValue? (Ascii.ofChar c)).map UInt8.toNat else none
  value?.filter (· < base)

/-- The number that digits stand for, if they are well formed. -/
def numberOf? (base : Nat) (text : List Char) : Option Nat :=
  if isDigits (fun c => (digitValue? base c).isSome) text then
    some ((text.filterMap (digitValue? base)).foldl (fun n digit => base * n + digit) 0)
  else none

/-- A decimal number without a sign, which starts with a zero only if it is one. -/
def decimal? (text : List Char) : Option Nat :=
  match text with
  | '0' :: _ :: _ => none
  | text => numberOf? 10 text

/-! ## Numbers -/

/-- Whether a text starts with a minus sign, and the text after its sign. -/
def splitSign : List Char → Bool × List Char
  | '-' :: rest => (true, rest)
  | '+' :: rest => (false, rest)
  | text => (false, text)

/-- How many numbers with 64 bits are negative. -/
def negativeCount : Nat := 9223372036854775808

/-- A whole number. -/
def isInteger (text : List Char) : Bool :=
  let number? := match text with
    | '0' :: 'x' :: digits => numberOf? 16 digits
    | '0' :: 'o' :: digits => numberOf? 8 digits
    | '0' :: 'b' :: digits => numberOf? 2 digits
    | _ => decimal? (splitSign text).2
  number?.any fun n => n < negativeCount || (n == negativeCount && (splitSign text).1)

/-! ## Floating-point numbers -/

/-- The number `digits * 10 ^ exponent`. -/
structure Scientific where
  digits : Nat
  exponent : Int
  deriving DecidableEq

/-- The least number that is rounded to infinity: halfway between the greatest number with a
significand of 53 bits and the next power of two. -/
def infinityBound : Nat := Nat.pow 2 1024 - Nat.pow 2 970

/-- A number with more decimal digits than this before the point is rounded to infinity, one with
fewer is not. -/
def infinityDigits : Int := 309

/-- Whether a number is not rounded to infinity. Powers of ten are compared only if the number of
digits does not tell. -/
def Scientific.isFinite (number : Scientific) : Bool :=
  let size := (toString number.digits).length + number.exponent
  number.digits == 0 || size < infinityDigits ||
    (size == infinityDigits &&
      number.digits * Nat.pow 10 number.exponent.toNat <
        infinityBound * Nat.pow 10 (-number.exponent).toNat)

/-- A number with a fraction and without a sign. -/
def fraction? (text : List Char) : Option Scientific := do
  let (whole, part) ← Text.splitFirst (· == '.') text
  let places := (part.filterMap (digitValue? 10)).length
  return ⟨(← decimal? whole) * Nat.pow 10 places + (← numberOf? 10 part), -places⟩

/-- A number with a fraction or an exponent and without a sign. -/
def scientific? (text : List Char) : Option Scientific := do
  match Text.splitFirst (fun c => c == 'e' || c == 'E') text with
  | none => fraction? text
  | some (mantissa, exponent) =>
    let number ← fraction? mantissa <|> (decimal? mantissa).map (⟨·, 0⟩)
    let (negative, digits) := splitSign exponent
    let shift : Int := (← numberOf? 10 digits)
    return { number with exponent := number.exponent + if negative then -shift else shift }

/-- A number with a fraction or an exponent, an infinity, or no number. A positive number must be
finite. -/
def isFloat (text : List Char) : Bool :=
  let (negative, text) := splitSign text
  text == ['i', 'n', 'f'] || text == ['n', 'a', 'n'] ||
    (scientific? text).any fun number => negative || number.isFinite

/-! ## Dates -/

/-- The number that a given count of digits at the start of a text stands for, and the rest. -/
def fixed? (count : Nat) (text : List Char) : Option (Nat × List Char) :=
  let digits := text.take count
  if digits.length = count ∧ digits.all Char.isDigit then
    (numberOf? 10 digits).map fun n => (n, text.drop count)
  else none

/-- The text after a character. -/
def after? (c : Char) : List Char → Option (List Char)
  | [] => none
  | first :: rest => if first = c then some rest else none

def isLeapYear (year : Nat) : Bool := year % 4 == 0 && (year % 100 != 0 || year % 400 == 0)

def daysInMonth (year month : Nat) : Nat :=
  if month = 2 then if isLeapYear year then 29 else 28
  else if [4, 6, 9, 11].contains month then 30
  else 31

/-- The text after a date. -/
def afterDate? (text : List Char) : Option (List Char) := do
  let (year, text) ← fixed? 4 text
  let (month, text) ← fixed? 2 (← after? '-' text)
  let (day, text) ← fixed? 2 (← after? '-' text)
  if 1 ≤ month ∧ month ≤ 12 ∧ 1 ≤ day ∧ day ≤ daysInMonth year month then some text else none

/-- The text after hours and minutes. -/
def afterMinutes? (text : List Char) : Option (List Char) := do
  let (hour, text) ← fixed? 2 text
  let (minute, text) ← fixed? 2 (← after? ':' text)
  if hour ≤ 23 ∧ minute ≤ 59 then some text else none

/-- The text after a time. A minute may have a leap second, and a second a fraction. -/
def afterTime? (text : List Char) : Option (List Char) := do
  let text ← afterMinutes? text
  let (second, text) ← fixed? 2 (← after? ':' text)
  if 60 < second then none
  match text with
  | '.' :: digit :: rest => if digit.isDigit then some (rest.dropWhile Char.isDigit) else none
  | text => some text

/-- A distance from universal time, or nothing. -/
def isOffset : List Char → Bool
  | [] => true
  | ['Z'] => true
  | ['z'] => true
  | '+' :: text => afterMinutes? text == some []
  | '-' :: text => afterMinutes? text == some []
  | _ => false

/-- A date, a time, or both. -/
def isDate (text : List Char) : Bool :=
  afterTime? text == some [] ||
    match afterDate? text with
    | none => false
    | some [] => true
    | some (c :: rest) => ['T', 't', ' '].contains c && (afterTime? rest).any isOffset

/-- A number or a date. -/
def isLiteral (text : List Char) : Bool := isInteger text || isFloat text || isDate text

end ActionRegex.Toml
