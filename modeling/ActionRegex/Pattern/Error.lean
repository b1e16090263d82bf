import ActionRegex.Span
import ActionRegex.Text.Bytes

/-!
# Errors in patterns

A pattern is rejected for one of fifteen faults, found at a span of its text. The wording of each
fault stands in this module and nowhere else: the message, the label below the marked text, and the
code that names the fault in reports.
-/

namespace ActionRegex.Pattern

/-- The largest count that a repetition may have. -/
def maxRepetition : Nat := 1000

/-- What is wrong with a pattern. -/
inductive Fault where
  | unexpectedChar (found : Char)
  | unexpectedEnd
  | unterminatedClass
  | emptyClass
  | backwardRange (first last : UInt8)
  | missingBrace
  | invalidRepetition
  | nothingToRepeat
  | invalidEscape
  | unknownMacro (name : Bytes)
  | recursiveMacro (name : Bytes)
  | unbalancedParens
  | malformedExpression
  | tooManyRepetitions
  | patternTooLarge
  deriving DecidableEq

/-- A fault and the part of the pattern that shows it. -/
structure Error where
  fault : Fault
  span : Span
  deriving DecidableEq

namespace Fault

def message : Fault → String
  | unexpectedChar found => "unexpected character `" ++ String.ofList [found] ++ "`"
  | unexpectedEnd => "unexpected end of pattern"
  | unterminatedClass => "unterminated character class"
  | emptyClass => "empty character class"
  | backwardRange first last =>
    "invalid range `" ++ Ascii.display first ++ "-" ++ Ascii.display last ++ "`"
  | missingBrace => "missing `\x7d` in repetition"
  | invalidRepetition => "invalid repetition"
  | nothingToRepeat => "nothing to repeat"
  | invalidEscape => "invalid escape sequence"
  | unknownMacro name => "unknown macro `" ++ Bytes.text name ++ "`"
  | recursiveMacro name => "recursive macro `" ++ Bytes.text name ++ "`"
  | unbalancedParens => "unbalanced parenthesis"
  | malformedExpression => "malformed expression"
  | tooManyRepetitions => "too many repetitions"
  | patternTooLarge => "pattern too large"

def code : Fault → String
  | unexpectedChar _ => "E001"
  | unexpectedEnd => "E002"
  | unterminatedClass => "E003"
  | emptyClass => "E004"
  | backwardRange _ _ => "E005"
  | missingBrace => "E006"
  | invalidRepetition => "E007"
  | nothingToRepeat => "E008"
  | invalidEscape => "E009"
  | unknownMacro _ => "E010"
  | recursiveMacro _ => "E011"
  | unbalancedParens => "E012"
  | malformedExpression => "E013"
  | tooManyRepetitions => "E014"
  | patternTooLarge => "E015"

/-- What a report says below the marked text. -/
def label : Fault → String
  | unexpectedChar _ => "this character is not allowed here"
  | unexpectedEnd => "this is not terminated"
  | unterminatedClass => "missing closing `]`"
  | emptyClass => "this class doesn't match any byte"
  | backwardRange _ _ => "the lower bound is greater than the upper bound"
  | missingBrace => "expecting `\x7d` here"
  | invalidRepetition => "the upper bound is lower than the lower bound"
  | nothingToRepeat => "this doesn't follow any term"
  | invalidEscape => "`\\x` must be followed by two hex digits"
  | unknownMacro name => "`" ++ Bytes.text name ++ "` is not defined"
  | recursiveMacro name => "`" ++ Bytes.text name ++ "` refers to itself"
  | unbalancedParens => "this parenthesis doesn't have a pair"
  | malformedExpression => "missing operand"
  | tooManyRepetitions => "the limit is " ++ toString maxRepetition ++ " repetitions"
  | patternTooLarge => "this repetition makes the expanded pattern too large"

/-- The advice that a report adds for some faults. -/
def note? : Fault → Option String
  | recursiveMacro _ =>
    some "a macro can't refer to itself, directly or through other macros"
  | unknownMacro _ =>
    some "sequences of letters are macro references, use quotes for literal text"
  | _ => none

end Fault

end ActionRegex.Pattern
