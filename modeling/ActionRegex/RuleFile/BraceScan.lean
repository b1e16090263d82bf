import ActionRegex.Text.Bytes

/-!
# Action blocks across lines

The lines of a rule are read one by one, and a line that starts with `#` is a comment only outside
action blocks. `BraceScan` follows the braces of a rule line by line, in the way patterns are read:
braces in quotes and classes or after a backslash do not count, and an opening brace followed by a
digit or a comma is a repetition. Quotes and classes end with their line.
-/

namespace ActionRegex

/-- How many braces are open after some lines, and the line where the outermost was opened. -/
structure BraceScan where
  depth : Nat := 0
  line : Nat := 0
  deriving DecidableEq, Inhabited

namespace BraceScan

/-- What a byte of a line is part of. -/
inductive Context where
  /-- The pattern, or an action block if one is open. -/
  | plain
  | quoted (delimiter : UInt8)
  | bracketed
  deriving DecidableEq

/-- Whether a byte makes an opening brace before it a repetition. -/
def startsBounds (next : Option UInt8) : Bool :=
  next.any fun b => Ascii.isDigit b || b == Ascii.comma

/-- Whether a byte opens a quote. -/
def isQuote (b : UInt8) : Bool := b == Ascii.doubleQuote || b == Ascii.quote

/-- Follows the bytes of line number `number`. With `skip` the next byte is escaped. -/
def scanBytes (number : Nat) (context : Context) (skip : Bool) (scan : BraceScan) :
    Bytes → BraceScan
  | [] => scan
  | b :: rest =>
    if skip then scanBytes number context false scan rest
    else
      match context with
      | .quoted delimiter =>
        if b = Ascii.backslash then scanBytes number context true scan rest
        else if b = delimiter then scanBytes number .plain false scan rest
        else scanBytes number context false scan rest
      | .bracketed =>
        if b = Ascii.backslash then scanBytes number context true scan rest
        else if b = Ascii.rightBracket then scanBytes number .plain false scan rest
        else scanBytes number context false scan rest
      | .plain =>
        if isQuote b then scanBytes number (.quoted b) false scan rest
        else if scan.depth > 0 then
          if b = Ascii.leftBrace then
            scanBytes number .plain false { scan with depth := scan.depth + 1 } rest
          else if b = Ascii.rightBrace then
            scanBytes number .plain false { scan with depth := scan.depth - 1 } rest
          else scanBytes number .plain false scan rest
        else if b = Ascii.backslash then scanBytes number .plain true scan rest
        else if b = Ascii.leftBracket then scanBytes number .bracketed false scan rest
        else if b = Ascii.leftBrace ∧ ¬ startsBounds rest.head? then
          scanBytes number .plain false ⟨1, number⟩ rest
        else scanBytes number .plain false scan rest

/-- Follows a line. -/
def scanLine (scan : BraceScan) (number : Nat) (line : Bytes) : BraceScan :=
  scanBytes number .plain false scan line

end BraceScan

end ActionRegex
