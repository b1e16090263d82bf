import ActionRegex.ByteSet
import ActionRegex.Span

/-!
# Lexical items of a pattern

A pattern is a sequence of items with blanks between them: parentheses, bars, repetitions, and the
atoms (bytes, sets of bytes, quoted text, action blocks, names). Which bytes make an item depends on
the text alone, not on macros or on what came before.
-/

namespace ActionRegex.Pattern

/-- A lexical item. -/
inductive Item where
  /-- `(` -/
  | opening
  /-- `)` -/
  | closing
  /-- `|` -/
  | bar
  /-- `*`, `+`, `?` or bounds in braces; no upper bound means any number. -/
  | repetition (min : Nat) (max : Option Nat)
  /-- A visible character, or an escape that stands for one byte. -/
  | byte (value : UInt8)
  /-- `.`, a class, or an escape that stands for a set. It has at least one member. -/
  | oneOf (set : ByteSet)
  /-- Text in quotes, with its escapes resolved. -/
  | quoted (bytes : Bytes)
  /-- The text between the braces of an action block. -/
  | action (text : Bytes)
  /-- A letter, followed by letters, digits and underscores. -/
  | name (text : Bytes)
  deriving DecidableEq

/-- What reading a pattern gives: its items with their spans, up to the end of the text or up to the
fault that stopped the reading. -/
structure Reading (ε : Type) where
  items : List (Item × Span)
  error : Option ε

end ActionRegex.Pattern
