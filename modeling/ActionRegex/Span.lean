/-!
# Spans

A span is a range of byte offsets in the text of a pattern, its end not included.
-/

namespace ActionRegex

/-- The bytes from offset `start` up to, and not including, offset `stop`. -/
structure Span where
  start : Nat
  stop : Nat
  deriving DecidableEq, Inhabited

namespace Span

/-- The written form, `[start..stop]`. -/
def display (span : Span) : String :=
  "[" ++ toString span.start ++ ".." ++ toString span.stop ++ "]"

end Span

end ActionRegex
