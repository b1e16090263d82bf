import ActionRegex.Report.Style

/-!
# Lines by column

A line that is drawn piece by piece. Each piece is written from some column on, over what stands
there; columns that nothing is written to are blank. A drawn line becomes runs, one for each stretch
of cells that look alike.
-/

namespace ActionRegex.Report

/-- A character in its style. -/
structure Cell where
  char : Char
  style : Style
  deriving DecidableEq

/-- A line, column by column. -/
abbrev Canvas := List Cell

/-- A column that nothing is written to. -/
def Cell.blank : Cell := ⟨' ', .plain⟩

namespace Canvas

/-- Writes text from a column on. -/
def write (canvas : Canvas) (column : Nat) (style : Style) (text : List Char) : Canvas :=
  if text.isEmpty then canvas
  else
    canvas.take column ++ List.replicate (column - canvas.length) .blank ++
      text.map (⟨·, style⟩) ++ canvas.drop (column + text.length)

@[simp]
theorem write_nil (canvas : Canvas) (column : Nat) (style : Style) :
    canvas.write column style [] = canvas := rfl

/-- Writing reaches up to the end of the text, and removes nothing. -/
theorem length_write (canvas : Canvas) (column : Nat) (style : Style) {text : List Char}
    (h : text ≠ []) :
    (canvas.write column style text).length = max canvas.length (column + text.length) := by
  simp [write, h]
  omega

/-! ## Runs -/

/-- Whether two cells are rendered in the same way. -/
def alike (a b : Cell) : Bool := a.style.sequence == b.style.sequence

/-- The runs of a line. -/
def runs (canvas : Canvas) : Line :=
  (canvas.splitBy alike).filterMap fun
    | [] => none
    | cell :: rest => some ⟨cell.style, String.ofList (cell.char :: rest.map Cell.char)⟩

end Canvas

end ActionRegex.Report
