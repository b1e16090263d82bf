import ActionRegex.Report.Marking
import ActionRegex.Text.Blank

/-!
# Windows

A report is at most `Window.terminalWidth` columns wide where that is possible. Of lines that are
too long, or that all start with many blanks, only those columns are shown that a window takes in;
it is the same for all lines of an excerpt, and is placed so that it holds the marks and the label.
Dots stand where a line is cut.

The length of a line is counted in bytes, and never falls short of the columns that it takes.
-/

namespace ActionRegex.Report

/-- The number of bytes of a text. -/
def byteLength (text : List Char) : Nat := (String.ofList text).utf8ByteSize

/-! ## Extents -/

/-- What a window is chosen for. -/
structure Extent where
  /-- The fewest blanks that a line starts with, among the lines that are not blank. -/
  indent : Option Nat
  /-- The length of the longest line. -/
  longest : Nat
  /-- The first column that is marked. -/
  markStart : Nat
  /-- The column after the last that is marked. -/
  markStop : Nat
  /-- The column after the label beside the last mark. -/
  labelStop : Nat
  deriving DecidableEq

/-- The blanks at the start of a line, if there is anything else in it. -/
def indentOf? (text : List Char) : Option Nat :=
  if text.all Text.isBlank then none else some (text.takeWhile Text.isBlank).length

/-- The least number in a list. -/
def least? : List Nat → Option Nat
  | [] => none
  | n :: rest => some (rest.foldl min n)

/-- The extent of the lines of an excerpt with their marks and a label. -/
def Extent.of (lines : List SourceLine) (marking : Marking) (label : String) : Extent where
  indent := least? (lines.filterMap fun line => indentOf? line.text)
  longest := (lines.map fun line => byteLength line.text).foldl max 0
  markStart := marking.leftmost
  markStop := marking.rightmost
  labelStop := marking.rightmost + label.utf8ByteSize + 1

/-! ## Windows -/

/-- The part of each line that is shown. -/
structure Window where
  /-- The columns that there are for text. -/
  width : Nat
  /-- The first column that is shown. -/
  start : Nat
  /-- The column after the last that is shown. -/
  stop : Nat
  /-- How long a line may be that does not count as cut at its end. -/
  tolerance : Nat
  deriving DecidableEq

namespace Window

/-- The columns of a report. -/
def terminalWidth : Nat := 140

/-- The columns on either side of the marks that are left for dots. -/
def room : Nat := 6

/-- An indentation up to this is shown. -/
def shortIndent : Nat := 20

/-- What is left of a longer one. -/
def keptIndent : Nat := 16

/-- The first column that is shown of lines that are not too long otherwise. If all lines are blank,
none of it is shown. -/
def indentCut (extent : Extent) : Nat :=
  match extent.indent with
  | none => extent.longest + 1
  | some indent => if shortIndent < indent - room then indent - room - keptIndent else 0

/-- Where the window starts and stops. If the lines are too long, it starts with the text; or if it
is too narrow for that, it holds marks and label in the middle; or at least the marks. -/
def bounds (width : Nat) (extent : Extent) : Nat × Nat :=
  let indent := extent.indent.getD 0 - room
  let markStart := extent.markStart - room
  let markStop := extent.markStop + room
  let labelStop := extent.labelStop + room
  let start := indentCut extent
  if extent.longest ≤ start + width then (start, max extent.longest start)
  else if indent ≤ labelStop ∧ labelStop ≤ indent + width then (indent, indent + width)
  else if labelStop ≤ markStart + width then
    let start := markStart - (width - (labelStop - markStart)) / 2
    (start, start + width)
  else if markStop ≤ markStart + width then
    let start := markStart - (width - (markStop - markStart)) / 5 * 2
    (start, start + width)
  else (markStart, markStop)

/-- The window for an extent. A window that stops right after the marks or the label includes the
room for dots. -/
def fit (width : Nat) (extent : Extent) : Window :=
  let (start, stop) := bounds width extent
  let roomy := stop = extent.markStop + room ∨ stop = extent.labelStop + room
  ⟨width, start, stop, if roomy then stop - room else stop⟩

/-- The window for the lines of an excerpt. -/
def of (lines : List SourceLine) (marking : Marking) (label : String) : Window :=
  let next := (lines.getLast?.map fun line => line.number + 1).getD 1
  fit (terminalWidth - (3 + (toString next).length)) (.of lines marking label)

/-! ## Lines in a window -/

/-- The characters of a text that are left out at its start. -/
def skipped (window : Window) (text : List Char) : Nat :=
  min (min window.start (byteLength text)) text.length

/-- The characters of a text that are shown. -/
def shown (window : Window) (text : List Char) : List Char :=
  let length := byteLength text
  let left := min window.start length
  let right := if length ≤ window.start + window.width then length else min length window.stop
  (text.drop left).take (right - left)

/-- Whether lines are cut at their start. -/
def cutsStart (window : Window) : Bool := 0 < window.start

/-- Whether a text is cut at its end. -/
def cutsEnd (window : Window) (text : List Char) : Bool :=
  window.tolerance < byteLength text && window.start + window.width < byteLength text

/-- What is shown is part of the text. -/
theorem shown_sublist (window : Window) (text : List Char) : (window.shown text).Sublist text :=
  (List.take_sublist _ _).trans (List.drop_sublist _ _)

end Window

end ActionRegex.Report
