import ActionRegex.Pattern.Error
import ActionRegex.Report.Canvas
import ActionRegex.Report.Window

/-!
# Reports

A report shows a span of a text under a title: the lines that the span touches, the span marked in
them, a label beside the mark, and a note below. Of a bracket around more than five lines, only the
outer two on either side are shown. Long lines are shown in part, with dots where they are cut.
-/

namespace ActionRegex

/-- What a report says. -/
structure Report where
  level : Report.Level
  code : String
  title : String
  /-- The text that the span is part of. -/
  source : String
  span : Span
  /-- What stands beside the mark. -/
  label : String
  note : Option String := none
  /-- Where the text comes from. -/
  origin : String := "pattern"

namespace Report

/-! ## Pieces -/

def spaces (n : Nat) : String := String.ofList (List.replicate n ' ')

/-- Unstyled text as a line, or nothing if there is none. -/
def plain (text : String) : Line := if text.isEmpty then [] else [⟨.plain, text⟩]

/-- A number, with spaces before it up to a width. -/
def aligned (width n : Nat) : String :=
  let digits := toString n
  spaces (width - digits.length) ++ digits

/-- The separator of a line without a number. -/
def bar (width : Nat) : Line := [⟨.plain, spaces (width + 1)⟩, ⟨.frame, "|"⟩]

/-- The label beside a mark. -/
def labelText (level : Level) (label : String) : List Char :=
  if label.isEmpty then [] else (level.labelLead ++ label).toList

/-- What stands where a line is cut. -/
def dots : List Char := ['.', '.', '.']

/-! ## Columns -/

/-- What the lines of a report have in common. -/
structure Frame where
  level : Level
  /-- The width of the column of line numbers. -/
  width : Nat
  /-- The columns between the separator and the text that a bracket takes. -/
  gutter : Nat
  /-- The part of each line that is shown. -/
  window : Window

namespace Frame

/-- The column of the separator. -/
def barColumn (frame : Frame) : Nat := frame.width + 1

/-- The column of the left edge of a bracket. -/
def edgeColumn (frame : Frame) : Nat := frame.width + 3

/-- The column where the text of a line starts. -/
def textColumn (frame : Frame) : Nat := frame.width + 3 + frame.gutter

/-- The column where a column of a text is shown. Marks move to the left with a text that is cut at
its start, over the separator if need be. -/
def markColumn (frame : Frame) (text : List Char) (column : Nat) : Nat :=
  frame.textColumn + column - frame.window.skipped text

/-- The column of a label beside a mark that ends before a column of a text. Labels do not move
further than to the start of the text. -/
def labelColumn (frame : Frame) (text : List Char) (stop : Nat) : Nat :=
  frame.textColumn + (stop + 1 - frame.window.skipped text)

end Frame

/-! ## Lines of the text -/

/-- A line of the text: its number, the separator, the edge of a bracket, and its text. -/
def sourceLine (frame : Frame) (edge : List Char) (line : SourceLine) : Canvas :=
  let shown := frame.window.shown line.text
  let canvas := Canvas.write [] 0 .frame (aligned frame.width line.number ++ " |").toList
  let canvas := canvas.write frame.textColumn .plain shown
  let canvas :=
    if frame.window.cutsStart then canvas.write frame.textColumn .frame dots else canvas
  let canvas :=
    if frame.window.cutsEnd line.text then
      canvas.write (frame.textColumn + shown.length - dots.length) .frame dots
    else canvas
  canvas.write frame.edgeColumn (.level frame.level) edge

/-! ## Lines of marks -/

/-- A line of marks that has only the separator yet. -/
def markLine (frame : Frame) : Canvas := Canvas.write [] frame.barColumn .frame ['|']

/-- The line that underlines columns of a line. -/
def underline (frame : Frame) (label : String) (line : SourceLine) (start stop : Nat) : Canvas :=
  let first := frame.markColumn line.text start
  let last := frame.markColumn line.text (stop - 1)
  ((markLine frame).write (frame.labelColumn line.text stop) (.level frame.level)
    (labelText frame.level label)).write first (.level frame.level)
      (List.replicate (last - first + 1) frame.level.mark)

/-- The line from the edge of a bracket to a column. -/
def bracketLine (frame : Frame) (edge label : List Char) (line : SourceLine) (column : Nat) :
    Canvas :=
  let style := Style.level frame.level
  let place := frame.markColumn line.text column
  let canvas := (markLine frame).write (frame.edgeColumn + 1) style
    (List.replicate (place - (frame.edgeColumn + 1)) '_')
  let canvas := canvas.write frame.edgeColumn style edge
  let canvas := canvas.write (frame.labelColumn line.text (column + 1)) style label
  canvas.write place style [frame.level.mark]

/-! ## Brackets -/

/-- The first line of a bracket. The bracket opens at its edge if only blanks stand before the span,
and with a line from there to the start of the span otherwise. -/
def openBracket (frame : Frame) (line : SourceLine) (column : Nat) : List Canvas :=
  if (line.text.take column).all Text.isBlank then [sourceLine frame ['/'] line]
  else [sourceLine frame [] line, bracketLine frame [] [] line column]

/-- The most lines inside a bracket that are all shown. -/
def maxInside : Nat := 3

/-- The lines inside a bracket. -/
def inside (frame : Frame) (lines : List SourceLine) : List Canvas :=
  let shown := lines.map (sourceLine frame ['|'])
  if lines.length ≤ maxInside then shown
  else
    shown.take 1 ++
      [(Canvas.write [] 0 .frame dots).write frame.edgeColumn (.level frame.level) ['|']] ++
      shown.drop (lines.length - 1)

/-- The last line of a bracket, and the line from its edge to the end of the span. -/
def closeBracket (frame : Frame) (label : String) (line : SourceLine) (column : Nat) :
    List Canvas :=
  [sourceLine frame ['|'] line,
    bracketLine frame ['|'] (labelText frame.level label) line column]

/-- The lines of the text that are shown, with their marks. -/
def Marking.draw (frame : Frame) (label : String) : Marking → List Canvas
  | underline line start stop =>
    [sourceLine frame [] line, Report.underline frame label line start stop]
  | bracket first start between last stop =>
    openBracket frame first start ++ inside frame between ++ closeBracket frame label last stop

/-! ## Whole reports -/

/-- The first line: level, code and title. -/
def headline (report : Report) : Line :=
  [⟨.level report.level, report.level.name ++ "[" ++ report.code ++ "]"⟩] ++
    if report.title.isEmpty then [] else [⟨.plain, ": "⟩, ⟨.strong, report.title⟩]

/-- The second line: where the span starts. -/
def location (report : Report) (width : Nat) (excerpt : Excerpt) : Line :=
  let place := match excerpt.lines with
    | [] => (1, 1)
    | line :: _ => (line.number, (line.before excerpt.start).length + 1)
  plain (spaces width) ++ [⟨.frame, "-->"⟩,
    ⟨.plain, (if report.origin.isEmpty then "" else " " ++ report.origin) ++ ":" ++
      toString place.1 ++ ":" ++ toString place.2⟩]

/-- The lines of a note. -/
def noteLines (width : Nat) (note : String) : List Line :=
  match Text.lines note.toList with
  | [] => []
  | first :: rest =>
    ([⟨.plain, spaces (width + 1)⟩, ⟨.frame, "= "⟩, ⟨.level .note, Level.note.name⟩] ++
        if first.isEmpty then [] else [⟨.plain, ": " ++ String.ofList first⟩]) ::
      rest.map fun line => [⟨.plain, spaces (width + 9) ++ String.ofList line⟩]

/-- What stands below the marked lines. -/
def closing (report : Report) (width : Nat) : List Line :=
  [bar width] ++ (report.note.map (noteLines width)).getD []

/-- The text of a report, with a space in place of each tab. -/
def shownSource (report : Report) : List Char :=
  report.source.toList.map fun c => if c = '\t' then ' ' else c

/-- The lines of a report, if both ends of its span stand between two characters. -/
def lines? (report : Report) : Option (List Line) :=
  (Excerpt.of? report.shownSource report.span).map fun excerpt =>
    match Marking.of? excerpt with
    | none => [headline report, location report 0 excerpt, bar 0] ++ closing report 0
    | some marking =>
      let frame : Frame :=
        { level := report.level
          width := (toString marking.lastNumber).length
          gutter := marking.gutter
          window := .of excerpt.lines marking report.label }
      [headline report, location report frame.width excerpt, bar frame.width] ++
        (marking.draw frame report.label).map Canvas.runs ++ closing report frame.width

/-- The report as text, if both ends of its span stand between two characters. -/
def render? (colors : Bool) (report : Report) : Option String :=
  report.lines?.map (renderLines colors)

/-! ## Patterns -/

/-- The report of an error in a pattern. -/
def ofPatternError (pattern : String) (error : Pattern.Error) : Report :=
  { level := .error
    code := error.fault.code
    title := error.fault.message
    source := pattern
    span := error.span
    label := error.fault.label
    note := error.fault.note? }

end Report

end ActionRegex
