/-!
# Styled lines

A report is a list of lines, and a line a list of runs of text, each in one style. Lines are
rendered for a terminal, with the control sequences that switch styles on and off, or as plain text.
-/

namespace ActionRegex.Report

/-- How serious a report is. -/
inductive Level where
  | error
  | warning
  | info
  | note
  | help
  deriving DecidableEq, Inhabited

def Level.name : Level → String
  | error => "error"
  | warning => "warning"
  | info => "info"
  | note => "note"
  | help => "help"

/-- The character that marks text. -/
def Level.mark : Level → Char
  | error => '^'
  | _ => '-'

/-- What a label starts with. -/
def Level.labelLead : Level → String
  | error => ""
  | warning => ""
  | level => level.name ++ ": "

/-- The style of a run. -/
inductive Style where
  | plain
  /-- For titles. -/
  | strong
  /-- For the frame around the text: line numbers and separators. -/
  | frame
  /-- For what belongs to the level of the report. -/
  | level (level : Level)
  deriving DecidableEq

/-- Text in one style. -/
structure Run where
  style : Style
  text : String
  deriving DecidableEq

/-- A line without its line end. -/
abbrev Line := List Run

/-! ## Terminals -/

/-- Switches to bold. -/
def boldSequence : String := "\x1b[1m"

/-- Switches back to the style of plain text. -/
def resetSequence : String := "\x1b[0m"

/-- Switches to the colour of a level. -/
def Level.colorSequence : Level → String
  | error => "\x1b[91m"
  | warning => "\x1b[33m"
  | info => "\x1b[94m"
  | note => "\x1b[92m"
  | help => "\x1b[96m"

/-- Switches to the colour of the frame. -/
def frameSequence : String := "\x1b[94m"

/-- What switches to a style from the style of plain text. -/
def Style.sequence : Style → String
  | plain => ""
  | strong => boldSequence
  | frame => boldSequence ++ frameSequence
  | level l => boldSequence ++ l.colorSequence

/-- The run with the sequences around it that its style needs. -/
def Run.colored (run : Run) : String :=
  match run.style with
  | .plain => run.text
  | style => style.sequence ++ run.text ++ resetSequence

/-- The line as text. -/
def Line.render (colors : Bool) (line : Line) : String :=
  String.join (line.map fun run => if colors then run.colored else run.text)

/-- The lines as text, without a line end after the last. -/
def renderLines (colors : Bool) (lines : List Line) : String :=
  "\n".intercalate (lines.map (Line.render colors))

end ActionRegex.Report
