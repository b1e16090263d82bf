import ActionRegex.Report.Excerpt

/-!
# Markings

How a span is marked. A span within one line is underlined. A longer one is drawn as a bracket
around the lines that it touches, with a mark where it starts and one where it ends.
-/

namespace ActionRegex.Report

/-- The marks of a span. Columns are counted from 0 in the text of their line. -/
inductive Marking where
  /-- The columns of a line from `start` on, before `stop`. -/
  | underline (line : SourceLine) (start stop : Nat)
  /-- From a column of the first line to a column of the last. -/
  | bracket (first : SourceLine) (start : Nat) (between : List SourceLine) (last : SourceLine)
    (stop : Nat)
  deriving DecidableEq

namespace Marking

/-- The marking of the span of an excerpt, if it has lines. An empty span is marked by one column. A
bracket ends under the last character of the span, or past the text if the span takes in the line
end. -/
def of? (excerpt : Excerpt) : Option Marking :=
  match excerpt.lines with
  | [] => none
  | first :: rest =>
    let start := columns (first.before excerpt.start)
    if excerpt.stop ≤ first.reach then
      some (.underline first start (max (columns (first.before excerpt.stop)) (start + 1)))
    else
      match rest.span fun line => line.reach < excerpt.stop with
      | (_, []) => none
      | (between, last :: _) =>
        some (.bracket first start between last
          (columns (last.before excerpt.stop) - 1 + if excerpt.stop > last.stop then 1 else 0))

/-- The number of the last line that is shown. -/
def lastNumber : Marking → Nat
  | underline line _ _ => line.number
  | bracket _ _ _ last _ => last.number

/-- The first column of a mark. -/
def leftmost : Marking → Nat
  | underline _ start _ => start
  | bracket _ start _ _ stop => min start stop

/-- The column after the last mark. -/
def rightmost : Marking → Nat
  | underline _ _ stop => stop
  | bracket _ start _ _ stop => max start stop + 1

/-- The columns between the separator and the text that a bracket needs. -/
def gutter : Marking → Nat
  | underline _ _ _ => 0
  | bracket _ _ _ _ _ => 2

end Marking

end ActionRegex.Report
