import ActionRegex.Span

/-!
# Excerpts

The part of a text that a report shows: the lines that a span touches, each with its number and the
place of its characters. The span is given in bytes, and an excerpt counts in characters; it exists
if both ends of the span stand between two characters.

A line end belongs to the line before it, so a span may end there: `SourceLine.reach` is the last
place where a span that ends in the line may stop.
-/

namespace ActionRegex.Report

/-! ## Places -/

/-- Splits a text at a byte offset, unless the offset lies inside a character. Past the end of the
text, nothing is left over. -/
def splitBytes? : Nat → List Char → Option (List Char × List Char)
  | 0, text => some ([], text)
  | _ + 1, [] => some ([], [])
  | offset + 1, c :: rest =>
    if c.utf8Size ≤ offset + 1 then
      (splitBytes? (offset + 1 - c.utf8Size) rest).map fun parts => (c :: parts.1, parts.2)
    else none
termination_by _ text => text.length

/-- The two parts make up the text. -/
theorem append_of_splitBytes? {offset : Nat} {text before after : List Char}
    (h : splitBytes? offset text = some (before, after)) : before ++ after = text := by
  fun_induction splitBytes? offset text generalizing before after with
  | case1 => simp_all
  | case2 => simp_all
  | case3 offset c rest _ ih =>
    obtain ⟨parts, hparts, heq⟩ := Option.map_eq_some_iff.mp h
    obtain ⟨rfl, rfl⟩ := Prod.mk.inj heq
    simp [ih hparts]
  | case4 => simp at h

/-- A control character takes no column. -/
def isControl (c : Char) : Bool := c.toNat < 0x20 || (0x7f ≤ c.toNat && c.toNat < 0xa0)

/-- The number of columns that a text takes. -/
def columns (text : List Char) : Nat := text.countP fun c => !isControl c

/-! ## Lines -/

/-- A line of the text. -/
structure SourceLine where
  /-- Its number in the whole text, from 1 on. -/
  number : Nat
  /-- The characters of the excerpt before it. -/
  start : Nat
  /-- Its characters without the line end. -/
  text : List Char
  /-- The length of its line end. -/
  ending : Nat
  deriving DecidableEq

namespace SourceLine

/-- The place after the last character of the text. -/
def stop (line : SourceLine) : Nat := line.start + line.text.length

/-- The last place where a span that ends in the line may stop. -/
def reach (line : SourceLine) : Nat := line.stop + max line.ending 1

/-- The text of the line before a place. -/
def before (line : SourceLine) (place : Nat) : List Char := line.text.take (place - line.start)

end SourceLine

/-- Splits a text into lines. `pending` holds the characters since the last line end, latest
first. -/
def sourceLinesFrom (number start : Nat) (pending : List Char) : List Char → List SourceLine
  | [] => if pending.isEmpty then [] else [⟨number, start, pending.reverse, 0⟩]
  | c :: rest =>
    if c = '\n' then
      let line := match pending with
        | '\r' :: earlier => ⟨number, start, earlier.reverse, 2⟩
        | _ => ⟨number, start, pending.reverse, 1⟩
      line :: sourceLinesFrom (number + 1) (start + pending.length + 1) [] rest
    else sourceLinesFrom number start (c :: pending) rest

/-! ## Excerpts -/

/-- The lines from the one where a span starts, and the span in characters of these lines. -/
structure Excerpt where
  lines : List SourceLine
  start : Nat
  stop : Nat
  deriving DecidableEq

/-- The text after its last newline. -/
def lastLine (text : List Char) : List Char := (text.reverse.takeWhile (· ≠ '\n')).reverse

/-- The excerpt of a span: from the start of the line in which it starts to the next newline that it
does not contain. -/
def Excerpt.of? (text : List Char) (span : Span) : Option Excerpt :=
  (splitBytes? span.stop text).bind fun parts =>
    (splitBytes? (min span.start span.stop) parts.1).map fun inner =>
      let lead := lastLine inner.1
      let marked := inner.2
      let rest := parts.2.takeWhile (· ≠ '\n')
      { lines := sourceLinesFrom (1 + inner.1.count '\n') 0 [] (lead ++ marked ++ rest)
        start := lead.length
        stop := lead.length + marked.length }

end ActionRegex.Report
