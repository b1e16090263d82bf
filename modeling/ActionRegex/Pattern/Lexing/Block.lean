import ActionRegex.Pattern.Lexing.Escape

/-!
# Action blocks

An action block is any text in braces, with braces balanced outside string and character literals.
Its end is found byte by byte, by the state of the reader and the number of open braces.
-/

namespace ActionRegex.Pattern

/-- Where a reader of an action block stands: in code, in a literal, or after a backslash in one. -/
inductive BlockState where
  | code
  | literal (delimiter : UInt8)
  | escaped (delimiter : UInt8)
  deriving DecidableEq

/-- The number of bytes before the brace that closes an action block. Braces in string and character
literals do not count; `depth` braces are open inside the block, and `count` bytes are behind. -/
def blockLength : BlockState → Nat → Nat → Bytes → Option Nat
  | _, _, _, [] => none
  | .code, depth, count, b :: rest =>
    if b = Ascii.leftBrace then blockLength .code (depth + 1) (count + 1) rest
    else if b = Ascii.rightBrace then
      if depth = 0 then some count else blockLength .code (depth - 1) (count + 1) rest
    else if b = Ascii.doubleQuote ∨ b = Ascii.quote then
      blockLength (.literal b) depth (count + 1) rest
    else blockLength .code depth (count + 1) rest
  | .literal delimiter, depth, count, b :: rest =>
    if b = Ascii.backslash then blockLength (.escaped delimiter) depth (count + 1) rest
    else if b = delimiter then blockLength .code depth (count + 1) rest
    else blockLength (.literal delimiter) depth (count + 1) rest
  | .escaped delimiter, depth, count, _ :: rest =>
    blockLength (.literal delimiter) depth (count + 1) rest

/-- Reads an action block; `start` is the position of its opening brace. -/
def readAction (start : Nat) (rest : Bytes) : Except Error (Item × Cursor) :=
  match blockLength .code 0 0 rest with
  | none => .error ⟨.unexpectedEnd, ⟨start, start + 1 + rest.length⟩⟩
  | some n => .ok (.action (rest.take n), ⟨start + n + 2, rest.drop (n + 1)⟩)

theorem readAction_rest {start : Nat} {rest : Bytes} {item : Item} {next : Cursor}
    (h : readAction start rest = .ok (item, next)) : next.rest.length ≤ rest.length := by
  unfold readAction at h
  split at h
  · simp at h
  · simp only [Except.ok.injEq, Prod.mk.injEq] at h
    obtain ⟨-, rfl⟩ := h
    simp

end ActionRegex.Pattern
