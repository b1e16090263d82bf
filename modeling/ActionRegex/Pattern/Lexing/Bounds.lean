import ActionRegex.Pattern.Lexing.Escape

/-!
# Bounds in braces

A brace followed by a digit or a comma starts a repetition: a count, or two bounds of which either
may be missing.
-/

namespace ActionRegex.Pattern

/-- The largest number that a bound can be written as. -/
def maxBound : Nat := 4294967295

/-- Reads the digits of a bound, if there are any; `start` is the position of the opening brace. -/
def readBound (start : Nat) (cursor : Cursor) : Except Error (Option Nat × Cursor) :=
  let digits := cursor.rest.takeWhile Ascii.isDigit
  let next : Cursor := ⟨cursor.pos + digits.length, cursor.rest.dropWhile Ascii.isDigit⟩
  if digits.isEmpty then .ok (none, cursor)
  else if Ascii.decimal digits ≤ maxBound then .ok (some (Ascii.decimal digits), next)
  else .error ⟨.tooManyRepetitions, ⟨start, next.pos⟩⟩

/-- Reads the brace that ends a repetition. -/
def readClosingBrace (start : Nat) (item : Item) (cursor : Cursor) :
    Except Error (Item × Cursor) :=
  if cursor.rest.head? = some Ascii.rightBrace then .ok (item, ⟨cursor.pos + 1, cursor.rest.tail⟩)
  else .error ⟨.missingBrace, ⟨start, cursor.pos⟩⟩

/-- Reads a repetition in braces: one number, or a lower and an upper bound with a comma between
them, of which either may be missing. -/
def readRepetition (start : Nat) (rest : Bytes) : Except Error (Item × Cursor) :=
  match readBound start ⟨start + 1, rest⟩ with
  | .error e => .error e
  | .ok (min, next) =>
    if next.rest.head? = some Ascii.comma then
      match readBound start ⟨next.pos + 1, next.rest.tail⟩ with
      | .error e => .error e
      | .ok (max, next) => readClosingBrace start (.repetition (min.getD 0) max) next
    else readClosingBrace start (.repetition (min.getD 0) (some (min.getD 0))) next

theorem length_dropWhile_le {p : UInt8 → Bool} (l : Bytes) : (l.dropWhile p).length ≤ l.length :=
  (List.dropWhile_sublist p).length_le

theorem readBound_rest {start : Nat} {cursor next : Cursor} {bound : Option Nat}
    (h : readBound start cursor = .ok (bound, next)) : next.rest.length ≤ cursor.rest.length := by
  unfold readBound at h
  simp only at h
  split at h
  · simp only [Except.ok.injEq, Prod.mk.injEq] at h
    obtain ⟨-, rfl⟩ := h
    exact Nat.le_refl _
  · split at h
    · simp only [Except.ok.injEq, Prod.mk.injEq] at h
      obtain ⟨-, rfl⟩ := h
      exact length_dropWhile_le _
    · simp at h

theorem readClosingBrace_rest {start : Nat} {item item' : Item} {cursor next : Cursor}
    (h : readClosingBrace start item cursor = .ok (item', next)) :
    next.rest.length ≤ cursor.rest.length := by
  unfold readClosingBrace at h
  split at h
  · simp only [Except.ok.injEq, Prod.mk.injEq] at h
    obtain ⟨-, rfl⟩ := h
    simp
  · simp at h

theorem readRepetition_rest {start : Nat} {rest : Bytes} {item : Item} {next : Cursor}
    (h : readRepetition start rest = .ok (item, next)) : next.rest.length ≤ rest.length := by
  unfold readRepetition at h
  split at h
  · simp at h
  · next min next' hmin =>
    have h1 := readBound_rest hmin
    split at h
    · split at h
      · simp at h
      · next max next'' hmax =>
        have h2 := readBound_rest hmax
        have h3 := readClosingBrace_rest h
        simp at h1 h2
        omega
    · have h3 := readClosingBrace_rest h
      simp at h1
      omega

end ActionRegex.Pattern
