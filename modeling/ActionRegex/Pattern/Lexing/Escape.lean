import ActionRegex.Pattern.Error
import ActionRegex.Pattern.Item

/-!
# Cursors and escapes

A reader takes the bytes from a cursor on and gives what it read with the cursor after it. An escape
starts with a backslash; in a class or on its own it may stand for a set, elsewhere only for a byte.
Reading an escape consumes at least one byte after the backslash, which the lemmas `…_rest` say.
-/

namespace ActionRegex.Pattern

/-- A position in a text and the bytes from there on. -/
structure Cursor where
  pos : Nat
  rest : Bytes
  deriving DecidableEq

/-- A character that has no place here. It is shown whole, also when only its first byte was read as
part of something else, and marked up to the end of the text at most. -/
def unexpectedChar (cursor : Cursor) : Error :=
  let found := Bytes.firstChar cursor.rest
  ⟨.unexpectedChar found,
    ⟨cursor.pos, min (cursor.pos + found.utf8Size) (cursor.pos + cursor.rest.length)⟩⟩

/-- Reads an escape that stands for one byte; `start` is the position of the backslash. -/
def readEscapedByte (start : Nat) : Bytes → Except Error (UInt8 × Cursor)
  | [] => .error ⟨.unexpectedEnd, ⟨start, start + 1⟩⟩
  | b :: rest =>
    if Ascii.isHigh b then .error (unexpectedChar ⟨start + 1, b :: rest⟩)
    else if b = Ascii.ofChar 'n' then .ok (Ascii.newline, ⟨start + 2, rest⟩)
    else if b = Ascii.ofChar 'r' then .ok (Ascii.carriageReturn, ⟨start + 2, rest⟩)
    else if b = Ascii.ofChar 't' then .ok (Ascii.tab, ⟨start + 2, rest⟩)
    else if b = Ascii.ofChar 'e' then .ok (Ascii.escape, ⟨start + 2, rest⟩)
    else if b = Ascii.ofChar 'x' then
      match rest with
      | hi :: lo :: rest =>
        match Ascii.hexValue? hi, Ascii.hexValue? lo with
        | some high, some low => .ok (16 * high + low, ⟨start + 4, rest⟩)
        | _, _ => .error ⟨.invalidEscape, ⟨start, start + 4⟩⟩
      | short => .error ⟨.invalidEscape, ⟨start, start + 2 + short.length⟩⟩
    else if b = Ascii.ofChar 'c' then
      match rest with
      | [] => .error ⟨.unexpectedEnd, ⟨start, start + 2⟩⟩
      | control :: rest => .ok (control &&& 0x1f, ⟨start + 3, rest⟩)
    else .ok (b, ⟨start + 2, rest⟩)

/-- Reads an escape where sets are allowed, as the byte or the set that it stands for. -/
def readEscape (start : Nat) (input : Bytes) : Except Error ((UInt8 ⊕ ByteSet) × Cursor) :=
  match input.head?.bind ByteSet.ofEscape? with
  | some set => .ok (.inr set, ⟨start + 2, input.tail⟩)
  | none =>
    match readEscapedByte start input with
    | .ok (b, next) => .ok (.inl b, next)
    | .error e => .error e

theorem readEscapedByte_rest {start : Nat} {input : Bytes} {b : UInt8} {next : Cursor}
    (h : readEscapedByte start input = .ok (b, next)) : next.rest.length < input.length := by
  unfold readEscapedByte at h
  split at h
  · simp at h
  · repeat' split at h
    all_goals first
      | (simp only [reduceCtorEq] at h)
      | (simp only [Except.ok.injEq, Prod.mk.injEq] at h
         obtain ⟨-, rfl⟩ := h
         simp_all; try omega)

theorem readEscape_rest {start : Nat} {input : Bytes} {r : UInt8 ⊕ ByteSet} {next : Cursor}
    (h : readEscape start input = .ok (r, next)) : next.rest.length < input.length := by
  unfold readEscape at h
  split at h
  · next set hset =>
    cases input with
    | nil => simp at hset
    | cons b rest =>
      simp only [List.tail_cons, Except.ok.injEq, Prod.mk.injEq] at h
      obtain ⟨-, rfl⟩ := h
      simp
  · split at h
    · next b next' hb =>
      simp only [Except.ok.injEq, Prod.mk.injEq] at h
      obtain ⟨-, rfl⟩ := h
      exact readEscapedByte_rest hb
    · simp at h

end ActionRegex.Pattern
