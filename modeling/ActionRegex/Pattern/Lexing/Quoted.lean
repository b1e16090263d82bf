import ActionRegex.Pattern.Lexing.Escape

/-!
# Quoted text

Text between two equal quotes, in which escapes stand for single bytes. The loop ends because each
step leaves fewer bytes to read.
-/

namespace ActionRegex.Pattern

/-- Reads quoted text up to its delimiter; `start` is the position of the opening one, and the bytes
read so far come latest first. -/
def readQuoted (delimiter : UInt8) (start : Nat) (cursor : Cursor) (read : Bytes) :
    Except Error (Bytes × Cursor) :=
  match _hrest : cursor.rest with
  | [] => .error ⟨.unexpectedEnd, ⟨start, cursor.pos⟩⟩
  | b :: rest =>
    if b = delimiter then .ok (read.reverse, ⟨cursor.pos + 1, rest⟩)
    else if b = Ascii.backslash then
      match _h : readEscapedByte cursor.pos rest with
      | .error e => .error e
      | .ok (value, next) => readQuoted delimiter start next (value :: read)
    else readQuoted delimiter start ⟨cursor.pos + 1, rest⟩ (b :: read)
termination_by cursor.rest.length
decreasing_by
  · have := readEscapedByte_rest _h
    simp [_hrest]; omega
  · simp [_hrest]

theorem readQuoted_rest {delimiter : UInt8} {start : Nat} {cursor : Cursor} {read bytes : Bytes}
    {next : Cursor} (h : readQuoted delimiter start cursor read = .ok (bytes, next)) :
    next.rest.length < cursor.rest.length := by
  fun_induction readQuoted delimiter start cursor read with
  | case1 => simp at h
  | case2 =>
    simp only [Except.ok.injEq, Prod.mk.injEq] at h
    obtain ⟨-, rfl⟩ := h
    simp_all
  | case3 => simp at h
  | case4 cursor read rest value next' hescape hrest _ ih =>
    have := readEscapedByte_rest hescape
    have := ih h
    simp [hrest]; omega
  | case5 cursor read b rest hrest _ _ ih =>
    have := ih h
    simp at this
    simp [hrest]; omega

end ActionRegex.Pattern
