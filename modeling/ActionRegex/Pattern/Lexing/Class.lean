import ActionRegex.Pattern.Lexing.Escape

/-!
# Classes

A class is a list of items in brackets: bytes, ranges, the dot and escapes that stand for a set. It
denotes the union of its items, or with a caret in front all other bytes.
-/

namespace ActionRegex.Pattern

/-- A range of bytes, refused if it ends before it starts. -/
def closeRange (itemStart : Nat) (first last : UInt8) (next : Cursor) :
    Except Error (ByteSet × Cursor) :=
  if last < first then .error ⟨.backwardRange first last, ⟨itemStart, next.pos⟩⟩
  else .ok (ByteSet.range first last, next)

/-- Reads what may follow the first byte of a class item: nothing, or a minus and the last byte of a
range. A minus before the closing bracket or the end is an item of its own. -/
def readRange (itemStart : Nat) (first : UInt8) (cursor : Cursor) :
    Except Error (ByteSet × Cursor) :=
  match cursor.rest with
  | minus :: last :: rest =>
    if minus = Ascii.minus ∧ last ≠ Ascii.rightBracket then
      if last = Ascii.backslash then
        match readEscapedByte (cursor.pos + 1) rest with
        | .error e => .error e
        | .ok (value, next) => closeRange itemStart first value next
      else closeRange itemStart first last ⟨cursor.pos + 2, rest⟩
    else .ok (ByteSet.singleton first, cursor)
  | _ => .ok (ByteSet.singleton first, cursor)

/-- Reads one item of a class as the set of its bytes, or the bracket that closes the class. -/
def readClassItem (start : Nat) (cursor : Cursor) : Except Error (Option ByteSet × Cursor) :=
  match cursor.rest with
  | [] => .error ⟨.unterminatedClass, ⟨start, cursor.pos⟩⟩
  | b :: rest =>
    if b = Ascii.rightBracket then .ok (none, ⟨cursor.pos + 1, rest⟩)
    else if b = Ascii.dot then .ok (some ByteSet.dot, ⟨cursor.pos + 1, rest⟩)
    else if b = Ascii.backslash then
      match readEscape cursor.pos rest with
      | .error e => .error e
      | .ok (.inr set, next) => .ok (some set, next)
      | .ok (.inl first, next) => (readRange cursor.pos first next).map (Prod.map some id)
    else (readRange cursor.pos b ⟨cursor.pos + 1, rest⟩).map (Prod.map some id)

theorem closeRange_rest {itemStart : Nat} {first last : UInt8} {cursor next : Cursor}
    {set : ByteSet} (h : closeRange itemStart first last cursor = .ok (set, next)) :
    next = cursor := by
  unfold closeRange at h
  split at h
  · simp at h
  · simp only [Except.ok.injEq, Prod.mk.injEq] at h
    exact h.2.symm

theorem readRange_rest {itemStart : Nat} {first : UInt8} {cursor next : Cursor} {set : ByteSet}
    (h : readRange itemStart first cursor = .ok (set, next)) :
    next.rest.length ≤ cursor.rest.length := by
  unfold readRange at h
  split at h
  · next minus last rest hrest =>
    split at h
    · split at h
      · split at h
        · simp at h
        · next value next' hescape =>
          have := readEscapedByte_rest hescape
          rw [closeRange_rest h, hrest]
          simp; omega
      · rw [closeRange_rest h, hrest]
        simp; omega
    · simp only [Except.ok.injEq, Prod.mk.injEq] at h
      obtain ⟨-, rfl⟩ := h
      exact Nat.le_refl _
  · simp only [Except.ok.injEq, Prod.mk.injEq] at h
    obtain ⟨-, rfl⟩ := h
    exact Nat.le_refl _

theorem map_some_rest {itemStart : Nat} {first : UInt8} {cursor next : Cursor}
    {set : Option ByteSet}
    (h : (readRange itemStart first cursor).map (Prod.map some id) = .ok (set, next)) :
    next.rest.length ≤ cursor.rest.length := by
  cases hrange : readRange itemStart first cursor with
  | error e => simp [hrange, Except.map] at h
  | ok r =>
    obtain ⟨members, next'⟩ := r
    simp only [hrange, Except.map, Prod.map_apply, id_eq, Except.ok.injEq, Prod.mk.injEq] at h
    rw [← h.2]
    exact readRange_rest hrange

theorem readClassItem_rest {start : Nat} {cursor next : Cursor} {set : Option ByteSet}
    (h : readClassItem start cursor = .ok (set, next)) :
    next.rest.length < cursor.rest.length := by
  unfold readClassItem at h
  split at h
  · simp at h
  · next b rest hrest =>
    rw [hrest, List.length_cons]
    split at h
    · simp only [Except.ok.injEq, Prod.mk.injEq] at h
      simp [← h.2]
    · split at h
      · simp only [Except.ok.injEq, Prod.mk.injEq] at h
        simp [← h.2]
      · split at h
        · split at h
          · simp at h
          · next set' next' hescape =>
            have := readEscape_rest hescape
            simp only [Except.ok.injEq, Prod.mk.injEq] at h
            rw [← h.2]; omega
          · next first next' hescape =>
            have := readEscape_rest hescape
            have := map_some_rest h
            omega
        · have := map_some_rest h
          simp only at this
          omega

/-- Reads the items of a class up to the closing bracket and joins their sets. -/
def readClassItems (start : Nat) (cursor : Cursor) (set : ByteSet) :
    Except Error (ByteSet × Cursor) :=
  match _h : readClassItem start cursor with
  | .error e => .error e
  | .ok (none, next) => .ok (set, next)
  | .ok (some members, next) => readClassItems start next (set.union members)
termination_by cursor.rest.length
decreasing_by exact readClassItem_rest _h

theorem readClassItems_rest {start : Nat} {cursor next : Cursor} {set result : ByteSet}
    (h : readClassItems start cursor set = .ok (result, next)) :
    next.rest.length < cursor.rest.length := by
  fun_induction readClassItems start cursor set with
  | case1 => simp at h
  | case2 cursor set next' hitem =>
    have := readClassItem_rest hitem
    simp only [Except.ok.injEq, Prod.mk.injEq] at h
    obtain ⟨-, rfl⟩ := h
    exact this
  | case3 cursor set members next' hitem ih =>
    have := readClassItem_rest hitem
    have := ih h
    omega

section Steps

variable {start : Nat} {cursor next : Cursor}

theorem readClassItems_of_error {e : Error} (h : readClassItem start cursor = .error e)
    (set : ByteSet) : readClassItems start cursor set = .error e := by
  rw [readClassItems]
  split
  · next herror => rw [Except.error.inj (h.symm.trans herror)]
  · next hnone => exact absurd (h.symm.trans hnone) (by simp)
  · next hsome => exact absurd (h.symm.trans hsome) (by simp)

theorem readClassItems_of_none (h : readClassItem start cursor = .ok (none, next))
    (set : ByteSet) : readClassItems start cursor set = .ok (set, next) := by
  rw [readClassItems]
  split
  · next herror => exact absurd (h.symm.trans herror) (by simp)
  · next hnone => rw [(Prod.mk.inj (Except.ok.inj (h.symm.trans hnone))).2]
  · next hsome => exact absurd (h.symm.trans hsome) (by simp)

theorem readClassItems_of_some {members : ByteSet}
    (h : readClassItem start cursor = .ok (some members, next)) (set : ByteSet) :
    readClassItems start cursor set = readClassItems start next (set.union members) := by
  rw [readClassItems]
  split
  · next herror => exact absurd (h.symm.trans herror) (by simp)
  · next hnone => exact absurd (h.symm.trans hnone) (by simp)
  · next hsome =>
    obtain ⟨hmembers, rfl⟩ := Prod.mk.inj (Except.ok.inj (h.symm.trans hsome))
    rw [Option.some.inj hmembers]

end Steps

/-- Whether a class starts with a caret, which negates it. -/
def isNegated (rest : Bytes) : Bool := rest.head? == some Ascii.caret

/-- The first item of a class whose bracket is at position `start`. -/
def firstItem (start : Nat) (rest : Bytes) : Cursor :=
  if isNegated rest then ⟨start + 2, rest.tail⟩ else ⟨start + 1, rest⟩

/-- The item of a class with the given members. A class without members is refused. -/
def closeClass (start : Nat) (set : ByteSet) (next : Cursor) : Except Error (Item × Cursor) :=
  if set.isEmpty then .error ⟨.emptyClass, ⟨start, next.pos⟩⟩ else .ok (.oneOf set, next)

/-- Reads a class; `start` is the position of its opening bracket, and `rest` follows it. -/
def readClass (start : Nat) (rest : Bytes) : Except Error (Item × Cursor) :=
  match readClassItems start (firstItem start rest) ByteSet.empty with
  | .error e => .error e
  | .ok (members, next) =>
    closeClass start (if isNegated rest then members.complement else members) next

theorem firstItem_rest (start : Nat) (rest : Bytes) :
    (firstItem start rest).rest.length ≤ rest.length := by
  unfold firstItem
  split <;> simp

theorem closeClass_rest {start : Nat} {set : ByteSet} {cursor next : Cursor} {item : Item}
    (h : closeClass start set cursor = .ok (item, next)) : next = cursor := by
  unfold closeClass at h
  split at h
  · simp at h
  · simp only [Except.ok.injEq, Prod.mk.injEq] at h
    exact h.2.symm

theorem readClass_rest {start : Nat} {rest : Bytes} {item : Item} {next : Cursor}
    (h : readClass start rest = .ok (item, next)) : next.rest.length ≤ rest.length := by
  unfold readClass at h
  split at h
  · simp at h
  · next members next' hitems =>
    have := readClassItems_rest hitems
    have := firstItem_rest start rest
    rw [closeClass_rest h]
    omega

end ActionRegex.Pattern
