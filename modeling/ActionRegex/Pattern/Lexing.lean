import ActionRegex.Pattern.Lexing.Block
import ActionRegex.Pattern.Lexing.Bounds
import ActionRegex.Pattern.Lexing.Class
import ActionRegex.Pattern.Lexing.Quoted

/-!
# Reading items

`lex` splits the bytes of a pattern into items. Each kind of item has a reader that starts right
after the byte that introduces it. A reader never gives back what it has read, which is why the loop
over items ends.
-/

namespace ActionRegex.Pattern

/-- The item that a byte is on its own. -/
def ofPunctuation? (b : UInt8) : Option Item :=
  if b = Ascii.leftParen then some .opening
  else if b = Ascii.rightParen then some .closing
  else if b = Ascii.bar then some .bar
  else if b = Ascii.star then some (.repetition 0 none)
  else if b = Ascii.plus then some (.repetition 1 none)
  else if b = Ascii.question then some (.repetition 0 (some 1))
  else if b = Ascii.dot then some (.oneOf ByteSet.dot)
  else none

/-- Whether what follows an opening brace makes it a repetition. -/
def startsBounds (rest : Bytes) : Bool :=
  rest.head?.any fun b => Ascii.isDigit b || b == Ascii.comma

/-- Whether a byte is an item of its own that stands for itself. -/
def isLiteral (b : UInt8) : Bool :=
  Ascii.isGraphic b && b != Ascii.rightBracket && b != Ascii.rightBrace

/-- An escape as an item. -/
def readEscapeItem (pos : Nat) (rest : Bytes) : Except Error (Item × Cursor) :=
  match readEscape pos rest with
  | .error e => .error e
  | .ok (.inl value, next) => .ok (.byte value, next)
  | .ok (.inr set, next) => .ok (.oneOf set, next)

/-- Quoted text as an item. -/
def readQuotedItem (pos : Nat) (delimiter : UInt8) (rest : Bytes) :
    Except Error (Item × Cursor) :=
  match readQuoted delimiter pos ⟨pos + 1, rest⟩ [] with
  | .error e => .error e
  | .ok (bytes, next) => .ok (.quoted bytes, next)

/-- A name: the longest run of letters, digits and underscores. -/
def readName (pos : Nat) (b : UInt8) (rest : Bytes) : Item × Cursor :=
  let tail := rest.takeWhile Ascii.isWordByte
  (.name (b :: tail), ⟨pos + 1 + tail.length, rest.dropWhile Ascii.isWordByte⟩)

/-- Reads the item that starts with byte `b` at position `pos`; `rest` follows that byte. -/
def readItem (pos : Nat) (b : UInt8) (rest : Bytes) : Except Error (Item × Cursor) :=
  match ofPunctuation? b with
  | some item => .ok (item, ⟨pos + 1, rest⟩)
  | none =>
    if b = Ascii.leftBrace then
      if startsBounds rest then readRepetition pos rest else readAction pos rest
    else if b = Ascii.leftBracket then readClass pos rest
    else if b = Ascii.backslash then readEscapeItem pos rest
    else if b = Ascii.quote ∨ b = Ascii.doubleQuote then readQuotedItem pos b rest
    else if Ascii.isLetter b then .ok (readName pos b rest)
    else if isLiteral b then .ok (.byte b, ⟨pos + 1, rest⟩)
    else .error (unexpectedChar ⟨pos, b :: rest⟩)

theorem readEscapeItem_rest {pos : Nat} {rest : Bytes} {item : Item} {next : Cursor}
    (h : readEscapeItem pos rest = .ok (item, next)) : next.rest.length ≤ rest.length := by
  unfold readEscapeItem at h
  split at h
  · simp at h
  all_goals
    next hescape =>
    have := readEscape_rest hescape
    simp only [Except.ok.injEq, Prod.mk.injEq] at h
    rw [← h.2]; omega

theorem readQuotedItem_rest {pos : Nat} {delimiter : UInt8} {rest : Bytes} {item : Item}
    {next : Cursor} (h : readQuotedItem pos delimiter rest = .ok (item, next)) :
    next.rest.length ≤ rest.length := by
  unfold readQuotedItem at h
  split at h
  · simp at h
  · next hquoted =>
    have := readQuoted_rest hquoted
    simp only [Except.ok.injEq, Prod.mk.injEq] at h
    rw [← h.2]
    simp only at this
    omega

theorem readItem_rest {pos : Nat} {b : UInt8} {rest : Bytes} {item : Item} {next : Cursor}
    (h : readItem pos b rest = .ok (item, next)) : next.rest.length ≤ rest.length := by
  unfold readItem at h
  split at h
  · simp only [Except.ok.injEq, Prod.mk.injEq] at h
    simp [← h.2]
  · split at h
    · split at h
      · exact readRepetition_rest h
      · exact readAction_rest h
    · split at h
      · exact readClass_rest h
      · split at h
        · exact readEscapeItem_rest h
        · split at h
          · exact readQuotedItem_rest h
          · split at h
            · simp only [readName, Except.ok.injEq, Prod.mk.injEq] at h
              simpa [← h.2] using length_dropWhile_le rest
            · split at h
              · simp only [Except.ok.injEq, Prod.mk.injEq] at h
                simp [← h.2]
              · simp at h

/-- Reads items from a cursor on; the items read so far come latest first. -/
def lexFrom (cursor : Cursor) (read : List (Item × Span)) : Reading Error :=
  match _hrest : cursor.rest with
  | [] => ⟨read.reverse, none⟩
  | b :: rest =>
    if Ascii.isBlank b then lexFrom ⟨cursor.pos + 1, rest⟩ read
    else
      match _h : readItem cursor.pos b rest with
      | .error e => ⟨read.reverse, some e⟩
      | .ok (item, next) => lexFrom next ((item, ⟨cursor.pos, next.pos⟩) :: read)
termination_by cursor.rest.length
decreasing_by
  · simp [_hrest]
  · have := readItem_rest _h
    simp [_hrest]; omega

/-- Splits a pattern into its items. -/
def lex (pattern : Bytes) : Reading Error := lexFrom ⟨0, pattern⟩ []

end ActionRegex.Pattern
