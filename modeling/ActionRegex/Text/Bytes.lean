import ActionRegex.Text.Ascii

/-!
# Text as bytes

Patterns, macro bodies and action fragments are UTF-8 text that is scanned byte by byte, with byte
offsets as positions. `Bytes.ofString` and `Bytes.text` pass between the two views;
`Bytes.firstChar` gives the character that a byte sequence starts with.
-/

namespace ActionRegex

/-- A sequence of bytes, usually UTF-8 text. -/
abbrev Bytes := List UInt8

namespace Bytes

/-- The UTF-8 encoding of a text. -/
def ofString (text : String) : Bytes := text.toList.flatMap String.utf8EncodeChar

/-- The text that the bytes encode, if they are well-formed UTF-8. -/
def text? (bytes : Bytes) : Option String := String.fromUTF8? bytes.toByteArray

/-- The character shown where no character can be decoded. -/
def replacementChar : Char := '\uFFFD'

/-- The text that the bytes encode. Bytes that encode no text give the replacement character. -/
def text (bytes : Bytes) : String :=
  (text? bytes).getD (String.ofList [replacementChar])

/-- The character that the bytes start with, or the replacement character if none starts there. -/
def firstChar (bytes : Bytes) : Char :=
  ((bytes.take 4).toByteArray.utf8DecodeChar? 0).getD replacementChar

theorem ofString_append (s t : String) : ofString (s ++ t) = ofString s ++ ofString t := by
  rw [ofString, String.toList_append, List.flatMap_append]
  rfl

/-- The text of the bytes of a text is that text. -/
theorem text_ofString (s : String) : text (ofString s) = s := by
  have hbytes : (ofString s).toByteArray = s.toByteArray := by
    rw [ofString, ← String.utf8Encode_toList]
    rfl
  rw [text, text?, hbytes, String.fromUTF8?, dif_pos s.isValidUTF8]
  rfl

theorem ofString_injective : Function.Injective ofString :=
  Function.LeftInverse.injective text_ofString

end Bytes

end ActionRegex
