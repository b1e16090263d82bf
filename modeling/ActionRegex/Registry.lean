import ActionRegex.Text.Bytes

/-!
# The action registry

Action fragments are opaque text, kept in the order in which they are found and named by their index
from then on. The registry also holds the header lines of a rule file, which a generated lexer
splits between its header and its body.
-/

namespace ActionRegex

/-- Action fragments by index, and header lines. -/
structure Registry where
  fragments : Array Bytes := #[]
  header : List String := []
  deriving DecidableEq, Inhabited

namespace Registry

/-- The registry without fragments and header lines. -/
def empty : Registry := {}

/-- The number of fragments. -/
def size (registry : Registry) : Nat := registry.fragments.size

/-- Appends a fragment, which gets the index `registry.size`. -/
def add (registry : Registry) (text : Bytes) : Registry :=
  { registry with fragments := registry.fragments.push text }

/-- The fragment with an index. -/
def get? (registry : Registry) (index : Nat) : Option Bytes := registry.fragments[index]?

/-- The text of several fragments, one after the other. Indexes without a fragment add nothing. -/
def text (registry : Registry) (indexes : List Nat) : Bytes :=
  (indexes.filterMap registry.get?).flatten

/-- All fragments in the order of their indexes. -/
def toList (registry : Registry) : List Bytes := registry.fragments.toList

@[simp] theorem size_add (registry : Registry) (text : Bytes) :
    (registry.add text).size = registry.size + 1 := by
  simp [size, add]

@[simp] theorem toList_add (registry : Registry) (text : Bytes) :
    (registry.add text).toList = registry.toList ++ [text] := by
  simp [toList, add]

theorem get?_add_self (registry : Registry) (text : Bytes) :
    (registry.add text).get? registry.size = some text := by
  simp [get?, add, size]

@[simp] theorem header_add (registry : Registry) (text : Bytes) :
    (registry.add text).header = registry.header := rfl

/-! ## Header lines -/

/-- Whether `part` stands somewhere in the list. -/
def containsPart (part : List Char) : List Char → Bool
  | [] => part.isEmpty
  | c :: rest => part.isPrefixOf (c :: rest) || containsPart part rest

theorem containsPart_iff {part list : List Char} :
    containsPart part list = true ↔ part <:+: list := by
  induction list with
  | nil => rw [containsPart, List.isEmpty_iff, List.infix_nil]
  | cons c rest ih =>
    rw [containsPart, Bool.or_eq_true, ih, List.isPrefixOf_iff_prefix, List.infix_cons_iff]

/-- Whether a header line belongs to the header of a generated lexer. -/
def isInclude (line : String) : Bool := containsPart "#include".toList line.toList

/-- The header lines for the header of a generated lexer. -/
def includeLines (registry : Registry) : List String := registry.header.filter isInclude

/-- The header lines for the body of a generated lexer. -/
def bodyLines (registry : Registry) : List String :=
  registry.header.filter fun line => !isInclude line

end Registry

end ActionRegex
