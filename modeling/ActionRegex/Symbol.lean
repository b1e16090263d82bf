import ActionRegex.Text.Ascii

/-!
# The extended alphabet

A symbol is a byte of the input or an action, which means "fire action `n` here without consuming
input". Bytes come before actions and actions follow their index; `Symbol.rank` is the position in
that order, and it determines the symbol.
-/

namespace ActionRegex

/-- A member of the alphabet of the automata. -/
inductive Symbol where
  /-- A literal byte. -/
  | byte (value : UInt8)
  /-- The action with the given index in the registry. -/
  | action (index : Nat)
  deriving DecidableEq, Inhabited

namespace Symbol

/-- The position of a symbol in the alphabet: the bytes first, then the actions. -/
def rank : Symbol → Nat
  | byte value => value.toNat
  | action index => 256 + index

instance : LT Symbol := ⟨fun a b => a.rank < b.rank⟩

instance : DecidableLT Symbol := fun a b => inferInstanceAs (Decidable (a.rank < b.rank))

theorem lt_iff_rank_lt {a b : Symbol} : a < b ↔ a.rank < b.rank := Iff.rfl

/-- A symbol is determined by its position. -/
theorem rank_inj {a b : Symbol} : a.rank = b.rank ↔ a = b := by
  constructor
  · intro h
    cases a with
    | byte x =>
      cases b with
      | byte y => exact congrArg byte (UInt8.toNat_inj.mp h)
      | action n => have := x.toNat_lt; simp only [rank] at h; omega
    | action m =>
      cases b with
      | byte y => have := y.toNat_lt; simp only [rank] at h; omega
      | action n => simp only [rank] at h; exact congrArg action (by omega)
  · rintro rfl; rfl

/-- The symbols in ascending order, repetitions kept. -/
def sort (symbols : List Symbol) : List Symbol :=
  symbols.mergeSort fun a b => a.rank ≤ b.rank

def isAction : Symbol → Bool
  | byte _ => false
  | action _ => true

/-- The byte of a byte symbol. -/
def toByte? : Symbol → Option UInt8
  | byte value => some value
  | action _ => none

/-- How a symbol is shown: a byte as `Ascii.display`, an action as its index after an `@`. -/
def display : Symbol → String
  | byte value => Ascii.display value
  | action index => "@" ++ toString index

end Symbol

end ActionRegex
