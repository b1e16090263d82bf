import ActionRegex.Dfa.Basic
import ActionRegex.Text.Bytes

/-!
# Transition tables

A dense table has one row of 256 targets per state and one for the rejecting state, which leads only
to itself. Matching walks the table and stops as soon as it rejects.
-/

namespace ActionRegex.Dfa

/-- The number of bytes, and so of cells in a row. -/
def rowLength : Nat := 256

/-- The targets of all states and bytes, row by row. -/
structure Table where
  cells : Array Nat
  accept : Array Bool
  reject : Nat

namespace Table

/-- The table of an automaton. -/
def ofDfa (dfa : Dfa) : Table :=
  { cells := Array.ofFn fun cell : Fin ((dfa.size + 1) * rowLength) =>
      dfa.next (cell / rowLength) (UInt8.ofNat (cell % rowLength))
    accept := Array.ofFn fun row : Fin (dfa.size + 1) => (dfa.state row).accept
    reject := dfa.reject }

/-- The number of rows, the rejecting one included. -/
def rows (table : Table) : Nat := table.accept.size

/-- The state that a byte leads to. -/
def next (table : Table) (id : Nat) (b : UInt8) : Nat :=
  table.cells.getD (id * rowLength + b.toNat) table.reject

def isAccept (table : Table) (id : Nat) : Bool := table.accept.getD id false

/-- Whether the input leads from a state to an accepting one, without passing the rejecting one. -/
def accepts (table : Table) (id : Nat) : Bytes → Bool
  | [] => table.isAccept id
  | b :: rest =>
    let id := table.next id b
    if id = table.reject then false else table.accepts id rest

/-- Whether the whole input is accepted. -/
def isMatch (table : Table) (input : Bytes) : Bool := table.accepts initial input

/-- The states after each byte. -/
def walk (table : Table) (id : Nat) : Bytes → List Nat
  | [] => []
  | b :: rest => table.next id b :: table.walk (table.next id b) rest

end Table

/-- The table of the automaton. -/
def table (dfa : Dfa) : Table := Table.ofDfa dfa

end ActionRegex.Dfa
