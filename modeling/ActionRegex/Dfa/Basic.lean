import ActionRegex.Ascending
import ActionRegex.Text.Ascii

/-!
# Deterministic automata over bytes

The final automaton has byte transitions only. State 0 is the initial state. The state that rejects
is not stored: its number is the number of states, and every byte without a transition leads to it.
A transition fires its actions and knows whether its target accepts.
-/

namespace ActionRegex

namespace Dfa

/-- Where a byte leads, the actions it fires, in ascending order, and whether it ends in an
accepting state. -/
structure Transition where
  target : Nat
  actions : List Nat
  accept : Bool
  deriving DecidableEq, Inhabited

/-- A state with its transitions by byte, in ascending order. -/
structure State where
  accept : Bool := false
  transitions : List (UInt8 × Transition) := []
  deriving DecidableEq, Inhabited

/-- The transition on a byte. -/
def State.on? (s : State) (b : UInt8) : Option Transition := Ascending.get? b s.transitions

end Dfa

/-- A deterministic automaton over bytes. -/
structure Dfa where
  states : Array Dfa.State
  deriving DecidableEq, Inhabited

namespace Dfa

/-- Where every run starts. -/
def initial : Nat := 0

/-- The number of states, without the rejecting one. -/
def size (dfa : Dfa) : Nat := dfa.states.size

/-- The number of the rejecting state. -/
def reject (dfa : Dfa) : Nat := dfa.size

/-- A state; a number without a state has no transitions and does not accept. -/
def state (dfa : Dfa) (id : Nat) : State := dfa.states.getD id {}

/-- The state that a byte leads to. -/
def next (dfa : Dfa) (id : Nat) (b : UInt8) : Nat :=
  (((dfa.state id).on? b).map Transition.target).getD dfa.reject

end Dfa

end ActionRegex
