import ActionRegex.Ascending
import ActionRegex.Symbol

/-!
# Deterministic automata over symbols

An automaton with at most one transition per state and symbol, where actions are symbols like bytes.
A transition may carry actions that fire when it is taken, and a state may have actions that fire
whenever it is entered. State 0 is the initial state.
-/

namespace ActionRegex

namespace SymbolDfa

/-- The number of sets of `n` things. -/
def setCount (n : Nat) : Nat := Nat.pow 2 n

/-- Where a transition leads, and the actions it fires, in ascending order. -/
structure Transition where
  target : Nat
  actions : List Nat := []
  deriving DecidableEq, Inhabited

/-- A state with its transitions by symbol, in ascending order. -/
structure State where
  accept : Bool := false
  transitions : List (Symbol × Transition) := []
  /-- The actions that fire when the state is entered. -/
  entry : List Nat := []
  deriving DecidableEq, Inhabited

/-- The first transition on an action, with that action. -/
def State.firstAction? (s : State) : Option (Nat × Transition) :=
  s.transitions.findSome? fun entry =>
    match entry with
    | (.action index, t) => some (index, t)
    | (.byte _, _) => none

end SymbolDfa

/-- A deterministic automaton over bytes and actions. -/
structure SymbolDfa where
  states : Array SymbolDfa.State
  deriving DecidableEq, Inhabited

namespace SymbolDfa

/-- The number of states. -/
def size (dfa : SymbolDfa) : Nat := dfa.states.size

/-- A state; a number without a state has no transitions and does not accept. -/
def state (dfa : SymbolDfa) (id : Nat) : State := dfa.states.getD id {}

/-- The actions that label transitions, in ascending order. -/
def actionLabels (dfa : SymbolDfa) : List Nat :=
  Ascending.ofList (dfa.states.toList.flatMap fun s => s.transitions.filterMap fun entry =>
    match entry.1 with
    | .action index => some index
    | .byte _ => none)

end SymbolDfa

end ActionRegex
