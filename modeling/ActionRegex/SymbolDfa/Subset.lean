import ActionRegex.Nfa.Basic
import ActionRegex.SymbolDfa.Basic

/-!
# The subset construction

The states of the deterministic automaton are the sets of states in which a nondeterministic one can
be after some word. They are numbered in the order in which they are found: from the set found last,
along its symbols in ascending order. There are at most as many sets as subsets of the states, and
each is explored once, so that many steps are enough.
-/

namespace ActionRegex.SymbolDfa

/-- A construction under way: the sets found so far with their states, in the order of their
numbers, and the numbers still to explore, latest first. -/
structure Subsets where
  sets : Array (List Nat)
  states : Array State
  frontier : List Nat

namespace Subsets

/-- The state of a set that has not been explored. -/
def stateOf (set : List Nat) : State := { accept := set.contains Nfa.final }

/-- The construction before the first step. -/
def start (nfa : Nfa) : Subsets :=
  let set := nfa.closure [Nfa.initial]
  ⟨#[set], #[stateOf set], [0]⟩

/-- The number of a set, which is added if it is new. -/
def number (subsets : Subsets) (set : List Nat) : Nat × Subsets :=
  match subsets.sets.findIdx? (· == set) with
  | some id => (id, subsets)
  | none =>
    let id := subsets.sets.size
    (id, ⟨subsets.sets.push set, subsets.states.push (stateOf set), id :: subsets.frontier⟩)

/-- Numbers the targets of a set's symbols; the transitions come in the order of the symbols. -/
def numberAll (subsets : Subsets) : List (Symbol × List Nat) → List (Symbol × Transition) × Subsets
  | [] => ([], subsets)
  | (symbol, set) :: rest =>
    let (target, subsets) := subsets.number set
    let (transitions, subsets) := numberAll subsets rest
    ((symbol, { target }) :: transitions, subsets)

/-- Explores the set with a number. -/
def explore (nfa : Nfa) (subsets : Subsets) (id : Nat) : Subsets :=
  let (transitions, subsets) := subsets.numberAll (nfa.moves (subsets.sets.getD id []))
  { subsets with states := subsets.states.modify id fun s => { s with transitions } }

/-- Explores until no set is left, for a number of steps at most. -/
def exploreAll (nfa : Nfa) : Nat → Subsets → Option Subsets
  | steps, subsets =>
    match subsets.frontier with
    | [] => some subsets
    | id :: rest =>
      match steps with
      | 0 => none
      | steps + 1 => exploreAll nfa steps ({ subsets with frontier := rest }.explore nfa id)

end Subsets

/-- The deterministic automaton of a nondeterministic one. -/
def ofNfa? (nfa : Nfa) : Option SymbolDfa :=
  (Subsets.exploreAll nfa (setCount nfa.size) (Subsets.start nfa)).map fun subsets =>
    ⟨subsets.states⟩

end ActionRegex.SymbolDfa
