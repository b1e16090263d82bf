import ActionRegex.DepthFirst
import ActionRegex.Dfa.Basic
import ActionRegex.SymbolDfa.Basic

/-!
# Numbering states

A folded automaton is reduced to the states that can be reached from its initial state, and these
are numbered in the order of a depth-first search along ascending symbols. A transition gets the
actions of the state it enters.
-/

namespace ActionRegex.Dfa

/-- The states that can be reached, in the order of their new numbers. -/
def order (dfa : SymbolDfa) : List Nat :=
  DepthFirst.search dfa.size (fun id => (dfa.state id).transitions.map fun entry => entry.2.target)
    [initial]

/-- A transition with its new target. A transition on an action has no place here. -/
def numberTransition? (dfa : SymbolDfa) (order : List Nat) (entry : Symbol × SymbolDfa.Transition) :
    Option (UInt8 × Transition) :=
  match entry with
  | (.action _, _) => none
  | (.byte b, t) =>
    (order.idxOf? t.target).map fun target =>
      let entered := dfa.state t.target
      (b, ⟨target, Ascending.union t.actions entered.entry, entered.accept⟩)

/-- A state with its transitions renumbered. -/
def numberState? (dfa : SymbolDfa) (order : List Nat) (id : Nat) : Option State :=
  ((dfa.state id).transitions.mapM (numberTransition? dfa order)).map fun transitions =>
    { accept := (dfa.state id).accept, transitions }

/-- The automaton over bytes, if no action is left on a transition that can be reached. -/
def ofSymbolDfa? (dfa : SymbolDfa) : Option Dfa :=
  let order := order dfa
  (order.mapM (numberState? dfa order)).map fun states => ⟨states.toArray⟩

end ActionRegex.Dfa
