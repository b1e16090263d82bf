import ActionRegex.Symbol

/-!
# Notes

What the stages of a compilation have to say about it: a list of notes, in the order of the stages.
Each note has a level and a wording.
-/

namespace ActionRegex

/-- How important a note is. -/
inductive Note.Level where
  | debug
  | info
  | warn
  deriving DecidableEq

/-- A remark of a stage. -/
inductive Note where
  /-- The size of the nondeterministic automaton. -/
  | nfaBuilt (states : Nat)
  /-- How many symbols of each kind the automaton has. -/
  | alphabet (bytes actions : Nat)
  /-- Two transitions of a state on one symbol became one, though they fired different actions. -/
  | merged (symbol : Symbol) (state : Nat)
  /-- How many transitions on actions were folded, and how many union states that took. -/
  | folded (transitions unions : Nat)
  /-- The number of states before and after folding. -/
  | dfaBuilt (subsets states : Nat)
  /-- The sizes of a tree and its automata. -/
  | compiled (nodes nfaStates dfaStates : Nat)
  /-- The name of a generated lexer and the number of its cases. -/
  | lexerWritten (lexer : String) (cases : Nat)
  deriving DecidableEq

namespace Note

def level : Note → Level
  | merged _ _ => .warn
  | compiled _ _ _ => .info
  | _ => .debug

def message : Note → String
  | nfaBuilt states => s!"NFA has {states} states"
  | alphabet bytes actions => s!"extended alphabet has {bytes} bytes and {actions} actions"
  | merged symbol state =>
    "transitions on " ++ symbol.display ++ " in state " ++ toString state ++
      " fire different actions, the actions of both are merged"
  | folded transitions unions =>
    s!"folded {transitions} action transitions, {unions} union states created"
  | dfaBuilt subsets states =>
    s!"DFA has {subsets} states after the powerset construction and {states} after folding actions"
  | compiled nodes nfaStates dfaStates =>
    s!"compiled pattern with {nodes} AST nodes into {nfaStates} NFA states " ++
      s!"and {dfaStates} DFA states"
  | lexerWritten lexer cases => s!"generated lexer `{lexer}` with {cases} cases"

end Note

end ActionRegex
