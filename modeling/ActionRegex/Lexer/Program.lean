import ActionRegex.Compiler
import ActionRegex.Dfa.TransitionSet

/-!
# Lexer programs

The lexer that is generated for an automaton is a switch over the current state. Each case tests the
next byte against the transition sets of its state in turn; the first that contains the byte runs
its action text and accepts or changes the state. A byte that no set contains fails. Here that
program is data; its text is made in `Lexer.Source`.

Accepting states other than the initial one are never stored, since a lexer that accepts stays where
it is. They have no case.
-/

namespace ActionRegex.Lexer

/-- A test of the next byte. -/
inductive Test where
  | between (first last : UInt8)
  | equals (value : UInt8)
  deriving DecidableEq

/-- How a branch ends. -/
inductive Effect where
  /-- A match is complete; the state stays. -/
  | accept
  /-- The state with the given number is next. -/
  | goto (state : Nat)
  /-- The state after the current one is next. -/
  | increment
  deriving DecidableEq

/-- What happens for the bytes that pass one of the tests. -/
structure Branch where
  tests : List Test
  /-- The text of the actions, if the transition has any. -/
  action : Option Bytes
  effect : Effect
  deriving DecidableEq

/-- The branches of a state. -/
structure Case where
  state : Nat
  branches : List Branch
  deriving DecidableEq

/-- The cases of a lexer, in the order of their states. -/
structure Program where
  cases : List Case
  deriving DecidableEq

/-- The tests of a transition set: its ranges, then its points. -/
def testsOf (set : Dfa.TransitionSet) : List Test :=
  set.ranges.map (fun range => .between range.1 range.2) ++ set.points.map .equals

/-- How a transition from state `source` ends. With `increments`, going to the state after the
current one is an increment. -/
def effectOf (increments : Bool) (source : Nat) (set : Dfa.TransitionSet) : Effect :=
  if set.accept then .accept
  else if increments && set.target == source + 1 then .increment
  else .goto set.target

/-- The branch of a transition set. -/
def branchOf (registry : Registry) (increments : Bool) (source : Nat) (set : Dfa.TransitionSet) :
    Branch :=
  { tests := testsOf set
    action := if set.actions.isEmpty then none else some (registry.text set.actions)
    effect := effectOf increments source set }

/-- Whether a lexer can be in a state. -/
def isStored (id : Nat) (s : Dfa.State) : Bool := id == Dfa.initial || !s.accept

/-- The case of a state, if a lexer can be in it. -/
def caseOf? (registry : Registry) (increments : Bool) (id : Nat) (s : Dfa.State) : Option Case :=
  if isStored id s then some ⟨id, s.sets.map (branchOf registry increments id)⟩ else none

/-- The lexer program of an automaton. -/
def Program.ofAutomaton (increments : Bool) (automaton : Automaton) : Program :=
  ⟨(automaton.dfa.states.toList.mapIdx (caseOf? automaton.registry increments)).filterMap id⟩

end ActionRegex.Lexer
