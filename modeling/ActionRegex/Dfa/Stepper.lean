import ActionRegex.Dfa.Basic

/-!
# Steppers

A stepper runs an automaton one byte at a time. A byte that completes a match fires its actions and
leaves the stepper where it is; one that continues a match moves it on; one that cannot be part of a
match moves it back to the initial state.
-/

namespace ActionRegex.Dfa

/-- What a byte did. -/
inductive Outcome where
  /-- It completed a match. -/
  | accept
  /-- It was consumed, and the match is still in progress. -/
  | continue
  /-- It cannot be part of a match. -/
  | fail
  deriving DecidableEq

/-- The result of a step: the outcome, the state after it, and the actions fired. -/
structure Step where
  outcome : Outcome
  state : Nat
  fired : List Nat
  deriving DecidableEq

/-- Consumes a byte in a state. -/
def step (dfa : Dfa) (id : Nat) (b : UInt8) : Step :=
  match (dfa.state id).on? b with
  | none => ⟨.fail, initial, []⟩
  | some t => if t.accept then ⟨.accept, id, t.actions⟩ else ⟨.continue, t.target, t.actions⟩

end ActionRegex.Dfa
