import ActionRegex.ByteSet
import ActionRegex.Dfa.Basic

/-!
# Transition sets

The transitions of a state, grouped by target and actions: each group has its bytes as ranges, for
runs of three or more consecutive bytes, and single points. Groups come in the order of their lowest
bytes.
-/

namespace ActionRegex.Dfa

/-- The bytes of a state that share target and actions. -/
structure Group where
  target : Nat
  actions : List Nat
  accept : Bool
  /-- The bytes in ascending order. -/
  bytes : Bytes
  deriving DecidableEq

/-- Adds a transition to its group, or as a group of its own at the end. -/
def addToGroups (b : UInt8) (t : Transition) : List Group → List Group
  | [] => [⟨t.target, t.actions, t.accept, [b]⟩]
  | group :: rest =>
    if group.target = t.target ∧ group.actions = t.actions then
      { group with bytes := group.bytes ++ [b] } :: rest
    else group :: addToGroups b t rest

/-- The groups of a state's transitions. -/
def groups (s : State) : List Group :=
  s.transitions.foldl (fun groups entry => addToGroups entry.1 entry.2 groups) []

/-- Splits ascending bytes into runs of consecutive ones. -/
def runs : Bytes → List Bytes
  | [] => []
  | b :: rest =>
    match runs rest with
    | (c :: run) :: more =>
      if b.toNat + 1 = c.toNat then (b :: c :: run) :: more else [b] :: (c :: run) :: more
    | other => [b] :: other

/-- The longest run that is kept as single points. -/
def maxPoints : Nat := 2

/-- A group with its bytes as ranges and points. -/
structure TransitionSet where
  target : Nat
  actions : List Nat
  accept : Bool
  /-- First and last byte of each run of more than two consecutive bytes. -/
  ranges : List (UInt8 × UInt8)
  /-- The other bytes. -/
  points : Bytes
  deriving DecidableEq

namespace TransitionSet

/-- First and last byte of a run that is long enough to be a range. -/
def rangeOfRun? (run : Bytes) : Option (UInt8 × UInt8) :=
  if run.length > maxPoints then
    match run.head?, run.getLast? with
    | some first, some last => some (first, last)
    | _, _ => none
  else none

/-- The ranges and points of a group. -/
def ofGroup (group : Group) : TransitionSet :=
  let runs := runs group.bytes
  { target := group.target
    actions := group.actions
    accept := group.accept
    ranges := runs.filterMap rangeOfRun?
    points := (runs.filter fun run => run.length ≤ maxPoints).flatten }

/-- The set of the bytes in a list of ranges and a list of points. -/
def byteSet (set : TransitionSet) : ByteSet :=
  set.ranges.foldl (fun acc range => acc.union (ByteSet.range range.1 range.2))
    (ByteSet.ofList set.points)

/-- All bytes in ascending order. -/
def bytes (set : TransitionSet) : Bytes := set.byteSet.toList

end TransitionSet

/-- The transition sets of a state. -/
def State.sets (s : State) : List TransitionSet := (groups s).map TransitionSet.ofGroup

/-! ## Written form -/

/-- A transition set as text: bytes, actions in brackets, target, and a mark on accepting ones. -/
def TransitionSet.display (set : TransitionSet) : String :=
  let ranges := set.ranges.map fun range =>
    "[" ++ Ascii.display range.1 ++ "-" ++ Ascii.display range.2 ++ "]"
  let actions :=
    if set.actions.isEmpty then "" else "[" ++ ", ".intercalate (set.actions.map toString) ++ "] "
  " ".intercalate (ranges ++ set.points.map Ascii.display) ++ " -> " ++ actions ++
    toString set.target ++ (if set.accept then "*" else "")

/-- One line per state: its number, a mark on accepting ones, and its transition sets. -/
def displayState (id : Nat) (s : State) : String :=
  let sets := s.sets.map TransitionSet.display
  toString id ++ (if s.accept then "*" else "") ++ ":" ++
    (if sets.isEmpty then "" else " " ++ " | ".intercalate sets) ++ "\n"

/-- The automaton as text. -/
def display (dfa : Dfa) : String :=
  "initial state: " ++ toString initial ++ "\n" ++
    String.join (dfa.states.toList.mapIdx displayState)

end ActionRegex.Dfa
