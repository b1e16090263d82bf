import ActionRegex.Ascending
import ActionRegex.DepthFirst
import ActionRegex.Symbol

/-!
# Nondeterministic automata

States are numbered; state 0 is where every run starts and state 1 where accepting runs end. An edge
reads a symbol, a direct edge reads nothing. Edges are kept per state in ascending order.
-/

namespace ActionRegex

namespace Nfa

/-- An edge that reads a symbol. -/
structure Edge where
  symbol : Symbol
  target : Nat
  deriving DecidableEq, Inhabited

instance : LT Edge :=
  ⟨fun a b => a.symbol < b.symbol ∨ a.symbol = b.symbol ∧ a.target < b.target⟩

instance : DecidableLT Edge := fun a b =>
  inferInstanceAs (Decidable (a.symbol < b.symbol ∨ a.symbol = b.symbol ∧ a.target < b.target))

/-- The outgoing edges of a state. -/
structure State where
  edges : List Edge := []
  direct : List Nat := []
  deriving DecidableEq, Inhabited

end Nfa

/-- A nondeterministic automaton. -/
structure Nfa where
  states : Array Nfa.State
  deriving DecidableEq, Inhabited

namespace Nfa

/-- Where every run starts. -/
def initial : Nat := 0

/-- Where accepting runs end. -/
def final : Nat := 1

/-- The automaton with its two states and no edge. -/
def bare : Nfa := ⟨#[{}, {}]⟩

/-- The number of states. -/
def size (nfa : Nfa) : Nat := nfa.states.size

/-- The edges of a state; a number without a state has none. -/
def state (nfa : Nfa) (id : Nat) : State := nfa.states.getD id {}

/-! ## Construction -/

/-- Adds a state, which gets the number `nfa.size`. -/
def addState (nfa : Nfa) : Nfa := ⟨nfa.states.push {}⟩

/-- Adds an edge that reads a symbol. -/
def addEdge (nfa : Nfa) (source : Nat) (symbol : Symbol) (target : Nat) : Nfa :=
  ⟨nfa.states.modify source fun s => { s with edges := Ascending.insert ⟨symbol, target⟩ s.edges }⟩

/-- Adds an edge that reads nothing. -/
def addDirect (nfa : Nfa) (source target : Nat) : Nfa :=
  ⟨nfa.states.modify source fun s => { s with direct := Ascending.insert target s.direct }⟩

/-! ## Views -/

/-- The symbols on the edges, in ascending order. -/
def symbols (nfa : Nfa) : List Symbol :=
  Ascending.ofList (nfa.states.toList.flatMap fun s => s.edges.map Edge.symbol)

/-- Edges grouped by their symbol: each symbol with its targets. -/
def groupEdges : List Edge → List (Symbol × List Nat)
  | [] => []
  | edge :: rest =>
    match groupEdges rest with
    | (symbol, targets) :: groups =>
      if edge.symbol = symbol then (symbol, edge.target :: targets) :: groups
      else (edge.symbol, [edge.target]) :: (symbol, targets) :: groups
    | [] => [(edge.symbol, [edge.target])]

/-- The states that can be reached from some states without reading, those included, in ascending
order. -/
def closure (nfa : Nfa) (states : List Nat) : List Nat :=
  Ascending.ofList (DepthFirst.search nfa.size (fun id => (nfa.state id).direct) states)

/-- Where a set of states can be after each symbol that some edge of the set reads. -/
def moves (nfa : Nfa) (states : List Nat) : List (Symbol × List Nat) :=
  (groupEdges (states.foldl (fun acc id => Ascending.union acc (nfa.state id).edges) [])).map
    fun group => (group.1, nfa.closure group.2)

/-! ## Written form -/

/-- Numbers with commas between them. -/
def displayTargets (targets : List Nat) : String := ", ".intercalate (targets.map toString)

/-- The edges of a state: those of each symbol, then the direct ones. -/
def State.display (s : State) : List String :=
  (groupEdges s.edges).map (fun group => group.1.display ++ " -> " ++ displayTargets group.2) ++
    if s.direct.isEmpty then [] else ["ε -> " ++ displayTargets s.direct]

/-- One line per state: its number, a mark on the final state, and its edges. -/
def displayState (id : Nat) (s : State) : String :=
  let edges := s.display
  toString id ++ (if id = final then " (final)" else "") ++ ":" ++
    (if edges.isEmpty then "" else " " ++ " | ".intercalate edges) ++ "\n"

/-- The automaton as text. -/
def display (nfa : Nfa) : String :=
  String.join (nfa.states.toList.mapIdx displayState)

end Nfa

end ActionRegex
