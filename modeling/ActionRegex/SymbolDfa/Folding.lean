import ActionRegex.SymbolDfa.Basic

/-!
# Folding actions

Transitions on actions consume nothing, so they are removed and their actions moved to transitions
that do. States are folded in the order of their numbers, each until no transition on an action is
left. A transition `s -@a-> t` is folded in one of two ways:

* **collapse**, if it is the only transition of `s`, and `s` is neither initial nor accepting nor
  `t` itself: what leads to `s` leads to `t` instead and fires `a` too;
* **inlining** otherwise: the transition is removed and every transition of `t` is copied to `s`,
  firing `a` too. If `t` accepts and `s` does not, `s` becomes accepting and `a` fires on its entry.
  Inlining the same action and state into `s` a second time is skipped.

A copy on a symbol that `s` already has, with another target, leads to a union state that stands for
both targets. There is one union state per set of states, filled with the transitions of both once
the inlining is complete, and folded like any other state.

Every state stands for a set of states that were there at the start, its members, and different
states for different sets. That bounds the number of states, and with it every loop here; the loops
take a number of steps that `Limits.of` computes from the automaton.
-/

namespace ActionRegex.SymbolDfa

/-- Folding under way. -/
structure Folding where
  states : Array State
  /-- The states that nothing leads to any more. -/
  collapsed : Array Bool
  /-- The states at the start that each state stands for, in ascending order. -/
  members : Array (List Nat)
  /-- The union state of each set of members that has one, latest first. -/
  unions : List (List Nat × Nat) := []
  /-- The union states still to fill, with the two states they merge, first to fill first. -/
  unfilled : List (Nat × Nat × Nat) := []
  /-- The number of transitions on actions folded so far. -/
  folded : Nat := 0
  /-- Where transitions with different actions were merged, latest first. -/
  merges : List (Symbol × Nat) := []

namespace Folding

/-! ## Single steps -/

/-- Folding before the first step: each state stands for itself. -/
def start (dfa : SymbolDfa) : Folding :=
  { states := dfa.states
    collapsed := Array.replicate dfa.size false
    members := (Array.range dfa.size).map fun id => [id] }

/-- A state; a number without a state has no transitions and does not accept. -/
def state (f : Folding) (id : Nat) : State := f.states.getD id {}

/-- Whether a state is collapsed. -/
def isCollapsed (f : Folding) (id : Nat) : Bool := f.collapsed.getD id false

/-- The members of a state. -/
def membersOf (f : Folding) (id : Nat) : List Nat := f.members.getD id []

/-- Changes a state. -/
def modify (f : Folding) (id : Nat) (change : State → State) : Folding :=
  { f with states := f.states.modify id change }

/-- The union state of two states, which is added empty if there is none. -/
def union (f : Folding) (a b : Nat) : Nat × Folding :=
  let key := Ascending.union (f.membersOf a) (f.membersOf b)
  match f.unions.lookup key with
  | some id => (id, f)
  | none =>
    let id := f.states.size
    (id, { f with
      states := f.states.push {}
      collapsed := f.collapsed.push false
      members := f.members.push key
      unions := (key, id) :: f.unions
      unfilled := f.unfilled ++ [(id, a, b)] })

/-- Remembers that transitions with different actions were merged. -/
def noteMerge (f : Folding) (symbol : Symbol) (id : Nat) (old new : Transition) : Folding :=
  if old.actions = new.actions then f else { f with merges := (symbol, id) :: f.merges }

/-- The state that stands for the targets of two transitions on one symbol of a state. -/
def mergeTargets (f : Folding) (id : Nat) (symbol : Symbol) (old new : Transition) :
    Nat × Folding :=
  if old.target = new.target then (old.target, f)
  else (f.noteMerge symbol id old new).union old.target new.target

/-- Adds a transition to a state, merging it with the one on the same symbol. -/
def addTransition (f : Folding) (id : Nat) (symbol : Symbol) (new : Transition) : Folding :=
  match Ascending.get? symbol (f.state id).transitions with
  | none => f.modify id fun s => { s with transitions := Ascending.put symbol new s.transitions }
  | some old =>
    let (target, f) := f.mergeTargets id symbol old new
    let merged : Transition := { target, actions := Ascending.union old.actions new.actions }
    f.modify id fun s => { s with transitions := Ascending.put symbol merged s.transitions }

/-- Adds transitions to a state one after the other. -/
def addTransitions (f : Folding) (id : Nat) (transitions : List (Symbol × Transition)) : Folding :=
  transitions.foldl (fun f entry => f.addTransition id entry.1 entry.2) f

/-- Fills a union state from the two states it merges. -/
def fill (f : Folding) (id a b : Nat) : Folding :=
  let first := f.state a
  let second := f.state b
  (f.modify id fun s =>
      { s with
        accept := first.accept || second.accept
        entry := Ascending.union first.entry second.entry }).addTransitions id
    (first.transitions ++ second.transitions)

/-- Fills union states until none is left, for a number of steps at most. -/
def fillAll : Nat → Folding → Option Folding
  | steps, f =>
    match f.unfilled with
    | [] => some f
    | (id, a, b) :: rest =>
      match steps with
      | 0 => none
      | steps + 1 => fillAll steps ({ f with unfilled := rest }.fill id a b)

/-- The transition with further actions. -/
def withActions (actions : List Nat) (t : Transition) : Transition :=
  { t with actions := Ascending.union t.actions actions }

/-- Copies the transitions of `target` to `id` with further actions, and makes `id` accepting if
`target` is. Union states that this creates are still to fill. -/
def copyFrom (f : Folding) (id target : Nat) (actions : List Nat) : Folding :=
  let copies := (f.state target).transitions.map fun entry => (entry.1, withActions actions entry.2)
  let f := f.addTransitions id copies
  if (f.state target).accept && !(f.state id).accept then
    f.modify id fun s => { s with accept := true, entry := Ascending.union s.entry actions }
  else f

/-- Redirects a transition to `id` to `target`, with further actions. -/
def redirect (id target : Nat) (actions : List Nat) (t : Transition) : Transition :=
  if t.target = id then withActions actions { t with target } else t

/-- Redirects every transition to `id` to `target`, with further actions. -/
def collapse (f : Folding) (id target : Nat) (actions : List Nat) : Folding :=
  { f with
    states := f.states.mapIdx fun other s =>
      if other = id || f.isCollapsed other then s
      else { s with transitions := s.transitions.map fun entry =>
        (entry.1, redirect id target actions entry.2) }
    collapsed := f.collapsed.modify id fun _ => true }

/-- Whether a state with a transition on an action to `target` can be collapsed. -/
def canCollapse (s : State) (id target : Nat) : Bool :=
  s.transitions.length = 1 && id != 0 && !s.accept && target != id

/-! ## Limits -/

/-- Enough steps to fold one state. Each step inlines an action and a state for the first time, or
removes one of the transitions on actions that are left since then. -/
def stepLimit (dfa : SymbolDfa) : Nat :=
  let actions := dfa.actionLabels.length
  (actions + 1) * (actions * setCount dfa.size + 1)

/-- The numbers of steps that the loops may take. -/
structure Limits where
  /-- No fewer than there can ever be states. -/
  states : Nat
  /-- Enough to fold one state. -/
  steps : Nat

/-- The limits for folding an automaton: there are no more states than sets of states at the
start. -/
def Limits.of (dfa : SymbolDfa) : Limits := ⟨setCount dfa.size, stepLimit dfa⟩

/-! ## Loops -/

/-- Folds the transitions on actions of a state until none is left or the state is collapsed.
`inlined` holds the actions and states inlined so far. -/
def foldState (limits : Limits) (id : Nat) : Nat → List (Nat × Nat) → Folding → Option Folding
  | steps, inlined, f =>
    match (f.state id).firstAction? with
    | none => some f
    | some (action, t) =>
      match steps with
      | 0 => none
      | steps + 1 =>
        let actions := Ascending.insert action t.actions
        let counted := { f with folded := f.folded + 1 }
        if canCollapse (f.state id) id t.target then some (counted.collapse id t.target actions)
        else
          let removed := counted.modify id fun s =>
            { s with transitions := Ascending.erase (.action action) s.transitions }
          if inlined.contains (action, t.target) then foldState limits id steps inlined removed
          else
            match fillAll limits.states (removed.copyFrom id t.target actions) with
            | none => none
            | some f => foldState limits id steps ((action, t.target) :: inlined) f

/-- Folds the states from `id` on, those added on the way included. -/
def foldFrom (limits : Limits) : Nat → Nat → Folding → Option Folding
  | steps, id, f =>
    if id < f.states.size then
      match steps with
      | 0 => none
      | steps + 1 =>
        if f.isCollapsed id then foldFrom limits steps (id + 1) f
        else
          match foldState limits id limits.steps [] f with
          | none => none
          | some f => foldFrom limits steps (id + 1) f
    else some f

end Folding

/-- Folds every transition on an action. -/
def fold? (dfa : SymbolDfa) : Option Folding :=
  let limits := Folding.Limits.of dfa
  Folding.foldFrom limits limits.states 0 (Folding.start dfa)

end ActionRegex.SymbolDfa
