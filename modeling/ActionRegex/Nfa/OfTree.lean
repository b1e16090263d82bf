import ActionRegex.Nfa.Basic
import ActionRegex.Pattern.Tree

/-!
# The automaton of a tree

Every node of a tree is built between two given states. A node first adds the states it needs and
then has its children built between the states it chooses for them, the left child before the right
one:

* a symbol is an edge, the empty text a direct edge;
* the sides of an alternation share both states;
* a concatenation adds a middle state, where its left side ends and its right side starts;
* a closure adds an entry and a body state, with direct edges into the entry, from the entry to the
  body and from the entry out. Its child leads from the body back to the entry.

Trees can be very deep, so the nodes still to build are kept in a list; they lose one node at each
step.
-/

namespace ActionRegex.Nfa

open Pattern (Tree)

/-- A tree to build from one state to another. -/
structure Task where
  tree : Tree
  source : Nat
  target : Nat

/-- Builds the tasks one after the other. -/
def buildAll (tasks : List Task) (nfa : Nfa) : Nfa :=
  match tasks with
  | [] => nfa
  | ⟨.symbol s, source, target⟩ :: rest => buildAll rest (nfa.addEdge source s target)
  | ⟨.empty, source, target⟩ :: rest => buildAll rest (nfa.addDirect source target)
  | ⟨.alternate l r, source, target⟩ :: rest =>
    buildAll (⟨l, source, target⟩ :: ⟨r, source, target⟩ :: rest) nfa
  | ⟨.concat l r, source, target⟩ :: rest =>
    let middle := nfa.size
    buildAll (⟨l, source, middle⟩ :: ⟨r, middle, target⟩ :: rest) nfa.addState
  | ⟨.closure t, source, target⟩ :: rest =>
    let entry := nfa.size
    let body := nfa.size + 1
    buildAll (⟨t, body, entry⟩ :: rest)
      ((((nfa.addState.addState).addDirect source entry).addDirect entry body).addDirect
        entry target)
termination_by Tree.totalNodes (tasks.map Task.tree)
decreasing_by all_goals simp only [List.map_cons, Tree.totalNodes, Tree.nodes]; omega

/-- The automaton of a tree. -/
def ofTree (t : Tree) : Nfa := buildAll [⟨t, initial, final⟩] bare

end ActionRegex.Nfa
