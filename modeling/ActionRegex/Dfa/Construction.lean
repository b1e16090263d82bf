import ActionRegex.Dfa.Numbering
import ActionRegex.Note
import ActionRegex.SymbolDfa.Folding
import ActionRegex.SymbolDfa.Subset

/-!
# Building the automaton

From a nondeterministic automaton to the final one: the subset construction, folding, numbering.
The notes of these stages come with the result.
-/

namespace ActionRegex.Dfa

/-- How many bytes and how many actions an automaton reads. -/
def alphabetNote (nfa : Nfa) : Note :=
  let symbols := nfa.symbols
  .alphabet (symbols.countP fun s => !s.isAction) (symbols.countP Symbol.isAction)

/-- The notes of a folding, in order. -/
def foldingNotes (folding : SymbolDfa.Folding) : List Note :=
  (folding.merges.reverse.map fun entry => .merged entry.1 entry.2) ++
    [.folded folding.folded folding.unions.length]

/-- The automaton over bytes of a nondeterministic one, with the notes of its construction. -/
def build? (nfa : Nfa) : Option (Dfa × List Note) :=
  (SymbolDfa.ofNfa? nfa).bind fun subsets =>
    (SymbolDfa.fold? subsets).bind fun folding =>
      (ofSymbolDfa? ⟨folding.states⟩).map fun dfa =>
        (dfa, [alphabetNote nfa] ++ foldingNotes folding ++ [.dfaBuilt subsets.size dfa.size])

end ActionRegex.Dfa
