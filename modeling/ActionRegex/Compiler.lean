import ActionRegex.Dfa.Construction
import ActionRegex.Nfa.OfTree
import ActionRegex.Pattern.Parser
import ActionRegex.RuleFile.Basic

/-!
# Compiling patterns

A compiler holds macros. It turns a pattern, or all rules of a rule file as one pattern, into an
automaton together with the registry of its action fragments.
-/

namespace ActionRegex

/-- A compiled pattern. -/
structure Automaton where
  dfa : Dfa
  registry : Registry

/-- Why there is no automaton: the pattern is refused, or an automaton could not be completed. -/
inductive CompileError where
  | pattern (error : Pattern.Error)
  | incomplete

/-- The macros that patterns may use. -/
structure Compiler where
  macros : Macros := []

namespace Compiler

/-- Defines a macro. -/
def define (compiler : Compiler) (name expansion : String) : Compiler :=
  ⟨compiler.macros.define (Bytes.ofString name) (Bytes.ofString expansion)⟩

/-- Defines macros one after the other. -/
def defineAll (compiler : Compiler) (definitions : List (String × String)) : Compiler :=
  definitions.foldl (fun compiler entry => compiler.define entry.1 entry.2) compiler

/-- Parses a pattern; its action fragments are added to a registry. -/
def parse (compiler : Compiler) (pattern : String) (registry : Registry) :
    Except Pattern.Error Pattern.Tree × Registry :=
  Pattern.parse compiler.macros (Bytes.ofString pattern) registry

/-- The automaton of a tree, with the notes of its construction. -/
def compileTree (tree : Pattern.Tree) (registry : Registry) :
    Except CompileError (Automaton × List Note) :=
  let nfa := Nfa.ofTree tree
  match Dfa.build? nfa with
  | none => .error .incomplete
  | some (dfa, notes) =>
    .ok (⟨dfa, registry⟩,
      [.nfaBuilt nfa.size] ++ notes ++ [.compiled tree.size nfa.size dfa.size])

/-- Compiles a pattern; its action fragments are added to a registry. -/
def compileWith (compiler : Compiler) (pattern : String) (registry : Registry) :
    Except CompileError (Automaton × List Note) :=
  match compiler.parse pattern registry with
  | (.error e, _) => .error (.pattern e)
  | (.ok tree, registry) => compileTree tree registry

/-- Compiles a pattern. -/
def compile (compiler : Compiler) (pattern : String) :
    Except CompileError (Automaton × List Note) :=
  compiler.compileWith pattern .empty

/-- Compiles the rules of a file as one pattern, under its names as further macros. The header lines
of the file are kept in the registry. -/
def compileRules (compiler : Compiler) (file : RuleFile) :
    Except CompileError (Automaton × List Note) :=
  { compiler with macros := compiler.macros.defineAll file.names }.compileWith file.expression
    { header := file.header }

end Compiler

end ActionRegex
