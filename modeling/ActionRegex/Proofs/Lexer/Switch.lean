import ActionRegex.Dfa.Stepper
import ActionRegex.Lexer.Source

/-!
# Switches

The two files of a lexer say, to a reader of C, what a switch over the state variable says: its
cases have labels, and the clauses of a case test a byte and tell what to do with it. Labels and
assigned values are names, whose values an enumeration declares. This module says what such a switch
does when it is called; how it is read off the files is said in `Proofs.Lexer.Reader`.

A name without a value has no meaning, so a call need not have an answer.
-/

namespace ActionRegex.Lexer

open Bytes (ofString)
open Dfa (Outcome)

/-! ## Syntax -/

/-- A statement that changes the state variable. -/
inductive Update where
  | assign (tag : Bytes)
  | increment
  deriving DecidableEq

/-- How a call ends: the state variable may change, and an outcome is returned. -/
structure Exit where
  update : Option Update
  outcome : Outcome
  deriving DecidableEq

/-- An `if` statement that is met by the bytes that pass one of its tests. It may run the text of
actions, and it ends the call. -/
structure Clause where
  tests : List Test
  action : Option Bytes
  exit : Exit
  deriving DecidableEq

/-- A case of a switch. -/
structure Labelled where
  label : Bytes
  clauses : List Clause
  deriving DecidableEq

/-- A switch over the state variable. -/
structure Switch where
  /-- The declared names and their values. -/
  tags : List (Bytes × Nat)
  cases : List Labelled
  /-- What is done behind the switch. -/
  after : Exit
  /-- The name that a reset assigns. -/
  reset : Bytes
  deriving DecidableEq

/-! ## Calls -/

/-- Whether a byte passes a test. -/
def Test.passes (token : UInt8) : Test → Bool
  | .between first last => first ≤ token && token ≤ last
  | .equals value => token == value

/-- Whether a clause is met by a byte. -/
def Clause.holds (token : UInt8) (clause : Clause) : Bool := clause.tests.any (Test.passes token)

/-- What a call does: the outcome it returns, the state variable after it, and the text it runs. -/
structure Answer where
  outcome : Outcome
  state : Nat
  text : Bytes
  deriving DecidableEq

/-- What can be called. -/
inductive Call where
  /-- The lexer function with a byte. -/
  | lex (token : UInt8)
  | reset

namespace Switch

variable (switch : Switch)

/-- The declared value of a name. -/
def value? (tag : Bytes) : Option Nat := switch.tags.lookup tag

/-- The case for a value of the state variable: the one whose label has it. -/
def select? (state : Nat) : Option Labelled :=
  switch.cases.find? fun c => switch.value? c.label == some state

/-- The state variable after a statement that changes it. -/
def updated? (state : Nat) : Update → Option Nat
  | .assign tag => switch.value? tag
  | .increment => some (state + 1)

/-- The end of a call that has run a text. -/
def leave? (state : Nat) (text : Bytes) (exit : Exit) : Option Answer :=
  match exit.update with
  | none => some ⟨exit.outcome, state, text⟩
  | some update => (switch.updated? state update).map fun state => ⟨exit.outcome, state, text⟩

/-- A call of the lexer function. A value without a case, or a byte that meets no clause, leads
behind the switch. -/
def call? (state : Nat) (token : UInt8) : Option Answer :=
  match (switch.select? state).bind fun c => c.clauses.find? (Clause.holds token) with
  | none => switch.leave? state [] switch.after
  | some clause => switch.leave? state (clause.action.getD []) clause.exit

/-- Calls one after the other: the answers of the lexer function and the state variable in the
end. -/
def run? (state : Nat) : List Call → Option (List Answer × Nat)
  | [] => some ([], state)
  | .reset :: rest => (switch.value? switch.reset).bind fun state => run? state rest
  | .lex token :: rest =>
    (switch.call? state token).bind fun answer =>
      (run? answer.state rest).map fun (answers, last) => (answer :: answers, last)

variable {switch}

/-- If no name is declared twice, a name has the value that it is declared with. -/
theorem value?_eq_some_iff (h : (switch.tags.map Prod.fst).Nodup) {tag : Bytes} {state : Nat} :
    switch.value? tag = some state ↔ (tag, state) ∈ switch.tags := by
  rw [value?]
  generalize switch.tags = tags at h
  induction tags with
  | nil => simp
  | cons entry rest ih =>
    obtain ⟨name, value⟩ := entry
    obtain ⟨hnot, hrest⟩ := List.nodup_cons.mp h
    rw [List.lookup_cons, List.mem_cons, Prod.mk.injEq]
    by_cases heq : tag = name
    · subst heq
      have hmem : (tag, state) ∉ rest := fun hmem => hnot (List.mem_map.mpr ⟨_, hmem, rfl⟩)
      simp [hmem, eq_comm]
    · have hne : (tag == name) = false := beq_false_of_ne heq
      simp [hne, heq, ih hrest]

end Switch

/-! ## The switch of a program -/

section Programs

variable (options : Options)

/-- The program that an automaton is written as. -/
def programOf (automaton : Automaton) : Program :=
  Program.ofAutomaton options.increments automaton

/-- The name of a state. -/
def tagOf (state : Nat) : Bytes := ofString (options.tag state)

def exitOf : Effect → Exit
  | .accept => ⟨none, .accept⟩
  | .goto state => ⟨some (.assign (tagOf options state)), .continue⟩
  | .increment => ⟨some .increment, .continue⟩

def clauseOf (branch : Branch) : Clause :=
  ⟨branch.tests, branch.action, exitOf options branch.effect⟩

def labelledOf (c : Case) : Labelled :=
  ⟨tagOf options c.state, c.branches.map (clauseOf options)⟩

/-- What a program is meant to be written as. -/
def switchOf (program : Program) : Switch where
  tags := program.cases.map fun c => (tagOf options c.state, c.state)
  cases := program.cases.map (labelledOf options)
  after := ⟨some (.assign (tagOf options Dfa.initial)), .fail⟩
  reset := tagOf options Dfa.initial

end Programs

end ActionRegex.Lexer
