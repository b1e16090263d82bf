import ActionRegex.Proofs.Arrays
import ActionRegex.Proofs.Ascending
import ActionRegex.Proofs.Words
import ActionRegex.SymbolDfa.Basic

/-!
# Paths of deterministic automata over symbols

A path follows transitions and spells the word of their symbols. The words that an automaton accepts
from a state are those of the paths to accepting states, and the texts are the bytes of these words:
actions consume nothing. An automaton is *plain* if nothing has been moved to its transitions and
states yet: it is what folding starts from.
-/

namespace ActionRegex.SymbolDfa

/-- A path from one state to another, with the word it spells. -/
inductive Path (dfa : SymbolDfa) : Nat → List Symbol → Nat → Prop where
  | nil (p : Nat) : Path dfa p [] p
  | cons {p q : Nat} {s : Symbol} {t : Transition} {u : List Symbol}
    (h : (s, t) ∈ (dfa.state p).transitions) (path : Path dfa t.target u q) : Path dfa p (s :: u) q

/-- A word is accepted from a state. -/
def Accepts (dfa : SymbolDfa) (p : Nat) (u : List Symbol) : Prop :=
  ∃ q, Path dfa p u q ∧ (dfa.state q).accept = true

variable {dfa : SymbolDfa}

theorem Path.trans {p q r : Nat} {u v : List Symbol} (h : Path dfa p u q) (h' : Path dfa q v r) :
    Path dfa p (u ++ v) r := by
  induction h with
  | nil p => exact h'
  | cons ht _ ih => exact Path.cons ht (ih h')

theorem accepts_nil_iff {p : Nat} : Accepts dfa p [] ↔ (dfa.state p).accept = true := by
  constructor
  · rintro ⟨q, hpath, haccept⟩
    cases hpath
    exact haccept
  · exact fun haccept => ⟨p, Path.nil p, haccept⟩

theorem accepts_cons_iff {p : Nat} {s : Symbol} {u : List Symbol} :
    Accepts dfa p (s :: u) ↔
      ∃ t, (s, t) ∈ (dfa.state p).transitions ∧ Accepts dfa t.target u := by
  constructor
  · rintro ⟨q, hpath, haccept⟩
    cases hpath with
    | cons ht hpath => exact ⟨_, ht, q, hpath, haccept⟩
  · rintro ⟨t, ht, q, hpath, haccept⟩
    exact ⟨q, Path.cons ht hpath, haccept⟩

theorem Path.accepts {p q : Nat} {u v : List Symbol} (h : Path dfa p u q) (h' : Accepts dfa q v) :
    Accepts dfa p (u ++ v) := by
  obtain ⟨r, hpath, haccept⟩ := h'
  exact ⟨r, h.trans hpath, haccept⟩

theorem state_of_size_le {p : Nat} (h : dfa.size ≤ p) : dfa.state p = {} :=
  Arrays.getD_of_size_le h {}

/-- The texts that an automaton accepts from a state. -/
def texts (dfa : SymbolDfa) (p : Nat) : Language UInt8 :=
  {w | ∃ u, Accepts dfa p u ∧ Symbol.bytes u = w}

/-- Transitions lead to states, and there is one per symbol. -/
structure InRange (dfa : SymbolDfa) : Prop where
  target_lt : ∀ p, ∀ entry ∈ (dfa.state p).transitions, entry.2.target < dfa.size
  keys : ∀ p, Ascending.AscendingKeys (dfa.state p).transitions

/-- Only the states of the automaton need to be looked at. -/
theorem inRange_of_forall_lt (h : ∀ p, p < dfa.size →
    (∀ entry ∈ (dfa.state p).transitions, entry.2.target < dfa.size) ∧
      (dfa.state p).transitions.Pairwise fun a b => a.1 < b.1) : dfa.InRange := by
  have hcases : ∀ p, (∀ entry ∈ (dfa.state p).transitions, entry.2.target < dfa.size) ∧
      Ascending.AscendingKeys (dfa.state p).transitions := by
    intro p
    by_cases hp : p < dfa.size
    · exact h p hp
    · rw [state_of_size_le (Nat.le_of_not_lt hp)]
      exact ⟨by simp, List.Pairwise.nil⟩
  exact ⟨fun p => (hcases p).1, fun p => (hcases p).2⟩

/-- An automaton from which nothing has been folded: there is an initial state, and transitions and
states fire nothing. -/
structure Plain (dfa : SymbolDfa) : Prop extends InRange dfa where
  size_pos : 0 < dfa.size
  actions : ∀ p, ∀ entry ∈ (dfa.state p).transitions, entry.2.actions = []
  entry : ∀ p, (dfa.state p).entry = []

end ActionRegex.SymbolDfa
