import ActionRegex.Nfa.Basic
import ActionRegex.Proofs.Arrays
import ActionRegex.Proofs.Words

/-!
# Runs of nondeterministic automata

A run follows edges from state to state and reads the word of their symbols; direct edges read
nothing. Everything that is proved about an automaton is proved about its runs. The operations that
build automata are described by the edges they add.
-/

namespace ActionRegex.Nfa

/-- A run of an automaton from one state to another, with the word it reads. -/
inductive Run (nfa : Nfa) : Nat → List Symbol → Nat → Prop where
  | nil (p : Nat) : Run nfa p [] p
  | direct {p q r : Nat} {u : List Symbol} (h : q ∈ (nfa.state p).direct) (run : Run nfa q u r) :
    Run nfa p u r
  | read {p q r : Nat} {s : Symbol} {u : List Symbol} (h : ⟨s, q⟩ ∈ (nfa.state p).edges)
    (run : Run nfa q u r) : Run nfa p (s :: u) r

theorem Run.trans {nfa : Nfa} {p q r : Nat} {u v : List Symbol} (h : Run nfa p u q)
    (h' : Run nfa q v r) : Run nfa p (u ++ v) r := by
  induction h with
  | nil p => exact h'
  | direct hd _ ih => exact Run.direct hd (ih h')
  | read hr _ ih => exact Run.read hr (ih h')

/-- Every edge leads to a state of the automaton. -/
structure InRange (nfa : Nfa) : Prop where
  edges : ∀ p, ∀ e ∈ (nfa.state p).edges, e.target < nfa.size
  direct : ∀ p, ∀ q ∈ (nfa.state p).direct, q < nfa.size

theorem Run.lt_size {nfa : Nfa} (hnfa : nfa.InRange) {p q : Nat} {u : List Symbol}
    (h : Run nfa p u q) (hp : p < nfa.size) : q < nfa.size := by
  induction h with
  | nil p => exact hp
  | direct hd _ ih => exact ih (hnfa.direct _ _ hd)
  | read hr _ ih => exact ih (hnfa.edges _ _ hr)

/-! ## The edges of built automata -/

theorem state_of_size_le {nfa : Nfa} {p : Nat} (h : nfa.size ≤ p) : nfa.state p = {} :=
  Arrays.getD_of_size_le h {}

@[simp] theorem size_addState (nfa : Nfa) : nfa.addState.size = nfa.size + 1 :=
  Array.size_push _

@[simp] theorem size_addEdge (nfa : Nfa) (p q : Nat) (s : Symbol) :
    (nfa.addEdge p s q).size = nfa.size :=
  Array.size_modify

@[simp] theorem size_addDirect (nfa : Nfa) (p q : Nat) : (nfa.addDirect p q).size = nfa.size :=
  Array.size_modify

@[simp] theorem state_addState (nfa : Nfa) (p : Nat) : nfa.addState.state p = nfa.state p := by
  rw [state, state, addState, Arrays.getD_push]
  by_cases h : p = nfa.states.size
  · rw [if_pos h, Arrays.getD_of_size_le (Nat.le_of_eq h.symm)]
  · rw [if_neg h]

@[simp] theorem mem_edges_addEdge {nfa : Nfa} {i j : Nat} {s : Symbol} (hi : i < nfa.size) {p : Nat}
    {e : Edge} :
    e ∈ ((nfa.addEdge i s j).state p).edges ↔ i = p ∧ e = ⟨s, j⟩ ∨ e ∈ (nfa.state p).edges := by
  rw [state, addEdge, Arrays.getD_modify hi, state]
  by_cases h : i = p <;> simp [h]

@[simp] theorem direct_addEdge {nfa : Nfa} {i j : Nat} {s : Symbol} (hi : i < nfa.size) (p : Nat) :
    ((nfa.addEdge i s j).state p).direct = (nfa.state p).direct := by
  rw [state, addEdge, Arrays.getD_modify hi, state]
  by_cases h : i = p <;> simp [h]

@[simp] theorem mem_direct_addDirect {nfa : Nfa} {i j : Nat} (hi : i < nfa.size) {p q : Nat} :
    q ∈ ((nfa.addDirect i j).state p).direct ↔ i = p ∧ q = j ∨ q ∈ (nfa.state p).direct := by
  rw [state, addDirect, Arrays.getD_modify hi, state]
  by_cases h : i = p <;> simp [h]

@[simp] theorem edges_addDirect {nfa : Nfa} {i j : Nat} (hi : i < nfa.size) (p : Nat) :
    ((nfa.addDirect i j).state p).edges = (nfa.state p).edges := by
  rw [state, addDirect, Arrays.getD_modify hi, state]
  by_cases h : i = p <;> simp [h]

/-! ## Automata stay in range -/

/-- Only the states of the automaton need to be looked at. -/
theorem inRange_of_forall_lt {nfa : Nfa} (h : ∀ p, p < nfa.size →
    (∀ e ∈ (nfa.state p).edges, e.target < nfa.size) ∧
      ∀ q ∈ (nfa.state p).direct, q < nfa.size) : nfa.InRange := by
  have hcases : ∀ p, (∀ e ∈ (nfa.state p).edges, e.target < nfa.size) ∧
      ∀ q ∈ (nfa.state p).direct, q < nfa.size := by
    intro p
    by_cases hp : p < nfa.size
    · exact h p hp
    · rw [state_of_size_le (Nat.le_of_not_lt hp)]
      exact ⟨by simp, by simp⟩
  exact ⟨fun p => (hcases p).1, fun p => (hcases p).2⟩

@[simp] theorem state_bare (p : Nat) : bare.state p = {} := by
  rcases p with _ | _ | p
  · rfl
  · rfl
  · exact state_of_size_le (show 2 ≤ p + 2 by omega)

theorem inRange_bare : bare.InRange where
  edges p e he := by simp at he
  direct p q hq := by simp at hq

variable {nfa : Nfa}

theorem InRange.addState (h : nfa.InRange) : nfa.addState.InRange where
  edges p e he := by
    rw [state_addState] at he
    rw [size_addState]
    exact Nat.lt_succ_of_lt (h.edges p e he)
  direct p q hq := by
    rw [state_addState] at hq
    rw [size_addState]
    exact Nat.lt_succ_of_lt (h.direct p q hq)

theorem InRange.addEdge (h : nfa.InRange) {i j : Nat} (hi : i < nfa.size) (hj : j < nfa.size)
    (s : Symbol) : (nfa.addEdge i s j).InRange where
  edges p e he := by
    rw [mem_edges_addEdge hi] at he
    rw [size_addEdge]
    rcases he with ⟨_, rfl⟩ | he
    · exact hj
    · exact h.edges p e he
  direct p q hq := by
    rw [direct_addEdge hi] at hq
    rw [size_addEdge]
    exact h.direct p q hq

theorem InRange.addDirect (h : nfa.InRange) {i j : Nat} (hi : i < nfa.size) (hj : j < nfa.size) :
    (nfa.addDirect i j).InRange where
  edges p e he := by
    rw [edges_addDirect hi] at he
    rw [size_addDirect]
    exact h.edges p e he
  direct p q hq := by
    rw [mem_direct_addDirect hi] at hq
    rw [size_addDirect]
    rcases hq with ⟨_, rfl⟩ | hq
    · exact hj
    · exact h.direct p q hq

end ActionRegex.Nfa
