import ActionRegex.Proofs.Nfa.OfTree

/-!
# The construction step by step

`Builds` is one step of the construction: its first task is exchanged for edges, states and smaller
tasks. A step keeps states and tasks in range, and it does not change what the routes between old
states read (`Builds.route_iff`). What every step keeps holds of the finished automaton
(`buildAll_induction`).
-/

namespace ActionRegex.Nfa

open Pattern (Tree)

/-- An automaton in range with tasks between its states. -/
structure Consistent (nfa : Nfa) (tasks : List Task) : Prop where
  inRange : nfa.InRange
  tasks : TasksInRange nfa tasks

/-- One step of the construction. -/
inductive Builds (nfa : Nfa) : List Task → Nfa → List Task → Prop
  | symbol (s : Symbol) (i j : Nat) (rest : List Task) :
    Builds nfa (⟨.symbol s, i, j⟩ :: rest) (nfa.addEdge i s j) rest
  | empty (i j : Nat) (rest : List Task) :
    Builds nfa (⟨.empty, i, j⟩ :: rest) (nfa.addDirect i j) rest
  | alternate (l r : Tree) (i j : Nat) (rest : List Task) :
    Builds nfa (⟨.alternate l r, i, j⟩ :: rest) nfa (⟨l, i, j⟩ :: ⟨r, i, j⟩ :: rest)
  | concat (l r : Tree) (i j : Nat) (rest : List Task) :
    Builds nfa (⟨.concat l r, i, j⟩ :: rest) nfa.addState
      (⟨l, i, nfa.size⟩ :: ⟨r, nfa.size, j⟩ :: rest)
  | closure (t : Tree) (i j : Nat) (rest : List Task) :
    Builds nfa (⟨.closure t, i, j⟩ :: rest) (nfa.withClosure i j)
      (⟨t, nfa.size + 1, nfa.size⟩ :: rest)

namespace Builds

variable {nfa nfa' : Nfa} {tasks tasks' : List Task}

theorem size_le (h : Builds nfa tasks nfa' tasks') : nfa.size ≤ nfa'.size := by
  cases h with
  | symbol => rw [size_addEdge]
  | empty => rw [size_addDirect]
  | alternate => exact Nat.le_refl _
  | concat => rw [size_addState]; omega
  | closure => rw [size_withClosure]; omega

/-- **A step keeps states and tasks in range.** -/
theorem consistent (h : Builds nfa tasks nfa' tasks') (hc : Consistent nfa tasks) :
    Consistent nfa' tasks' := by
  have hle := h.size_le
  cases h with
  | symbol s i j rest =>
    obtain ⟨⟨hi, hj⟩, hrest⟩ := tasksInRange_cons.mp hc.tasks
    exact ⟨hc.inRange.addEdge hi hj s, hrest.mono hle⟩
  | empty i j rest =>
    obtain ⟨⟨hi, hj⟩, hrest⟩ := tasksInRange_cons.mp hc.tasks
    exact ⟨hc.inRange.addDirect hi hj, hrest.mono hle⟩
  | alternate l r i j rest =>
    obtain ⟨hij, hrest⟩ := tasksInRange_cons.mp hc.tasks
    exact ⟨hc.inRange, tasksInRange_cons.mpr ⟨hij, tasksInRange_cons.mpr ⟨hij, hrest⟩⟩⟩
  | concat l r i j rest =>
    obtain ⟨⟨hi, hj⟩, hrest⟩ := tasksInRange_cons.mp hc.tasks
    have hmiddle : nfa.size < nfa.addState.size := by rw [size_addState]; omega
    exact ⟨hc.inRange.addState, tasksInRange_cons.mpr ⟨⟨Nat.lt_of_lt_of_le hi hle, hmiddle⟩,
      tasksInRange_cons.mpr ⟨⟨hmiddle, Nat.lt_of_lt_of_le hj hle⟩, hrest.mono hle⟩⟩⟩
  | closure t i j rest =>
    obtain ⟨⟨hi, hj⟩, hrest⟩ := tasksInRange_cons.mp hc.tasks
    have hbody : nfa.size + 1 < (nfa.withClosure i j).size := by rw [size_withClosure]; omega
    have hentry : nfa.size < (nfa.withClosure i j).size := by rw [size_withClosure]; omega
    exact ⟨hc.inRange.withClosure hi hj, tasksInRange_cons.mpr ⟨⟨hbody, hentry⟩, hrest.mono hle⟩⟩

/-- **A step does not change what the routes between old states read.** -/
theorem route_iff (h : Builds nfa tasks nfa' tasks') (hc : Consistent nfa tasks) {p q : Nat}
    (hp : p < nfa.size) (hq : q < nfa.size) {u : List Symbol} :
    Route nfa' tasks' p u q ↔ Route nfa tasks p u q := by
  cases h with
  | symbol s i j rest => exact route_addEdge_iff (tasksInRange_cons.mp hc.tasks).1.1
  | empty i j rest => exact route_addDirect_iff (tasksInRange_cons.mp hc.tasks).1.1
  | alternate l r i j rest => exact route_alternate_iff
  | concat l r i j rest =>
    obtain ⟨⟨hi, hj⟩, hrest⟩ := tasksInRange_cons.mp hc.tasks
    exact route_concat_iff hc.inRange hi hj hrest hp hq
  | closure t i j rest =>
    obtain ⟨⟨hi, hj⟩, hrest⟩ := tasksInRange_cons.mp hc.tasks
    exact route_closure_iff hc.inRange hi hj hrest hp hq

end Builds

/-- **What every step keeps holds in the end.** -/
theorem buildAll_induction {P : Nfa → List Task → Prop}
    (hstep : ∀ {nfa nfa' tasks tasks'}, Builds nfa tasks nfa' tasks' → Consistent nfa tasks →
      P nfa tasks → P nfa' tasks')
    {nfa : Nfa} {tasks : List Task} (hc : Consistent nfa tasks) (h : P nfa tasks) :
    P (buildAll tasks nfa) [] := by
  fun_induction buildAll tasks nfa with
  | case1 nfa => exact h
  | case2 nfa s i j rest ih =>
    have hbuilds : Builds nfa _ _ _ := .symbol s i j rest
    exact ih (hbuilds.consistent hc) (hstep hbuilds hc h)
  | case3 nfa i j rest ih =>
    have hbuilds : Builds nfa _ _ _ := .empty i j rest
    exact ih (hbuilds.consistent hc) (hstep hbuilds hc h)
  | case4 nfa l r i j rest ih =>
    have hbuilds : Builds nfa _ _ _ := .alternate l r i j rest
    exact ih (hbuilds.consistent hc) (hstep hbuilds hc h)
  | case5 nfa l r i j rest middle ih =>
    have hbuilds : Builds nfa _ _ _ := .concat l r i j rest
    exact ih (hbuilds.consistent hc) (hstep hbuilds hc h)
  | case6 nfa t i j rest entry body ih =>
    have hbuilds : Builds nfa _ _ _ := .closure t i j rest
    exact ih (hbuilds.consistent hc) (hstep hbuilds hc h)

theorem consistent_start (t : Tree) : Consistent bare [⟨t, initial, final⟩] :=
  ⟨inRange_bare, tasksInRange_start t⟩

/-- What holds at the start and is kept by every step holds of the automaton of a tree. -/
theorem ofTree_induction {P : Nfa → List Task → Prop} (t : Tree)
    (hstart : P bare [⟨t, initial, final⟩])
    (hstep : ∀ {nfa nfa' tasks tasks'}, Builds nfa tasks nfa' tasks' → Consistent nfa tasks →
      P nfa tasks → P nfa' tasks') : P (ofTree t) [] :=
  buildAll_induction hstep (consistent_start t) hstart

end ActionRegex.Nfa
