import ActionRegex.Proofs.Nfa.Finishing

/-!
# The shape of the automaton of a tree

The sides of an alternation share both of their states. This is sound because no step of the
construction adds an edge into the initial or out of the final state of anything that is built
(`Detached`). Every state that a step adds can be reached from the initial state (`Starting`) and
leads to the final one (`Finishing`), and only concatenations and closures add states
(`size_buildAll`).

Together with the words that the accepting runs read, this describes the automaton of a tree
(`ofTree_exact`).
-/

namespace ActionRegex

/-! ## Counting nodes -/

namespace Pattern.Tree

/-- The number of concatenations of a tree. -/
def concats : Tree → Nat
  | symbol _ => 0
  | empty => 0
  | concat l r => l.concats + r.concats + 1
  | alternate l r => l.concats + r.concats
  | closure t => t.concats

/-- The number of closures of a tree. -/
def closures : Tree → Nat
  | symbol _ => 0
  | empty => 0
  | concat l r => l.closures + r.closures
  | alternate l r => l.closures + r.closures
  | closure t => t.closures + 1

end Pattern.Tree

namespace Nfa

open Pattern (Tree)

variable {nfa nfa' : Nfa} {tasks tasks' : List Task}

/-- The number of states that are still to be added. -/
def statesToAdd : List Task → Nat
  | [] => 0
  | task :: rest => task.tree.concats + 2 * task.tree.closures + statesToAdd rest

theorem Builds.size_add_statesToAdd (h : Builds nfa tasks nfa' tasks') :
    nfa'.size + statesToAdd tasks' = nfa.size + statesToAdd tasks := by
  cases h with
  | symbol => rw [size_addEdge]; simp [statesToAdd, Tree.concats, Tree.closures]
  | empty => rw [size_addDirect]; simp [statesToAdd, Tree.concats, Tree.closures]
  | alternate => simp [statesToAdd, Tree.concats, Tree.closures]; omega
  | concat => rw [size_addState]; simp [statesToAdd, Tree.concats, Tree.closures]; omega
  | closure => rw [size_withClosure]; simp [statesToAdd, Tree.concats, Tree.closures]; omega

/-- **Only concatenations and closures add states.** -/
theorem size_ofTree (t : Tree) : (ofTree t).size = 2 + t.concats + 2 * t.closures := by
  have hsize := ofTree_induction (P := fun nfa tasks =>
    nfa.size + statesToAdd tasks = 2 + t.concats + 2 * t.closures) t
    (by simp [statesToAdd, size, bare]; omega)
    fun hbuilds _ h => hbuilds.size_add_statesToAdd.trans h
  simpa [statesToAdd] using hsize

/-! ## Edges at the initial and at the final state -/

/-- No edge and no task enters the initial or leaves the final state. -/
structure Detached (nfa : Nfa) (tasks : List Task) : Prop where
  edges : ∀ p, ∀ e ∈ (nfa.state p).edges, p ≠ final ∧ e.target ≠ initial
  direct : ∀ p, ∀ q ∈ (nfa.state p).direct, p ≠ final ∧ q ≠ initial
  tasks : ∀ task ∈ tasks, task.source ≠ final ∧ task.target ≠ initial

/-- **A step adds no edge into the initial or out of the final state.** -/
theorem Detached.step (h : Detached nfa tasks) (hbuilds : Builds nfa tasks nfa' tasks')
    (hc : Consistent nfa tasks) (hsize : 2 ≤ nfa.size) : Detached nfa' tasks' := by
  have hfinal : ∀ n, nfa.size ≤ n → n ≠ final := by
    intro n hn
    simp only [final]
    omega
  have hinitial : ∀ n, nfa.size ≤ n → n ≠ initial := by
    intro n hn
    simp only [initial]
    omega
  cases hbuilds with
  | symbol s i j rest =>
    obtain ⟨hij, hrest⟩ := List.forall_mem_cons.mp h.tasks
    have hi := (tasksInRange_cons.mp hc.tasks).1.1
    refine ⟨fun p e he => ?_, fun p q hq => ?_, hrest⟩
    · rcases (mem_edges_addEdge hi).mp he with ⟨rfl, rfl⟩ | he
      · exact hij
      · exact h.edges p e he
    · rw [direct_addEdge hi] at hq
      exact h.direct p q hq
  | empty i j rest =>
    obtain ⟨hij, hrest⟩ := List.forall_mem_cons.mp h.tasks
    have hi := (tasksInRange_cons.mp hc.tasks).1.1
    refine ⟨fun p e he => ?_, fun p q hq => ?_, hrest⟩
    · rw [edges_addDirect hi] at he
      exact h.edges p e he
    · rcases (mem_direct_addDirect hi).mp hq with ⟨rfl, rfl⟩ | hq
      · exact hij
      · exact h.direct p q hq
  | alternate l r i j rest =>
    obtain ⟨hij, hrest⟩ := List.forall_mem_cons.mp h.tasks
    exact ⟨h.edges, h.direct, List.forall_mem_cons.mpr ⟨hij, List.forall_mem_cons.mpr ⟨hij, hrest⟩⟩⟩
  | concat l r i j rest =>
    obtain ⟨⟨hi, hj⟩, hrest⟩ := List.forall_mem_cons.mp h.tasks
    refine ⟨fun p e he => ?_, fun p q hq => ?_, List.forall_mem_cons.mpr
      ⟨⟨hi, hinitial _ (Nat.le_refl _)⟩, List.forall_mem_cons.mpr
        ⟨⟨hfinal _ (Nat.le_refl _), hj⟩, hrest⟩⟩⟩
    · rw [state_addState] at he
      exact h.edges p e he
    · rw [state_addState] at hq
      exact h.direct p q hq
  | closure t i j rest =>
    obtain ⟨⟨hi, hj⟩, hrest⟩ := List.forall_mem_cons.mp h.tasks
    have hlt := (tasksInRange_cons.mp hc.tasks).1.1
    refine ⟨fun p e he => ?_, fun p q hq => ?_, List.forall_mem_cons.mpr
      ⟨⟨hfinal _ (Nat.le_succ _), hinitial _ (Nat.le_refl _)⟩, hrest⟩⟩
    · rw [edges_withClosure hlt] at he
      exact h.edges p e he
    · rcases (mem_direct_withClosure hlt).mp hq with ⟨rfl, rfl⟩ | ⟨rfl, rfl⟩ | ⟨rfl, rfl⟩ | hq
      · exact ⟨hfinal _ (Nat.le_refl _), hj⟩
      · exact ⟨hfinal _ (Nat.le_refl _), hinitial _ (Nat.le_succ _)⟩
      · exact ⟨hi, hinitial _ (Nat.le_refl _)⟩
      · exact h.direct p q hq

theorem detached_start (t : Tree) : Detached bare [⟨t, initial, final⟩] where
  edges p e he := by simp at he
  direct p q hq := by simp at hq
  tasks task ht := by
    rw [List.mem_singleton.mp ht]
    show initial ≠ final ∧ final ≠ initial
    decide

theorem detached_ofTree (t : Tree) : Detached (ofTree t) [] := by
  refine (ofTree_induction (P := fun nfa tasks => 2 ≤ nfa.size ∧ Detached nfa tasks) t
    ⟨Nat.le_refl 2, detached_start t⟩ ?_).2
  intro nfa nfa' tasks tasks' hbuilds hc ⟨hsize, h⟩
  exact ⟨Nat.le_trans hsize hbuilds.size_le, h.step hbuilds hc hsize⟩

/-! ## States that can be reached -/

/-- Some route leads from the initial state to every state. -/
def Starting (nfa : Nfa) (tasks : List Task) : Prop :=
  ∀ p, p < nfa.size → ∃ u, Route nfa tasks initial u p

/-- A step keeps the routes to old states and leads to the states that it adds. -/
theorem Starting.step (h : Starting nfa tasks) (hbuilds : Builds nfa tasks nfa' tasks')
    (hc : Consistent nfa tasks) (hinitial : initial < nfa.size) : Starting nfa' tasks' := by
  have hold : ∀ p, p < nfa.size → ∃ u, Route nfa' tasks' initial u p := by
    intro p hp
    obtain ⟨u, hu⟩ := h p hp
    exact ⟨u, (hbuilds.route_iff hc hinitial hp).mpr hu⟩
  intro p hp
  by_cases hlt : p < nfa.size
  · exact hold p hlt
  · cases hbuilds with
    | symbol => exact absurd (by rwa [size_addEdge] at hp) hlt
    | empty => exact absurd (by rwa [size_addDirect] at hp) hlt
    | alternate => exact absurd hp hlt
    | concat l r i j rest =>
      rw [size_addState] at hp
      obtain rfl : p = nfa.size := by omega
      obtain ⟨u, hu⟩ := hold i (tasksInRange_cons.mp hc.tasks).1.1
      obtain ⟨v, hv⟩ := l.exists_mem_words
      exact ⟨u ++ v, hu.trans (Hop.task List.mem_cons_self hv).route⟩
    | closure t i j rest =>
      rw [size_withClosure] at hp
      have hi := (tasksInRange_cons.mp hc.tasks).1.1
      obtain ⟨u, hu⟩ := hold i hi
      have hin : Hop (nfa.withClosure i j) (⟨t, nfa.size + 1, nfa.size⟩ :: rest) i [] nfa.size :=
        Hop.direct ((mem_direct_withClosure hi).mpr (Or.inr (Or.inr (Or.inl ⟨rfl, rfl⟩))))
      have hbody : Hop (nfa.withClosure i j) (⟨t, nfa.size + 1, nfa.size⟩ :: rest) nfa.size []
          (nfa.size + 1) :=
        Hop.direct ((mem_direct_withClosure hi).mpr (Or.inr (Or.inl ⟨rfl, rfl⟩)))
      have hentry := hu.trans hin.route
      rcases (by omega : p = nfa.size ∨ p = nfa.size + 1) with rfl | rfl
      · exact ⟨_, hentry⟩
      · exact ⟨_, hentry.trans hbody.route⟩

theorem starting_start (t : Tree) : Starting bare [⟨t, initial, final⟩] := by
  intro p hp
  have hlt : p < 2 := hp
  have hcases : p = initial ∨ p = final := by
    simp only [initial, final]
    omega
  rcases hcases with rfl | rfl
  · exact ⟨[], Route.nil _⟩
  · obtain ⟨u, hu⟩ := t.exists_mem_words
    exact ⟨u, route_start_iff.mpr hu⟩

/-- **Every state lies on a run from the initial to the final state.** -/
theorem exists_run_through (t : Tree) {p : Nat} (hp : p < (ofTree t).size) :
    ∃ u v, Run (ofTree t) initial u p ∧ Run (ofTree t) p v final := by
  have hstarting : initial < (ofTree t).size ∧ Starting (ofTree t) [] := by
    refine ofTree_induction (P := fun nfa tasks => initial < nfa.size ∧ Starting nfa tasks) t
      ⟨by decide, starting_start t⟩ ?_
    intro nfa nfa' tasks tasks' hbuilds hc ⟨hinitial, h⟩
    exact ⟨Nat.lt_of_lt_of_le hinitial hbuilds.size_le, h.step hbuilds hc hinitial⟩
  obtain ⟨u, hu⟩ := hstarting.2 p hp
  obtain ⟨v, hv⟩ := finishing_ofTree t p hp
  exact ⟨u, v, route_nil_iff.mp hu, route_nil_iff.mp hv⟩

/-! ## The whole automaton -/

/-- **The automaton of a tree.** Its accepting runs read exactly the words of the tree, in which
every symbol is a letter. Its edges lead to states of its own, none of them into the initial and
none out of the final state, and every state lies on an accepting run. Besides these two states it
has one for each concatenation and two for each closure. -/
theorem ofTree_exact (t : Tree) :
    (∀ u, Run (ofTree t) initial u final ↔ u ∈ t.words) ∧
    (∀ p, (∀ e ∈ ((ofTree t).state p).edges, e.target < (ofTree t).size ∧ e.target ≠ initial) ∧
      ∀ q ∈ ((ofTree t).state p).direct, q < (ofTree t).size ∧ q ≠ initial) ∧
    (ofTree t).state final = {} ∧
    (∀ p, p < (ofTree t).size →
      ∃ u v, Run (ofTree t) initial u p ∧ Run (ofTree t) p v final) ∧
    (ofTree t).size = 2 + t.concats + 2 * t.closures := by
  have hrange := inRange_ofTree t
  have hdetached := detached_ofTree t
  refine ⟨fun u => run_ofTree_iff, fun p => ⟨fun e he => ?_, fun q hq => ?_⟩, ?_,
    fun p hp => exists_run_through t hp, size_ofTree t⟩
  · exact ⟨hrange.edges p e he, (hdetached.edges p e he).2⟩
  · exact ⟨hrange.direct p q hq, (hdetached.direct p q hq).2⟩
  · have hedges : ((ofTree t).state final).edges = [] :=
      List.eq_nil_iff_forall_not_mem.mpr fun e he => (hdetached.edges final e he).1 rfl
    have hdirect : ((ofTree t).state final).direct = [] :=
      List.eq_nil_iff_forall_not_mem.mpr fun q hq => (hdetached.direct final q hq).1 rfl
    generalize (ofTree t).state final = s at hedges hdirect ⊢
    obtain ⟨edges, direct⟩ := s
    obtain rfl : edges = [] := hedges
    obtain rfl : direct = [] := hdirect
    rfl

end Nfa

end ActionRegex
