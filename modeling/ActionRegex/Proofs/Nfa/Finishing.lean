import ActionRegex.Proofs.Nfa.Steps

/-!
# Every state leads to the final state

No tree denotes the empty set of words, so a task can always be carried out. That is why no step of
the construction adds a state from which the final state is out of reach: what is read by a run from
the initial state can always be completed to a word of the tree (`exists_run_final`).
-/

namespace ActionRegex

/-- Every tree has a word. -/
theorem Pattern.Tree.exists_mem_words (t : Pattern.Tree) : ∃ u, u ∈ t.words := by
  induction t with
  | symbol s => exact ⟨[s], rfl⟩
  | empty => exact ⟨[], rfl⟩
  | concat l r ihl ihr =>
    obtain ⟨ul, hl⟩ := ihl
    obtain ⟨ur, hr⟩ := ihr
    exact ⟨ul ++ ur, mem_words_concat.mpr ⟨ul, hl, ur, hr, rfl⟩⟩
  | alternate l r ihl _ =>
    obtain ⟨u, hu⟩ := ihl
    exact ⟨u, mem_words_alternate.mpr (Or.inl hu)⟩
  | closure t _ => exact ⟨[], Nfa.nil_mem_words_closure⟩

namespace Nfa

open Pattern (Tree)

/-- From every state some route leads to the final state. -/
def Finishing (nfa : Nfa) (tasks : List Task) : Prop :=
  ∀ p, p < nfa.size → ∃ u, Route nfa tasks p u final

/-- A step keeps the routes from old states and leaves the states that it adds: the middle state of
a concatenation by the right side, the entry of a closure directly and its body through the
entry. -/
theorem Finishing.step {nfa nfa' : Nfa} {tasks tasks' : List Task} (h : Finishing nfa tasks)
    (hbuilds : Builds nfa tasks nfa' tasks') (hc : Consistent nfa tasks)
    (hfinal : final < nfa.size) : Finishing nfa' tasks' := by
  have hold : ∀ p, p < nfa.size → ∃ u, Route nfa' tasks' p u final := by
    intro p hp
    obtain ⟨u, hu⟩ := h p hp
    exact ⟨u, (hbuilds.route_iff hc hp hfinal).mpr hu⟩
  intro p hp
  by_cases hlt : p < nfa.size
  · exact hold p hlt
  · cases hbuilds with
    | symbol => exact absurd (by rwa [size_addEdge] at hp) hlt
    | empty => exact absurd (by rwa [size_addDirect] at hp) hlt
    | alternate => exact absurd hp hlt
    | concat l r i j rest =>
      rw [size_addState] at hp
      obtain rfl : p = nfa.size := by omega
      obtain ⟨v, hv⟩ := r.exists_mem_words
      obtain ⟨u, hu⟩ := hold j (tasksInRange_cons.mp hc.tasks).1.2
      exact ⟨v ++ u, Route.cons (Hop.task (List.mem_cons_of_mem _ List.mem_cons_self) hv) hu⟩
    | closure t i j rest =>
      rw [size_withClosure] at hp
      obtain ⟨⟨hi, hj⟩, -⟩ := tasksInRange_cons.mp hc.tasks
      obtain ⟨u, hu⟩ := hold j hj
      have hout : Hop (nfa.withClosure i j) (⟨t, nfa.size + 1, nfa.size⟩ :: rest) nfa.size [] j :=
        Hop.direct ((mem_direct_withClosure hi).mpr (Or.inl ⟨rfl, rfl⟩))
      have hentry := Route.cons hout hu
      rcases (by omega : p = nfa.size ∨ p = nfa.size + 1) with rfl | rfl
      · exact ⟨_, hentry⟩
      · obtain ⟨v, hv⟩ := t.exists_mem_words
        exact ⟨_, Route.cons (Hop.task List.mem_cons_self hv) hentry⟩

theorem finishing_start (t : Tree) : Finishing bare [⟨t, initial, final⟩] := by
  intro p hp
  have hlt : p < 2 := hp
  have hcases : p = initial ∨ p = final := by
    simp only [initial, final]
    omega
  rcases hcases with rfl | rfl
  · obtain ⟨u, hu⟩ := t.exists_mem_words
    exact ⟨u, route_start_iff.mpr hu⟩
  · exact ⟨[], Route.nil _⟩

theorem finishing_ofTree (t : Tree) : Finishing (ofTree t) [] := by
  refine (ofTree_induction (P := fun nfa tasks => final < nfa.size ∧ Finishing nfa tasks) t
    ⟨by decide, finishing_start t⟩ ?_).2
  intro nfa nfa' tasks tasks' hbuilds hc ⟨hfinal, h⟩
  exact ⟨Nat.lt_of_lt_of_le hfinal hbuilds.size_le, h.step hbuilds hc hfinal⟩

/-- **A run from the initial state can be completed to an accepting run.** -/
theorem exists_run_final {t : Tree} {u : List Symbol} {p : Nat}
    (h : Run (ofTree t) initial u p) : ∃ v, Run (ofTree t) initial (u ++ v) final := by
  have hp : p < (ofTree t).size :=
    h.lt_size (inRange_ofTree t) (Nat.lt_of_lt_of_le (by decide) (two_le_size_ofTree t))
  obtain ⟨v, hv⟩ := finishing_ofTree t p hp
  exact ⟨v, h.trans (route_nil_iff.mp hv)⟩

end Nfa

end ActionRegex
