import ActionRegex.Proofs.Dfa.Construction

/-!
# What is left after folding

A folded state keeps a transition on an action if and only if it is collapsed, so numbering succeeds
if and only if no collapsed state can be reached. It is enough to look at what can be reached along
bytes. Only a union state that was collapsed before it was needed again can bring a collapsed state
back: if no union state is collapsed, no collapsed state can be reached.
-/

namespace ActionRegex.Dfa

open Pattern (Tree)
open Relation (ReflTransGen)
open SymbolDfa (Folding)
open SymbolDfa.Folding (Settled UnionsLive)

/-- A state can be reached from the initial state. -/
def Reachable (f : Folding) (id : Nat) : Prop := ReflTransGen (Leads ⟨f.states⟩) 0 id

/-- A transition on a byte leads from one state to another. -/
def LeadsByByte (f : Folding) (id id' : Nat) : Prop :=
  ∃ b t, (.byte b, t) ∈ (f.state id).transitions ∧ t.target = id'

/-- A state can be reached from the initial state by consuming bytes. -/
def ReachableByBytes (f : Folding) (id : Nat) : Prop := ReflTransGen (LeadsByByte f) 0 id

/-- No state that can be reached is collapsed or has a transition on an action. -/
def FullyFolded (f : Folding) : Prop :=
  ∀ id, Reachable f id → f.isCollapsed id = false ∧
    ∀ entry ∈ (f.state id).transitions, entry.1.isAction = false

variable {t : Tree} {plain : SymbolDfa} {f : Folding}

/-- A settled state has transitions on actions if and only if it is collapsed. -/
theorem isCollapsed_eq_false_iff {id : Nat} (h : Settled f id) :
    f.isCollapsed id = false ↔ ∀ entry ∈ (f.state id).transitions, entry.1.isAction = false := by
  unfold Settled at h
  split at h
  · next hcollapsed =>
    obtain ⟨a, tr, heq⟩ := h
    rw [hcollapsed, heq]
    simp [Symbol.isAction]
  · next hcollapsed => exact ⟨fun _ => h, fun _ => by simpa using hcollapsed⟩

namespace Folded

theorem fullyFolded_iff (h : Folded t plain f) :
    FullyFolded f ↔ ∀ id, Reachable f id →
      ∀ entry ∈ (f.state id).transitions, entry.1.isAction = false := by
  refine forall_congr' fun id => forall_congr' fun _ => ?_
  rw [isCollapsed_eq_false_iff (h.settled id), and_self]

/-- **The construction succeeds if and only if the folding is complete.** -/
theorem isSome_build?_iff (h : Folded t plain f) :
    (build? (Nfa.ofTree t)).isSome = true ↔ FullyFolded f := by
  rw [h.build?_eq, Option.isSome_map, isSome_ofSymbolDfa?_iff h.closed, h.fullyFolded_iff]
  refine forall_congr' fun id => ?_
  rw [mem_order_iff h.closed]
  exact Iff.rfl

/-- As long as nothing collapsed is reached, only transitions on bytes are taken. -/
theorem fullyFolded_iff_bytes (h : Folded t plain f) :
    FullyFolded f ↔ ∀ id, ReachableByBytes f id → f.isCollapsed id = false := by
  constructor
  · intro hfolded id hid
    refine (hfolded id ?_).1
    refine ReflTransGen.mono ?_ _ _ hid
    rintro a b ⟨byte, tr, hmem, htarget⟩
    exact ⟨_, hmem, htarget⟩
  · intro hbytes
    -- by induction on how a state is reached, nothing before it has a transition on an action
    have hreach : ∀ id, Reachable f id → ReachableByBytes f id := by
      intro id hid
      induction hid with
      | refl => exact ReflTransGen.refl
      | @tail a b _ hstep ih =>
        obtain ⟨⟨s, tr⟩, hmem, htarget⟩ := hstep
        have hbyte := (isCollapsed_eq_false_iff (h.settled a)).mp (hbytes a ih) _ hmem
        cases s with
        | byte byte => exact ih.tail ⟨byte, tr, hmem, htarget⟩
        | action x => simp [Symbol.isAction] at hbyte
    intro id hid
    have hlive := hbytes id (hreach id hid)
    exact ⟨hlive, (isCollapsed_eq_false_iff (h.settled id)).mp hlive⟩

/-- If no union state is collapsed, nothing collapsed can be reached. -/
theorem fullyFolded_of_unionsLive (h : Folded t plain f) (hunions : UnionsLive plain f) :
    FullyFolded f := by
  rw [h.fullyFolded_iff_bytes]
  intro id hid
  induction hid with
  | refl => exact h.zero
  | tail _ hstep ih =>
    obtain ⟨b, tr, hmem, rfl⟩ := hstep
    exact (h.live hunions).targets _ ih _ hmem

end Folded

/-- **When folding is complete.** For every tree the construction gets as far as a folding, whose
transitions lead to numbered states only. It goes on to the end if and only if nothing collapsed and
no transition on an action can be reached; that is so if and only if no collapsed state is reached
by consuming bytes, and in particular if no union state is collapsed. -/
theorem fullyFolded_iff_of_tree (t : Tree) :
    ∃ plain f, SymbolDfa.ofNfa? (Nfa.ofTree t) = some plain ∧ SymbolDfa.fold? plain = some f ∧
      (∀ id, Reachable f id → ∀ entry ∈ (f.state id).transitions,
        entry.2.target ∈ order ⟨f.states⟩) ∧
      (FullyFolded f ↔ ∀ id, ReachableByBytes f id → f.isCollapsed id = false) ∧
      ((build? (Nfa.ofTree t)).isSome = true ↔ FullyFolded f) ∧
      ((∀ id, plain.size ≤ id → f.isCollapsed id = false) → FullyFolded f) := by
  obtain ⟨plain, f, h⟩ := exists_folded t
  refine ⟨plain, f, h.subsets, h.folding, ?_, h.fullyFolded_iff_bytes, h.isSome_build?_iff,
    h.fullyFolded_of_unionsLive⟩
  intro id hid entry hentry
  exact target_mem_order h.closed ((mem_order_iff h.closed).mpr hid) hentry

/-- A tree whose folding needs a collapsed union state again: `(@1(@0|c)@1c@1)*c@1`. -/
def staleTree : Tree :=
  .concat
    (.closure (.concat (.action 1) (.concat (.alternate (.action 0) (.byte 99))
      (.concat (.action 1) (.concat (.byte 99) (.action 1))))))
    (.concat (.byte 99) (.action 1))

/-- The automaton of `staleTree` before folding. -/
def staleAutomaton : SymbolDfa :=
  ⟨#[{ transitions := [(.byte 99, ⟨1, []⟩), (.action 1, ⟨2, []⟩)] },
    { transitions := [(.action 1, ⟨7, []⟩)] },
    { transitions := [(.byte 99, ⟨3, []⟩), (.action 0, ⟨3, []⟩)] },
    { transitions := [(.action 1, ⟨4, []⟩)] },
    { transitions := [(.byte 99, ⟨5, []⟩)] },
    { transitions := [(.action 1, ⟨6, []⟩)] },
    { transitions := [(.byte 99, ⟨1, []⟩), (.action 1, ⟨2, []⟩)] },
    { accept := true }]⟩

set_option maxRecDepth 100000 in
theorem ofNfa?_staleTree : SymbolDfa.ofNfa? (Nfa.ofTree staleTree) = some staleAutomaton := by cbv

/-- The union state 10 is collapsed into 11 before a transition of 11 needs it again. -/
theorem fold?_staleAutomaton :
    ((SymbolDfa.fold? staleAutomaton).map fun f =>
      [0, 11, 10].map fun id => (f.state id).transitions) =
    some [[(.byte 99, ⟨11, [0, 1]⟩)], [(.byte 99, ⟨10, [0, 1]⟩)], [(.action 1, ⟨11, []⟩)]] := by
  decide +kernel

/-- Folding is not complete for every tree. -/
theorem not_fullyFolded_staleTree :
    ∃ plain f, SymbolDfa.ofNfa? (Nfa.ofTree staleTree) = some plain ∧
      SymbolDfa.fold? plain = some f ∧ ¬ FullyFolded f ∧ build? (Nfa.ofTree staleTree) = none := by
  obtain ⟨plain, f, h⟩ := exists_folded staleTree
  obtain rfl := Option.some.inj (h.subsets.symm.trans ofNfa?_staleTree)
  have hstates := fold?_staleAutomaton
  rw [h.folding, Option.map_some, Option.some.injEq] at hstates
  simp only [List.map_cons, List.map_nil, List.cons.injEq, and_true] at hstates
  obtain ⟨hfirst, hunion, hstale⟩ := hstates
  have hnot : ¬ FullyFolded f := by
    intro hfolded
    have hreach : Reachable f 11 := .tail .refl ⟨_, hfirst ▸ List.mem_singleton_self _, rfl⟩
    have hreach' : Reachable f 10 := hreach.tail ⟨_, hunion ▸ List.mem_singleton_self _, rfl⟩
    have hbyte := (hfolded 10 hreach').2 (.action 1, ⟨11, []⟩) (by rw [hstale]; simp)
    simp [Symbol.isAction] at hbyte
  refine ⟨_, f, h.subsets, h.folding, hnot, ?_⟩
  have hfails : ¬ (build? (Nfa.ofTree staleTree)).isSome = true := mt h.isSome_build?_iff.mp hnot
  simpa using hfails

end ActionRegex.Dfa
