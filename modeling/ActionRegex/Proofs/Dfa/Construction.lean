import ActionRegex.Dfa.Construction
import ActionRegex.Proofs.Dfa.Numbering
import ActionRegex.Proofs.Dfa.Walks
import ActionRegex.Proofs.Nfa.OfTree
import ActionRegex.Proofs.SymbolDfa.Folding.Loops
import ActionRegex.Proofs.SymbolDfa.Subset

/-!
# Walks and words

The construction from a tree: the subset construction and folding always succeed, and what is left
to numbering is whether a transition on an action can be reached. Where the construction succeeds, a
walk over a text and a word with the bytes of the text belong together:

* every member of the state in which a walk ends is reached by such a word, whose actions are all
  fired (`Built.walk_sound`);
* every accepted word leads a walk to an accepting state, one of whose members accepts a rest of the
  word without bytes (`Built.walk_complete`).
-/

namespace ActionRegex.Dfa

open ActionRegex.Symbol (bytes)
open Pattern (Tree)
open SymbolDfa (Accepts Plain Folding)
open SymbolDfa.Folding (Ready Settled Covered)

/-! ## The stages -/

/-- The first two stages of the construction, for the automaton of a tree. -/
structure Folded (t : Tree) (plain : SymbolDfa) (f : Folding) : Prop where
  subsets : SymbolDfa.ofNfa? (Nfa.ofTree t) = some plain
  folding : SymbolDfa.fold? plain = some f
  isPlain : plain.Plain
  accepts_iff : ∀ u, Accepts plain 0 u ↔ Nfa.Run (Nfa.ofTree t) Nfa.initial u Nfa.final
  run_of_path : ∀ u q, plain.Path 0 u q → ∃ r, Nfa.Run (Nfa.ofTree t) Nfa.initial u r
  ready : Ready plain f
  settled : ∀ id, Settled f id
  zero : f.isCollapsed 0 = false
  live : Folding.UnionsLive plain f → Folding.Live f

/-- **The subset construction and folding succeed for every tree.** -/
theorem exists_folded (t : Tree) : ∃ plain f, Folded t plain f := by
  have hsize : Nfa.initial < (Nfa.ofTree t).size :=
    Nat.lt_of_lt_of_le (by decide) (Nfa.two_le_size_ofTree t)
  obtain ⟨plain, hsubsets, hplain, haccepts, hpaths⟩ :=
    SymbolDfa.exists_ofNfa? (Nfa.inRange_ofTree t) hsize
  obtain ⟨f, hfold, hready, hsettled, hzero, hlive⟩ := SymbolDfa.exists_fold? hplain.toInRange
  exact ⟨plain, f, hsubsets, hfold, hplain, haccepts, hpaths, hready, hsettled, hzero, hlive⟩

variable {t : Tree} {plain : SymbolDfa} {f : Folding} {dfa : Dfa}

namespace Folded

theorem closed (h : Folded t plain f) : Closed ⟨f.states⟩ :=
  ⟨h.ready.zero_lt h.isPlain, h.ready.target_lt, h.ready.keys⟩

theorem membersOf_zero (h : Folded t plain f) : f.membersOf 0 = [0] :=
  h.ready.original 0 h.isPlain.size_pos

/-- What is left of the construction is numbering. -/
theorem build?_eq (h : Folded t plain f) :
    build? (Nfa.ofTree t) = (ofSymbolDfa? ⟨f.states⟩).map fun dfa =>
      (dfa, [alphabetNote (Nfa.ofTree t)] ++ foldingNotes f ++
        [.dfaBuilt plain.size dfa.size]) := by
  rw [build?, h.subsets, Option.bind_some, h.folding, Option.bind_some]

end Folded

/-- The stages of a construction that succeeds. -/
structure Built (t : Tree) (plain : SymbolDfa) (f : Folding) (dfa : Dfa) : Prop
    extends Folded t plain f where
  numbered : ofSymbolDfa? ⟨f.states⟩ = some dfa

theorem exists_built {notes : List Note} (h : build? (Nfa.ofTree t) = some (dfa, notes)) :
    ∃ plain f, Built t plain f dfa := by
  obtain ⟨plain, f, hfolded⟩ := exists_folded t
  rw [hfolded.build?_eq, Option.map_eq_some_iff] at h
  obtain ⟨dfa', hnumbered, heq⟩ := h
  obtain ⟨rfl, -⟩ := Prod.mk.inj heq
  exact ⟨plain, f, hfolded, hnumbered⟩

namespace Built

/-- No transition on an action is left where numbering succeeds. -/
theorem isAction_eq_false (h : Built t plain f dfa) {i id : Nat}
    (hstands : Stands ⟨f.states⟩ i id) :
    ∀ entry ∈ (f.state id).transitions, entry.1.isAction = false := by
  have hsome : (ofSymbolDfa? ⟨f.states⟩).isSome = true := by rw [h.numbered]; rfl
  exact (isSome_ofSymbolDfa?_iff h.closed).mp hsome id (List.mem_of_getElem? hstands)

theorem target_lt_size (h : Built t plain f dfa) (i : Nat) (b : UInt8) (tr : Transition)
    (hon : (dfa.state i).on? b = some tr) : tr.target < dfa.size :=
  Dfa.target_lt_size h.closed h.numbered hon

/-! ## Walks -/

/-- **Where a walk ends, a word leads**: it has the bytes of the walk, and all its actions are
fired. -/
theorem walk_sound (h : Built t plain f dfa) {i q : Nat} {w : Bytes}
    (hwalk : dfa.walk? i w = some q) {id : Nat} (hstands : Stands ⟨f.states⟩ i id) :
    ∃ id', Stands ⟨f.states⟩ q id' ∧ ∀ m' ∈ f.membersOf id', ∃ m ∈ f.membersOf id, ∃ u,
      plain.Path m u m' ∧ bytes u = w ∧ ∀ x, .action x ∈ u → x ∈ dfa.fired i w := by
  induction w generalizing i id with
  | nil =>
    cases hwalk
    refine ⟨id, hstands, fun m hm => ⟨m, hm, [], .nil m, rfl, fun x hx => ?_⟩⟩
    simp at hx
  | cons b rest ih =>
    obtain ⟨tr, hon, hrest⟩ := walk?_cons_eq_some_iff.mp hwalk
    obtain ⟨t, hmem, htarget, hactions⟩ := exists_of_on? h.closed h.numbered hstands hon
    obtain ⟨id', hstands', hwords⟩ := ih hrest htarget
    refine ⟨id', hstands', fun m' hm' => ?_⟩
    obtain ⟨m₁, hm₁, v, hpath', hbytes', hv⟩ := hwords m' hm'
    obtain ⟨m, hm, u, hpath, -, hbytes, hu⟩ := ((h.ready.sound id).edges _ hmem).reach m₁ hm₁
    refine ⟨m, hm, u ++ v, hpath.trans hpath', ?_, fun x hx => ?_⟩
    · rw [Symbol.bytes_append, hbytes, hbytes']
      rfl
    · rw [mem_fired_cons hon, hactions, Ascending.mem_union]
      rcases List.mem_append.mp hx with hx | hx
      · rcases hu x hx with hx | hx
        · exact Or.inl (Or.inl hx)
        · simp at hx
      · exact Or.inr (hv x hx)

/-- **An accepted word leads a walk to an accepting state**, and a rest of the word without bytes is
accepted from a member of that state. -/
theorem walk_complete (h : Built t plain f dfa) {i id : Nat} (hstands : Stands ⟨f.states⟩ i id)
    {m : Nat} (hm : m ∈ f.membersOf id) {u : List Symbol} (hu : Accepts plain m u) :
    ∃ q id' u₁ u₂, dfa.walk? i (bytes u) = some q ∧ (dfa.state q).accept = true ∧
      Stands ⟨f.states⟩ q id' ∧ u = u₁ ++ u₂ ∧ bytes u₂ = [] ∧
      ∃ m' ∈ f.membersOf id', Accepts plain m' u₂ := by
  -- induction on the length: a transition consumes a nonempty part of the word
  induction hn : u.length using Nat.strongRecOn generalizing i id m u with
  | ind n ih =>
    subst hn
    cases h.ready.complete id (h.ready.lt_size_of_mem hm) (h.ready.not_unfilled id) m hm u hu with
    | accept haccept hbytes =>
      refine ⟨i, id, [], u, ?_, ?_, hstands, rfl, hbytes, m, hm, hu⟩
      · rw [hbytes]
        rfl
      · exact (accept_of_stands h.numbered hstands).trans haccept
    | owed _ _ hfalse _ => exact hfalse.elim
    | @step entry p v m' hmem hne hp hm' hv =>
      obtain ⟨s, t⟩ := entry
      cases s with
      | action a =>
        have hbyte := h.isAction_eq_false hstands _ hmem
        simp [Symbol.isAction] at hbyte
      | byte b =>
        obtain ⟨tr, hon, htarget⟩ := exists_on?_of_mem h.closed h.numbered hstands hmem
        have hlt : v.length < (p ++ v).length := by
          have hpos := List.length_pos_iff.mpr hne
          rw [List.length_append]
          omega
        obtain ⟨q, id', u₁, u₂, hwalk, haccept, hstands', rfl, hbytes, hend⟩ :=
          ih v.length hlt htarget hm' hv rfl
        refine ⟨q, id', p ++ u₁, u₂, ?_, haccept, hstands', ?_, hbytes, hend⟩
        · rw [Symbol.bytes_append, hp, Symbol.bytes_byte, List.singleton_append, walk?_cons hon,
            hwalk]
        · rw [List.append_assoc]

/-- A walk from the initial state, and the words from the initial state that belong to it. -/
theorem exists_path_of_walk (h : Built t plain f dfa) {q : Nat} {w : Bytes}
    (hwalk : dfa.walk? initial w = some q) :
    ∃ id, Stands ⟨f.states⟩ q id ∧ ∀ m ∈ f.membersOf id, ∃ u, plain.Path 0 u m ∧ bytes u = w ∧
      ∀ x, .action x ∈ u → x ∈ dfa.fired initial w := by
  obtain ⟨id, hstands, hwords⟩ := h.walk_sound hwalk (stands_zero h.closed)
  refine ⟨id, hstands, fun m hm => ?_⟩
  obtain ⟨m₀, hm₀, u, hpath, hu⟩ := hwords m hm
  rw [h.membersOf_zero, List.mem_singleton] at hm₀
  subst hm₀
  exact ⟨u, hpath, hu⟩

theorem walk_of_accepts (h : Built t plain f dfa) {u : List Symbol} (hu : Accepts plain 0 u) :
    ∃ q id u₁ u₂, dfa.walk? initial (bytes u) = some q ∧ (dfa.state q).accept = true ∧
      Stands ⟨f.states⟩ q id ∧ u = u₁ ++ u₂ ∧ bytes u₂ = [] ∧
      ∃ m ∈ f.membersOf id, Accepts plain m u₂ :=
  h.walk_complete (stands_zero h.closed) (by simp [h.membersOf_zero]) hu

end Built

end ActionRegex.Dfa
