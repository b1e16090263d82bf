import ActionRegex.Proofs.SymbolDfa.Subset
import Mathlib.Data.List.Sort

/-!
# The states of the subset construction

A state of the subset construction stands for the set of states in which the runs over a word end.
Every set that is found is the set of some word (`Found`), because a move of the set of a word gives
the set of a longer one. So there is a state for each such set and no other state
(`ofNfa?_exact`).
-/

namespace ActionRegex.SymbolDfa

open Arrays

/-! ## Paths -/

/-- A path is determined by its start and its word. -/
theorem Path.end_unique {dfa : SymbolDfa} (hdfa : dfa.InRange) {p q q' : Nat} {u : List Symbol}
    (h : Path dfa p u q) (h' : Path dfa p u q') : q = q' := by
  induction h with
  | nil p =>
    cases h'
    rfl
  | @cons p q s t u ht _ ih =>
    cases h' with
    | @cons _ _ _ t' _ ht' path' =>
      have hsome := (Ascending.get?_eq_some_iff (hdfa.keys p)).mpr ht
      have hsome' := (Ascending.get?_eq_some_iff (hdfa.keys p)).mpr ht'
      obtain rfl := Option.some.inj (hsome.symm.trans hsome')
      exact ih path'

theorem Path.lt_size {dfa : SymbolDfa} (hdfa : dfa.InRange) {p q : Nat} {u : List Symbol}
    (h : Path dfa p u q) (hp : p < dfa.size) : q < dfa.size := by
  induction h with
  | nil p => exact hp
  | cons ht _ ih => exact ih (hdfa.target_lt _ _ ht)

/-! ## The sets that are found -/

namespace Subsets

variable {nfa : Nfa}

/-- The states in which the runs over a word end. -/
def EndsOf (nfa : Nfa) (u : List Symbol) (set : List Nat) : Prop :=
  ∀ r, r ∈ set ↔ Nfa.Run nfa Nfa.initial u r

/-- Every set found so far is the set of some word. -/
def Found (nfa : Nfa) (subsets : Subsets) : Prop :=
  ∀ set ∈ subsets.sets, ∃ u, EndsOf nfa u set

theorem mem_sets_number {subsets : Subsets} {set x : List Nat}
    (h : x ∈ (subsets.number set).2.sets) : x ∈ subsets.sets ∨ x = set := by
  unfold number at h
  split at h
  · exact Or.inl h
  · exact Array.mem_push.mp h

theorem mem_sets_numberAll {moves : List (Symbol × List Nat)} {subsets : Subsets} {x : List Nat}
    (h : x ∈ (subsets.numberAll moves).2.sets) :
    x ∈ subsets.sets ∨ ∃ s, (s, x) ∈ moves := by
  induction moves generalizing subsets with
  | nil => exact Or.inl h
  | cons move rest ih =>
    obtain ⟨s, set⟩ := move
    rcases ih h with hx | ⟨s', hx⟩
    · rcases mem_sets_number hx with hx | rfl
      · exact Or.inl hx
      · exact Or.inr ⟨s, List.mem_cons_self⟩
    · exact Or.inr ⟨s', List.mem_cons_of_mem _ hx⟩

/-- A move of the set of a word gives the set of a longer word. -/
theorem endsOf_move (hnfa : nfa.InRange) {set next : List Nat} (hclosed : nfa.Closed set)
    {u : List Symbol} (hset : EndsOf nfa u set) {s : Symbol} (hmove : (s, next) ∈ nfa.moves set) :
    EndsOf nfa (u ++ [s]) next := by
  intro r
  rw [(Nfa.mem_moves_iff hnfa hclosed hmove).1 r]
  constructor
  · rintro ⟨p, hp, hrun⟩
    exact ((hset p).mp hp).trans hrun
  · intro hrun
    obtain ⟨p, hbefore, hlast⟩ := Nfa.exists_of_run_append hrun
    exact ⟨p, (hset p).mpr hbefore, hlast⟩

/-- **A step finds sets of words only.** -/
theorem Found.explore (hnfa : nfa.InRange) {subsets : Subsets} (hvalid : Valid nfa [] subsets)
    (h : Found nfa subsets) {id : Nat} (hid : id < subsets.sets.size) (rest : List Nat) :
    Found nfa ({ subsets with frontier := rest }.explore nfa id) := by
  intro x hx
  have hset : subsets.sets[id]? = some (subsets.sets.getD id []) := getElem?_eq_some_getD hid []
  have hmem := Array.mem_of_getElem? hset
  have hnumbered : x ∈ ({ subsets with frontier := rest } : Subsets).sets ∨
      ∃ s, (s, x) ∈ nfa.moves (subsets.sets.getD id []) := mem_sets_numberAll hx
  rcases hnumbered with hx | ⟨s, hmove⟩
  · exact h x hx
  · obtain ⟨u, hu⟩ := h _ hmem
    exact ⟨u ++ [s], endsOf_move hnfa (hvalid.proper _ hmem).closed hu hmove⟩

theorem found_start (hnfa : nfa.InRange) (hsize : Nfa.initial < nfa.size) :
    Found nfa (start nfa) := by
  intro set hset
  obtain rfl : set = nfa.closure [Nfa.initial] := by simpa [start] using hset
  exact ⟨[], fun r => Determinizes.mem_first_iff hnfa hsize⟩

/-- **The whole construction finds sets of words only.** -/
theorem Found.exploreAll (hnfa : nfa.InRange) {steps : Nat} {subsets subsets' : Subsets}
    (hvalid : Valid nfa [] subsets) (h : Found nfa subsets)
    (hsome : exploreAll nfa steps subsets = some subsets') : Found nfa subsets' := by
  induction steps generalizing subsets with
  | zero =>
    unfold Subsets.exploreAll at hsome
    split at hsome
    · exact Option.some.inj hsome ▸ h
    · simp at hsome
  | succ steps ih =>
    unfold Subsets.exploreAll at hsome
    split at hsome
    · exact Option.some.inj hsome ▸ h
    · next id rest hfrontier =>
      have hid : id < subsets.sets.size :=
        hvalid.frontier_lt id (hfrontier ▸ List.mem_cons_self)
      exact ih (explore_spec hnfa hvalid hfrontier).1 (h.explore hnfa hvalid hid rest) hsome

end Subsets

/-! ## Exactness -/

/-- The states of an automaton stand for the sets in which the runs of another one can end. -/
structure Powerset (nfa : Nfa) (sets : Array (List Nat)) (dfa : SymbolDfa) : Prop where
  /-- There is a set for each state. -/
  size_eq : sets.size = dfa.size
  /-- A word is spelled by a path if and only if it is read by a run. -/
  exists_path_iff : ∀ u, (∃ q, Path dfa 0 u q) ↔ ∃ r, Nfa.Run nfa Nfa.initial u r
  /-- At most one state is reached with a word. -/
  end_unique : ∀ u p q, Path dfa 0 u p → Path dfa 0 u q → p = q
  /-- The state that is reached stands for the states in which the runs over the word end. -/
  mem_iff : ∀ u q, Path dfa 0 u q →
    ∀ r, r ∈ sets.getD q [] ↔ Nfa.Run nfa Nfa.initial u r
  accept_iff : ∀ u q, Path dfa 0 u q →
    ((dfa.state q).accept = true ↔ Nfa.final ∈ sets.getD q [])
  /-- Different states stand for different sets. -/
  distinct : ∀ p q, p < dfa.size → q < dfa.size →
    (∀ r, r ∈ sets.getD p [] ↔ r ∈ sets.getD q []) → p = q
  reachable : ∀ q, q < dfa.size → ∃ u, Path dfa 0 u q

section Powerset

open Subsets (EndsOf Found Valid)

variable {nfa : Nfa} {dfa : SymbolDfa} {sets : Array (List Nat)}

/-- The state that is reached with a word stands for the set of the word. -/
theorem Determinizes.endsOf (hnfa : nfa.InRange) (hsize : Nfa.initial < nfa.size)
    (h : Determinizes nfa sets dfa) {u : List Symbol} {q : Nat} (hpath : Path dfa 0 u q) :
    ∃ set, sets[q]? = some set ∧ EndsOf nfa u set := by
  obtain ⟨set, hset, hall⟩ := h.exists_run_of_path hnfa hpath h.first
  refine ⟨set, hset, fun r => ⟨fun hr => ?_, fun hrun => ?_⟩⟩
  · obtain ⟨r₀, hr₀, hrun⟩ := hall r hr
    exact ((mem_first_iff hnfa hsize).mp hr₀).trans hrun
  · obtain ⟨q', set', hpath', hset', hr⟩ := h.exists_path_of_run hnfa hrun h.first
      ((mem_first_iff hnfa hsize).mpr (Nfa.Run.nil _))
    obtain rfl := hpath'.end_unique h.plain.toInRange hpath
    rwa [Option.some.inj (hset.symm.trans hset')]

/-- States that stand for sets with the same members are the same. -/
theorem Determinizes.eq_of_mem_iff (h : Determinizes nfa sets dfa) (hnodup : sets.toList.Nodup)
    {p q : Nat} {set set' : List Nat} (hp : sets[p]? = some set) (hq : sets[q]? = some set')
    (hmem : ∀ r, r ∈ set ↔ r ∈ set') : p = q := by
  have hsorted := (h.proper set (Array.mem_of_getElem? hp)).sorted
  have hsorted' := (h.proper set' (Array.mem_of_getElem? hq)).sorted
  obtain rfl : set = set' := hsorted.eq_of_mem_iff hsorted' hmem
  have hlt : p < sets.toList.length := by
    rw [Array.length_toList]
    exact (Array.getElem?_eq_some_iff.mp hp).1
  refine (List.getElem?_inj hlt hnodup).mp ?_
  rw [Array.getElem?_toList, Array.getElem?_toList, hp, hq]

theorem Determinizes.powerset (hnfa : nfa.InRange) (hsize : Nfa.initial < nfa.size)
    (h : Determinizes nfa sets dfa) (hnodup : sets.toList.Nodup)
    (hfound : ∀ set ∈ sets, ∃ u, EndsOf nfa u set) : Powerset nfa sets dfa := by
  have hrange := h.plain.toInRange
  have hmem : ∀ u q, Path dfa 0 u q →
      ∀ r, r ∈ sets.getD q [] ↔ Nfa.Run nfa Nfa.initial u r := by
    intro u q hpath r
    obtain ⟨set, hset, hends⟩ := h.endsOf hnfa hsize hpath
    rw [h.getElem?_sets (hpath.lt_size hrange h.plain.size_pos)] at hset
    rw [Option.some.inj hset]
    exact hends r
  have hdistinct : ∀ p q, p < dfa.size → q < dfa.size →
      (∀ r, r ∈ sets.getD p [] ↔ r ∈ sets.getD q []) → p = q := by
    intro p q hp hq heq
    exact h.eq_of_mem_iff hnodup (h.getElem?_sets hp) (h.getElem?_sets hq) heq
  have hpaths : ∀ u, (∃ q, Path dfa 0 u q) ↔ ∃ r, Nfa.Run nfa Nfa.initial u r := by
    intro u
    constructor
    · rintro ⟨q, hpath⟩
      obtain ⟨set, hset, hends⟩ := h.endsOf hnfa hsize hpath
      obtain ⟨r, hr⟩ :=
        List.exists_mem_of_ne_nil set (h.proper set (Array.mem_of_getElem? hset)).ne_nil
      exact ⟨r, (hends r).mp hr⟩
    · rintro ⟨r, hrun⟩
      obtain ⟨q, -, hpath, -⟩ := h.exists_path_of_run hnfa hrun h.first
        ((mem_first_iff hnfa hsize).mpr (Nfa.Run.nil _))
      exact ⟨q, hpath⟩
  refine ⟨h.size_eq.symm, hpaths, fun u p q hp hq => hp.end_unique hrange hq, hmem, ?_,
    hdistinct, ?_⟩
  · intro u q hpath
    have hq := hpath.lt_size hrange h.plain.size_pos
    rw [h.accept q _ (h.getElem?_sets hq), List.contains_iff_mem]
  · -- the set of a state belongs to a word, and the path with the word leads to no other state
    intro q hq
    have hset := Array.mem_of_getElem? (h.getElem?_sets hq)
    obtain ⟨u, hu⟩ := hfound _ hset
    obtain ⟨r, hr⟩ := List.exists_mem_of_ne_nil _ (h.proper _ hset).ne_nil
    obtain ⟨q', hpath⟩ := (hpaths u).mpr ⟨r, (hu r).mp hr⟩
    obtain rfl := hdistinct q' q (hpath.lt_size hrange h.plain.size_pos) hq fun r => by
      rw [hmem u q' hpath r, hu r]
    exact ⟨u, hpath⟩

end Powerset

/-- **The subset construction is exact.** It ends, and the states of its automaton stand for the
sets that it found. -/
theorem ofNfa?_exact {nfa : Nfa} (hnfa : nfa.InRange) (hsize : Nfa.initial < nfa.size) :
    ∃ subsets : Subsets,
      Subsets.exploreAll nfa (setCount nfa.size) (Subsets.start nfa) = some subsets ∧
      ofNfa? nfa = some ⟨subsets.states⟩ ∧ Powerset nfa subsets.sets ⟨subsets.states⟩ := by
  obtain ⟨subsets, hsome, hvalid, hnil⟩ := Subsets.exploreAll_spec hnfa (setCount nfa.size) _
    (Subsets.valid_start hnfa hsize) (by simp [Subsets.start]; omega)
  have hdeterminizes : Determinizes nfa subsets.sets ⟨subsets.states⟩ := by
    refine ⟨hvalid.size_eq, hvalid.first, hvalid.proper, hvalid.accept, hvalid.entry, ?_⟩
    intro id set hset
    exact hvalid.explored id set hset (by rw [hnil]; simp) (by simp)
  have hfound := (Subsets.found_start hnfa hsize).exploreAll hnfa
    (Subsets.valid_start hnfa hsize) hsome
  refine ⟨subsets, hsome, ?_, hdeterminizes.powerset hnfa hsize hvalid.nodup hfound⟩
  rw [ofNfa?, hsome]
  rfl

/-- An automaton with a cycle of direct edges, which accepts `a` after some firings of action 0. -/
def swingNfa : Nfa :=
  ⟨#[{ direct := [2] }, {}, { edges := [⟨.byte 97, 1⟩], direct := [3] },
    { edges := [⟨.action 0, 3⟩], direct := [2] }]⟩

theorem inRange_swingNfa : swingNfa.InRange :=
  Nfa.inRange_of_forall_lt (by decide)

/-- The state reached with action 0 and `a` stands for a set with the final state in it. -/
theorem ofNfa?_exact_swingNfa : swingNfa.InRange ∧ Nfa.initial < swingNfa.size ∧
    ∃ dfa q, ofNfa? swingNfa = some dfa ∧ Path dfa 0 [.action 0, .byte 97] q ∧
      (dfa.state q).accept = true := by
  have hsize : Nfa.initial < swingNfa.size := by decide
  obtain ⟨subsets, -, hsome, hpowerset⟩ := ofNfa?_exact inRange_swingNfa hsize
  have hrun : Nfa.Run swingNfa Nfa.initial [.action 0, .byte 97] Nfa.final := by
    have hfirst : Nfa.Run swingNfa 0 [.action 0] 3 :=
      Nfa.Run.direct (q := 2) (by decide) (Nfa.Run.direct (q := 3) (by decide)
        (Nfa.Run.read (by decide) (Nfa.Run.nil 3)))
    exact hfirst.trans (Nfa.Run.direct (q := 2) (by decide)
      (Nfa.Run.read (by decide) (Nfa.Run.nil 1)))
  obtain ⟨q, hpath⟩ := (hpowerset.exists_path_iff _).mpr ⟨_, hrun⟩
  exact ⟨inRange_swingNfa, hsize, _, q, hsome, hpath,
    (hpowerset.accept_iff _ q hpath).mpr ((hpowerset.mem_iff _ q hpath _).mpr hrun)⟩

end ActionRegex.SymbolDfa
