import ActionRegex.Proofs.Arrays
import ActionRegex.Proofs.Nfa.Moves
import ActionRegex.Proofs.SymbolDfa.Paths
import ActionRegex.SymbolDfa.Subset

/-!
# What the subset construction builds

The construction ends, and a word leads its automaton to the set of states in which the runs over
the word end. So both automata accept the same words, and every path of the one is a run of the
other.

A set that has been found keeps its number, so a transition once made stays right. Each step takes
one set from the frontier and puts the sets it finds there; the sets that can still be found and the
frontier together shrink.
-/

namespace ActionRegex.SymbolDfa

open Arrays

namespace Subsets

variable {nfa : Nfa}

/-- What every set that is found is like: a nonempty ascending list of states, closed under reading
nothing. -/
structure Proper (nfa : Nfa) (set : List Nat) : Prop where
  sorted : set.Pairwise (· < ·)
  lt_size : ∀ p ∈ set, p < nfa.size
  closed : nfa.Closed set
  ne_nil : set ≠ []

/-- A transition leads where a move says, and fires nothing. -/
def Leads (sets : Array (List Nat)) (entry : Symbol × Transition) (move : Symbol × List Nat) :
    Prop :=
  entry.1 = move.1 ∧ entry.2.actions = [] ∧ sets[entry.2.target]? = some move.2

/-- The transitions of a state are the moves of its set. -/
def Explored (nfa : Nfa) (sets : Array (List Nat)) (set : List Nat) (s : State) : Prop :=
  List.Forall₂ (Leads sets) s.transitions (nfa.moves set)

/-- The invariant of the construction. The states in `pending` are being explored. -/
structure Valid (nfa : Nfa) (pending : List Nat) (subsets : Subsets) : Prop where
  size_eq : subsets.states.size = subsets.sets.size
  first : subsets.sets[0]? = some (nfa.closure [Nfa.initial])
  nodup : subsets.sets.toList.Nodup
  proper : ∀ set ∈ subsets.sets, Proper nfa set
  frontier_lt : ∀ id ∈ subsets.frontier, id < subsets.sets.size
  accept : ∀ id set, subsets.sets[id]? = some set →
    (subsets.states.getD id {}).accept = set.contains Nfa.final
  entry : ∀ id, (subsets.states.getD id {}).entry = []
  explored : ∀ id set, subsets.sets[id]? = some set → id ∉ subsets.frontier → id ∉ pending →
    Explored nfa subsets.sets set (subsets.states.getD id {})

/-- What a step leaves as it is: the sets keep their numbers, and each new one is in the
frontier. -/
structure Extends (subsets subsets' : Subsets) : Prop where
  sets : ∀ (id : Nat) set, subsets.sets[id]? = some set → subsets'.sets[id]? = some set
  length_eq : subsets'.frontier.length + subsets.sets.size =
    subsets.frontier.length + subsets'.sets.size

theorem Extends.refl (subsets : Subsets) : Extends subsets subsets :=
  ⟨fun _ _ h => h, rfl⟩

theorem Extends.trans {a b c : Subsets} (hab : Extends a b) (hbc : Extends b c) : Extends a c where
  sets id set h := hbc.sets id set (hab.sets id set h)
  length_eq := by
    have h1 := hab.length_eq
    have h2 := hbc.length_eq
    omega

/-! ## The start -/

theorem proper_start (hnfa : nfa.InRange) (hsize : Nfa.initial < nfa.size) :
    Proper nfa (nfa.closure [Nfa.initial]) := by
  have hset : ∀ p ∈ [Nfa.initial], p < nfa.size := fun p hp => by
    rw [List.mem_singleton.mp hp]
    exact hsize
  refine ⟨Nfa.pairwise_closure _, fun p hp => Nfa.lt_size_of_mem_closure hnfa hset hp,
    Nfa.closed_closure hnfa hset, List.ne_nil_of_mem (a := Nfa.initial) ?_⟩
  exact (Nfa.mem_closure_iff hnfa hset).mpr ⟨_, List.mem_singleton_self _, Nfa.Run.nil _⟩

theorem valid_start (hnfa : nfa.InRange) (hsize : Nfa.initial < nfa.size) :
    Valid nfa [] (start nfa) where
  size_eq := rfl
  first := rfl
  nodup := by simp [start]
  proper set hset := by
    have heq : set = nfa.closure [Nfa.initial] := by simpa [start] using hset
    rw [heq]
    exact proper_start hnfa hsize
  frontier_lt := by simp [start]
  accept id set h := by
    cases id with
    | zero =>
      have heq : nfa.closure [Nfa.initial] = set := by simpa [start] using h
      rw [← heq]
      rfl
    | succ id => simp [start] at h
  entry id := by
    cases id with
    | zero => rfl
    | succ id => rfl
  explored id set h hnot := by
    cases id with
    | zero => simp [start] at hnot
    | succ id => simp [start] at h

/-! ## Numbering sets -/

/-- The states with one more: the new one belongs to the new set, the others are as they were. -/
theorem getD_push_stateOf {pending : List Nat} {subsets : Subsets} (h : Valid nfa pending subsets)
    (set : List Nat) (id : Nat) : (subsets.states.push (stateOf set)).getD id {} =
      if id = subsets.sets.size then stateOf set else subsets.states.getD id {} := by
  rw [getD_push, h.size_eq]

/-- Adding a set that is new keeps the invariant. -/
theorem valid_push {pending : List Nat} {subsets : Subsets} (h : Valid nfa pending subsets)
    {set : List Nat} (hset : Proper nfa set) (hnew : set ∉ subsets.sets) :
    Valid nfa pending ⟨subsets.sets.push set, subsets.states.push (stateOf set),
      subsets.sets.size :: subsets.frontier⟩ where
  size_eq := by rw [Array.size_push, Array.size_push, h.size_eq]
  first := by
    rw [Array.getElem?_push, if_neg, h.first]
    intro hzero
    have hfirst := h.first
    rw [Array.getElem?_eq_none (Nat.le_of_eq hzero.symm)] at hfirst
    simp at hfirst
  nodup := by
    rw [Array.toList_push]
    refine List.nodup_append.mpr ⟨h.nodup, List.nodup_singleton _, ?_⟩
    intro x hx y hy heq
    rw [List.mem_singleton.mp hy] at heq
    exact hnew (Array.mem_toList_iff.mp (heq ▸ hx))
  proper x hx := by
    rcases Array.mem_push.mp hx with hx | rfl
    · exact h.proper x hx
    · exact hset
  frontier_lt id hid := by
    rw [Array.size_push]
    rcases List.mem_cons.mp hid with rfl | hid
    · exact Nat.lt_succ_self _
    · exact Nat.lt_succ_of_lt (h.frontier_lt id hid)
  accept id x hx := by
    rw [Array.getElem?_push] at hx
    rw [getD_push_stateOf h]
    by_cases hid : id = subsets.sets.size
    · rw [if_pos hid] at hx ⊢
      rw [← Option.some.inj hx]
      rfl
    · rw [if_neg hid] at hx ⊢
      exact h.accept id x hx
  entry id := by
    rw [getD_push_stateOf h]
    by_cases hid : id = subsets.sets.size
    · rw [if_pos hid]
      rfl
    · rw [if_neg hid]
      exact h.entry id
  explored id x hx hfrontier hpending := by
    obtain ⟨hid, hfrontier⟩ := not_or.mp (mt List.mem_cons.mpr hfrontier)
    rw [Array.getElem?_push, if_neg hid] at hx
    rw [getD_push_stateOf h, if_neg hid]
    refine (h.explored id x hx hfrontier hpending).imp fun entry move hleads => ?_
    exact ⟨hleads.1, hleads.2.1, getElem?_push_of_eq_some hleads.2.2 set⟩

theorem number_spec {pending : List Nat} {subsets : Subsets} (h : Valid nfa pending subsets)
    {set : List Nat} (hset : Proper nfa set) :
    Valid nfa pending (subsets.number set).2 ∧ Extends subsets (subsets.number set).2 ∧
      (subsets.number set).2.sets[(subsets.number set).1]? = some set := by
  unfold number
  split
  · next id hid =>
    obtain ⟨hlt, heq, -⟩ := Array.findIdx?_eq_some_iff_getElem.mp hid
    refine ⟨h, Extends.refl subsets, ?_⟩
    rw [Array.getElem?_eq_getElem hlt, eq_of_beq heq]
  · next hid =>
    have hnew : set ∉ subsets.sets := by
      intro hmem
      simpa using Array.findIdx?_eq_none_iff.mp hid set hmem
    refine ⟨valid_push h hset hnew, ⟨fun id x hx => getElem?_push_of_eq_some hx set, ?_⟩,
      Array.getElem?_push_size⟩
    show subsets.frontier.length + 1 + subsets.sets.size = _
    rw [Array.size_push]
    omega

theorem numberAll_spec {pending : List Nat} (moves : List (Symbol × List Nat)) :
    ∀ subsets : Subsets, Valid nfa pending subsets → (∀ move ∈ moves, Proper nfa move.2) →
    Valid nfa pending (subsets.numberAll moves).2 ∧ Extends subsets (subsets.numberAll moves).2 ∧
      List.Forall₂ (Leads (subsets.numberAll moves).2.sets) (subsets.numberAll moves).1 moves := by
  induction moves with
  | nil => exact fun subsets h _ => ⟨h, Extends.refl subsets, List.Forall₂.nil⟩
  | cons move rest ih =>
    intro subsets h hproper
    obtain ⟨hmove, hrest⟩ := List.forall_mem_cons.mp hproper
    obtain ⟨hvalid, hextends, htarget⟩ := number_spec h hmove
    obtain ⟨hvalid', hextends', hall⟩ := ih _ hvalid hrest
    exact ⟨hvalid', hextends.trans hextends',
      List.Forall₂.cons ⟨rfl, rfl, hextends'.sets _ _ htarget⟩ hall⟩

/-! ## Exploring -/

/-- The moves of a set that was found lead to sets like it. -/
theorem Proper.moves (hnfa : nfa.InRange) {set : List Nat} (h : Proper nfa set) :
    ∀ move ∈ nfa.moves set, Proper nfa move.2 := by
  rintro ⟨s, next⟩ hmove
  obtain ⟨-, hclosed, hsorted, hlt, hne⟩ := Nfa.mem_moves_iff hnfa h.closed hmove
  exact ⟨hsorted, hlt, hclosed, hne⟩

/-- The state being explored may get the transitions of its set. -/
theorem valid_modify {subsets : Subsets} {id : Nat} (h : Valid nfa [id] subsets) {set : List Nat}
    (hset : subsets.sets[id]? = some set) {transitions : List (Symbol × Transition)}
    (htransitions : List.Forall₂ (Leads subsets.sets) transitions (nfa.moves set)) :
    Valid nfa [] { subsets with
      states := subsets.states.modify id fun s => { s with transitions } } := by
  have hlt : id < subsets.states.size := h.size_eq ▸ (Array.getElem?_eq_some_iff.mp hset).1
  -- no field of a state but its transitions is another one
  have hstate := getD_modify hlt (fun s => { s with transitions }) {}
  exact {
    h with
    size_eq := by rw [Array.size_modify, h.size_eq]
    accept := by
      intro other x hx
      rw [hstate]
      by_cases hid : id = other
      · rw [if_pos hid]
        exact h.accept other x hx
      · rw [if_neg hid]
        exact h.accept other x hx
    entry := by
      intro other
      rw [hstate]
      by_cases hid : id = other
      · rw [if_pos hid]
        exact h.entry other
      · rw [if_neg hid]
        exact h.entry other
    explored := by
      intro other x hx hfrontier _
      rw [hstate]
      by_cases hid : id = other
      · subst hid
        rw [if_pos rfl, ← Option.some.inj (hset.symm.trans hx)]
        exact htransitions
      · rw [if_neg hid]
        exact h.explored other x hx hfrontier (by simpa using Ne.symm hid) }

theorem Valid.proper_getD {subsets : Subsets} (h : Valid nfa [] subsets) {id : Nat}
    {rest : List Nat} (hfrontier : subsets.frontier = id :: rest) :
    Proper nfa (subsets.sets.getD id []) := by
  have hid : id < subsets.sets.size := h.frontier_lt id (hfrontier ▸ List.mem_cons_self)
  exact h.proper _ (Array.mem_of_getElem? (getElem?_eq_some_getD hid []))

/-- Off the frontier, a set counts as pending until it has its transitions. -/
theorem Valid.pending {subsets : Subsets} (h : Valid nfa [] subsets) {id : Nat} {rest : List Nat}
    (hfrontier : subsets.frontier = id :: rest) :
    Valid nfa [id] { subsets with frontier := rest } :=
  { h with
    frontier_lt := fun other hother => h.frontier_lt other
      (hfrontier ▸ List.mem_cons_of_mem _ hother)
    explored := by
      intro other x hx hrest hid
      refine h.explored other x hx ?_ (by simp)
      rw [hfrontier, List.mem_cons, not_or]
      exact ⟨by simpa using hid, hrest⟩ }

/-- **One step of the construction**: a set of the frontier is explored, and the sets that are new
go to the frontier. -/
theorem explore_spec (hnfa : nfa.InRange) {subsets : Subsets} (h : Valid nfa [] subsets) {id : Nat}
    {rest : List Nat} (hfrontier : subsets.frontier = id :: rest) :
    Valid nfa [] ({ subsets with frontier := rest }.explore nfa id) ∧
      Extends { subsets with frontier := rest }
        ({ subsets with frontier := rest }.explore nfa id) := by
  have hlt : id < subsets.sets.size := h.frontier_lt id (hfrontier ▸ List.mem_cons_self)
  have hset : subsets.sets[id]? = some (subsets.sets.getD id []) := getElem?_eq_some_getD hlt []
  obtain ⟨hvalid, hextends, hall⟩ := numberAll_spec (nfa.moves (subsets.sets.getD id [])) _
    (h.pending hfrontier) ((h.proper_getD hfrontier).moves hnfa)
  exact ⟨valid_modify hvalid (hextends.sets id _ hset) hall, hextends.sets, hextends.length_eq⟩

theorem size_le_setCount {pending : List Nat} {subsets : Subsets} (h : Valid nfa pending subsets) :
    subsets.sets.size ≤ setCount nfa.size := by
  rw [← Array.length_toList]
  refine Ascending.length_le_two_pow h.nodup ?_ ?_
  · exact fun set hset => (h.proper set (Array.mem_toList_iff.mp hset)).sorted
  · exact fun set hset => (h.proper set (Array.mem_toList_iff.mp hset)).lt_size

/-- The whole construction ends with an empty frontier. -/
theorem exploreAll_spec (hnfa : nfa.InRange) (steps : Nat) :
    ∀ subsets : Subsets, Valid nfa [] subsets →
    subsets.frontier.length + setCount nfa.size ≤ steps + subsets.sets.size →
    ∃ subsets', exploreAll nfa steps subsets = some subsets' ∧ Valid nfa [] subsets' ∧
      subsets'.frontier = [] := by
  induction steps with
  | zero =>
    intro subsets h hsteps
    have hle := size_le_setCount h
    have hnil : subsets.frontier = [] := List.length_eq_zero_iff.mp (by omega)
    refine ⟨subsets, ?_, h, hnil⟩
    rw [exploreAll, hnil]
  | succ steps ih =>
    intro subsets h hsteps
    unfold exploreAll
    split
    · next hnil => exact ⟨subsets, rfl, h, hnil⟩
    · next id rest hfrontier =>
      -- every new set is in the frontier, so what is left of the bound shrinks by one
      obtain ⟨hvalid, hextends⟩ := explore_spec hnfa h hfrontier
      refine ih _ hvalid ?_
      have hlength := hextends.length_eq
      rw [hfrontier, List.length_cons] at hsteps
      simp only at hlength
      omega

end Subsets

/-! ## The automaton -/

section Automaton

open Ascending (AscendingKeys)
open Subsets (Proper Explored Leads)

variable {nfa : Nfa} {dfa : SymbolDfa} {sets : Array (List Nat)}

/-- An automaton whose states stand for the sets in which another automaton can be. -/
structure Determinizes (nfa : Nfa) (sets : Array (List Nat)) (dfa : SymbolDfa) : Prop where
  size_eq : dfa.size = sets.size
  first : sets[0]? = some (nfa.closure [Nfa.initial])
  proper : ∀ set ∈ sets, Proper nfa set
  accept : ∀ id set, sets[id]? = some set → (dfa.state id).accept = set.contains Nfa.final
  entry : ∀ id, (dfa.state id).entry = []
  explored : ∀ id set, sets[id]? = some set → Explored nfa sets set (dfa.state id)

/-- The subset construction gives such an automaton. -/
theorem exists_determinizes (hnfa : nfa.InRange) (hsize : Nfa.initial < nfa.size) :
    ∃ dfa sets, ofNfa? nfa = some dfa ∧ Determinizes nfa sets dfa := by
  obtain ⟨subsets, hsome, hvalid, hnil⟩ := Subsets.exploreAll_spec hnfa (setCount nfa.size) _
    (Subsets.valid_start hnfa hsize) (by simp [Subsets.start]; omega)
  refine ⟨⟨subsets.states⟩, subsets.sets, ?_, ?_⟩
  · rw [ofNfa?, hsome]
    rfl
  · refine ⟨hvalid.size_eq, hvalid.first, hvalid.proper, hvalid.accept, hvalid.entry, ?_⟩
    intro id set hset
    exact hvalid.explored id set hset (by rw [hnil]; simp) (by simp)

namespace Determinizes

/-- A transition leads to the set of a move. -/
theorem exists_move (h : Determinizes nfa sets dfa) {id : Nat} {set : List Nat}
    (hset : sets[id]? = some set) {s : Symbol} {t : Transition}
    (ht : (s, t) ∈ (dfa.state id).transitions) :
    t.actions = [] ∧ ∃ next, (s, next) ∈ nfa.moves set ∧ sets[t.target]? = some next := by
  obtain ⟨⟨s', next⟩, hmove, rfl, hactions, htarget⟩ :=
    exists_right_of_forall₂ (h.explored id set hset) ht
  exact ⟨hactions, next, hmove, htarget⟩

theorem exists_transition (h : Determinizes nfa sets dfa) {id : Nat} {set : List Nat}
    (hset : sets[id]? = some set) {s : Symbol} {next : List Nat}
    (hmove : (s, next) ∈ nfa.moves set) :
    ∃ t, (s, t) ∈ (dfa.state id).transitions ∧ sets[t.target]? = some next := by
  obtain ⟨⟨s', t⟩, ht, rfl, -, htarget⟩ := exists_left_of_forall₂ (h.explored id set hset) hmove
  exact ⟨t, ht, htarget⟩

theorem getElem?_sets (h : Determinizes nfa sets dfa) {id : Nat} (hid : id < dfa.size) :
    sets[id]? = some (sets.getD id []) :=
  getElem?_eq_some_getD (h.size_eq ▸ hid) []

theorem ascendingKeys (h : Determinizes nfa sets dfa) {id : Nat} {set : List Nat}
    (hset : sets[id]? = some set) : AscendingKeys (dfa.state id).transitions := by
  have heq : (dfa.state id).transitions.map Prod.fst = (nfa.moves set).map Prod.fst := by
    rw [← List.forall₂_eq_eq_eq, List.forall₂_map_left_iff, List.forall₂_map_right_iff]
    exact (h.explored id set hset).imp fun _ _ hleads => hleads.1
  rw [AscendingKeys, ← List.pairwise_map, heq, List.pairwise_map]
  exact Nfa.ascendingKeys_moves set

/-- The automaton of the subset construction is plain. -/
theorem plain (h : Determinizes nfa sets dfa) : dfa.Plain := by
  have hcases : ∀ p, (dfa.state p).transitions = [] ∨ sets[p]? = some (sets.getD p []) := by
    intro p
    by_cases hp : p < dfa.size
    · exact Or.inr (h.getElem?_sets hp)
    · rw [state_of_size_le (Nat.le_of_not_lt hp)]
      exact Or.inl rfl
  refine ⟨⟨?_, ?_⟩, ?_, ?_, h.entry⟩
  · rintro p ⟨s, t⟩ ht
    rcases hcases p with hnil | hset
    · simp [hnil] at ht
    · obtain ⟨-, next, -, htarget⟩ := h.exists_move hset ht
      rw [h.size_eq]
      exact (Array.getElem?_eq_some_iff.mp htarget).1
  · intro p
    rcases hcases p with hnil | hset
    · rw [hnil]
      exact List.Pairwise.nil
    · exact h.ascendingKeys hset
  · rw [h.size_eq]
    exact (Array.getElem?_eq_some_iff.mp h.first).1
  · rintro p ⟨s, t⟩ ht
    rcases hcases p with hnil | hset
    · simp [hnil] at ht
    · exact (h.exists_move hset ht).1

/-- A path leads to states in which runs over its word end. -/
theorem exists_run_of_path (hnfa : nfa.InRange) (h : Determinizes nfa sets dfa) {p q : Nat}
    {u : List Symbol} (hpath : Path dfa p u q) {set : List Nat} (hset : sets[p]? = some set) :
    ∃ set', sets[q]? = some set' ∧ ∀ r' ∈ set', ∃ r ∈ set, Nfa.Run nfa r u r' := by
  induction hpath generalizing set with
  | nil p => exact ⟨set, hset, fun r hr => ⟨r, hr, Nfa.Run.nil r⟩⟩
  | cons ht _ ih =>
    obtain ⟨-, next, hmove, htarget⟩ := h.exists_move hset ht
    obtain ⟨set', hset', hruns⟩ := ih htarget
    have hclosed := (h.proper set (Array.mem_of_getElem? hset)).closed
    have hnext := (Nfa.mem_moves_iff hnfa hclosed hmove).1
    refine ⟨set', hset', fun r' hr' => ?_⟩
    obtain ⟨r, hr, hrun⟩ := hruns r' hr'
    obtain ⟨r₀, hr₀, hrun₀⟩ := (hnext r).mp hr
    exact ⟨r₀, hr₀, hrun₀.trans hrun⟩

/-- Where a run over a word ends, a path with the word leads. -/
theorem exists_path_of_run (hnfa : nfa.InRange) (h : Determinizes nfa sets dfa) {r r' : Nat}
    {u : List Symbol} (hrun : Nfa.Run nfa r u r') {p : Nat} {set : List Nat}
    (hset : sets[p]? = some set) (hr : r ∈ set) :
    ∃ q set', Path dfa p u q ∧ sets[q]? = some set' ∧ r' ∈ set' := by
  have hclosed := (h.proper set (Array.mem_of_getElem? hset)).closed
  induction u generalizing r p set with
  | nil => exact ⟨p, set, Path.nil p, hset, hclosed r hr r' hrun⟩
  | cons s u ih =>
    obtain ⟨r₁, r₂, hfirst, hedge, hrest⟩ := Nfa.run_cons_iff.mp hrun
    obtain ⟨next, hmove⟩ := Nfa.exists_move hclosed hr hrun
    obtain ⟨hnext, hclosed', -⟩ := Nfa.mem_moves_iff hnfa hclosed hmove
    obtain ⟨t, ht, htarget⟩ := h.exists_transition hset hmove
    have hr₂ : r₂ ∈ next :=
      (hnext r₂).mpr ⟨r, hr, hfirst.trans (Nfa.Run.read hedge (Nfa.Run.nil r₂))⟩
    obtain ⟨q, set', hpath, hset', hr'⟩ := ih hrest htarget hr₂ hclosed'
    exact ⟨q, set', Path.cons ht hpath, hset', hr'⟩

theorem mem_first_iff (hnfa : nfa.InRange) (hsize : Nfa.initial < nfa.size) {r : Nat} :
    r ∈ nfa.closure [Nfa.initial] ↔ Nfa.Run nfa Nfa.initial [] r := by
  rw [Nfa.mem_closure_iff hnfa (by simpa using hsize)]
  simp

end Determinizes

end Automaton

/-- **The subset construction succeeds**, and its automaton accepts the words of the accepting runs;
each of its paths is a run. -/
theorem exists_ofNfa? {nfa : Nfa} (hnfa : nfa.InRange) (hsize : Nfa.initial < nfa.size) :
    ∃ dfa, ofNfa? nfa = some dfa ∧ dfa.Plain ∧
      (∀ u, Accepts dfa 0 u ↔ Nfa.Run nfa Nfa.initial u Nfa.final) ∧
      ∀ u q, Path dfa 0 u q → ∃ r, Nfa.Run nfa Nfa.initial u r := by
  obtain ⟨dfa, sets, hsome, h⟩ := exists_determinizes hnfa hsize
  have hruns : ∀ u q, Path dfa 0 u q →
      ∃ set, sets[q]? = some set ∧ ∀ r ∈ set, Nfa.Run nfa Nfa.initial u r := by
    intro u q hpath
    obtain ⟨set, hset, hall⟩ := h.exists_run_of_path hnfa hpath h.first
    refine ⟨set, hset, fun r hr => ?_⟩
    obtain ⟨r₀, hr₀, hrun⟩ := hall r hr
    exact ((Determinizes.mem_first_iff hnfa hsize).mp hr₀).trans hrun
  refine ⟨dfa, hsome, h.plain, fun u => ⟨?_, ?_⟩, ?_⟩
  · rintro ⟨q, hpath, haccept⟩
    obtain ⟨set, hset, hall⟩ := hruns u q hpath
    rw [h.accept q set hset] at haccept
    exact hall Nfa.final (by simpa using haccept)
  · intro hrun
    obtain ⟨q, set, hpath, hset, hfinal⟩ := h.exists_path_of_run hnfa hrun h.first
      ((Determinizes.mem_first_iff hnfa hsize).mpr (Nfa.Run.nil _))
    refine ⟨q, hpath, ?_⟩
    rw [h.accept q set hset]
    simpa using hfinal
  · intro u q hpath
    obtain ⟨set, hset, hall⟩ := hruns u q hpath
    have hne := (h.proper set (Array.mem_of_getElem? hset)).ne_nil
    obtain ⟨r, hr⟩ := List.exists_mem_of_ne_nil set hne
    exact ⟨r, hall r hr⟩

end ActionRegex.SymbolDfa
