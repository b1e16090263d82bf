import ActionRegex.Proofs.Nfa.OfTree
import ActionRegex.Proofs.Nfa.Tables
import ActionRegex.Proofs.SymbolDfa.Subset

/-!
# The subset construction with tables

The construction can be run as one loop over a work list. The moves of a set are put together from
a table, the number of a set is looked up in a map from sets to numbers, whether a set accepts is
found by binary search, and a transition is put into its state as soon as its target has a number.
The result is the same automaton (`determinize?_eq`).

Between two turns of the loop a state on the work list has no transitions, so putting in the
transitions of a set one after the other is the same as setting them at once.
-/

namespace ActionRegex.SymbolDfa

open Arrays
open Ascending (AscendingKeys ascendingKeys_cons)

variable {nfa : Nfa}

/-! ## Binary search -/

/-- Whether a number is in an ascending list, at a place from `low` on but before `high`. -/
def foundBetween (xs : Array Nat) (x low high : Nat) : Bool :=
  if low < high then
    let middle := low + (high - low) / 2
    let y := xs.getD middle 0
    if y < x then foundBetween xs x (middle + 1) high
    else if x < y then foundBetween xs x low middle
    else true
  else false
termination_by high - low

theorem foundBetween_iff {xs : Array Nat} (hxs : xs.toList.Pairwise (· < ·)) {x low high : Nat}
    (hhigh : high ≤ xs.size) : foundBetween xs x low high = true ↔
      ∃ i, low ≤ i ∧ i < high ∧ xs.getD i 0 = x := by
  have hmono : ∀ i j, i < j → j < xs.size → xs.getD i 0 < xs.getD j 0 := by
    intro i j hij hj
    have hlt := List.pairwise_iff_getElem.mp hxs i j (Nat.lt_trans hij hj) hj hij
    simpa [Array.getD_eq_getD_getElem?, hj, Nat.lt_trans hij hj] using hlt
  fun_induction foundBetween xs x low high with
  | case1 low high hlt middle y hbelow ih =>
    refine (ih hhigh).trans ?_
    constructor
    · rintro ⟨i, hi, hi', hx⟩
      exact ⟨i, by omega, hi', hx⟩
    · rintro ⟨i, hi, hi', rfl⟩
      refine ⟨i, ?_, hi', rfl⟩
      -- up to the middle everything is below `x`
      by_contra hle
      rcases Nat.eq_or_lt_of_le (Nat.le_of_lt_succ (Nat.lt_of_not_le hle)) with heq | hlt'
      · exact Nat.lt_irrefl _ (heq ▸ hbelow)
      · exact Nat.lt_asymm hbelow (hmono i middle hlt' (by omega))
  | case2 low high hlt middle y _ habove ih =>
    refine (ih (by omega)).trans ?_
    constructor
    · rintro ⟨i, hi, hi', hx⟩
      exact ⟨i, hi, by omega, hx⟩
    · rintro ⟨i, hi, hi', rfl⟩
      refine ⟨i, hi, ?_, rfl⟩
      by_contra hle
      rcases Nat.eq_or_lt_of_le (Nat.le_of_not_lt hle) with heq | hlt'
      · exact Nat.lt_irrefl _ (heq ▸ habove)
      · exact Nat.lt_asymm habove (hmono middle i hlt' (by omega))
  | case3 low high hlt middle y hbelow habove =>
    exact iff_of_true rfl ⟨middle, by omega, by omega, by omega⟩
  | case4 low high hge =>
    refine iff_of_false Bool.false_ne_true ?_
    rintro ⟨i, hi, hi', -⟩
    omega

/-- Whether a set accepts. -/
def accepts (set : List Nat) : Bool := foundBetween set.toArray Nfa.final 0 set.length

/-- **Binary search finds the final state** in an ascending list. -/
theorem accepts_eq {set : List Nat} (hset : set.Pairwise (· < ·)) :
    accepts set = set.contains Nfa.final := by
  have hfound : accepts set = true ↔
      ∃ i, 0 ≤ i ∧ i < set.length ∧ set.toArray.getD i 0 = Nfa.final :=
    foundBetween_iff hset (Nat.le_refl _)
  rw [Bool.eq_iff_iff, hfound, List.contains_iff_mem, List.mem_iff_getElem]
  constructor
  · rintro ⟨i, -, hi, hx⟩
    exact ⟨i, hi, by simpa [Array.getD_eq_getD_getElem?, hi] using hx⟩
  · rintro ⟨i, hi, hx⟩
    exact ⟨i, Nat.zero_le _, hi, by simpa [Array.getD_eq_getD_getElem?, hi] using hx⟩

/-! ## The loop -/

/-- The tables of the loop: the sets found so far with their numbers and their states, and the
numbers still to explore, latest first. -/
structure Tables where
  ids : List (List Nat × Nat)
  sets : Array (List Nat)
  states : Array State
  worklist : List Nat

namespace Tables

/-- The number of a set, which is added if it is new. -/
def number (tables : Tables) (set : List Nat) : Nat × Tables :=
  match tables.ids.lookup set with
  | some id => (id, tables)
  | none =>
    let id := tables.states.size
    (id, ⟨(set, id) :: tables.ids, tables.sets.push set,
      tables.states.push { accept := accepts set }, id :: tables.worklist⟩)

/-- Adds the transition of a move to a state. -/
def connect (id : Nat) (tables : Tables) (move : Symbol × List Nat) : Tables :=
  let (target, tables) := tables.number move.2
  { tables with states := tables.states.modify id fun s =>
      { s with transitions := Ascending.put move.1 { target } s.transitions } }

/-- Explores the set with a number. -/
def explore (moves : Array (List (Symbol × List Nat))) (tables : Tables) (id : Nat) : Tables :=
  (Nfa.gather moves (tables.sets.getD id [])).foldl (connect id) tables

/-- Explores until the work list is empty, for a number of steps at most. -/
def exploreAll (moves : Array (List (Symbol × List Nat))) : Nat → Tables → Option Tables
  | steps, tables =>
    match tables.worklist with
    | [] => some tables
    | id :: rest =>
      match steps with
      | 0 => none
      | steps + 1 => exploreAll moves steps ({ tables with worklist := rest }.explore moves id)

/-- The tables before the first turn. -/
def start (closures : Array (List Nat)) : Tables :=
  let set := closures.getD Nfa.initial []
  ⟨[(set, 0)], #[set], #[{ accept := accepts set }], [0]⟩

end Tables

/-- The deterministic automaton of a nondeterministic one, built with tables. -/
def determinize? (nfa : Nfa) : Option SymbolDfa :=
  let closures := nfa.closures
  (Tables.exploreAll (nfa.movesTable closures) (setCount nfa.size) (Tables.start closures)).map
    fun tables => ⟨tables.states⟩

/-! ## The same automaton -/

namespace Subsets

/-- The construction with the transitions of one state set. -/
def withTransitions (subsets : Subsets) (id : Nat) (transitions : List (Symbol × Transition)) :
    Subsets :=
  { subsets with states := subsets.states.modify id fun s => { s with transitions } }

theorem withTransitions_nil {subsets : Subsets} {id : Nat}
    (h : (subsets.states.getD id {}).transitions = []) :
    subsets.withTransitions id [] = subsets := by
  have hstates : (subsets.states.modify id fun s => { s with transitions := [] }) =
      subsets.states := by
    refine Array.ext_getElem? fun x => ?_
    rw [Array.getElem?_modify]
    by_cases hx : id = x
    · subst hx
      rw [if_pos rfl]
      rw [Array.getD_eq_getD_getElem?] at h
      rcases hstate : subsets.states[id]? with _ | s
      · rfl
      · rw [hstate, Option.getD_some] at h
        rw [Option.map_some, ← h]
    · rw [if_neg hx]
  rw [withTransitions, hstates]

/-- Numbering a set leaves the transitions of a state that was there. -/
theorem number_withTransitions {subsets : Subsets} {id : Nat} (hid : id < subsets.states.size)
    (transitions : List (Symbol × Transition)) (set : List Nat) :
    (subsets.withTransitions id transitions).number set =
      ((subsets.number set).1, (subsets.number set).2.withTransitions id transitions) := by
  rw [number, number]
  show (match subsets.sets.findIdx? (· == set) with
    | some target => _
    | none => _) = _
  cases subsets.sets.findIdx? (· == set) with
  | some target => rfl
  | none => simp only [withTransitions, push_modify hid]

/-- States still to explore have no transitions. The states in `pending` are being explored. -/
structure Fresh (pending : List Nat) (subsets : Subsets) : Prop where
  nodup : (pending ++ subsets.frontier).Nodup
  lt_size : ∀ id ∈ pending ++ subsets.frontier, id < subsets.states.size
  empty : ∀ id ∈ pending ++ subsets.frontier, (subsets.states.getD id {}).transitions = []

theorem Fresh.number {pending : List Nat} {subsets : Subsets} (h : Fresh pending subsets)
    (hsize : subsets.states.size = subsets.sets.size) (set : List Nat) :
    Fresh pending (subsets.number set).2 := by
  unfold Subsets.number
  split
  · exact h
  · have hmem : ∀ id ∈ pending ++ subsets.sets.size :: subsets.frontier,
        id = subsets.states.size ∨ id ∈ pending ++ subsets.frontier := by
      intro id hid
      rw [hsize]
      simpa only [List.mem_append, List.mem_cons, or_left_comm] using hid
    refine ⟨?_, fun id hid => ?_, fun id hid => ?_⟩
    · refine List.nodup_middle.mpr (List.nodup_cons.mpr ⟨fun hid => ?_, h.nodup⟩)
      exact Nat.lt_irrefl _ (hsize ▸ h.lt_size _ hid)
    · rw [Array.size_push]
      rcases hmem id hid with rfl | hid
      · exact Nat.lt_succ_self _
      · exact Nat.lt_succ_of_lt (h.lt_size id hid)
    · rw [getD_push]
      rcases hmem id hid with rfl | hid
      · rw [if_pos rfl]
        rfl
      · rw [if_neg (Nat.ne_of_lt (h.lt_size id hid))]
        exact h.empty id hid

theorem Fresh.numberAll {pending : List Nat} {moves : List (Symbol × List Nat)} {subsets : Subsets}
    (h : Fresh pending subsets) (hvalid : Valid nfa pending subsets)
    (hmoves : ∀ move ∈ moves, Proper nfa move.2) : Fresh pending (subsets.numberAll moves).2 := by
  induction moves generalizing subsets with
  | nil => exact h
  | cons move rest ih =>
    obtain ⟨hmove, hrest⟩ := List.forall_mem_cons.mp hmoves
    exact ih (h.number hvalid.size_eq move.2) (number_spec hvalid hmove).1 hrest

/-- The state being explored may get its transitions. -/
theorem Fresh.withTransitions {subsets : Subsets} {id : Nat} (h : Fresh [id] subsets)
    (transitions : List (Symbol × Transition)) :
    Fresh [] (subsets.withTransitions id transitions) := by
  obtain ⟨hid, hnodup⟩ := List.nodup_cons.mp h.nodup
  refine ⟨hnodup, fun other hother => ?_, fun other hother => ?_⟩
  · rw [Subsets.withTransitions, Array.size_modify]
    exact h.lt_size other (List.mem_cons_of_mem _ hother)
  · rw [Subsets.withTransitions, getD_modify (h.lt_size id List.mem_cons_self), if_neg]
    · exact h.empty other (List.mem_cons_of_mem _ hother)
    · rintro rfl
      exact hid hother

theorem Fresh.explore (hnfa : nfa.InRange) {subsets : Subsets} (h : Fresh [] subsets)
    (hvalid : Valid nfa [] subsets) {id : Nat} {rest : List Nat}
    (hfrontier : subsets.frontier = id :: rest) :
    Fresh [] ({ subsets with frontier := rest }.explore nfa id) := by
  obtain ⟨hnodup, hlt, hempty⟩ := h
  rw [hfrontier] at hnodup hlt hempty
  have hpending : Fresh [id] { subsets with frontier := rest } := ⟨hnodup, hlt, hempty⟩
  exact (hpending.numberAll (hvalid.pending hfrontier)
    ((hvalid.proper_getD hfrontier).moves hnfa)).withTransitions _

theorem fresh_start (nfa : Nfa) : Fresh [] (start nfa) := by
  refine ⟨by simp [start], by simp [start], by simp [start, stateOf]⟩

end Subsets

namespace Tables

/-- The tables say what the construction has found. -/
structure Matches (tables : Tables) (subsets : Subsets) : Prop where
  sets : tables.sets = subsets.sets
  states : tables.states = subsets.states
  worklist : tables.worklist = subsets.frontier
  ids : ∀ set, tables.ids.lookup set = subsets.sets.findIdx? (· == set)

variable {tables : Tables} {subsets : Subsets}

theorem Matches.number (h : Matches tables subsets)
    (hsize : subsets.states.size = subsets.sets.size) {set : List Nat}
    (hset : set.Pairwise (· < ·)) :
    (tables.number set).1 = (subsets.number set).1 ∧
      Matches (tables.number set).2 (subsets.number set).2 := by
  unfold Tables.number Subsets.number
  rw [h.ids set]
  rcases hfind : subsets.sets.findIdx? (· == set) with _ | id
  · refine ⟨by rw [h.states, hsize], ?_, ?_, ?_, fun x => ?_⟩
    · rw [h.sets]
    · rw [h.states, accepts_eq hset]
      rfl
    · rw [h.worklist, h.states, hsize]
    · rw [List.lookup_cons, Array.findIdx?_push, h.states, hsize]
      by_cases hx : x = set
      · subst hx
        rw [hfind]
        simp
      · have hne : (x == set) = false := beq_false_of_ne hx
        have hne' : (set == x) = false := beq_false_of_ne (Ne.symm hx)
        rw [hne, hne', h.ids x]
        simp
  · exact ⟨rfl, h⟩

/-- Adding a transition whose symbol comes after those of the transitions added before. -/
theorem Matches.connect {id : Nat} {done : List (Symbol × Transition)}
    (h : Matches tables (subsets.withTransitions id done)) (hid : id < subsets.states.size)
    (hsize : subsets.states.size = subsets.sets.size) {move : Symbol × List Nat}
    (hset : move.2.Pairwise (· < ·)) (hdone : ∀ entry ∈ done, entry.1 < move.1) :
    Matches (tables.connect id move) ((subsets.number move.2).2.withTransitions id
      (done ++ [(move.1, { target := (subsets.number move.2).1 })])) := by
  have hsize' : (subsets.withTransitions id done).states.size =
      (subsets.withTransitions id done).sets.size := by
    rw [Subsets.withTransitions, Array.size_modify, hsize]
  obtain ⟨htarget, hmatches⟩ := h.number hsize' hset
  rw [Subsets.number_withTransitions hid] at htarget hmatches
  refine ⟨hmatches.sets, ?_, hmatches.worklist, hmatches.ids⟩
  simp only [Tables.connect, Subsets.withTransitions]
  rw [hmatches.states, Subsets.withTransitions, modify_modify, htarget]
  simp only [Ascending.put_of_forall_lt hdone]

/-- Adding the transitions of some moves, in the order of their symbols. -/
theorem Matches.foldl_connect {id : Nat} {moves : List (Symbol × List Nat)}
    (hkeys : AscendingKeys moves) (hmoves : ∀ move ∈ moves, Subsets.Proper nfa move.2) :
    ∀ {tables : Tables} {subsets : Subsets} {done : List (Symbol × Transition)},
      Matches tables (subsets.withTransitions id done) → Subsets.Valid nfa [id] subsets →
      id < subsets.states.size → (∀ entry ∈ done, ∀ move ∈ moves, entry.1 < move.1) →
      Matches (moves.foldl (Tables.connect id) tables)
        ((subsets.numberAll moves).2.withTransitions id (done ++ (subsets.numberAll moves).1)) := by
  induction moves with
  | nil =>
    intro tables subsets done h _ _ _
    simpa [Subsets.numberAll] using h
  | cons move rest ih =>
    intro tables subsets done h hvalid hid hdone
    obtain ⟨hmove, hrest⟩ := List.forall_mem_cons.mp hmoves
    obtain ⟨hfirst, hkeys'⟩ := ascendingKeys_cons.mp hkeys
    obtain ⟨hvalid', hextends, -⟩ := Subsets.number_spec hvalid hmove
    have hconnect := h.connect hid hvalid.size_eq hmove.sorted fun entry hentry =>
      hdone entry hentry move List.mem_cons_self
    have hid' : id < (subsets.number move.2).2.states.size := by
      have hset := getElem?_eq_some_getD (hvalid.size_eq ▸ hid) []
      rw [hvalid'.size_eq]
      exact (Array.getElem?_eq_some_iff.mp (hextends.sets id _ hset)).1
    have hdone' : ∀ entry ∈ done ++ [(move.1, Transition.mk (subsets.number move.2).1 [])],
        ∀ other ∈ rest, entry.1 < other.1 := by
      intro entry hentry other hother
      rcases List.mem_append.mp hentry with hentry | hentry
      · exact hdone entry hentry other (List.mem_cons_of_mem _ hother)
      · rw [List.mem_singleton.mp hentry]
        exact hfirst other hother
    have hall := ih hkeys' hrest hconnect hvalid' hid' hdone'
    rwa [List.append_assoc, List.singleton_append] at hall

/-- **One turn of the loop** explores a set as the construction does. -/
theorem Matches.explore (hnfa : nfa.InRange) (h : Matches tables subsets)
    (hvalid : Subsets.Valid nfa [] subsets) (hfresh : Subsets.Fresh [] subsets) {id : Nat}
    {rest : List Nat} (hfrontier : subsets.frontier = id :: rest) :
    Matches ({ tables with worklist := rest }.explore (nfa.movesTable nfa.closures) id)
      ({ subsets with frontier := rest }.explore nfa id) := by
  have hmem : id ∈ subsets.frontier := hfrontier ▸ List.mem_cons_self
  have hempty : (subsets.states.getD id {}).transitions = [] := hfresh.empty id hmem
  have hstart : Matches { tables with worklist := rest }
      (({ subsets with frontier := rest } : Subsets).withTransitions id []) := by
    have hnil : ({ subsets with frontier := rest } : Subsets).withTransitions id [] =
        { subsets with frontier := rest } := Subsets.withTransitions_nil hempty
    rw [hnil]
    exact ⟨h.sets, h.states, rfl, h.ids⟩
  have hall := Matches.foldl_connect (Nfa.ascendingKeys_moves (subsets.sets.getD id []))
    ((hvalid.proper_getD hfrontier).moves hnfa) hstart (hvalid.pending hfrontier)
    (hfresh.lt_size id hmem) (by simp)
  have hmoves : Nfa.gather (nfa.movesTable nfa.closures) (tables.sets.getD id []) =
      nfa.moves (subsets.sets.getD id []) := by rw [h.sets, Nfa.gather_movesTable hnfa]
  rw [Tables.explore, hmoves]
  exact hall

/-- **The loop and the construction come to the same states.** -/
theorem Matches.exploreAll (hnfa : nfa.InRange) (steps : Nat) :
    ∀ {tables : Tables} {subsets : Subsets}, Matches tables subsets →
      Subsets.Valid nfa [] subsets → Subsets.Fresh [] subsets →
      (Tables.exploreAll (nfa.movesTable nfa.closures) steps tables).map (·.states) =
        (Subsets.exploreAll nfa steps subsets).map (·.states) := by
  induction steps with
  | zero =>
    intro tables subsets h _ _
    rw [Tables.exploreAll, Subsets.exploreAll, h.worklist]
    cases subsets.frontier with
    | nil => exact congrArg some h.states
    | cons => rfl
  | succ steps ih =>
    intro tables subsets h hvalid hfresh
    rw [Tables.exploreAll, Subsets.exploreAll, h.worklist]
    cases hfrontier : subsets.frontier with
    | nil => exact congrArg some h.states
    | cons id rest =>
      exact ih (h.explore hnfa hvalid hfresh hfrontier)
        (Subsets.explore_spec hnfa hvalid hfrontier).1 (hfresh.explore hnfa hvalid hfrontier)

theorem matches_start (hnfa : nfa.InRange) (hsize : Nfa.initial < nfa.size) :
    Matches (start nfa.closures) (Subsets.start nfa) := by
  rw [start, Nfa.getD_closures hnfa hsize]
  refine ⟨rfl, ?_, rfl, fun set => ?_⟩
  · rw [accepts_eq (Nfa.pairwise_closure _)]
    rfl
  · by_cases hset : nfa.closure [Nfa.initial] = set
    · simp [Subsets.start, hset]
    · simp [Subsets.start, hset, List.lookup_cons, beq_false_of_ne (Ne.symm hset)]

end Tables

/-- **The construction with tables gives the same automaton.** -/
theorem determinize?_eq (hnfa : nfa.InRange) (hsize : Nfa.initial < nfa.size) :
    determinize? nfa = ofNfa? nfa := by
  have hstates := (Tables.matches_start hnfa hsize).exploreAll hnfa (setCount nfa.size)
    (Subsets.valid_start hnfa hsize) (Subsets.fresh_start nfa)
  have hall := congrArg (Option.map SymbolDfa.mk) hstates
  rwa [Option.map_map, Option.map_map] at hall

theorem determinize?_ofTree (t : Pattern.Tree) :
    determinize? (Nfa.ofTree t) = ofNfa? (Nfa.ofTree t) :=
  determinize?_eq (Nfa.inRange_ofTree t)
    (Nat.lt_of_lt_of_le (by decide) (Nfa.two_le_size_ofTree t))

end ActionRegex.SymbolDfa
