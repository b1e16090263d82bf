import ActionRegex.Proofs.Arrays
import ActionRegex.Proofs.Nfa.Moves

/-!
# Tables of closures and moves

The closures of single states can be computed once, in a loop over all states whose searches share
one array of marks: each search takes back the marks that it made. The loop finds the closure of
each state (`closures_eq`).

From that table the moves of each state can be computed, and from those the moves of a set, symbol
by symbol (`gather_movesTable`).
-/

namespace ActionRegex.Nfa

open Ascending (AscendingKeys get?_eq_some_iff get?_eq_none_iff mem_put_iff)

variable {nfa : Nfa}

/-! ## A search with marks -/

theorem count_set_lt {marks : Array Bool} {id : Nat} (h : marks.getD id true = false) :
    (marks.setIfInBounds id true).count false < marks.count false := by
  have hid : id < marks.size := by
    by_contra hid
    rw [Arrays.getD_of_size_le (Nat.le_of_not_lt hid)] at h
    cases h
  have hfalse : marks[id] = false := by
    rwa [Array.getD_eq_getD_getElem?, Array.getElem?_eq_getElem hid] at h
  have hmem : 0 < marks.count false := Array.count_pos_iff.mpr (hfalse ▸ Array.getElem_mem hid)
  rw [Array.setIfInBounds_def, dif_pos hid, Array.count_set hid]
  simp only [hfalse, beq_self_eq_true, Bool.true_beq, Bool.false_eq_true, ↓reduceIte]
  omega

/-- A search along direct edges with a stack, its top first. A state that is found is marked, and
its targets are pushed in order, so that the last one is looked at first. Returns the marks and what
was found, latest first. -/
def mark (nfa : Nfa) (stack : List Nat) (marks : Array Bool) (found : List Nat) :
    Array Bool × List Nat :=
  match stack with
  | [] => (marks, found)
  | id :: rest =>
    if _h : marks.getD id true = false then
      nfa.mark ((nfa.state id).direct.reverse ++ rest) (marks.setIfInBounds id true) (id :: found)
    else nfa.mark rest marks found
termination_by (marks.count false, stack.length)
decreasing_by
  · simp only [Prod.lex_def]
    exact .inl (count_set_lt _h)
  · simp [Prod.lex_def]

/-- Marks on the states of a list. -/
def marksOf (nfa : Nfa) (found : List Nat) : Array Bool :=
  (Array.range nfa.size).map fun id => found.contains id

theorem size_marksOf (found : List Nat) : (nfa.marksOf found).size = nfa.size := by
  rw [marksOf, Array.size_map, Array.size_range]

theorem getElem?_marksOf (found : List Nat) (id : Nat) :
    (nfa.marksOf found)[id]? = if id < nfa.size then some (found.contains id) else none := by
  rw [marksOf, Array.getElem?_map, Array.getElem?_range]
  by_cases hid : id < nfa.size
  · rw [if_pos hid, if_pos hid]
    rfl
  · rw [if_neg hid, if_neg hid]
    rfl

theorem marksOf_nil : nfa.marksOf [] = Array.replicate nfa.size false := by
  refine Array.ext_getElem? fun id => ?_
  rw [getElem?_marksOf, Array.getElem?_replicate]
  rfl

/-- A state is unmarked if it is a state and has not been found. -/
theorem getD_marksOf_eq_false_iff {found : List Nat} {id : Nat} :
    (nfa.marksOf found).getD id true = false ↔ id < nfa.size ∧ ¬ found.contains id = true := by
  rw [Array.getD_eq_getD_getElem?, getElem?_marksOf]
  by_cases hid : id < nfa.size
  · rw [if_pos hid]
    simp [hid]
  · rw [if_neg hid]
    simp [hid]

/-- Setting one mark, or taking one back, gives the marks of another list. -/
theorem setIfInBounds_marksOf {found found' : List Nat} {id : Nat} {b : Bool}
    (hid : found'.contains id = b) (hother : ∀ x, x ≠ id → found'.contains x = found.contains x) :
    (nfa.marksOf found).setIfInBounds id b = nfa.marksOf found' := by
  refine Array.ext_getElem? fun x => ?_
  rw [Array.getElem?_setIfInBounds, getElem?_marksOf, getElem?_marksOf, size_marksOf]
  by_cases hx : id = x
  · subst hx
    rw [if_pos rfl, hid]
  · rw [if_neg hx, hother x (Ne.symm hx)]

/-- **A search with marks is a depth-first search**: the marks are those of what was found. -/
theorem mark_marksOf (stack found : List Nat) :
    nfa.mark stack (nfa.marksOf found) found =
      let all := (DepthFirst.searchFrom nfa.size (fun id => (nfa.state id).direct.reverse) stack
        found).reverse
      (nfa.marksOf all, all) := by
  fun_induction DepthFirst.searchFrom nfa.size (fun id => (nfa.state id).direct.reverse) stack found
    with
  | case1 found => rw [mark, List.reverse_reverse]
  | case2 found id rest hnew ih =>
    have hset : (nfa.marksOf found).setIfInBounds id true = nfa.marksOf (id :: found) :=
      setIfInBounds_marksOf (by simp) fun x hx => by simp [hx]
    rw [mark, dif_pos (getD_marksOf_eq_false_iff.mpr hnew), hset, ih]
  | case3 found id rest hold ih => rw [mark, dif_neg (mt getD_marksOf_eq_false_iff.mp hold), ih]

/-- Taking back marks one after the other. -/
theorem foldl_unmark (ids found : List Nat) :
    ids.foldl (fun marks id => marks.setIfInBounds id false) (nfa.marksOf found) =
      nfa.marksOf (found.filter fun x => !ids.contains x) := by
  induction ids generalizing found with
  | nil => simp
  | cons id ids ih =>
    have hset : (nfa.marksOf found).setIfInBounds id false =
        nfa.marksOf (found.filter fun x => x != id) :=
      setIfInBounds_marksOf (by simp) fun x hx => by simp [hx]
    rw [List.foldl_cons, hset, ih, List.filter_filter]
    congr 1
    refine List.filter_congr fun x _ => ?_
    rw [List.contains_cons, Bool.not_or]
    exact Bool.and_comm _ _

/-! ## The table of closures -/

/-- Adds the closure of a state to a table, with marks that are taken back. -/
def addClosure (nfa : Nfa) (work : Array Bool × Array (List Nat)) (id : Nat) :
    Array Bool × Array (List Nat) :=
  let (marks, found) := nfa.mark [id] work.1 []
  let closure := found.reverse
  (closure.foldl (fun marks id => marks.setIfInBounds id false) marks,
    work.2.push (closure.mergeSort fun a b => decide (a ≤ b)))

/-- The closure of each state. -/
def closures (nfa : Nfa) : Array (List Nat) :=
  ((List.range nfa.size).foldl nfa.addClosure (Array.replicate nfa.size false, #[])).2

/-- In whatever order direct edges are followed, the same states are found. -/
theorem mergeSort_search (hnfa : nfa.InRange) {id : Nat} (hid : id < nfa.size) :
    (DepthFirst.search nfa.size (fun id => (nfa.state id).direct.reverse) [id]).mergeSort =
      nfa.closure [id] := by
  have hstart : ∀ s ∈ [id], s < nfa.size := by simpa using hid
  refine Ascending.mergeSort_eq (DepthFirst.nodup_search _) (pairwise_closure _) fun x => ?_
  rw [DepthFirst.mem_search_iff hstart fun a _ b hb => hnfa.direct a b (List.mem_reverse.mp hb),
    mem_closure_iff hnfa hstart]
  simp only [run_nil_iff, List.mem_reverse]

/-- One turn of the loop over the states. -/
theorem addClosure_marksOf_nil (hnfa : nfa.InRange) {id : Nat} (hid : id < nfa.size)
    (table : Array (List Nat)) :
    nfa.addClosure (nfa.marksOf [], table) id =
      (nfa.marksOf [], table.push (nfa.closure [id])) := by
  have hall : ∀ found : List Nat, (found.filter fun x => !found.reverse.contains x) = [] := by
    intro found
    refine List.filter_eq_nil_iff.mpr fun x hx => ?_
    simpa using hx
  rw [addClosure, mark_marksOf]
  simp only
  rw [foldl_unmark, hall, List.reverse_reverse]
  exact congrArg (fun closure => (nfa.marksOf [], table.push closure)) (mergeSort_search hnfa hid)

theorem foldl_addClosure (hnfa : nfa.InRange) {n : Nat} (hn : n ≤ nfa.size) :
    (List.range n).foldl nfa.addClosure (nfa.marksOf [], #[]) =
      (nfa.marksOf [], (Array.range n).map fun id => nfa.closure [id]) := by
  induction n with
  | zero => simp
  | succ n ih =>
    rw [List.range_succ, List.foldl_append, ih (Nat.le_of_succ_le hn), List.foldl_cons,
      List.foldl_nil, addClosure_marksOf_nil hnfa hn, Array.range_succ, ← Array.push_eq_append,
      Array.map_push]

/-- **The loop finds the closure of each state.** -/
theorem closures_eq (hnfa : nfa.InRange) :
    nfa.closures = (Array.range nfa.size).map fun id => nfa.closure [id] := by
  rw [closures, ← marksOf_nil, foldl_addClosure hnfa (Nat.le_refl _)]

theorem getD_closures (hnfa : nfa.InRange) {id : Nat} (hid : id < nfa.size) :
    nfa.closures.getD id [] = nfa.closure [id] := by
  rw [closures_eq hnfa, Array.getD_eq_getD_getElem?, Array.getElem?_map, Array.getElem?_range,
    if_pos hid]
  rfl

/-! ## Moves put together -/

/-- Adds targets to those that a symbol has. -/
def addTargets (next : List (Symbol × List Nat)) (move : Symbol × List Nat) :
    List (Symbol × List Nat) :=
  Ascending.put move.1 (Ascending.union ((Ascending.get? move.1 next).getD []) move.2) next

/-- What comes of some moves: each of their symbols once, with all its targets in order. -/
structure Collects (moves next : List (Symbol × List Nat)) : Prop where
  keys : AscendingKeys next
  sorted : ∀ entry ∈ next, entry.2.Pairwise (· < ·)
  symbols : ∀ s, (∃ targets, (s, targets) ∈ next) ↔ ∃ targets, (s, targets) ∈ moves
  targets : ∀ s q, (∃ targets, (s, targets) ∈ next ∧ q ∈ targets) ↔
    ∃ targets, (s, targets) ∈ moves ∧ q ∈ targets

namespace Collects

variable {moves next next' : List (Symbol × List Nat)}

theorem nil : Collects [] [] where
  keys := List.Pairwise.nil
  sorted := by simp
  symbols := by simp
  targets := by simp

/-- The targets of a symbol, if it has been collected. -/
theorem mem_targets_iff (h : Collects moves next) {s : Symbol} {targets : List Nat}
    (hmem : (s, targets) ∈ next) {q : Nat} :
    q ∈ targets ↔ ∃ more, (s, more) ∈ moves ∧ q ∈ more := by
  rw [← h.targets]
  constructor
  · exact fun hq => ⟨targets, hmem, hq⟩
  · rintro ⟨other, hother, hq⟩
    have hsome := (get?_eq_some_iff h.keys).mpr hmem
    have hsome' := (get?_eq_some_iff h.keys).mpr hother
    rwa [Option.some.inj (hsome.symm.trans hsome')]

/-- What comes of some moves is determined by them. -/
theorem unique (h : Collects moves next) (h' : Collects moves next') : next = next' := by
  have hsub : ∀ {xs ys}, Collects moves xs → Collects moves ys → ∀ s targets,
      (s, targets) ∈ xs → (s, targets) ∈ ys := by
    intro xs ys hxs hys s targets hmem
    obtain ⟨other, hother⟩ := (hys.symbols s).mpr ((hxs.symbols s).mp ⟨targets, hmem⟩)
    obtain rfl : targets = other := by
      refine (hxs.sorted _ hmem).eq_of_mem_iff (hys.sorted _ hother) fun q => ?_
      rw [hxs.mem_targets_iff hmem, hys.mem_targets_iff hother]
    exact hother
  refine h.keys.ext h'.keys fun s => Option.ext fun targets => ?_
  rw [get?_eq_some_iff h.keys, get?_eq_some_iff h'.keys]
  exact ⟨hsub h h' s targets, hsub h' h s targets⟩

/-- The targets that a symbol has so far. -/
theorem mem_getD_iff (h : Collects moves next) {s : Symbol} {q : Nat} :
    q ∈ (Ascending.get? s next).getD [] ↔ ∃ targets, (s, targets) ∈ moves ∧ q ∈ targets := by
  rcases hget : Ascending.get? s next with _ | targets
  · have hnone : ¬ ∃ targets, (s, targets) ∈ moves := by
      rw [← h.symbols]
      exact not_exists.mpr (get?_eq_none_iff.mp hget)
    constructor
    · intro hq
      cases hq
    · rintro ⟨targets, hmem, -⟩
      exact absurd ⟨targets, hmem⟩ hnone
  · exact h.mem_targets_iff ((get?_eq_some_iff h.keys).mp hget)

theorem pairwise_getD (h : Collects moves next) (s : Symbol) :
    ((Ascending.get? s next).getD []).Pairwise (· < ·) := by
  rcases hget : Ascending.get? s next with _ | targets
  · exact List.Pairwise.nil
  · exact h.sorted _ ((get?_eq_some_iff h.keys).mp hget)

/-- One move more. -/
theorem addTargets (h : Collects moves next) (move : Symbol × List Nat) :
    Collects (moves ++ [move]) (addTargets next move) where
  keys := h.keys.put _ _
  sorted entry hentry := by
    rcases (mem_put_iff h.keys).mp hentry with rfl | ⟨hentry, -⟩
    · exact Ascending.pairwise_union _ (h.pairwise_getD _)
    · exact h.sorted entry hentry
  symbols s := by
    simp only [Nfa.addTargets, mem_put_iff h.keys, List.mem_append, List.mem_singleton, exists_or]
    by_cases hs : s = move.1
    · subst hs
      simp
    · have hne : ∀ targets, (s, targets) ≠ move := fun targets heq => hs (heq ▸ rfl)
      simp [hs, hne, h.symbols]
  targets s q := by
    simp only [Nfa.addTargets, mem_put_iff h.keys, List.mem_append, List.mem_singleton,
      or_and_right, exists_or]
    by_cases hs : s = move.1
    · subst hs
      obtain ⟨s, added⟩ := move
      simp [h.mem_getD_iff]
    · have hne : ∀ targets, (s, targets) ≠ move := fun targets heq => hs (heq ▸ rfl)
      simp [hs, hne, h.targets]

theorem foldl_addTargets (moves : List (Symbol × List Nat)) :
    Collects moves (moves.foldl Nfa.addTargets []) := by
  induction moves using List.reverseRecOn with
  | nil => exact nil
  | append_singleton moves move ih =>
    rw [List.foldl_append]
    exact ih.addTargets move

end Collects

/-! ## The table of moves -/

/-- Where each state can be after each symbol that one of its edges reads. -/
def movesTable (nfa : Nfa) (closures : Array (List Nat)) : Array (List (Symbol × List Nat)) :=
  nfa.states.map fun s => (groupEdges s.edges).map fun group =>
    (group.1, Ascending.ofList (group.2.flatMap fun target => closures.getD target []))

/-- The moves of a set, from those of its members. -/
def gather (table : Array (List (Symbol × List Nat))) (set : List Nat) :
    List (Symbol × List Nat) :=
  set.foldl (fun next member => (table.getD member []).foldl addTargets next) []

/-- Where edges lead with each of their symbols. -/
def movesAlong (nfa : Nfa) (edges : List Edge) : List (Symbol × List Nat) :=
  (groupEdges edges).map fun group => (group.1, nfa.closure group.2)

theorem exists_symbol_iff {edges : List Edge} {s : Symbol} :
    (∃ targets, (s, targets) ∈ nfa.movesAlong edges) ↔ ∃ r, ⟨s, r⟩ ∈ edges := by
  simp only [movesAlong, List.mem_map, Prod.mk.injEq]
  constructor
  · rintro ⟨_, group, hgroup, rfl, -⟩
    obtain ⟨r, hr⟩ := List.exists_mem_of_ne_nil _ (ne_nil_of_mem_groupEdges hgroup)
    exact ⟨r, mem_edges_iff_groupEdges.mpr ⟨group, hgroup, rfl, hr⟩⟩
  · rintro ⟨r, hr⟩
    obtain ⟨group, hgroup, heq, -⟩ := mem_edges_iff_groupEdges.mp hr
    exact ⟨_, group, hgroup, heq, rfl⟩

theorem exists_target_iff (hnfa : nfa.InRange) {edges : List Edge}
    (hedges : ∀ e ∈ edges, e.target < nfa.size) {s : Symbol} {q : Nat} :
    (∃ targets, (s, targets) ∈ nfa.movesAlong edges ∧ q ∈ targets) ↔
      ∃ r, ⟨s, r⟩ ∈ edges ∧ Run nfa r [] q := by
  have hrange : ∀ group ∈ groupEdges edges, ∀ r ∈ group.2, r < nfa.size := fun group hgroup r hr =>
    hedges ⟨group.1, r⟩ (mem_edges_iff_groupEdges.mpr ⟨group, hgroup, rfl, hr⟩)
  simp only [movesAlong, List.mem_map, Prod.mk.injEq]
  constructor
  · rintro ⟨_, ⟨group, hgroup, rfl, rfl⟩, hq⟩
    obtain ⟨r, hr, hrun⟩ := (mem_closure_iff hnfa (hrange group hgroup)).mp hq
    exact ⟨r, mem_edges_iff_groupEdges.mpr ⟨group, hgroup, rfl, hr⟩, hrun⟩
  · rintro ⟨r, hr, hrun⟩
    obtain ⟨group, hgroup, heq, hmem⟩ := mem_edges_iff_groupEdges.mp hr
    exact ⟨_, ⟨group, hgroup, heq, rfl⟩,
      (mem_closure_iff hnfa (hrange group hgroup)).mpr ⟨r, hmem, hrun⟩⟩

/-- The closure of a set, from those of its members. -/
theorem ofList_flatMap_closures (hnfa : nfa.InRange) {set : List Nat}
    (hset : ∀ p ∈ set, p < nfa.size) :
    Ascending.ofList (set.flatMap fun p => nfa.closures.getD p []) = nfa.closure set := by
  refine (Ascending.pairwise_ofList _).eq_of_mem_iff (pairwise_closure _) fun q => ?_
  rw [Ascending.mem_ofList, List.mem_flatMap, mem_closure_iff hnfa hset]
  refine exists_congr fun p => and_congr_right fun hp => ?_
  rw [getD_closures hnfa (hset p hp), mem_closure_iff hnfa (by simpa using hset p hp)]
  simp

/-- What the table says of a state. -/
theorem getD_movesTable (hnfa : nfa.InRange) (p : Nat) :
    (nfa.movesTable nfa.closures).getD p [] = nfa.movesAlong (nfa.state p).edges := by
  have hstate : (nfa.movesTable nfa.closures).getD p [] =
      (groupEdges (nfa.state p).edges).map fun group =>
        (group.1, Ascending.ofList (group.2.flatMap fun r => nfa.closures.getD r [])) := by
    rw [movesTable, state, Array.getD_eq_getD_getElem?, Array.getD_eq_getD_getElem?,
      Array.getElem?_map]
    cases nfa.states[p]? <;> rfl
  rw [hstate, movesAlong]
  refine List.map_congr_left fun group hgroup => ?_
  rw [ofList_flatMap_closures hnfa fun r hr => hnfa.edges p ⟨group.1, r⟩
    (mem_edges_iff_groupEdges.mpr ⟨group, hgroup, rfl, hr⟩)]

theorem collects_moves (hnfa : nfa.InRange) (set : List Nat) :
    Collects (set.flatMap fun p => nfa.movesAlong (nfa.state p).edges) (nfa.moves set) := by
  obtain ⟨-, hedges⟩ := @edges_of_states nfa set
  have hrange : ∀ p, ∀ e ∈ (nfa.state p).edges, e.target < nfa.size := hnfa.edges
  refine ⟨ascendingKeys_moves set, ?_, fun s => ?_, fun s q => ?_⟩
  · intro entry hentry
    obtain ⟨group, -, rfl⟩ := List.mem_map.mp hentry
    exact pairwise_closure _
  · refine exists_symbol_iff.trans ?_
    simp only [hedges, List.mem_flatMap]
    rw [exists_comm, exists_comm (p := fun targets p => p ∈ set ∧ _)]
    simp only [exists_and_left, exists_symbol_iff]
  · refine (exists_target_iff hnfa fun e he => ?_).trans ?_
    · obtain ⟨p, -, hp⟩ := (hedges e).mp he
      exact hrange p e hp
    · simp only [hedges, List.mem_flatMap]
      constructor
      · rintro ⟨r, ⟨p, hp, hr⟩, hrun⟩
        obtain ⟨targets, hmem, hq⟩ := (exists_target_iff hnfa (hrange p)).mpr ⟨r, hr, hrun⟩
        exact ⟨targets, ⟨p, hp, hmem⟩, hq⟩
      · rintro ⟨targets, ⟨p, hp, hmem⟩, hq⟩
        obtain ⟨r, hr, hrun⟩ := (exists_target_iff hnfa (hrange p)).mp ⟨targets, hmem, hq⟩
        exact ⟨r, ⟨p, hp, hr⟩, hrun⟩

/-- **The moves of a set can be put together from the table.** -/
theorem gather_movesTable (hnfa : nfa.InRange) (set : List Nat) :
    gather (nfa.movesTable nfa.closures) set = nfa.moves set := by
  have hgather : gather (nfa.movesTable nfa.closures) set =
      (set.flatMap fun p => nfa.movesAlong (nfa.state p).edges).foldl addTargets [] := by
    rw [gather, List.foldl_flatMap]
    simp only [getD_movesTable hnfa]
  rw [hgather]
  exact (Collects.foldl_addTargets _).unique (collects_moves hnfa set)

end ActionRegex.Nfa
