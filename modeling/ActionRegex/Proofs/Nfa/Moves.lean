import ActionRegex.Proofs.Ascending
import ActionRegex.Proofs.DepthFirst
import ActionRegex.Proofs.Nfa.Runs

/-!
# Closures and moves

The closure of a set of states and the moves of a closed set, in terms of runs: a set is closed if
runs that read nothing do not leave it, and where a closed set moves with a symbol is where the runs
that read the symbol end.
-/

namespace ActionRegex.Nfa

open Relation (ReflTransGen)
open Ascending (AscendingKeys ascendingKeys_cons get?_eq_some_iff)

variable {nfa : Nfa}

/-! ## Runs that read nothing -/

theorem run_nil_iff {p q : Nat} :
    Run nfa p [] q ↔ ReflTransGen (fun a b => b ∈ (nfa.state a).direct) p q := by
  constructor
  · intro h
    generalize hu : ([] : List Symbol) = u at h
    induction h with
    | nil p => exact ReflTransGen.refl
    | direct hd _ ih => exact ReflTransGen.head hd (ih hu)
    | read _ _ _ => simp at hu
  · intro h
    induction h using ReflTransGen.head_induction_on with
    | refl => exact Run.nil q
    | head hd _ ih => exact Run.direct hd ih

/-- A run that reads something first reads nothing for a while. -/
theorem run_cons_iff {p q : Nat} {s : Symbol} {u : List Symbol} :
    Run nfa p (s :: u) q ↔
      ∃ p' r, Run nfa p [] p' ∧ ⟨s, r⟩ ∈ (nfa.state p').edges ∧ Run nfa r u q := by
  constructor
  · intro h
    generalize hu : s :: u = v at h
    induction h with
    | nil p => simp at hu
    | direct hd _ ih =>
      obtain ⟨p', r, hrun, hedge, hrest⟩ := ih hu
      exact ⟨p', r, Run.direct hd hrun, hedge, hrest⟩
    | read hr run _ =>
      cases hu
      exact ⟨_, _, Run.nil _, hr, run⟩
  · rintro ⟨p', r, hrun, hedge, hrest⟩
    exact hrun.trans (Run.read hedge hrest)

/-- A run over two words passes through a state between them. -/
theorem exists_of_run_append {p q : Nat} {u v : List Symbol} (h : Run nfa p (u ++ v) q) :
    ∃ r, Run nfa p u r ∧ Run nfa r v q := by
  induction u generalizing p with
  | nil => exact ⟨p, Run.nil p, h⟩
  | cons s u ih =>
    obtain ⟨p', t, hdirect, hedge, hrest⟩ := run_cons_iff.mp h
    obtain ⟨r, hfirst, hsecond⟩ := ih hrest
    exact ⟨r, run_cons_iff.mpr ⟨p', t, hdirect, hedge, hfirst⟩, hsecond⟩

/-! ## Closures -/

/-- Runs that read nothing do not leave the set. -/
def Closed (nfa : Nfa) (set : List Nat) : Prop := ∀ p ∈ set, ∀ q, Run nfa p [] q → q ∈ set

theorem mem_closure_iff (hnfa : nfa.InRange) {set : List Nat} (hset : ∀ p ∈ set, p < nfa.size)
    {q : Nat} : q ∈ nfa.closure set ↔ ∃ p ∈ set, Run nfa p [] q := by
  rw [closure, Ascending.mem_ofList,
    DepthFirst.mem_search_iff hset fun a _ b hb => hnfa.direct a b hb]
  simp only [run_nil_iff]

theorem closed_closure (hnfa : nfa.InRange) {set : List Nat} (hset : ∀ p ∈ set, p < nfa.size) :
    nfa.Closed (nfa.closure set) := by
  intro p hp q hq
  obtain ⟨s, hs, hrun⟩ := (mem_closure_iff hnfa hset).mp hp
  exact (mem_closure_iff hnfa hset).mpr ⟨s, hs, hrun.trans hq⟩

theorem lt_size_of_mem_closure (hnfa : nfa.InRange) {set : List Nat}
    (hset : ∀ p ∈ set, p < nfa.size) {q : Nat} (hq : q ∈ nfa.closure set) : q < nfa.size := by
  obtain ⟨p, hp, hrun⟩ := (mem_closure_iff hnfa hset).mp hq
  exact hrun.lt_size hnfa (hset p hp)

theorem pairwise_closure (set : List Nat) : (nfa.closure set).Pairwise (· < ·) :=
  Ascending.pairwise_ofList _

/-! ## Edges grouped by symbol -/

/-- Grouping keeps the edges. -/
theorem mem_edges_iff_groupEdges {edges : List Edge} {e : Edge} :
    e ∈ edges ↔ ∃ group ∈ groupEdges edges, group.1 = e.symbol ∧ e.target ∈ group.2 := by
  induction edges with
  | nil => simp [groupEdges]
  | cons edge rest ih =>
    obtain ⟨s, q⟩ := e
    obtain ⟨s', q'⟩ := edge
    rw [List.mem_cons, ih, groupEdges, Edge.mk.injEq]
    split
    · next symbol targets groups hgroups =>
      rw [hgroups]
      by_cases heq : s' = symbol
      · subst heq
        rw [if_pos rfl]
        rw [List.exists_mem_cons_iff, List.exists_mem_cons_iff, List.mem_cons]
        constructor
        · rintro (⟨rfl, rfl⟩ | ⟨hs, hq⟩ | h)
          · exact Or.inl ⟨rfl, Or.inl rfl⟩
          · exact Or.inl ⟨hs, Or.inr hq⟩
          · exact Or.inr h
        · rintro (⟨hs, rfl | hq⟩ | h)
          · exact Or.inl ⟨hs.symm, rfl⟩
          · exact Or.inr (Or.inl ⟨hs, hq⟩)
          · exact Or.inr (Or.inr h)
      · rw [if_neg heq]
        simp only [List.exists_mem_cons_iff, List.mem_singleton]
        rw [@eq_comm _ s s']
    · next hgroups =>
      rw [hgroups]
      simp [eq_comm]

theorem ne_nil_of_mem_groupEdges {edges : List Edge} {group : Symbol × List Nat}
    (h : group ∈ groupEdges edges) : group.2 ≠ [] := by
  induction edges with
  | nil => simp [groupEdges] at h
  | cons edge rest ih =>
    rw [groupEdges] at h
    split at h
    · next symbol targets groups hgroups =>
      rw [hgroups] at ih
      split at h
      · rcases List.mem_cons.mp h with rfl | h
        · simp
        · exact ih (List.mem_cons_of_mem _ h)
      · rcases List.mem_cons.mp h with rfl | h
        · simp
        · exact ih h
    · rw [List.mem_singleton.mp h]
      simp

/-- Ascending edges give groups with ascending symbols. -/
theorem ascendingKeys_groupEdges {edges : List Edge} (h : edges.Pairwise (· < ·)) :
    AscendingKeys (groupEdges edges) := by
  induction edges with
  | nil => exact List.Pairwise.nil
  | cons edge rest ih =>
    obtain ⟨hedge, hrest⟩ := List.pairwise_cons.mp h
    -- every symbol of the rest is the one of `edge` or comes after it
    have hafter : ∀ group ∈ groupEdges rest, edge.symbol < group.1 ∨ edge.symbol = group.1 := by
      intro group hgroup
      obtain ⟨q, hq⟩ := List.exists_mem_of_ne_nil _ (ne_nil_of_mem_groupEdges hgroup)
      have hmem : ⟨group.1, q⟩ ∈ rest := mem_edges_iff_groupEdges.mpr ⟨group, hgroup, rfl, hq⟩
      exact (hedge _ hmem).imp id And.left
    have hkeys := ih hrest
    rw [groupEdges]
    split
    · next symbol targets groups hgroups =>
      rw [hgroups] at hkeys hafter
      obtain ⟨hfirst, hgroups'⟩ := ascendingKeys_cons.mp hkeys
      by_cases heq : edge.symbol = symbol
      · rw [if_pos heq]
        exact ascendingKeys_cons.mpr ⟨hfirst, hgroups'⟩
      · rw [if_neg heq]
        have hlt : edge.symbol < symbol := (hafter _ List.mem_cons_self).resolve_right heq
        refine ascendingKeys_cons.mpr ⟨?_, hkeys⟩
        refine List.forall_mem_cons.mpr ⟨hlt, fun group hgroup => ?_⟩
        exact IsTrans.trans _ _ _ hlt (hfirst group hgroup)
    · exact List.pairwise_singleton _ _

theorem mem_group_iff {edges : List Edge} (h : edges.Pairwise (· < ·)) {s : Symbol}
    {targets : List Nat} (hgroup : (s, targets) ∈ groupEdges edges) {q : Nat} :
    q ∈ targets ↔ ⟨s, q⟩ ∈ edges := by
  rw [mem_edges_iff_groupEdges]
  constructor
  · exact fun hq => ⟨_, hgroup, rfl, hq⟩
  · rintro ⟨⟨s', targets'⟩, hgroup', rfl, hq⟩
    have hkeys := ascendingKeys_groupEdges h
    have h1 := (get?_eq_some_iff hkeys).mpr hgroup
    have h2 := (get?_eq_some_iff hkeys).mpr hgroup'
    rw [h1] at h2
    rw [Option.some.inj h2]
    exact hq

/-! ## Moves -/

/-- The edges of a set of states, in ascending order. -/
theorem edges_of_states (set : List Nat) :
    (set.foldl (fun acc p => Ascending.union acc (nfa.state p).edges) []).Pairwise (· < ·) ∧
      ∀ e, e ∈ set.foldl (fun acc p => Ascending.union acc (nfa.state p).edges) [] ↔
        ∃ p ∈ set, e ∈ (nfa.state p).edges := by
  have hfold : ∀ acc : List Edge, acc.Pairwise (· < ·) →
      (set.foldl (fun acc p => Ascending.union acc (nfa.state p).edges) acc).Pairwise (· < ·) ∧
      ∀ e, e ∈ set.foldl (fun acc p => Ascending.union acc (nfa.state p).edges) acc ↔
        e ∈ acc ∨ ∃ p ∈ set, e ∈ (nfa.state p).edges := by
    induction set with
    | nil => exact fun acc hacc => ⟨hacc, by simp⟩
    | cons p set ih =>
      intro acc hacc
      obtain ⟨hsorted, hmem⟩ := ih _ (Ascending.pairwise_union (nfa.state p).edges hacc)
      refine ⟨hsorted, fun e => ?_⟩
      rw [List.foldl_cons, hmem e, Ascending.mem_union, List.exists_mem_cons_iff, or_assoc]
  obtain ⟨hsorted, hmem⟩ := hfold [] List.Pairwise.nil
  exact ⟨hsorted, fun e => by simpa using hmem e⟩

theorem ascendingKeys_moves (set : List Nat) : AscendingKeys (nfa.moves set) :=
  (ascendingKeys_groupEdges (edges_of_states set).1).map fun _ => rfl

/-- A closed set moves with every symbol that a run reads, to where the runs end. -/
theorem mem_moves_iff (hnfa : nfa.InRange) {set : List Nat} (hclosed : nfa.Closed set) {s : Symbol}
    {next : List Nat} (h : (s, next) ∈ nfa.moves set) :
    (∀ q, q ∈ next ↔ ∃ p ∈ set, Run nfa p [s] q) ∧ nfa.Closed next ∧
      next.Pairwise (· < ·) ∧ (∀ q ∈ next, q < nfa.size) ∧ next ≠ [] := by
  obtain ⟨⟨s', targets⟩, hgroup, heq⟩ := List.mem_map.mp h
  obtain ⟨rfl, rfl⟩ := Prod.mk.inj heq
  obtain ⟨hsorted, hedges⟩ := @edges_of_states nfa set
  have htargets : ∀ q, q ∈ targets ↔ ∃ p ∈ set, ⟨s', q⟩ ∈ (nfa.state p).edges := fun q =>
    (mem_group_iff hsorted hgroup).trans (hedges _)
  have hrange : ∀ q ∈ targets, q < nfa.size := by
    intro q hq
    obtain ⟨p, -, hp⟩ := (htargets q).mp hq
    exact hnfa.edges p _ hp
  refine ⟨fun q => ?_, closed_closure hnfa hrange, pairwise_closure _,
    fun q hq => lt_size_of_mem_closure hnfa hrange hq, ?_⟩
  · rw [mem_closure_iff hnfa hrange]
    constructor
    · rintro ⟨r, hr, hrun⟩
      obtain ⟨p, hp, hedge⟩ := (htargets r).mp hr
      exact ⟨p, hp, Run.read hedge hrun⟩
    · rintro ⟨p, hp, hrun⟩
      obtain ⟨p', r, hdirect, hedge, hrest⟩ := run_cons_iff.mp hrun
      exact ⟨r, (htargets r).mpr ⟨p', hclosed p hp p' hdirect, hedge⟩, hrest⟩
  · obtain ⟨q, hq⟩ := List.exists_mem_of_ne_nil _ (ne_nil_of_mem_groupEdges hgroup)
    exact List.ne_nil_of_mem ((mem_closure_iff hnfa hrange).mpr ⟨q, hq, Run.nil q⟩)

theorem exists_move {set : List Nat} (hclosed : nfa.Closed set) {p q : Nat} (hp : p ∈ set)
    {s : Symbol} {u : List Symbol} (hrun : Run nfa p (s :: u) q) :
    ∃ next, (s, next) ∈ nfa.moves set := by
  obtain ⟨p', r, hdirect, hedge, -⟩ := run_cons_iff.mp hrun
  have hmem := ((@edges_of_states nfa set).2 ⟨s, r⟩).mpr ⟨p', hclosed p hp p' hdirect, hedge⟩
  obtain ⟨group, hgroup, rfl, -⟩ := mem_edges_iff_groupEdges.mp hmem
  exact ⟨_, List.mem_map.mpr ⟨group, hgroup, rfl⟩⟩

end ActionRegex.Nfa
