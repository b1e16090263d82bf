import ActionRegex.Nfa.OfTree
import ActionRegex.Proofs.Nfa.Runs

/-!
# The words of the automaton of a tree

A tree still to build stands for edges that read its words. With the tasks taken as edges of that
kind, a *route* goes through an automaton under construction: by its edges and by its tasks. No step
of the construction changes what the routes between old states read, as the states that a step adds
are entered and left by the edges of that step only. At the start the only routes from the initial
to the final state follow the task of the whole tree; at the end the routes are the runs.
-/

namespace ActionRegex.Nfa

open Pattern (Tree)

/-! ## Routes -/

/-- One edge or task, with the word it reads. -/
inductive Hop (nfa : Nfa) (tasks : List Task) : Nat → List Symbol → Nat → Prop where
  | direct {p q : Nat} (h : q ∈ (nfa.state p).direct) : Hop nfa tasks p [] q
  | read {p q : Nat} {s : Symbol} (h : ⟨s, q⟩ ∈ (nfa.state p).edges) : Hop nfa tasks p [s] q
  | task {p q : Nat} {t : Tree} {v : List Symbol} (h : ⟨t, p, q⟩ ∈ tasks) (hv : v ∈ t.words) :
    Hop nfa tasks p v q

/-- Edges and tasks one after the other, with the word they read. -/
inductive Route (nfa : Nfa) (tasks : List Task) : Nat → List Symbol → Nat → Prop where
  | nil (p : Nat) : Route nfa tasks p [] p
  | cons {p q r : Nat} {v u : List Symbol} (hop : Hop nfa tasks p v q)
    (route : Route nfa tasks q u r) : Route nfa tasks p (v ++ u) r

variable {nfa nfa' : Nfa} {tasks tasks' rest : List Task}

theorem Hop.route {p q : Nat} {v : List Symbol} (h : Hop nfa tasks p v q) :
    Route nfa tasks p v q := by
  have hroute := Route.cons h (Route.nil q)
  rwa [List.append_nil] at hroute

theorem Route.trans {p q r : Nat} {u v : List Symbol} (h : Route nfa tasks p u q)
    (h' : Route nfa tasks q v r) : Route nfa tasks p (u ++ v) r := by
  induction h with
  | nil p => exact h'
  | cons hop _ ih =>
    rw [List.append_assoc]
    exact Route.cons hop (ih h')

/-- Routes can be followed wherever their hops can. -/
theorem Route.mono (hhop : ∀ p v q, Hop nfa tasks p v q → Route nfa' tasks' p v q) {p q : Nat}
    {u : List Symbol} (h : Route nfa tasks p u q) : Route nfa' tasks' p u q := by
  induction h with
  | nil p => exact Route.nil p
  | cons hop _ ih => exact (hhop _ _ _ hop).trans ih

theorem route_nil_iff {p q : Nat} {u : List Symbol} : Route nfa [] p u q ↔ Run nfa p u q := by
  constructor
  · intro h
    induction h with
    | nil p => exact Run.nil p
    | cons hop _ ih =>
      cases hop with
      | direct h => exact Run.direct h ih
      | read h => exact Run.read h ih
      | task h => simp at h
  · intro h
    induction h with
    | nil p => exact Route.nil p
    | direct hd _ ih => exact Route.cons (Hop.direct hd) ih
    | read hr _ ih => exact Route.cons (Hop.read hr) ih

/-- Every task lies between two states of the automaton. -/
def TasksInRange (nfa : Nfa) (tasks : List Task) : Prop :=
  ∀ task ∈ tasks, task.source < nfa.size ∧ task.target < nfa.size

theorem tasksInRange_cons {task : Task} : TasksInRange nfa (task :: rest) ↔
    (task.source < nfa.size ∧ task.target < nfa.size) ∧ TasksInRange nfa rest :=
  List.forall_mem_cons

theorem TasksInRange.mono (h : TasksInRange nfa tasks) (hsize : nfa.size ≤ nfa'.size) :
    TasksInRange nfa' tasks := fun task ht =>
  ⟨Nat.lt_of_lt_of_le (h task ht).1 hsize, Nat.lt_of_lt_of_le (h task ht).2 hsize⟩

/-- A hop of the remaining tasks is a hop of all. -/
theorem Hop.cons {task : Task} {p q : Nat} {v : List Symbol} (h : Hop nfa rest p v q) :
    Hop nfa (task :: rest) p v q := by
  cases h with
  | direct h => exact Hop.direct h
  | read h => exact Hop.read h
  | task h hv => exact Hop.task (List.mem_cons_of_mem _ h) hv

/-- Every hop leads to a state of the automaton. -/
theorem Hop.target_lt (hnfa : nfa.InRange) (htasks : TasksInRange nfa tasks) {p q : Nat}
    {v : List Symbol} (h : Hop nfa tasks p v q) : q < nfa.size := by
  cases h with
  | direct h => exact hnfa.direct _ _ h
  | read h => exact hnfa.edges _ _ h
  | task h _ => exact (htasks _ h).2

/-- Every hop starts at a state of the automaton. -/
theorem Hop.source_lt (htasks : TasksInRange nfa tasks) {p q : Nat}
    {v : List Symbol} (h : Hop nfa tasks p v q) : p < nfa.size := by
  cases h with
  | direct h =>
    by_contra hp
    rw [state_of_size_le (Nat.le_of_not_lt hp)] at h
    simp at h
  | read h =>
    by_contra hp
    rw [state_of_size_le (Nat.le_of_not_lt hp)] at h
    simp at h
  | task h _ => exact (htasks _ h).1

/-! ## Symbols, the empty text and alternations

These steps replace a task by edges or tasks between the same states.
-/

theorem route_addEdge_iff {s : Symbol} {i j : Nat} (hi : i < nfa.size) {p q : Nat}
    {u : List Symbol} :
    Route (nfa.addEdge i s j) rest p u q ↔ Route nfa (⟨.symbol s, i, j⟩ :: rest) p u q := by
  constructor
  · refine Route.mono fun p v q h => Hop.route ?_
    cases h with
    | direct h => exact Hop.direct (by rwa [direct_addEdge hi] at h)
    | read h =>
      rcases (mem_edges_addEdge hi).mp h with ⟨rfl, he⟩ | h
      · cases he
        exact Hop.task List.mem_cons_self rfl
      · exact Hop.read h
    | task h hv => exact Hop.task (List.mem_cons_of_mem _ h) hv
  · refine Route.mono fun p v q h => Hop.route ?_
    cases h with
    | direct h => exact Hop.direct (by rwa [direct_addEdge hi])
    | read h => exact Hop.read ((mem_edges_addEdge hi).mpr (Or.inr h))
    | task h hv =>
      rcases List.mem_cons.mp h with heq | h
      · cases heq
        rw [Tree.mem_words_symbol.mp hv]
        exact Hop.read ((mem_edges_addEdge hi).mpr (Or.inl ⟨rfl, rfl⟩))
      · exact Hop.task h hv

theorem route_addDirect_iff {i j : Nat} (hi : i < nfa.size) {p q : Nat} {u : List Symbol} :
    Route (nfa.addDirect i j) rest p u q ↔ Route nfa (⟨.empty, i, j⟩ :: rest) p u q := by
  constructor
  · refine Route.mono fun p v q h => Hop.route ?_
    cases h with
    | direct h =>
      rcases (mem_direct_addDirect hi).mp h with ⟨rfl, rfl⟩ | h
      · exact Hop.task List.mem_cons_self rfl
      · exact Hop.direct h
    | read h => exact Hop.read (by rwa [edges_addDirect hi] at h)
    | task h hv => exact Hop.task (List.mem_cons_of_mem _ h) hv
  · refine Route.mono fun p v q h => Hop.route ?_
    cases h with
    | direct h => exact Hop.direct ((mem_direct_addDirect hi).mpr (Or.inr h))
    | read h => exact Hop.read (by rwa [edges_addDirect hi])
    | task h hv =>
      rcases List.mem_cons.mp h with heq | h
      · cases heq
        rw [Tree.mem_words_empty.mp hv]
        exact Hop.direct ((mem_direct_addDirect hi).mpr (Or.inl ⟨rfl, rfl⟩))
      · exact Hop.task h hv

theorem route_alternate_iff {l r : Tree} {i j : Nat} {p q : Nat} {u : List Symbol} :
    Route nfa (⟨l, i, j⟩ :: ⟨r, i, j⟩ :: rest) p u q ↔
      Route nfa (⟨.alternate l r, i, j⟩ :: rest) p u q := by
  constructor
  · refine Route.mono fun p v q h => Hop.route ?_
    cases h with
    | direct h => exact Hop.direct h
    | read h => exact Hop.read h
    | task h hv =>
      rcases List.mem_cons.mp h with heq | h
      · cases heq
        exact Hop.task List.mem_cons_self (Tree.mem_words_alternate.mpr (Or.inl hv))
      · rcases List.mem_cons.mp h with heq | h
        · cases heq
          exact Hop.task List.mem_cons_self (Tree.mem_words_alternate.mpr (Or.inr hv))
        · exact Hop.task (List.mem_cons_of_mem _ h) hv
  · refine Route.mono fun p v q h => Hop.route ?_
    cases h with
    | direct h => exact Hop.direct h
    | read h => exact Hop.read h
    | task h hv =>
      rcases List.mem_cons.mp h with heq | h
      · cases heq
        rcases Tree.mem_words_alternate.mp hv with hv | hv
        · exact Hop.task List.mem_cons_self hv
        · exact Hop.task (List.mem_cons_of_mem _ List.mem_cons_self) hv
      · exact Hop.task (List.mem_cons_of_mem _ (List.mem_cons_of_mem _ h)) hv

/-! ## Concatenations -/

section Concat

variable {l r : Tree} {i j : Nat}

/-- The hops after a concatenation is split: those there were, into the middle, and out of it. -/
theorem hop_concat_cases {p q : Nat} {v : List Symbol}
    (h : Hop nfa.addState (⟨l, i, nfa.size⟩ :: ⟨r, nfa.size, j⟩ :: rest) p v q) :
    Hop nfa rest p v q ∨ (p = i ∧ q = nfa.size ∧ v ∈ l.words) ∨
      (p = nfa.size ∧ q = j ∧ v ∈ r.words) := by
  cases h with
  | direct h => exact Or.inl (Hop.direct (by rwa [state_addState] at h))
  | read h => exact Or.inl (Hop.read (by rwa [state_addState] at h))
  | task h hv =>
    rcases List.mem_cons.mp h with heq | h
    · cases heq
      exact Or.inr (Or.inl ⟨rfl, rfl, hv⟩)
    · rcases List.mem_cons.mp h with heq | h
      · cases heq
        exact Or.inr (Or.inr ⟨rfl, rfl, hv⟩)
      · exact Or.inl (Hop.task h hv)

theorem route_concat_of_route_split (hnfa : nfa.InRange) (hi : i < nfa.size) (hj : j < nfa.size)
    (hrest : TasksInRange nfa rest) {p q : Nat} {u : List Symbol}
    (h : Route nfa.addState (⟨l, i, nfa.size⟩ :: ⟨r, nfa.size, j⟩ :: rest) p u q)
    (hq : q ≠ nfa.size) :
    (p ≠ nfa.size → Route nfa (⟨.concat l r, i, j⟩ :: rest) p u q) ∧
      (p = nfa.size → ∃ v ∈ r.words, ∃ u', u = v ++ u' ∧
        Route nfa (⟨.concat l r, i, j⟩ :: rest) j u' q) := by
  -- from the middle state a route first has to read a word of the right side
  induction h with
  | nil p => exact ⟨fun _ => Route.nil p, fun hp => absurd hp hq⟩
  | @cons p p' q v u hop route ih =>
    obtain ⟨ihold, ihmiddle⟩ := ih hq
    rcases hop_concat_cases hop with hop | ⟨rfl, rfl, hv⟩ | ⟨rfl, rfl, hv⟩
    · have hp := hop.source_lt hrest
      have hp' := hop.target_lt hnfa hrest
      exact ⟨fun _ => Route.cons hop.cons (ihold (Nat.ne_of_lt hp')),
        fun he => absurd he (Nat.ne_of_lt hp)⟩
    · refine ⟨fun _ => ?_, fun he => absurd he (Nat.ne_of_lt hi)⟩
      obtain ⟨v', hv', u', rfl, hroute⟩ := ihmiddle rfl
      rw [← List.append_assoc]
      exact Route.cons
        (Hop.task List.mem_cons_self (Tree.mem_words_concat.mpr ⟨v, hv, v', hv', rfl⟩)) hroute
    · exact ⟨fun he => absurd rfl he, fun _ => ⟨v, hv, u, rfl, ihold (Nat.ne_of_lt hj)⟩⟩

theorem route_concat_iff (hnfa : nfa.InRange) (hi : i < nfa.size) (hj : j < nfa.size)
    (hrest : TasksInRange nfa rest) {p q : Nat} {u : List Symbol} (hp : p < nfa.size)
    (hq : q < nfa.size) :
    Route nfa.addState (⟨l, i, nfa.size⟩ :: ⟨r, nfa.size, j⟩ :: rest) p u q ↔
      Route nfa (⟨.concat l r, i, j⟩ :: rest) p u q := by
  constructor
  · intro h
    exact (route_concat_of_route_split hnfa hi hj hrest h (Nat.ne_of_lt hq)).1 (Nat.ne_of_lt hp)
  · refine Route.mono fun p v q h => ?_
    cases h with
    | direct h => exact (Hop.direct (by rwa [state_addState])).route
    | read h => exact (Hop.read (by rwa [state_addState])).route
    | task h hv =>
      rcases List.mem_cons.mp h with heq | h
      · cases heq
        obtain ⟨vl, hvl, vr, hvr, rfl⟩ := Tree.mem_words_concat.mp hv
        exact Route.cons (Hop.task List.mem_cons_self hvl)
          (Hop.task (List.mem_cons_of_mem _ List.mem_cons_self) hvr).route
      · exact (Hop.task (List.mem_cons_of_mem _ (List.mem_cons_of_mem _ h)) hv).route

end Concat

/-! ## Closures -/

section Closure

variable {t : Tree} {i j : Nat}

/-- The automaton after the step of a closure between `i` and `j`: its entry is `nfa.size` and its
body `nfa.size + 1`. -/
def withClosure (nfa : Nfa) (i j : Nat) : Nfa :=
  (((nfa.addState.addState).addDirect i nfa.size).addDirect nfa.size (nfa.size + 1)).addDirect
    nfa.size j

@[simp] theorem size_withClosure : (nfa.withClosure i j).size = nfa.size + 2 := by
  simp [withClosure]

theorem edges_withClosure (hi : i < nfa.size) (p : Nat) :
    ((nfa.withClosure i j).state p).edges = (nfa.state p).edges := by
  have hentry : nfa.size < nfa.size + 1 + 1 := by omega
  rw [withClosure, edges_addDirect, edges_addDirect, edges_addDirect, state_addState,
    state_addState]
  · rw [size_addState, size_addState]
    omega
  · rwa [size_addDirect, size_addState, size_addState]
  · rwa [size_addDirect, size_addDirect, size_addState, size_addState]

theorem mem_direct_withClosure (hi : i < nfa.size) {p q : Nat} :
    q ∈ ((nfa.withClosure i j).state p).direct ↔
      (p = nfa.size ∧ q = j) ∨ (p = nfa.size ∧ q = nfa.size + 1) ∨ (p = i ∧ q = nfa.size) ∨
        q ∈ (nfa.state p).direct := by
  have hentry : nfa.size < nfa.size + 1 + 1 := by omega
  rw [withClosure, mem_direct_addDirect, mem_direct_addDirect, mem_direct_addDirect,
    state_addState, state_addState, @eq_comm _ nfa.size p, @eq_comm _ i p]
  · rw [size_addState, size_addState]
    omega
  · rwa [size_addDirect, size_addState, size_addState]
  · rwa [size_addDirect, size_addDirect, size_addState, size_addState]

theorem InRange.withClosure (hnfa : nfa.InRange) (hi : i < nfa.size) (hj : j < nfa.size) :
    (nfa.withClosure i j).InRange := by
  have hsize : nfa.addState.addState.size = nfa.size + 2 := by rw [size_addState, size_addState]
  refine ((hnfa.addState.addState.addDirect ?_ ?_).addDirect ?_ ?_).addDirect ?_ ?_ <;>
    (simp only [size_addDirect, hsize]; omega)

/-- The hops after the step of a closure: those there were, into the entry, from the entry out or to
the body, and through the body. -/
theorem hop_closure_cases (hi : i < nfa.size) {p q : Nat} {v : List Symbol}
    (h : Hop (nfa.withClosure i j) (⟨t, nfa.size + 1, nfa.size⟩ :: rest) p v q) :
    Hop nfa rest p v q ∨ (p = i ∧ q = nfa.size ∧ v = []) ∨ (p = nfa.size ∧ q = j ∧ v = []) ∨
      (p = nfa.size ∧ q = nfa.size + 1 ∧ v = []) ∨
        (p = nfa.size + 1 ∧ q = nfa.size ∧ v ∈ t.words) := by
  cases h with
  | direct h =>
    rcases (mem_direct_withClosure hi).mp h with ⟨rfl, rfl⟩ | ⟨rfl, rfl⟩ | ⟨rfl, rfl⟩ | h
    · exact Or.inr (Or.inr (Or.inl ⟨rfl, rfl, rfl⟩))
    · exact Or.inr (Or.inr (Or.inr (Or.inl ⟨rfl, rfl, rfl⟩)))
    · exact Or.inr (Or.inl ⟨rfl, rfl, rfl⟩)
    · exact Or.inl (Hop.direct h)
  | read h =>
    rw [edges_withClosure hi] at h
    exact Or.inl (Hop.read h)
  | task h hv =>
    rcases List.mem_cons.mp h with heq | h
    · cases heq
      exact Or.inr (Or.inr (Or.inr (Or.inr ⟨rfl, rfl, hv⟩)))
    · exact Or.inl (Hop.task h hv)

theorem nil_mem_words_closure : [] ∈ (Tree.closure t).words :=
  Tree.mem_words_closure.mpr ⟨[], rfl, by simp⟩

theorem append_mem_words_closure {v w : List Symbol} (hv : v ∈ t.words)
    (hw : w ∈ (Tree.closure t).words) : v ++ w ∈ (Tree.closure t).words := by
  obtain ⟨pieces, rfl, hpieces⟩ := Tree.mem_words_closure.mp hw
  exact Tree.mem_words_closure.mpr ⟨v :: pieces, rfl, List.forall_mem_cons.mpr ⟨hv, hpieces⟩⟩

theorem route_closure_of_route_loop (hnfa : nfa.InRange) (hi : i < nfa.size) (hj : j < nfa.size)
    (hrest : TasksInRange nfa rest) {p q : Nat} {u : List Symbol}
    (h : Route (nfa.withClosure i j) (⟨t, nfa.size + 1, nfa.size⟩ :: rest) p u q)
    (hq : q < nfa.size) :
    (p < nfa.size → Route nfa (⟨.closure t, i, j⟩ :: rest) p u q) ∧
      (p = nfa.size → ∃ v ∈ (Tree.closure t).words, ∃ u', u = v ++ u' ∧
        Route nfa (⟨.closure t, i, j⟩ :: rest) j u' q) ∧
      (p = nfa.size + 1 → ∃ v ∈ t.words, ∃ v' ∈ (Tree.closure t).words, ∃ u',
        u = v ++ (v' ++ u') ∧ Route nfa (⟨.closure t, i, j⟩ :: rest) j u' q) := by
  -- a route from the entry reads repetitions of the body before it leaves for `j`
  induction h with
  | nil p => exact ⟨fun _ => Route.nil p, fun hp => by omega, fun hp => by omega⟩
  | @cons p p' q v u hop route ih =>
    obtain ⟨ihold, ihentry, ihbody⟩ := ih hq
    rcases hop_closure_cases hi hop with
      hop | ⟨rfl, rfl, rfl⟩ | ⟨rfl, rfl, rfl⟩ | ⟨rfl, rfl, rfl⟩ | ⟨rfl, rfl, hv⟩
    · have hp := hop.source_lt hrest
      exact ⟨fun _ => Route.cons hop.cons (ihold (hop.target_lt hnfa hrest)),
        fun he => by omega, fun he => by omega⟩
    · refine ⟨fun _ => ?_, fun he => by omega, fun he => by omega⟩
      obtain ⟨v, hv, u', rfl, hroute⟩ := ihentry rfl
      exact Route.cons (v := v) (Hop.task List.mem_cons_self hv) hroute
    · exact ⟨fun he => by omega, fun _ => ⟨[], nil_mem_words_closure, u, rfl, ihold hj⟩,
        fun he => by omega⟩
    · refine ⟨fun he => by omega, fun _ => ?_, fun he => by omega⟩
      obtain ⟨v, hv, v', hv', u', rfl, hroute⟩ := ihbody rfl
      exact ⟨v ++ v', append_mem_words_closure hv hv', u', by simp, hroute⟩
    · refine ⟨fun he => by omega, fun he => by omega, fun _ => ?_⟩
      obtain ⟨v', hv', u', rfl, hroute⟩ := ihentry rfl
      exact ⟨v, hv, v', hv', u', rfl, hroute⟩

/-- The loop at the entry reads every sequence of words of the body. -/
theorem route_loop (hi : i < nfa.size) (pieces : List (List Symbol))
    (hpieces : ∀ piece ∈ pieces, piece ∈ t.words) :
    Route (nfa.withClosure i j) (⟨t, nfa.size + 1, nfa.size⟩ :: rest) nfa.size pieces.flatten
      nfa.size := by
  induction pieces with
  | nil => exact Route.nil _
  | cons piece pieces ih =>
    obtain ⟨hpiece, hpieces⟩ := List.forall_mem_cons.mp hpieces
    have hin : Hop (nfa.withClosure i j) (⟨t, nfa.size + 1, nfa.size⟩ :: rest) nfa.size []
        (nfa.size + 1) :=
      Hop.direct ((mem_direct_withClosure hi).mpr (Or.inr (Or.inl ⟨rfl, rfl⟩)))
    exact hin.route.trans (Route.cons (Hop.task List.mem_cons_self hpiece) (ih hpieces))

theorem route_closure_iff (hnfa : nfa.InRange) (hi : i < nfa.size) (hj : j < nfa.size)
    (hrest : TasksInRange nfa rest) {p q : Nat} {u : List Symbol} (hp : p < nfa.size)
    (hq : q < nfa.size) :
    Route (nfa.withClosure i j) (⟨t, nfa.size + 1, nfa.size⟩ :: rest) p u q ↔
      Route nfa (⟨.closure t, i, j⟩ :: rest) p u q := by
  constructor
  · intro h
    exact (route_closure_of_route_loop hnfa hi hj hrest h hq).1 hp
  · refine Route.mono fun p v q h => ?_
    cases h with
    | direct h =>
      exact (Hop.direct ((mem_direct_withClosure hi).mpr (Or.inr (Or.inr (Or.inr h))))).route
    | read h => exact (Hop.read (by rwa [edges_withClosure hi])).route
    | task h hv =>
      rcases List.mem_cons.mp h with heq | h
      · cases heq
        obtain ⟨pieces, rfl, hpieces⟩ := Tree.mem_words_closure.mp hv
        have hin : Hop (nfa.withClosure i j) (⟨t, nfa.size + 1, nfa.size⟩ :: rest) i [] nfa.size :=
          Hop.direct ((mem_direct_withClosure hi).mpr (Or.inr (Or.inr (Or.inl ⟨rfl, rfl⟩))))
        have hout : Hop (nfa.withClosure i j) (⟨t, nfa.size + 1, nfa.size⟩ :: rest) nfa.size [] j :=
          Hop.direct ((mem_direct_withClosure hi).mpr (Or.inl ⟨rfl, rfl⟩))
        have hroute := (route_loop hi pieces hpieces).trans hout.route
        rw [List.append_nil] at hroute
        exact Route.cons hin hroute
      · exact (Hop.task (List.mem_cons_of_mem _ h) hv).route

end Closure

/-! ## Whole constructions -/

/-- What a whole construction gives: an automaton in range whose runs between the states there were
are the routes at the start. -/
theorem buildAll_spec (tasks : List Task) (nfa : Nfa) (hnfa : nfa.InRange)
    (htasks : TasksInRange nfa tasks) :
    (buildAll tasks nfa).InRange ∧ nfa.size ≤ (buildAll tasks nfa).size ∧
      ∀ p q u, p < nfa.size → q < nfa.size →
        (Run (buildAll tasks nfa) p u q ↔ Route nfa tasks p u q) := by
  -- each step exchanges its task for edges or smaller tasks that read the same words
  fun_induction buildAll tasks nfa with
  | case1 nfa => exact ⟨hnfa, Nat.le_refl _, fun p q u _ _ => route_nil_iff.symm⟩
  | case2 nfa s i j rest ih =>
    obtain ⟨⟨hi, hj⟩, hrest⟩ := tasksInRange_cons.mp htasks
    obtain ⟨hrange, hsize, hruns⟩ :=
      ih (hnfa.addEdge hi hj s) (hrest.mono (by rw [size_addEdge]))
    rw [size_addEdge] at hsize hruns
    exact ⟨hrange, hsize, fun p q u hp hq => (hruns p q u hp hq).trans (route_addEdge_iff hi)⟩
  | case3 nfa i j rest ih =>
    obtain ⟨⟨hi, hj⟩, hrest⟩ := tasksInRange_cons.mp htasks
    obtain ⟨hrange, hsize, hruns⟩ :=
      ih (hnfa.addDirect hi hj) (hrest.mono (by rw [size_addDirect]))
    rw [size_addDirect] at hsize hruns
    exact ⟨hrange, hsize, fun p q u hp hq => (hruns p q u hp hq).trans (route_addDirect_iff hi)⟩
  | case4 nfa l r i j rest ih =>
    obtain ⟨⟨hi, hj⟩, hrest⟩ := tasksInRange_cons.mp htasks
    obtain ⟨hrange, hsize, hruns⟩ := ih hnfa (tasksInRange_cons.mpr
      ⟨⟨hi, hj⟩, tasksInRange_cons.mpr ⟨⟨hi, hj⟩, hrest⟩⟩)
    exact ⟨hrange, hsize, fun p q u hp hq => (hruns p q u hp hq).trans route_alternate_iff⟩
  | case5 nfa l r i j rest middle ih =>
    obtain ⟨⟨hi, hj⟩, hrest⟩ := tasksInRange_cons.mp htasks
    have hle : nfa.size ≤ nfa.addState.size := by rw [size_addState]; omega
    have hmiddle : nfa.size < nfa.addState.size := by rw [size_addState]; omega
    obtain ⟨hrange, hsize, hruns⟩ := ih hnfa.addState (tasksInRange_cons.mpr
      ⟨⟨Nat.lt_of_lt_of_le hi hle, hmiddle⟩,
        tasksInRange_cons.mpr ⟨⟨hmiddle, Nat.lt_of_lt_of_le hj hle⟩, hrest.mono hle⟩⟩)
    refine ⟨hrange, Nat.le_trans hle hsize, fun p q u hp hq => ?_⟩
    exact (hruns p q u (Nat.lt_of_lt_of_le hp hle) (Nat.lt_of_lt_of_le hq hle)).trans
      (route_concat_iff hnfa hi hj hrest hp hq)
  | case6 nfa t i j rest entry body ih =>
    obtain ⟨⟨hi, hj⟩, hrest⟩ := tasksInRange_cons.mp htasks
    have hle : nfa.size ≤ (nfa.withClosure i j).size := by rw [size_withClosure]; omega
    have hbody : body < (nfa.withClosure i j).size := by rw [size_withClosure]; omega
    have hentry : entry < (nfa.withClosure i j).size := by rw [size_withClosure]; omega
    obtain ⟨hrange, hsize, hruns⟩ := ih (hnfa.withClosure hi hj)
      (tasksInRange_cons.mpr ⟨⟨hbody, hentry⟩, hrest.mono hle⟩)
    refine ⟨hrange, Nat.le_trans hle hsize, fun p q u hp hq => ?_⟩
    exact (hruns p q u (Nat.lt_of_lt_of_le hp hle) (Nat.lt_of_lt_of_le hq hle)).trans
      (route_closure_iff hnfa hi hj hrest hp hq)

theorem tasksInRange_start (t : Tree) : TasksInRange bare [⟨t, initial, final⟩] := by
  intro task ht
  rw [List.mem_singleton.mp ht]
  show initial < bare.size ∧ final < bare.size
  decide

/-- Before the first step the only way is the task of the whole tree. -/
theorem route_start_iff {t : Tree} {u : List Symbol} :
    Route bare [⟨t, initial, final⟩] initial u final ↔ u ∈ t.words := by
  have hhop : ∀ p v q, Hop bare [⟨t, initial, final⟩] p v q →
      p = initial ∧ q = final ∧ v ∈ t.words := by
    intro p v q h
    cases h with
    | direct h => simp at h
    | read h => simp at h
    | task h hv =>
      cases List.mem_singleton.mp h
      exact ⟨rfl, rfl, hv⟩
  constructor
  · intro h
    cases h with
    | cons hop route =>
      obtain ⟨-, rfl, hv⟩ := hhop _ _ _ hop
      cases route with
      | nil => rwa [List.append_nil]
      | cons hop' _ => exact absurd (hhop _ _ _ hop').1 (by decide)
  · intro hu
    exact (Hop.task List.mem_cons_self hu).route

theorem inRange_ofTree (t : Tree) : (ofTree t).InRange :=
  (buildAll_spec _ _ inRange_bare (tasksInRange_start t)).1

theorem two_le_size_ofTree (t : Tree) : 2 ≤ (ofTree t).size :=
  (buildAll_spec _ _ inRange_bare (tasksInRange_start t)).2.1

/-- **The accepting runs of the automaton of a tree read exactly the words of the tree.** -/
theorem run_ofTree_iff {t : Tree} {u : List Symbol} :
    Run (ofTree t) initial u final ↔ u ∈ t.words := by
  rw [← route_start_iff]
  exact (buildAll_spec _ _ inRange_bare (tasksInRange_start t)).2.2 initial final u (by decide)
    (by decide)

end ActionRegex.Nfa
