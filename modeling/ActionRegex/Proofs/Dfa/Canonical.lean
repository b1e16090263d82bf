import ActionRegex.Proofs.Dfa.Numbering

/-!
# The order of states is canonical

Numbering gives the states that can be reached, in the preorder of the recursive depth-first
traversal along ascending symbols (`traverses_targets_iff`), and renumbers each transition as it
stands (`Renumbers`). The numbers of the states before do not matter: a traversal is the same under
other names, so automata whose reachable parts are isomorphic become one and the same automaton
(`ofSymbolDfa?_eq_of_isomorphism`).
-/

namespace ActionRegex.Dfa

open Ascending (AscendingKeys)
open DepthFirst (Traverses)
open Relation (ReflTransGen)

variable {source other : SymbolDfa} {dfa : Dfa}

/-! ## The order as a traversal -/

/-- The targets of a state's transitions, in the order of their symbols. -/
def targets (source : SymbolDfa) (id : Nat) : List Nat :=
  (source.state id).transitions.map fun entry => entry.2.target

theorem mem_targets_iff {id id' : Nat} : id' ∈ targets source id ↔ Leads source id id' :=
  List.mem_map

/-- **The states are numbered as a recursive traversal finds them.** -/
theorem traverses_targets_iff (h : Closed source) {visited : List Nat} :
    Traverses (targets source) [initial] [] visited ↔ visited = order source := by
  have hnext : ∀ a, a < source.size → ∀ b ∈ targets source a, b < source.size := by
    intro a _ b hb
    obtain ⟨entry, hentry, rfl⟩ := mem_targets_iff.mp hb
    exact h.target_lt a entry hentry
  have hstart : ∀ s ∈ [initial], s < source.size := by
    intro s hs
    rw [List.mem_singleton.mp hs]
    exact h.size_pos
  exact DepthFirst.traverses_search_iff hnext hstart

/-! ## The result, transition by transition -/

/-- A transition on a byte becomes one on the same byte. It leads to the new number of its target,
knows whether the state of that number accepts, and has the actions of its target's entry besides
its own. -/
structure NumbersTransition (source : SymbolDfa) (numbers : List Nat) (dfa : Dfa)
    (old : Symbol × SymbolDfa.Transition) (new : UInt8 × Transition) : Prop where
  byte : old.1 = .byte new.1
  target : numbers[new.2.target]? = some old.2.target
  accept : new.2.accept = (dfa.state new.2.target).accept
  actions : new.2.actions = Ascending.union old.2.actions (source.state old.2.target).entry

/-- An automaton consists of the states with the given numbers, in their order. -/
structure Renumbers (source : SymbolDfa) (numbers : List Nat) (dfa : Dfa) : Prop where
  size : dfa.size = numbers.length
  accept : ∀ i id, numbers[i]? = some id → (dfa.state i).accept = (source.state id).accept
  transitions : ∀ i id, numbers[i]? = some id → List.Forall₂ (NumbersTransition source numbers dfa)
    (source.state id).transitions (dfa.state i).transitions

theorem numbersTransition_of_numberTransition? (h : ofSymbolDfa? source = some dfa)
    {old : Symbol × SymbolDfa.Transition} {new : UInt8 × Transition}
    (hnew : numberTransition? source (order source) old = some new) :
    NumbersTransition source (order source) dfa old new := by
  obtain ⟨s, t⟩ := old
  cases s with
  | action a => simp [numberTransition?] at hnew
  | byte b =>
    rw [numberTransition?, Option.map_eq_some_iff] at hnew
    obtain ⟨target, htarget, rfl⟩ := hnew
    have hmem : t.target ∈ order source := by
      rw [← List.isSome_idxOf?, htarget]
      rfl
    obtain ⟨i, hi, hstands⟩ := exists_idxOf?_of_mem hmem
    obtain rfl : target = i := Option.some.inj (htarget.symm.trans hi)
    exact ⟨rfl, hstands, (accept_of_stands h hstands).symm, rfl⟩

/-- **Numbering changes the numbers of states and nothing else.** -/
theorem renumbers_of_ofSymbolDfa? (h : ofSymbolDfa? source = some dfa) :
    Renumbers source (order source) dfa where
  size := by
    rw [ofSymbolDfa?, Option.map_eq_some_iff] at h
    obtain ⟨states, hstates, rfl⟩ := h
    exact (Arrays.mapM_eq_some_iff.mp hstates).length_eq.symm
  accept _ _ hstands := accept_of_stands h hstands
  transitions i id hstands := by
    obtain ⟨hnumber, -⟩ := numberState?_of_stands h hstands
    rw [numberState?, Option.map_eq_some_iff] at hnumber
    obtain ⟨transitions, htransitions, heq⟩ := hnumber
    rw [← heq]
    refine (Arrays.mapM_eq_some_iff.mp htransitions).imp ?_
    intro old new hnew
    exact numbersTransition_of_numberTransition? h hnew

/-! ## Other numbers before -/

/-- The parts of two automata that can be reached are the same but for the numbers of the states:
`f` gives the number in the second automaton. -/
structure Isomorphism (f : Nat → Nat) (source other : SymbolDfa) : Prop where
  bijOn : Set.BijOn f {id | ReflTransGen (Leads source) 0 id} {id | ReflTransGen (Leads other) 0 id}
  initial : f initial = initial
  accept : ∀ id, ReflTransGen (Leads source) 0 id →
    (other.state (f id)).accept = (source.state id).accept
  entry : ∀ id, ReflTransGen (Leads source) 0 id →
    (other.state (f id)).entry = (source.state id).entry
  transitions : ∀ id, ReflTransGen (Leads source) 0 id → ∀ s,
    Ascending.get? s (other.state (f id)).transitions =
      (Ascending.get? s (source.state id).transitions).map fun t => { t with target := f t.target }

/-- A transition with another number for its target. -/
def retarget (f : Nat → Nat) (entry : Symbol × SymbolDfa.Transition) :
    Symbol × SymbolDfa.Transition :=
  (entry.1, { entry.2 with target := f entry.2.target })

theorem get?_map_retarget (f : Nat → Nat) (s : Symbol)
    (entries : List (Symbol × SymbolDfa.Transition)) :
    Ascending.get? s (entries.map (retarget f)) =
      (Ascending.get? s entries).map fun t => { t with target := f t.target } := by
  induction entries with
  | nil => rfl
  | cons entry rest ih =>
    rw [List.map_cons, retarget, Ascending.get?, Ascending.get?]
    by_cases hs : s = entry.1
    · rw [if_pos hs, if_pos hs]
      rfl
    · rw [if_neg hs, if_neg hs]
      exact ih

theorem idxOf?_map {f : Nat → Nat} {numbers : List Nat} {id : Nat}
    (hinj : ∀ x ∈ numbers, f x = f id → x = id) :
    (numbers.map f).idxOf? (f id) = numbers.idxOf? id := by
  induction numbers with
  | nil => rfl
  | cons x rest ih =>
    obtain ⟨hx, hrest⟩ := List.forall_mem_cons.mp hinj
    rw [List.map_cons, List.idxOf?_cons, List.idxOf?_cons, ih hrest]
    by_cases hid : x = id
    · rw [hid, if_pos (beq_self_eq_true _), if_pos (beq_self_eq_true _)]
    · rw [if_neg fun heq => hid (hx (eq_of_beq heq)), if_neg fun heq => hid (eq_of_beq heq)]

namespace Isomorphism

variable {f : Nat → Nat}

/-- The transitions of a state as a list. -/
theorem transitions_eq (h : Isomorphism f source other) (hsource : Closed source)
    (hother : Closed other) {id : Nat} (hid : ReflTransGen (Leads source) 0 id) :
    (other.state (f id)).transitions = (source.state id).transitions.map (retarget f) := by
  have hkeys : AscendingKeys ((source.state id).transitions.map (retarget f)) :=
    (hsource.keys id).map fun _ => rfl
  refine (hother.keys (f id)).ext hkeys fun s => ?_
  rw [h.transitions id hid, get?_map_retarget]

/-- **The order under other numbers** is the same order. -/
theorem order_eq (h : Isomorphism f source other) (hsource : Closed source)
    (hother : Closed other) : order other = (order source).map f := by
  have htraverses : Traverses (targets source) [Dfa.initial] [] (order source) :=
    (traverses_targets_iff hsource).mpr rfl
  have hnext : ∀ a, ReflTransGen (Leads source) 0 a → targets other (f a) =
      (targets source a).map f := by
    intro a ha
    rw [targets, targets, h.transitions_eq hsource hother ha, List.map_map, List.map_map]
    rfl
  have hclosed : ∀ a, ReflTransGen (Leads source) 0 a → ∀ b ∈ targets source a,
      ReflTransGen (Leads source) 0 b := by
    intro a ha b hb
    exact ha.tail (mem_targets_iff.mp hb)
  have hinj : ∀ a b, ReflTransGen (Leads source) 0 a → ReflTransGen (Leads source) 0 b →
      f a = f b → a = b := fun _ _ ha hb heq => h.bijOn.injOn ha hb heq
  have hstart : ∀ x ∈ [Dfa.initial], ReflTransGen (Leads source) 0 x := by
    intro x hx
    rw [List.mem_singleton.mp hx]
    exact .refl
  obtain ⟨hmapped, -⟩ := htraverses.map hclosed hnext hinj hstart (by simp)
  rw [List.map_singleton, h.initial, List.map_nil] at hmapped
  exact ((traverses_targets_iff hother).mp hmapped).symm

theorem numberTransition?_eq (h : Isomorphism f source other) (hsource : Closed source)
    {id : Nat} (hid : ReflTransGen (Leads source) 0 id)
    {entry : Symbol × SymbolDfa.Transition} (hentry : entry ∈ (source.state id).transitions) :
    numberTransition? other ((order source).map f) (retarget f entry) =
      numberTransition? source (order source) entry := by
  have htarget : ReflTransGen (Leads source) 0 entry.2.target := hid.tail ⟨entry, hentry, rfl⟩
  have hinj : ∀ x ∈ order source, f x = f entry.2.target → x = entry.2.target := fun x hx heq =>
    h.bijOn.injOn ((mem_order_iff hsource).mp hx) htarget heq
  obtain ⟨s, t⟩ := entry
  cases s with
  | action a => rfl
  | byte b =>
    simp only [retarget, numberTransition?, idxOf?_map hinj, h.entry _ htarget, h.accept _ htarget]

theorem numberState?_eq (h : Isomorphism f source other) (hsource : Closed source)
    (hother : Closed other) {id : Nat} (hid : ReflTransGen (Leads source) 0 id) :
    numberState? other ((order source).map f) (f id) =
      numberState? source (order source) id := by
  have hmap : ((source.state id).transitions.map (retarget f)).mapM
      (numberTransition? other ((order source).map f)) =
      (source.state id).transitions.mapM (numberTransition? source (order source)) :=
    Arrays.mapM_map_congr fun _ hentry => h.numberTransition?_eq hsource hid hentry
  rw [numberState?, numberState?, h.transitions_eq hsource hother hid, hmap, h.accept id hid]

end Isomorphism

/-- **Automata whose reachable parts are isomorphic become the same automaton.** -/
theorem ofSymbolDfa?_eq_of_isomorphism {f : Nat → Nat} (h : Isomorphism f source other)
    (hsource : Closed source) (hother : Closed other) :
    ofSymbolDfa? other = ofSymbolDfa? source := by
  have hmap : ((order source).map f).mapM (numberState? other ((order source).map f)) =
      (order source).mapM (numberState? source (order source)) :=
    Arrays.mapM_map_congr fun _ hid =>
      h.numberState?_eq hsource hother ((mem_order_iff hsource).mp hid)
  rw [ofSymbolDfa?, ofSymbolDfa?, h.order_eq hsource hother, hmap]

/-! ## The whole -/

/-- **Numbering is canonical.** If no transition on an action can be reached, it succeeds. Its order
is the only preorder of a depth-first traversal from the initial state along ascending symbols,
which has every state that can be reached, once; the result consists of these states in that order;
and every automaton whose reachable part is isomorphic has the same result. A folding is closed
(`Folded.closed`). -/
theorem ofSymbolDfa?_canonical (hclosed : Closed source)
    (hbytes : ∀ id, ReflTransGen (Leads source) 0 id →
      ∀ entry ∈ (source.state id).transitions, entry.1.isAction = false) :
    ∃ dfa numbers, ofSymbolDfa? source = some dfa ∧
      (∀ visited, Traverses (targets source) [initial] [] visited ↔ visited = numbers) ∧
      numbers.Nodup ∧ (∀ id, id ∈ numbers ↔ ReflTransGen (Leads source) 0 id) ∧
      Renumbers source numbers dfa ∧
      ∀ other f, Closed other → Isomorphism f source other → ofSymbolDfa? other = some dfa := by
  have hsome : (ofSymbolDfa? source).isSome = true := by
    refine (isSome_ofSymbolDfa?_iff hclosed).mpr fun id hid => ?_
    exact hbytes id ((mem_order_iff hclosed).mp hid)
  obtain ⟨dfa, hdfa⟩ := Option.isSome_iff_exists.mp hsome
  refine ⟨dfa, order source, hdfa, fun _ => traverses_targets_iff hclosed,
    DepthFirst.nodup_search _, fun _ => mem_order_iff hclosed, renumbers_of_ofSymbolDfa? hdfa, ?_⟩
  intro other f hother h
  rw [ofSymbolDfa?_eq_of_isomorphism h hclosed hother, hdfa]

theorem closed_of_forall {states : Array SymbolDfa.State} (hsize : 0 < states.size)
    (h : ∀ s ∈ states.toList, (∀ entry ∈ s.transitions, entry.2.target < states.size) ∧
      AscendingKeys s.transitions) : Closed ⟨states⟩ := by
  have hstate : ∀ id, SymbolDfa.state ⟨states⟩ id ∈ states.toList ∨
      SymbolDfa.state ⟨states⟩ id = {} := by
    intro id
    by_cases hid : id < states.size
    · left
      rw [SymbolDfa.state, Array.getD_eq_getD_getElem?, Array.getElem?_eq_getElem hid]
      exact Array.getElem_mem_toList hid
    · right
      exact Arrays.getD_of_size_le (Nat.le_of_not_lt hid) _
  refine ⟨hsize, fun id => ?_, fun id => ?_⟩
  · rcases hstate id with hmem | hnone
    · exact (h _ hmem).1
    · simp [hnone]
  · rcases hstate id with hmem | hnone
    · exact (h _ hmem).2
    · rw [hnone]
      exact List.Pairwise.nil

/-- Two states that lead to each other and to themselves, and one that leads to the initial state by
an action but can't be reached. The first byte leads past the first of them. -/
def crossedDfa : SymbolDfa where
  states := #[
    { transitions := [(.byte 97, ⟨2, [4]⟩), (.byte 98, ⟨1, []⟩)] },
    { accept := true, transitions := [(.byte 97, ⟨1, [5]⟩)], entry := [7] },
    { transitions := [(.byte 98, ⟨0, [3]⟩), (.byte 99, ⟨1, []⟩)], entry := [2] },
    { transitions := [(.action 0, ⟨0, []⟩)] }]

/-- The same automaton with its states in order. -/
def straightDfa : SymbolDfa where
  states := #[
    { transitions := [(.byte 97, ⟨1, [4]⟩), (.byte 98, ⟨2, []⟩)] },
    { transitions := [(.byte 98, ⟨0, [3]⟩), (.byte 99, ⟨2, []⟩)], entry := [2] },
    { accept := true, transitions := [(.byte 97, ⟨2, [5]⟩)], entry := [7] }]

/-- Exchanges the two states behind the initial one. -/
def cross (id : Nat) : Nat := if id = 1 then 2 else if id = 2 then 1 else id

theorem canonical_crossedDfa : Closed crossedDfa ∧ Isomorphism cross crossedDfa straightDfa ∧
    ∃ dfa numbers, ofSymbolDfa? crossedDfa = some dfa ∧ ofSymbolDfa? straightDfa = some dfa ∧
      (∀ visited, Traverses (targets crossedDfa) [initial] [] visited ↔ visited = numbers) ∧
      Renumbers crossedDfa numbers dfa := by
  have hcrossed : Closed crossedDfa := closed_of_forall (by decide) (by decide)
  have hstraight : Closed straightDfa := closed_of_forall (by decide) (by decide)
  have hreach : ∀ id, ReflTransGen (Leads crossedDfa) 0 id ↔ id ∈ [0, 2, 1] := by
    intro id
    rw [← mem_order_iff hcrossed, show order crossedDfa = [0, 2, 1] by cbv]
  have hreach' : ∀ id, ReflTransGen (Leads straightDfa) 0 id ↔ id ∈ [0, 1, 2] := by
    intro id
    rw [← mem_order_iff hstraight, show order straightDfa = [0, 1, 2] by cbv]
  have hbytes : ∀ id, ReflTransGen (Leads crossedDfa) 0 id →
      ∀ entry ∈ (crossedDfa.state id).transitions, entry.1.isAction = false := by
    simp only [hreach]
    decide
  have hbij : Set.BijOn cross {id | ReflTransGen (Leads crossedDfa) 0 id}
      {id | ReflTransGen (Leads straightDfa) 0 id} := by
    simp only [hreach, hreach']
    refine ⟨?_, ?_, ?_⟩
    · show ∀ id ∈ [0, 2, 1], cross id ∈ [0, 1, 2]
      decide
    · show ∀ id ∈ [0, 2, 1], ∀ id' ∈ [0, 2, 1], cross id = cross id' → id = id'
      decide
    · show ∀ id ∈ [0, 1, 2], ∃ id' ∈ [0, 2, 1], cross id' = id
      decide
  have htransitions : ∀ id ∈ [0, 2, 1], (straightDfa.state (cross id)).transitions =
      (crossedDfa.state id).transitions.map (retarget cross) := by decide
  have hiso : Isomorphism cross crossedDfa straightDfa := by
    refine ⟨hbij, rfl, ?_, ?_, fun id hid s => ?_⟩
    · simp only [hreach]
      decide
    · simp only [hreach]
      decide
    · rw [htransitions id ((hreach id).mp hid), get?_map_retarget]
  obtain ⟨dfa, numbers, hdfa, htraverses, -, -, hrenumbers, hunique⟩ :=
    ofSymbolDfa?_canonical hcrossed hbytes
  exact ⟨hcrossed, hiso, dfa, numbers, hdfa, hunique _ _ hstraight hiso, htraverses, hrenumbers⟩

end ActionRegex.Dfa
