import ActionRegex.Dfa.Numbering
import ActionRegex.Proofs.Arrays
import ActionRegex.Proofs.Ascending
import ActionRegex.Proofs.DepthFirst

/-!
# What numbering keeps

The states that can be reached are numbered in the order of a search, which is closed under
transitions: every target gets a number. So numbering fails only if a transition on an action can be
reached (`isSome_ofSymbolDfa?_iff`). A state of the result stands for a state before
(`Stands`), with the same acceptance and the same transitions on bytes.
-/

namespace ActionRegex.Dfa

open Ascending (AscendingKeys)
open Relation (ReflTransGen)

variable {source : SymbolDfa} {dfa : Dfa}

/-- Some transition leads from one state to another. -/
def Leads (source : SymbolDfa) (id id' : Nat) : Prop :=
  ∃ entry ∈ (source.state id).transitions, entry.2.target = id'

/-- Transitions lead to states, one per symbol. -/
structure Closed (source : SymbolDfa) : Prop where
  size_pos : 0 < source.size
  target_lt : ∀ id, ∀ entry ∈ (source.state id).transitions, entry.2.target < source.size
  keys : ∀ id, AscendingKeys (source.state id).transitions

/-! ## The order -/

theorem mem_order_iff (h : Closed source) {id : Nat} :
    id ∈ order source ↔ ReflTransGen (Leads source) 0 id := by
  have hstart : ∀ s ∈ [initial], s < source.size := by simpa [initial] using h.size_pos
  rw [order, DepthFirst.mem_search_iff hstart]
  · simp only [List.mem_singleton, exists_eq_left, List.mem_map]
    exact Iff.rfl
  · intro a _ b hb
    obtain ⟨entry, hentry, rfl⟩ := List.mem_map.mp hb
    exact h.target_lt a entry hentry

/-- **Every target of a numbered state is numbered.** -/
theorem target_mem_order (h : Closed source) {id : Nat} (hid : id ∈ order source)
    {entry : Symbol × SymbolDfa.Transition} (hentry : entry ∈ (source.state id).transitions) :
    entry.2.target ∈ order source :=
  DepthFirst.search_closed hid (List.mem_map.mpr ⟨entry, hentry, rfl⟩) (h.target_lt id entry hentry)

/-- Only states are numbered. -/
theorem lt_size_of_mem_order (h : Closed source) {id : Nat} (hid : id ∈ order source) :
    id < source.size := by
  cases (mem_order_iff h).mp hid with
  | refl => exact h.size_pos
  | tail _ hstep =>
    obtain ⟨entry, hentry, rfl⟩ := hstep
    exact h.target_lt _ entry hentry

theorem exists_idxOf?_of_mem {numbers : List Nat} {id : Nat} (h : id ∈ numbers) :
    ∃ i, numbers.idxOf? id = some i ∧ numbers[i]? = some id := by
  obtain ⟨i, hi⟩ := Option.isSome_iff_exists.mp (List.isSome_idxOf?.mpr h)
  obtain ⟨hlt, heq, -⟩ := List.findIdx?_eq_some_iff_getElem.mp hi
  refine ⟨i, hi, ?_⟩
  rw [List.getElem?_eq_getElem hlt, eq_of_beq heq]

/-- **Numbering succeeds unless a transition on an action can be reached.** -/
theorem isSome_ofSymbolDfa?_iff (h : Closed source) :
    (ofSymbolDfa? source).isSome = true ↔
      ∀ id ∈ order source, ∀ entry ∈ (source.state id).transitions, entry.1.isAction = false := by
  rw [ofSymbolDfa?, Option.isSome_map, Arrays.isSome_mapM_iff]
  refine forall_congr' fun id => forall_congr' fun hid => ?_
  rw [numberState?, Option.isSome_map, Arrays.isSome_mapM_iff]
  refine forall_congr' fun entry => forall_congr' fun hentry => ?_
  obtain ⟨i, hi, -⟩ := exists_idxOf?_of_mem (target_mem_order h hid hentry)
  obtain ⟨s, t⟩ := entry
  cases s with
  | byte b =>
    rw [numberTransition?, Option.isSome_map, hi]
    simp [Symbol.isAction]
  | action a => simp [numberTransition?, Symbol.isAction]

/-! ## The states of the result -/

/-- A state of the result stands for a state before numbering. -/
def Stands (source : SymbolDfa) (i id : Nat) : Prop := (order source)[i]? = some id

theorem stands_zero (h : Closed source) : Stands source 0 0 := by
  rw [Stands, ← List.head?_eq_getElem?]
  exact DepthFirst.head?_search h.size_pos

/-- The transition on a byte after numbering. -/
theorem get?_of_numbered {numbers : List Nat} {entries : List (Symbol × SymbolDfa.Transition)}
    {numbered : List (UInt8 × Transition)}
    (h : List.Forall₂ (fun e e' => numberTransition? source numbers e = some e') entries numbered)
    (b : UInt8) :
    Ascending.get? b numbered = (Ascending.get? (.byte b) entries).bind fun t =>
      (numbers.idxOf? t.target).map fun target =>
        ⟨target, Ascending.union t.actions (source.state t.target).entry,
          (source.state t.target).accept⟩ := by
  induction h with
  | nil => rfl
  | @cons e e' _ _ he _ ih =>
    obtain ⟨s, t⟩ := e
    cases s with
    | action a => simp [numberTransition?] at he
    | byte b' =>
      rw [numberTransition?, Option.map_eq_some_iff] at he
      obtain ⟨target, htarget, rfl⟩ := he
      rw [Ascending.get?, Ascending.get?]
      by_cases hb : b = b'
      · rw [if_pos hb, if_pos (by rw [hb]), Option.bind_some, htarget]
        rfl
      · rw [if_neg hb, if_neg (by simpa using hb)]
        exact ih

/-- The state of the result that stands for a state, in terms of the latter. -/
theorem numberState?_of_stands (h : ofSymbolDfa? source = some dfa) {i id : Nat}
    (hstands : Stands source i id) :
    numberState? source (order source) id = some (dfa.state i) ∧ i < dfa.size := by
  rw [ofSymbolDfa?, Option.map_eq_some_iff] at h
  obtain ⟨states, hstates, rfl⟩ := h
  have hall := Arrays.mapM_eq_some_iff.mp hstates
  obtain ⟨hlt, hget⟩ := List.getElem?_eq_some_iff.mp hstands
  have hlt' : i < states.length := hall.length_eq ▸ hlt
  have hnumber := hall.get hlt hlt'
  rw [List.get_eq_getElem, hget] at hnumber
  refine ⟨hnumber.trans ?_, by simpa [size] using hlt'⟩
  simp [state, Array.getD_eq_getD_getElem?, hlt']

theorem accept_of_stands (h : ofSymbolDfa? source = some dfa) {i id : Nat}
    (hstands : Stands source i id) : (dfa.state i).accept = (source.state id).accept := by
  obtain ⟨hnumber, -⟩ := numberState?_of_stands h hstands
  rw [numberState?, Option.map_eq_some_iff] at hnumber
  obtain ⟨transitions, -, heq⟩ := hnumber
  rw [← heq]

theorem on?_of_stands (h : ofSymbolDfa? source = some dfa) {i id : Nat}
    (hstands : Stands source i id) (b : UInt8) :
    (dfa.state i).on? b = (Ascending.get? (.byte b) (source.state id).transitions).bind fun t =>
      ((order source).idxOf? t.target).map fun target =>
        ⟨target, Ascending.union t.actions (source.state t.target).entry,
          (source.state t.target).accept⟩ := by
  obtain ⟨hnumber, -⟩ := numberState?_of_stands h hstands
  rw [numberState?, Option.map_eq_some_iff] at hnumber
  obtain ⟨transitions, htransitions, heq⟩ := hnumber
  rw [← heq]
  exact get?_of_numbered (Arrays.mapM_eq_some_iff.mp htransitions) b

theorem exists_stands (h : ofSymbolDfa? source = some dfa) {i : Nat} (hi : i < dfa.size) :
    ∃ id, Stands source i id := by
  rw [ofSymbolDfa?, Option.map_eq_some_iff] at h
  obtain ⟨states, hstates, rfl⟩ := h
  have hlength := (Arrays.mapM_eq_some_iff.mp hstates).length_eq
  have hlt : i < (order source).length := by simpa [size, hlength] using hi
  exact ⟨_, List.getElem?_eq_getElem hlt⟩

/-- A transition of the result comes from one on the same byte. -/
theorem exists_of_on? (hclosed : Closed source) (h : ofSymbolDfa? source = some dfa) {i id : Nat}
    (hstands : Stands source i id) {b : UInt8} {tr : Transition}
    (hon : (dfa.state i).on? b = some tr) :
    ∃ t, (.byte b, t) ∈ (source.state id).transitions ∧ Stands source tr.target t.target ∧
      tr.actions = Ascending.union t.actions (source.state t.target).entry := by
  rw [on?_of_stands h hstands, Option.bind_eq_some_iff] at hon
  obtain ⟨t, ht, hmap⟩ := hon
  have hmem := Ascending.mem_of_get? ht
  obtain ⟨i', hi', hget⟩ := exists_idxOf?_of_mem
    (target_mem_order hclosed (List.mem_of_getElem? hstands) hmem)
  rw [hi', Option.map_some, Option.some.injEq] at hmap
  rw [← hmap]
  exact ⟨t, hmem, hget, rfl⟩

/-- Every transition of the result leads to one of its states, so not to the rejecting one. -/
theorem target_lt_size (hclosed : Closed source) (h : ofSymbolDfa? source = some dfa) {i : Nat}
    {b : UInt8} {tr : Transition} (hon : (dfa.state i).on? b = some tr) : tr.target < dfa.size := by
  by_cases hi : i < dfa.size
  · obtain ⟨id, hstands⟩ := exists_stands h hi
    obtain ⟨t, -, htarget, -⟩ := exists_of_on? hclosed h hstands hon
    exact (numberState?_of_stands h htarget).2
  · rw [state, Arrays.getD_of_size_le (Nat.le_of_not_lt hi)] at hon
    simp [State.on?, Ascending.get?] at hon

/-- A transition of the result knows whether its target accepts. -/
theorem accept_of_on? (hclosed : Closed source) (h : ofSymbolDfa? source = some dfa) {i id : Nat}
    (hstands : Stands source i id) {b : UInt8} {tr : Transition}
    (hon : (dfa.state i).on? b = some tr) : tr.accept = (dfa.state tr.target).accept := by
  rw [on?_of_stands h hstands, Option.bind_eq_some_iff] at hon
  obtain ⟨t, ht, hmap⟩ := hon
  obtain ⟨i', hi', hget⟩ := exists_idxOf?_of_mem
    (target_mem_order hclosed (List.mem_of_getElem? hstands) (Ascending.mem_of_get? ht))
  rw [hi', Option.map_some, Option.some.injEq] at hmap
  rw [← hmap]
  exact (accept_of_stands h hget).symm

theorem exists_on?_of_mem (hclosed : Closed source) (h : ofSymbolDfa? source = some dfa)
    {i id : Nat} (hstands : Stands source i id) {b : UInt8} {t : SymbolDfa.Transition}
    (hmem : (.byte b, t) ∈ (source.state id).transitions) :
    ∃ tr, (dfa.state i).on? b = some tr ∧ Stands source tr.target t.target := by
  obtain ⟨i', hi', hget⟩ := exists_idxOf?_of_mem
    (target_mem_order hclosed (List.mem_of_getElem? hstands) hmem)
  refine ⟨⟨i', Ascending.union t.actions (source.state t.target).entry,
    (source.state t.target).accept⟩, ?_, hget⟩
  rw [on?_of_stands h hstands, (Ascending.get?_eq_some_iff (hclosed.keys id)).mpr hmem,
    Option.bind_some, hi']
  rfl

/-! ## The result as a whole -/

/-- A transition keeps its byte. -/
theorem fst_of_numberTransition? {numbers : List Nat} {e : Symbol × SymbolDfa.Transition}
    {e' : UInt8 × Transition} (h : numberTransition? source numbers e = some e') :
    e.1 = .byte e'.1 := by
  obtain ⟨s, t⟩ := e
  cases s with
  | action a => simp [numberTransition?] at h
  | byte b =>
    rw [numberTransition?, Option.map_eq_some_iff] at h
    obtain ⟨target, -, rfl⟩ := h
    rfl

theorem ascendingKeys_of_numbered {numbers : List Nat}
    {entries : List (Symbol × SymbolDfa.Transition)} {numbered : List (UInt8 × Transition)}
    (h : List.Forall₂ (fun e e' => numberTransition? source numbers e = some e') entries numbered)
    (hkeys : AscendingKeys entries) : AscendingKeys numbered := by
  induction h with
  | nil => exact List.Pairwise.nil
  | cons he hrest ih =>
    obtain ⟨hfirst, hkeys⟩ := Ascending.ascendingKeys_cons.mp hkeys
    refine Ascending.ascendingKeys_cons.mpr ⟨fun x' hx' => ?_, ih hkeys⟩
    obtain ⟨x, hx, hnumber⟩ := Arrays.exists_left_of_forall₂ hrest hx'
    have hlt := hfirst x hx
    rw [fst_of_numberTransition? he, fst_of_numberTransition? hnumber] at hlt
    exact UInt8.lt_iff_toNat_lt.mpr hlt

/-- Every transition leads to a state and knows whether that state accepts, and there is one per
byte. -/
structure WellFormed (dfa : Dfa) : Prop where
  size_pos : 0 < dfa.size
  keys : ∀ id, AscendingKeys (dfa.state id).transitions
  target_lt : ∀ id b tr, (dfa.state id).on? b = some tr → tr.target < dfa.size
  accept : ∀ id b tr, (dfa.state id).on? b = some tr → tr.accept = (dfa.state tr.target).accept

/-- **Numbering gives a well-formed automaton.** -/
theorem wellFormed_of_ofSymbolDfa? (hclosed : Closed source) (h : ofSymbolDfa? source = some dfa) :
    WellFormed dfa where
  size_pos := (numberState?_of_stands h (stands_zero hclosed)).2
  keys id := by
    by_cases hid : id < dfa.size
    · obtain ⟨old, hstands⟩ := exists_stands h hid
      obtain ⟨hnumber, -⟩ := numberState?_of_stands h hstands
      rw [numberState?, Option.map_eq_some_iff] at hnumber
      obtain ⟨transitions, htransitions, heq⟩ := hnumber
      rw [← heq]
      exact ascendingKeys_of_numbered (Arrays.mapM_eq_some_iff.mp htransitions) (hclosed.keys old)
    · rw [state, Arrays.getD_of_size_le (Nat.le_of_not_lt hid)]
      exact List.Pairwise.nil
  target_lt _ _ _ hon := target_lt_size hclosed h hon
  accept id b tr hon := by
    by_cases hid : id < dfa.size
    · obtain ⟨old, hstands⟩ := exists_stands h hid
      exact accept_of_on? hclosed h hstands hon
    · rw [state, Arrays.getD_of_size_le (Nat.le_of_not_lt hid)] at hon
      simp [State.on?, Ascending.get?] at hon

end ActionRegex.Dfa
