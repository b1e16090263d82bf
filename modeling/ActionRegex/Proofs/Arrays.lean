import Mathlib.Data.List.Forall2

/-!
# Arrays of states

Automata keep their states in arrays and look a state up with a default, the state without edges.
What a lookup finds after a state was added or changed, and how lists relate that are made from one
another entry by entry.
-/

namespace ActionRegex.Arrays

variable {α β : Type}

theorem getD_of_size_le {states : Array α} {i : Nat} (h : states.size ≤ i) (default : α) :
    states.getD i default = default := by
  rw [Array.getD_eq_getD_getElem?, Array.getElem?_eq_none h]
  rfl

theorem getD_push (states : Array α) (last default : α) (i : Nat) :
    (states.push last).getD i default =
      if i = states.size then last else states.getD i default := by
  rw [Array.getD_eq_getD_getElem?, Array.getD_eq_getD_getElem?, Array.getElem?_push]
  by_cases h : i = states.size
  · rw [if_pos h, if_pos h]
    rfl
  · rw [if_neg h, if_neg h]

theorem getD_modify {states : Array α} {i : Nat} (hi : i < states.size) (change : α → α)
    (default : α) (j : Nat) :
    (states.modify i change).getD j default =
      if i = j then change (states.getD j default) else states.getD j default := by
  rw [Array.getD_eq_getD_getElem?, Array.getD_eq_getD_getElem?, Array.getElem?_modify]
  by_cases h : i = j
  · subst h
    rw [if_pos rfl, if_pos rfl, Array.getElem?_eq_getElem hi]
    rfl
  · rw [if_neg h, if_neg h]

theorem getElem?_eq_some_getD {states : Array α} {i : Nat} (hi : i < states.size) (default : α) :
    states[i]? = some (states.getD i default) := by
  rw [Array.getD_eq_getD_getElem?, Array.getElem?_eq_getElem hi]
  rfl

theorem getElem?_push_of_eq_some {states : Array α} {i : Nat} {x : α} (h : states[i]? = some x)
    (last : α) : (states.push last)[i]? = some x := by
  obtain ⟨hi, rfl⟩ := Array.getElem?_eq_some_iff.mp h
  exact Array.getElem?_push_lt hi

/-- Two changes of one state are one change. -/
theorem modify_modify (states : Array α) (i : Nat) (change change' : α → α) :
    (states.modify i change).modify i change' = states.modify i fun x => change' (change x) := by
  refine Array.ext_getElem? fun j => ?_
  rw [Array.getElem?_modify, Array.getElem?_modify, Array.getElem?_modify]
  by_cases h : i = j
  · rw [if_pos h, if_pos h, if_pos h, Option.map_map]
    rfl
  · rw [if_neg h, if_neg h, if_neg h]

/-- A state may be changed before or after another one is added. -/
theorem push_modify {states : Array α} {i : Nat} (hi : i < states.size) (change : α → α)
    (last : α) : (states.modify i change).push last = (states.push last).modify i change := by
  refine Array.ext_getElem? fun j => ?_
  rw [Array.getElem?_modify, Array.getElem?_push, Array.getElem?_push, Array.getElem?_modify,
    Array.size_modify]
  by_cases h : j = states.size
  · rw [if_pos h, if_pos h, if_neg (by omega)]
  · rw [if_neg h, if_neg h]

/-! ## Lists that match -/

/-- Every element of a list has its partner in a list that matches it. -/
theorem exists_right_of_forall₂ {R : α → β → Prop} {xs : List α} {ys : List β}
    (h : List.Forall₂ R xs ys) {x : α} (hx : x ∈ xs) : ∃ y ∈ ys, R x y := by
  induction h with
  | nil => simp at hx
  | cons hxy _ ih =>
    rcases List.mem_cons.mp hx with rfl | hx
    · exact ⟨_, List.mem_cons_self, hxy⟩
    · obtain ⟨y, hy, hR⟩ := ih hx
      exact ⟨y, List.mem_cons_of_mem _ hy, hR⟩

theorem exists_left_of_forall₂ {R : α → β → Prop} {xs : List α} {ys : List β}
    (h : List.Forall₂ R xs ys) {y : β} (hy : y ∈ ys) : ∃ x ∈ xs, R x y :=
  exists_right_of_forall₂ h.flip hy

/-- What holds of some element of one of two matching lists holds of its partner in the other. -/
theorem exists_mem_iff_of_forall₂ {R : α → β → Prop} {P : α → Prop} {Q : β → Prop} {xs : List α}
    {ys : List β} (h : List.Forall₂ R xs ys) (hPQ : ∀ x y, R x y → (P x ↔ Q y)) :
    (∃ x ∈ xs, P x) ↔ ∃ y ∈ ys, Q y := by
  constructor
  · rintro ⟨x, hx, hP⟩
    obtain ⟨y, hy, hxy⟩ := exists_right_of_forall₂ h hx
    exact ⟨y, hy, (hPQ x y hxy).mp hP⟩
  · rintro ⟨y, hy, hQ⟩
    obtain ⟨x, hx, hxy⟩ := exists_left_of_forall₂ h hy
    exact ⟨x, hx, (hPQ x y hxy).mpr hQ⟩

theorem mapM_eq_some_iff {g : α → Option β} {xs : List α} {ys : List β} :
    xs.mapM g = some ys ↔ List.Forall₂ (fun x y => g x = some y) xs ys := by
  induction xs generalizing ys with
  | nil =>
    rw [List.mapM_nil, List.forall₂_nil_left_iff]
    exact ⟨fun h => (Option.some.inj h).symm, fun h => congrArg some h.symm⟩
  | cons x xs ih =>
    rw [List.mapM_cons]
    cases ys with
    | nil => simp [Option.bind_eq_some_iff]
    | cons y ys => simp [Option.bind_eq_some_iff, ih]

theorem isSome_mapM_iff {g : α → Option β} {xs : List α} :
    (xs.mapM g).isSome = true ↔ ∀ x ∈ xs, (g x).isSome = true := by
  induction xs with
  | nil => simp
  | cons x xs ih =>
    rw [List.mapM_cons, List.forall_mem_cons, ← ih]
    cases g x with
    | none => simp
    | some y => cases xs.mapM g <;> simp

/-- Lists that are made from a list and from its images are the same if their entries are. -/
theorem mapM_map_congr {γ : Type} {f : α → γ} {g : α → Option β} {g' : γ → Option β} {xs : List α}
    (h : ∀ x ∈ xs, g' (f x) = g x) : (xs.map f).mapM g' = xs.mapM g := by
  induction xs with
  | nil => rfl
  | cons x xs ih =>
    obtain ⟨hx, hxs⟩ := List.forall_mem_cons.mp h
    rw [List.map_cons, List.mapM_cons, List.mapM_cons, hx, ih hxs]

end ActionRegex.Arrays
