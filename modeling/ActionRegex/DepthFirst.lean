/-!
# Depth-first search

A search over the nodes `0, …, size - 1` of a finite graph that visits each node once, a node before
its successors and earlier successors first. It serves to find what can be reached without
consuming input and to number states. Every step visits a new node or shortens the list of nodes
still to look at, which is the measure by which the search ends.
-/

namespace ActionRegex.DepthFirst

/-- The number of nodes below `size` that are not in a list. -/
def unvisited (size : Nat) (visited : List Nat) : Nat :=
  (List.range size).countP fun node => !visited.contains node

theorem countP_lt_countP {α : Type} {p q : α → Bool} {l : List α}
    (hpq : ∀ x, q x = true → p x = true) {a : α} (ha : a ∈ l) (hp : p a = true)
    (hq : q a = false) : l.countP q < l.countP p := by
  induction l with
  | nil => simp at ha
  | cons b rest ih =>
    have hle : rest.countP q ≤ rest.countP p := List.countP_mono_left fun x _ hx => hpq x hx
    simp only [List.countP_cons]
    rcases List.mem_cons.mp ha with rfl | hmem
    · simp only [hp, hq, Bool.false_eq_true, ↓reduceIte]
      omega
    · have := ih hmem
      have hb : (if q b = true then 1 else 0) ≤ (if p b = true then 1 else 0) := by
        split
        · next h => simp [hpq b h]
        · omega
      omega

/-- Visiting a new node leaves fewer to visit. -/
theorem unvisited_cons_lt {size node : Nat} {visited : List Nat} (hsize : node < size)
    (hnew : ¬ visited.contains node = true) :
    unvisited size (node :: visited) < unvisited size visited := by
  refine countP_lt_countP (fun x hx => ?_) (List.mem_range.mpr hsize) (by simpa using hnew)
    (by simp)
  simp only [List.contains_cons, Bool.not_eq_true', Bool.or_eq_false_iff] at hx ⊢
  exact hx.2

/-- Continues a search; `stack` holds the nodes still to look at and `visited` those behind, latest
first. Nodes outside the graph are skipped. -/
def searchFrom (size : Nat) (next : Nat → List Nat) (stack visited : List Nat) : List Nat :=
  match stack with
  | [] => visited.reverse
  | node :: rest =>
    if _h : node < size ∧ ¬ visited.contains node = true then
      searchFrom size next (next node ++ rest) (node :: visited)
    else searchFrom size next rest visited
termination_by (unvisited size visited, stack.length)
decreasing_by
  · have := unvisited_cons_lt _h.1 _h.2
    simp only [Prod.lex_def]; left; exact this
  · simp [Prod.lex_def]

/-- The nodes that can be reached from `start`, in the order of the visits. -/
def search (size : Nat) (next : Nat → List Nat) (start : List Nat) : List Nat :=
  searchFrom size next start []

end ActionRegex.DepthFirst
