import ActionRegex.DepthFirst
import Mathlib.Data.List.Nodup
import Mathlib.Logic.Relation

/-!
# What a depth-first search finds

A search returns the nodes that can be reached from its start, each once, and starts with the first
node of the start. The visited nodes are closed under successors but for what is still on the stack;
with an empty stack that is closure.

A recursive traversal (`Traverses`) visits a node and then, one after the other, what lies below
each of its successors. The loop over a stack does the same: what is on the stack is what the open
calls have still to traverse (`traverses_searchFrom`).
-/

namespace ActionRegex.DepthFirst

open Relation (ReflTransGen)

variable {size : Nat} {next : Nat → List Nat}

/-- What holds of the nodes at hand and passes to successors holds of everything found. -/
theorem searchFrom_induction {P : Nat → Prop} (hnext : ∀ a b, P a → b ∈ next a → P b)
    (stack visited : List Nat) (hstack : ∀ x ∈ stack, P x) (hvisited : ∀ x ∈ visited, P x) :
    ∀ x ∈ searchFrom size next stack visited, P x := by
  fun_induction searchFrom size next stack visited with
  | case1 visited => simpa using hvisited
  | case2 visited node rest _ ih =>
    obtain ⟨hnode, hrest⟩ := List.forall_mem_cons.mp hstack
    refine ih ?_ (List.forall_mem_cons.mpr ⟨hnode, hvisited⟩)
    intro x hx
    rcases List.mem_append.mp hx with hx | hx
    · exact hnext node x hnode hx
    · exact hrest x hx
  | case3 visited node rest _ ih => exact ih (List.forall_mem_cons.mp hstack).2 hvisited

/-- A search keeps what it has visited, in order. -/
theorem reverse_prefix_searchFrom (stack visited : List Nat) :
    visited.reverse <+: searchFrom size next stack visited := by
  fun_induction searchFrom size next stack visited with
  | case1 visited => exact List.prefix_rfl
  | case2 visited node rest _ ih =>
    rw [List.reverse_cons] at ih
    exact (List.prefix_append _ _).trans ih
  | case3 visited node rest _ ih => exact ih

/-- A node of the graph that is passed over has been visited. -/
theorem mem_visited_of_not_new {visited : List Nat} {node : Nat}
    (h : ¬ (node < size ∧ ¬ visited.contains node = true)) (hsize : node < size) :
    node ∈ visited := by
  simpa [hsize] using h

/-- A search visits everything on the stack. -/
theorem mem_searchFrom_of_mem_stack {stack visited : List Nat} {x : Nat} (hx : x ∈ stack)
    (hsize : x < size) : x ∈ searchFrom size next stack visited := by
  fun_induction searchFrom size next stack visited with
  | case1 visited => simp at hx
  | case2 visited node rest _ ih =>
    rcases List.mem_cons.mp hx with rfl | hx
    · exact (reverse_prefix_searchFrom _ _).subset (by simp)
    · exact ih (List.mem_append.mpr (Or.inr hx))
  | case3 visited node rest hold ih =>
    rcases List.mem_cons.mp hx with rfl | hx
    · have hseen := mem_visited_of_not_new hold hsize
      exact (reverse_prefix_searchFrom _ _).subset (List.mem_reverse.mpr hseen)
    · exact ih hx

/-- The nodes found are closed under successors. -/
theorem searchFrom_closed {stack visited : List Nat}
    (hvisited : ∀ a ∈ visited, ∀ b ∈ next a, b < size → b ∈ visited ∨ b ∈ stack) :
    ∀ a ∈ searchFrom size next stack visited, ∀ b ∈ next a, b < size →
      b ∈ searchFrom size next stack visited := by
  fun_induction searchFrom size next stack visited with
  | case1 visited =>
    intro a ha b hb hsize
    rw [List.mem_reverse] at ha ⊢
    rcases hvisited a ha b hb hsize with hb | hb
    · exact hb
    · simp at hb
  | case2 visited node rest _ ih =>
    refine ih ?_
    intro a ha b hb hsize
    rcases List.mem_cons.mp ha with rfl | ha
    · exact Or.inr (List.mem_append.mpr (Or.inl hb))
    · rcases hvisited a ha b hb hsize with hb | hb
      · exact Or.inl (List.mem_cons_of_mem _ hb)
      · rcases List.mem_cons.mp hb with rfl | hb
        · exact Or.inl List.mem_cons_self
        · exact Or.inr (List.mem_append.mpr (Or.inr hb))
  | case3 visited node rest hold ih =>
    refine ih ?_
    intro a ha b hb hsize
    rcases hvisited a ha b hb hsize with hb | hb
    · exact Or.inl hb
    · rcases List.mem_cons.mp hb with rfl | hb
      · exact Or.inl (mem_visited_of_not_new hold hsize)
      · exact Or.inr hb

theorem nodup_searchFrom {stack visited : List Nat} (h : visited.Nodup) :
    (searchFrom size next stack visited).Nodup := by
  fun_induction searchFrom size next stack visited with
  | case1 visited => exact List.nodup_reverse.mpr h
  | case2 visited node rest hnew ih =>
    exact ih (List.nodup_cons.mpr ⟨by simpa using hnew.2, h⟩)
  | case3 visited node rest _ ih => exact ih h

/-! ## Whole searches -/

theorem nodup_search (start : List Nat) : (search size next start).Nodup :=
  nodup_searchFrom List.nodup_nil

theorem search_closed {start : List Nat} {a b : Nat} (ha : a ∈ search size next start)
    (hb : b ∈ next a) (hsize : b < size) : b ∈ search size next start :=
  searchFrom_closed (by simp) a ha b hb hsize

/-- A search starts with the first node of its start. -/
theorem head?_search {node : Nat} {rest : List Nat} (h : node < size) :
    (search size next (node :: rest)).head? = some node := by
  rw [search, searchFrom, dif_pos ⟨h, by simp⟩]
  obtain ⟨more, hmore⟩ := @reverse_prefix_searchFrom size next (next node ++ rest) [node]
  rw [← hmore]
  rfl

/-- **A search finds the nodes that can be reached from its start**, if nothing leads out of the
graph. -/
theorem mem_search_iff {start : List Nat} {x : Nat} (hstart : ∀ s ∈ start, s < size)
    (hnext : ∀ a, a < size → ∀ b ∈ next a, b < size) :
    x ∈ search size next start ↔ ∃ s ∈ start, ReflTransGen (fun a b => b ∈ next a) s x := by
  constructor
  · refine searchFrom_induction (P := fun x => ∃ s ∈ start, ReflTransGen _ s x) ?_ start [] ?_
      (by simp) x
    · rintro a b ⟨s, hs, hsa⟩ hb
      exact ⟨s, hs, hsa.tail hb⟩
    · intro s hs
      exact ⟨s, hs, ReflTransGen.refl⟩
  · rintro ⟨s, hs, hsx⟩
    have hboth : x ∈ search size next start ∧ x < size := by
      induction hsx with
      | refl => exact ⟨mem_searchFrom_of_mem_stack hs (hstart s hs), hstart s hs⟩
      | tail _ hstep ih =>
        have hsize := hnext _ ih.2 _ hstep
        exact ⟨search_closed ih.1 hstep hsize, hsize⟩
    exact hboth.1

/-! ## Recursive traversals -/

/-- A recursive depth-first traversal of nodes, one after the other. A new node is noted and then
its successors are traversed; a node that was noted before is passed over. The first list holds the
nodes noted before, in the order of their visits, and the second one those noted at the end. -/
inductive Traverses (next : Nat → List Nat) : List Nat → List Nat → List Nat → Prop
  | nil (seen : List Nat) : Traverses next [] seen seen
  | old {node : Nat} {rest seen last : List Nat} (hold : node ∈ seen)
    (h : Traverses next rest seen last) : Traverses next (node :: rest) seen last
  | new {node : Nat} {rest seen middle last : List Nat} (hnew : node ∉ seen)
    (hbelow : Traverses next (next node) (seen ++ [node]) middle)
    (h : Traverses next rest middle last) : Traverses next (node :: rest) seen last

variable {nodes rest seen last : List Nat}

/-- There is one way to traverse nodes. -/
theorem Traverses.unique {last' : List Nat} (h : Traverses next nodes seen last)
    (h' : Traverses next nodes seen last') : last = last' := by
  induction h generalizing last' with
  | nil =>
    cases h'
    rfl
  | old hold _ ih =>
    cases h' with
    | old _ h' => exact ih h'
    | new hnew _ _ => exact absurd hold hnew
  | new hnew _ _ ihBelow ih =>
    cases h' with
    | old hold _ => exact absurd hold hnew
    | new _ hbelow' h' =>
      obtain rfl := ihBelow hbelow'
      exact ih h'

/-- Nodes that are traversed one after the other can be traversed in two parts. -/
theorem Traverses.exists_of_append (h : Traverses next (nodes ++ rest) seen last) :
    ∃ middle, Traverses next nodes seen middle ∧ Traverses next rest middle last := by
  induction nodes generalizing seen with
  | nil => exact ⟨seen, .nil seen, h⟩
  | cons node nodes ih =>
    cases h with
    | old hold h =>
      obtain ⟨middle, hnodes, hrest⟩ := ih h
      exact ⟨middle, .old hold hnodes, hrest⟩
    | new hnew hbelow h =>
      obtain ⟨middle, hnodes, hrest⟩ := ih h
      exact ⟨middle, .new hnew hbelow hnodes, hrest⟩

/-- **The loop over a stack traverses the stack recursively**, if nothing leads out of the graph. -/
theorem traverses_searchFrom (hnext : ∀ a, a < size → ∀ b ∈ next a, b < size)
    (stack visited : List Nat) (hstack : ∀ x ∈ stack, x < size) :
    Traverses next stack visited.reverse (searchFrom size next stack visited) := by
  fun_induction searchFrom size next stack visited with
  | case1 visited => exact .nil _
  | case2 visited node rest hnew ih =>
    obtain ⟨hnode, hrest⟩ := List.forall_mem_cons.mp hstack
    have hbelow : ∀ x ∈ next node ++ rest, x < size := by
      intro x hx
      rcases List.mem_append.mp hx with hx | hx
      · exact hnext node hnode x hx
      · exact hrest x hx
    -- the successors on the stack are the call for the node, and what was below them goes on
    obtain ⟨middle, hnodes, hlast⟩ := (ih hbelow).exists_of_append
    rw [List.reverse_cons] at hnodes
    exact .new (by simpa using hnew.2) hnodes hlast
  | case3 visited node rest hold ih =>
    obtain ⟨hnode, hrest⟩ := List.forall_mem_cons.mp hstack
    exact .old (List.mem_reverse.mpr (mem_visited_of_not_new hold hnode)) (ih hrest)

/-- A search is the recursive traversal of its start. -/
theorem traverses_search_iff (hnext : ∀ a, a < size → ∀ b ∈ next a, b < size) {start : List Nat}
    (hstart : ∀ s ∈ start, s < size) :
    Traverses next start [] last ↔ last = search size next start := by
  have hsearch : Traverses next start [] (search size next start) :=
    traverses_searchFrom hnext start [] hstart
  constructor
  · intro h
    exact h.unique hsearch
  · rintro rfl
    exact hsearch

/-- **A traversal under other names**: names that are different on the nodes at hand, and on all
that is below them, do not change the order. -/
theorem Traverses.map {next' : Nat → List Nat} {P : Nat → Prop} {f : Nat → Nat}
    (hclosed : ∀ a, P a → ∀ b ∈ next a, P b) (hnext : ∀ a, P a → next' (f a) = (next a).map f)
    (hinj : ∀ a b, P a → P b → f a = f b → a = b) (h : Traverses next nodes seen last)
    (hnodes : ∀ x ∈ nodes, P x) (hseen : ∀ x ∈ seen, P x) :
    Traverses next' (nodes.map f) (seen.map f) (last.map f) ∧ ∀ x ∈ last, P x := by
  induction h with
  | nil => exact ⟨.nil _, hseen⟩
  | old hold _ ih =>
    obtain ⟨-, hrest⟩ := List.forall_mem_cons.mp hnodes
    obtain ⟨htraverses, hlast⟩ := ih hrest hseen
    exact ⟨.old (List.mem_map_of_mem hold) htraverses, hlast⟩
  | @new node rest seen middle last hnew _ _ ihBelow ih =>
    obtain ⟨hnode, hrest⟩ := List.forall_mem_cons.mp hnodes
    have hseen' : ∀ x ∈ seen ++ [node], P x := by
      intro x hx
      rcases List.mem_append.mp hx with hx | hx
      · exact hseen x hx
      · rwa [List.mem_singleton.mp hx]
    obtain ⟨hbelow, hmiddle⟩ := ihBelow (hclosed node hnode) hseen'
    obtain ⟨htraverses, hlast⟩ := ih hrest hmiddle
    have hnew' : f node ∉ seen.map f := by
      intro hmem
      obtain ⟨x, hx, heq⟩ := List.mem_map.mp hmem
      exact hnew (hinj x node (hseen x hx) hnode heq ▸ hx)
    rw [← hnext node hnode, List.map_append] at hbelow
    exact ⟨.new hnew' hbelow htraverses, hlast⟩

end ActionRegex.DepthFirst
