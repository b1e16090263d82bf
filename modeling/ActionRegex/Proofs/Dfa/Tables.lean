import ActionRegex.Proofs.Dfa.Compaction
import ActionRegex.Proofs.Dfa.Walks

/-!
# Tables refine transitions

A table knows where a byte leads without a look at the states: one row of cells per state, and one
for the rejecting state. The cells reject at first, and each transition is then written to a cell of
its own (`cells_table`). So a walk over the table goes through the same states as one by the
transitions (`walk_table`) and stays inside the table, and a match may stop where it rejects: every
later state is the rejecting one, which does not accept (`accepts_eq_isAccept_getLastD`).
-/

namespace ActionRegex.Dfa

open Ascending (AscendingKeys)

variable {dfa : Dfa} {id : Nat} {b : UInt8}

/-! ## Walks by transitions -/

/-- Where a byte leads by the transitions of the states. A byte without a transition leads to the
rejecting state, and so does every byte from there. -/
def follow (dfa : Dfa) (id : Nat) (b : UInt8) : Nat :=
  if id = dfa.reject then dfa.reject
  else
    match (dfa.state id).on? b with
    | some t => t.target
    | none => dfa.reject

/-- The states after each byte of a text, by transitions. -/
def trail (dfa : Dfa) (id : Nat) : Bytes → List Nat
  | [] => []
  | b :: rest => dfa.follow id b :: dfa.trail (dfa.follow id b) rest

theorem state_reject (dfa : Dfa) : dfa.state dfa.reject = {} :=
  Arrays.getD_of_size_le (Nat.le_refl _) _

theorem next_reject (dfa : Dfa) (b : UInt8) : dfa.next dfa.reject b = dfa.reject := by
  rw [next, state_reject]
  rfl

theorem follow_eq_next (dfa : Dfa) (id : Nat) (b : UInt8) : dfa.follow id b = dfa.next id b := by
  rw [follow]
  by_cases hid : id = dfa.reject
  · rw [if_pos hid, hid, next_reject]
  · rw [if_neg hid, next]
    cases (dfa.state id).on? b with
    | none => rfl
    | some t => rfl

namespace WellFormed

/-- A byte leads to a state or to the rejecting one. -/
theorem next_le (h : WellFormed dfa) (id : Nat) (b : UInt8) : dfa.next id b ≤ dfa.size := by
  rw [next]
  cases hon : (dfa.state id).on? b with
  | none => exact Nat.le_refl _
  | some t => exact Nat.le_of_lt (h.target_lt id b t hon)

/-- A byte leads from a row of the table to one of its rows. -/
theorem next_table_le (h : WellFormed dfa) (hid : id ≤ dfa.size) (b : UInt8) :
    dfa.table.next id b ≤ dfa.size := by
  rw [next_table hid]
  exact h.next_le id b

/-! ## Walks over the table -/

theorem walk_table (h : WellFormed dfa) (hid : id ≤ dfa.size) (w : Bytes) :
    dfa.table.walk id w = dfa.trail id w := by
  induction w generalizing id with
  | nil => rfl
  | cons b rest ih =>
    rw [Table.walk, trail, ih (h.next_table_le hid b), next_table hid, follow_eq_next]

/-- **A walk never leaves the table.** -/
theorem le_of_mem_walk (h : WellFormed dfa) (hid : id ≤ dfa.size) {w : Bytes} {id' : Nat}
    (hmem : id' ∈ id :: dfa.table.walk id w) : id' ≤ dfa.size := by
  induction w generalizing id with
  | nil =>
    rw [List.mem_singleton.mp hmem]
    exact hid
  | cons b rest ih =>
    rcases List.mem_cons.mp hmem with rfl | hmem
    · exact hid
    · exact ih (h.next_table_le hid b) hmem

end WellFormed

/-- The row of the rejecting state absorbs. -/
theorem next_table_reject (dfa : Dfa) (b : UInt8) :
    dfa.table.next dfa.table.reject b = dfa.table.reject := by
  show dfa.table.next dfa.reject b = dfa.reject
  have hlast : dfa.reject ≤ dfa.size := Nat.le_refl _
  rw [next_table hlast, next_reject]

theorem isAccept_table_reject (dfa : Dfa) : dfa.table.isAccept dfa.table.reject = false := by
  show dfa.table.isAccept dfa.reject = false
  have hlast : dfa.reject ≤ dfa.size := Nat.le_refl _
  rw [isAccept_table hlast, state_reject]

/-- Where a walk that has rejected ends. -/
theorem getLastD_walk_reject (dfa : Dfa) (w : Bytes) :
    (dfa.table.walk dfa.table.reject w).getLastD dfa.table.reject = dfa.table.reject := by
  induction w with
  | nil => rfl
  | cons b rest ih =>
    rw [Table.walk, next_table_reject, List.getLastD_cons]
    exact ih

/-- **A match that stops where it rejects decides what the walk to the end does.** -/
theorem accepts_eq_isAccept_getLastD (dfa : Dfa) (id : Nat) (w : Bytes) :
    dfa.table.accepts id w = dfa.table.isAccept ((dfa.table.walk id w).getLastD id) := by
  induction w generalizing id with
  | nil => rfl
  | cons b rest ih =>
    rw [Table.accepts, Table.walk, List.getLastD_cons]
    by_cases hreject : dfa.table.next id b = dfa.table.reject
    · rw [if_pos hreject, hreject, getLastD_walk_reject, isAccept_table_reject]
    · rw [if_neg hreject, ih]

/-! ## Writing the cells -/

/-- Writes targets to their cells, one after the other. -/
def writeCells (cells : Array Nat) (writes : List (Nat × Nat)) : Array Nat :=
  writes.foldl (fun cells write => cells.setIfInBounds write.1 write.2) cells

/-- The cells of a state's transitions, with the targets. -/
def rowWrites (id : Nat) (s : State) : List (Nat × Nat) :=
  s.transitions.map fun entry => (id * rowLength + entry.1.toNat, entry.2.target)

/-- The cells of all transitions, state by state. -/
def writes (dfa : Dfa) : List (Nat × Nat) :=
  dfa.states.toList.zipIdx.flatMap fun row => rowWrites row.2 row.1

/-- A cell has the target that is written to it, or what was there before. -/
theorem getElem?_writeCells {writes : List (Nat × Nat)} (hkeys : AscendingKeys writes)
    (cells : Array Nat) (cell : Nat) :
    (writeCells cells writes)[cell]? =
      cells[cell]?.map fun old => (Ascending.get? cell writes).getD old := by
  induction writes generalizing cells with
  | nil => simp [writeCells, Ascending.get?]
  | cons write rest ih =>
    obtain ⟨first, target⟩ := write
    obtain ⟨hfirst, hrest⟩ := Ascending.ascendingKeys_cons.mp hkeys
    show (writeCells (cells.setIfInBounds first target) rest)[cell]? = _
    rw [ih hrest, Ascending.get?, Array.getElem?_setIfInBounds]
    by_cases hcell : cell = first
    · subst hcell
      -- later writes are to later cells
      have hnone : Ascending.get? cell rest = none := by
        refine Ascending.get?_eq_none_iff.mpr ?_
        intro v hv
        exact Nat.lt_irrefl cell (hfirst (cell, v) hv)
      rw [if_pos rfl, if_pos rfl, hnone]
      by_cases hlt : cell < cells.size
      · simp [hlt]
      · simp [hlt]
    · rw [if_neg hcell, if_neg (Ne.symm hcell)]

theorem mem_rowWrites_iff {s : State} {cell target : Nat} : (cell, target) ∈ rowWrites id s ↔
    ∃ b t, (b, t) ∈ s.transitions ∧ cell = id * rowLength + b.toNat ∧ target = t.target := by
  rw [rowWrites, List.mem_map]
  constructor
  · rintro ⟨⟨b, t⟩, hmem, heq⟩
    obtain ⟨rfl, rfl⟩ := Prod.mk.inj heq
    exact ⟨b, t, hmem, rfl, rfl⟩
  · rintro ⟨b, t, hmem, rfl, rfl⟩
    exact ⟨(b, t), hmem, rfl⟩

theorem state_of_mem_zipIdx {s : State} (h : (s, id) ∈ dfa.states.toList.zipIdx) :
    dfa.state id = s := by
  rw [List.mem_zipIdx_iff_getElem?, Array.getElem?_toList] at h
  rw [state, Array.getD_eq_getD_getElem?, h]
  rfl

theorem mem_writes_iff {cell target : Nat} : (cell, target) ∈ dfa.writes ↔
    ∃ id b t, (b, t) ∈ (dfa.state id).transitions ∧ cell = id * rowLength + b.toNat ∧
      target = t.target := by
  rw [writes, List.mem_flatMap]
  constructor
  · rintro ⟨⟨s, id⟩, hrow, hwrite⟩
    obtain ⟨b, t, hmem, hcell, htarget⟩ := mem_rowWrites_iff.mp hwrite
    exact ⟨id, b, t, state_of_mem_zipIdx hrow ▸ hmem, hcell, htarget⟩
  · rintro ⟨id, b, t, hmem, hcell, htarget⟩
    have hid : id < dfa.size := by
      by_contra hid
      rw [state, Arrays.getD_of_size_le (Nat.le_of_not_lt hid)] at hmem
      exact absurd hmem List.not_mem_nil
    refine ⟨(dfa.state id, id), ?_, mem_rowWrites_iff.mpr ⟨b, t, hmem, hcell, htarget⟩⟩
    rw [List.mem_zipIdx_iff_getElem?, Array.getElem?_toList]
    exact Arrays.getElem?_eq_some_getD hid _

/-- No two transitions share a cell: the cells are written in ascending order. -/
theorem ascendingKeys_writes (h : WellFormed dfa) : AscendingKeys dfa.writes := by
  refine List.pairwise_flatMap.mpr ⟨?_, ?_⟩
  · rintro ⟨s, id⟩ hrow
    refine List.Pairwise.map _ ?_ (state_of_mem_zipIdx hrow ▸ h.keys id)
    intro entry entry' hlt
    exact Nat.add_lt_add_left (UInt8.lt_iff_toNat_lt.mp hlt) _
  · -- the rows of the states do not overlap
    rw [List.pairwise_iff_getElem]
    rintro i j hi hj hlt ⟨cell, target⟩ hwrite ⟨cell', target'⟩ hwrite'
    rw [List.getElem_zipIdx, Nat.zero_add] at hwrite hwrite'
    obtain ⟨b, t, -, rfl, -⟩ := mem_rowWrites_iff.mp hwrite
    obtain ⟨b', t', -, rfl, -⟩ := mem_rowWrites_iff.mp hwrite'
    have hcell := cell_lt (Nat.lt_add_of_pos_right (n := i) Nat.one_pos) b
    have hrow : (i + 1) * rowLength ≤ j * rowLength := Nat.mul_le_mul_right _ hlt
    show i * rowLength + b.toNat < j * rowLength + b'.toNat
    omega

/-- The target written to the cell of a state and a byte. -/
theorem get?_writes (h : WellFormed dfa) (id : Nat) (b : UInt8) :
    Ascending.get? (id * rowLength + b.toNat) dfa.writes =
      ((dfa.state id).on? b).map Transition.target := by
  cases hon : (dfa.state id).on? b with
  | some t =>
    refine (Ascending.get?_eq_some_iff (ascendingKeys_writes h)).mpr ?_
    exact mem_writes_iff.mpr ⟨id, b, t, Ascending.mem_of_get? hon, rfl, rfl⟩
  | none =>
    refine Ascending.get?_eq_none_iff.mpr ?_
    intro target hwrite
    obtain ⟨id', b', t, hmem, hcell, -⟩ := mem_writes_iff.mp hwrite
    -- a cell has one row and one column
    have hrow := row_of_cell id b
    have hcolumn := column_of_cell id b
    rw [hcell, row_of_cell] at hrow
    rw [hcell, column_of_cell] at hcolumn
    obtain rfl : id' = id := hrow
    obtain rfl : b' = b := UInt8.toNat_inj.mp hcolumn
    exact Ascending.get?_eq_none_iff.mp hon t hmem

/-- **The cells of the table are those that writing the transitions leaves**, if all cells reject at
first. -/
theorem cells_table (h : WellFormed dfa) : dfa.table.cells =
    writeCells (Array.replicate ((dfa.size + 1) * rowLength) dfa.reject) dfa.writes := by
  refine Array.ext_getElem? ?_
  intro cell
  rw [getElem?_writeCells (ascendingKeys_writes h), Array.getElem?_replicate, table, Table.ofDfa,
    Array.getElem?_ofFn]
  by_cases hcell : cell < (dfa.size + 1) * rowLength
  · have hcolumn : (UInt8.ofNat (cell % rowLength)).toNat = cell % rowLength :=
      UInt8.toNat_ofNat_of_lt (Nat.mod_lt _ (by decide))
    have hget := get?_writes h (cell / rowLength) (UInt8.ofNat (cell % rowLength))
    rw [hcolumn, Nat.div_add_mod'] at hget
    rw [dif_pos hcell, if_pos hcell, Option.map_some, hget]
    rfl
  · rw [dif_neg hcell, if_neg hcell]
    rfl

/-! ## The whole -/

/-- A table refines the transitions of an automaton: it has a row for each state and one for the
rejecting state, and its cells are the transitions, written over cells that reject. A walk from any
row reads cells of the table only and goes through the states that transitions lead to. The
rejecting state absorbs, does not accept and is not the initial one, and a match, which stops there,
decides whether the state at the end of the whole walk accepts. -/
structure Table.Refines (table : Table) (dfa : Dfa) : Prop where
  reject : table.reject = dfa.size
  rows : table.rows = dfa.size + 1
  size : table.cells.size = table.rows * rowLength
  cells : table.cells = writeCells (Array.replicate (table.rows * rowLength) dfa.reject) dfa.writes
  inside : ∀ id ≤ table.reject, ∀ w, ∀ id' ∈ id :: table.walk id w,
    id' < table.rows ∧ ∀ b : UInt8, id' * rowLength + b.toNat < table.cells.size
  walk : ∀ id ≤ table.reject, ∀ w, table.walk id w = dfa.trail id w
  absorbs : ∀ b, table.next table.reject b = table.reject
  isAccept_reject : table.isAccept table.reject = false
  reject_ne : table.reject ≠ initial
  isMatch : ∀ w, table.isMatch w = table.isAccept ((table.walk initial w).getLastD initial)

theorem WellFormed.refines_table (h : WellFormed dfa) : dfa.table.Refines dfa := by
  have hrows : dfa.table.rows = dfa.size + 1 := Array.size_ofFn
  have hsize : dfa.table.cells.size = dfa.table.rows * rowLength := by
    rw [hrows]
    exact Array.size_ofFn
  exact {
    reject := rfl
    rows := hrows
    size := hsize
    cells := by
      rw [hrows]
      exact cells_table h
    inside := by
      intro id hid w id' hmem
      have hlt : id' < dfa.table.rows := by
        rw [hrows]
        exact Nat.lt_succ_of_le (h.le_of_mem_walk hid hmem)
      refine ⟨hlt, fun b => ?_⟩
      rw [hsize]
      exact cell_lt hlt b
    walk := fun id hid w => h.walk_table hid w
    absorbs := next_table_reject dfa
    isAccept_reject := isAccept_table_reject dfa
    reject_ne := Nat.ne_of_gt h.size_pos
    isMatch := fun w => accepts_eq_isAccept_getLastD dfa initial w }

/-- **The table of a built automaton refines its transitions.** -/
theorem refines_table_of_build? {nfa : Nfa} {notes : List Note} (hnfa : nfa.InRange)
    (hsize : Nfa.initial < nfa.size) (h : build? nfa = some (dfa, notes)) :
    dfa.table.Refines dfa :=
  (wellFormed_of_build? hnfa hsize h).refines_table

theorem refines_table_stretchesTree : ∃ dfa notes,
    build? (Nfa.ofTree stretchesTree) = some (dfa, notes) ∧ dfa.size = 2 ∧
      dfa.table.Refines dfa ∧ dfa.trail initial [98, 98] = [1, 2] := by
  have hbuilt : ((build? (Nfa.ofTree stretchesTree)).any fun built =>
      built.1.size == 2 && built.1.trail initial [98, 98] == [1, 2]) = true := by cbv
  obtain ⟨⟨dfa, notes⟩, hbuild, hdfa⟩ := (Option.any_eq_true _ _).mp hbuilt
  have hsize : Nfa.initial < (Nfa.ofTree stretchesTree).size :=
    Nat.lt_of_lt_of_le (by decide) (Nfa.two_le_size_ofTree _)
  obtain ⟨hstates, htrail⟩ := Bool.and_eq_true_iff.mp hdfa
  exact ⟨dfa, notes, hbuild, eq_of_beq hstates,
    refines_table_of_build? (Nfa.inRange_ofTree _) hsize hbuild, eq_of_beq htrail⟩

end ActionRegex.Dfa
