import ActionRegex.Dfa.Table
import ActionRegex.Proofs.Arrays

/-!
# Walks

A walk takes one transition per byte, as long as there is one. A table stores where each byte leads,
the rejecting state included, so it accepts a text if and only if the walk over the text ends in an
accepting state.
-/

namespace ActionRegex.Dfa

/-- Where a text leads from a state, if there is a transition for each of its bytes. -/
def walk? (dfa : Dfa) (id : Nat) : Bytes → Option Nat
  | [] => some id
  | b :: rest => ((dfa.state id).on? b).bind fun t => dfa.walk? t.target rest

/-- The actions of the transitions that a text takes from a state, in ascending order. -/
def fired (dfa : Dfa) (id : Nat) : Bytes → List Nat
  | [] => []
  | b :: rest =>
    match (dfa.state id).on? b with
    | none => []
    | some t => Ascending.union t.actions (dfa.fired t.target rest)

variable {dfa : Dfa} {id : Nat} {b : UInt8} {rest : Bytes} {t : Transition}

theorem walk?_cons (h : (dfa.state id).on? b = some t) :
    dfa.walk? id (b :: rest) = dfa.walk? t.target rest := by
  rw [walk?, h, Option.bind_some]

theorem walk?_cons_eq_some_iff {q : Nat} :
    dfa.walk? id (b :: rest) = some q ↔
      ∃ t, (dfa.state id).on? b = some t ∧ dfa.walk? t.target rest = some q := by
  rw [walk?, Option.bind_eq_some_iff]

theorem mem_fired_cons (h : (dfa.state id).on? b = some t) {x : Nat} :
    x ∈ dfa.fired id (b :: rest) ↔ x ∈ t.actions ∨ x ∈ dfa.fired t.target rest := by
  rw [fired, h]
  exact Ascending.mem_union

/-! ## Tables -/

/-- The cells of a row lie before the end of the table. -/
theorem cell_lt {rows : Nat} (hid : id < rows) (b : UInt8) :
    id * rowLength + b.toNat < rows * rowLength := by
  have hb : b.toNat < rowLength := b.toNat_lt
  have hle : (id + 1) * rowLength ≤ rows * rowLength := Nat.mul_le_mul_right _ hid
  rw [Nat.succ_mul] at hle
  omega

theorem row_of_cell (id : Nat) (b : UInt8) : (id * rowLength + b.toNat) / rowLength = id := by
  have hb : b.toNat < rowLength := b.toNat_lt
  rw [Nat.mul_comm, Nat.mul_add_div (by decide), Nat.div_eq_of_lt hb, Nat.add_zero]

theorem column_of_cell (id : Nat) (b : UInt8) :
    (id * rowLength + b.toNat) % rowLength = b.toNat := by
  have hb : b.toNat < rowLength := b.toNat_lt
  rw [Nat.mul_comm, Nat.mul_add_mod, Nat.mod_eq_of_lt hb]

/-- A cell of the table, found from its row and its column. -/
theorem next_table (hid : id ≤ dfa.size) (b : UInt8) : dfa.table.next id b = dfa.next id b := by
  rw [table, Table.next, Table.ofDfa, Array.getD_eq_getD_getElem?, Array.getElem?_ofFn,
    dif_pos (cell_lt (Nat.lt_succ_of_le hid) b), Option.getD_some]
  show dfa.next ((id * rowLength + b.toNat) / rowLength)
    (UInt8.ofNat ((id * rowLength + b.toNat) % rowLength)) = _
  rw [row_of_cell, column_of_cell, UInt8.ofNat_toNat]

theorem isAccept_table (hid : id ≤ dfa.size) :
    dfa.table.isAccept id = (dfa.state id).accept := by
  rw [table, Table.isAccept, Table.ofDfa, Array.getD_eq_getD_getElem?, Array.getElem?_ofFn,
    dif_pos (Nat.lt_succ_of_le hid), Option.getD_some]

/-- **The table accepts the texts whose walks end in accepting states**, if no transition leads to
the rejecting state. -/
theorem accepts_table_iff
    (htarget : ∀ id b t, (dfa.state id).on? b = some t → t.target < dfa.size)
    (hid : id < dfa.size) (w : Bytes) :
    dfa.table.accepts id w = true ↔
      ∃ q, dfa.walk? id w = some q ∧ (dfa.state q).accept = true := by
  induction w generalizing id with
  | nil =>
    rw [Table.accepts, isAccept_table (Nat.le_of_lt hid)]
    simp [walk?]
  | cons b rest ih =>
    rw [Table.accepts, next_table (Nat.le_of_lt hid), next]
    cases hon : (dfa.state id).on? b with
    | none => simp [walk?, hon, table, Table.ofDfa]
    | some t =>
      have hlt := htarget id b t hon
      show (if t.target = dfa.size then false else dfa.table.accepts t.target rest) = true ↔ _
      rw [if_neg (Nat.ne_of_lt hlt), ih hlt, walk?_cons hon]

end ActionRegex.Dfa
