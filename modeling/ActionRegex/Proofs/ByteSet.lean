import ActionRegex.ByteSet
import Mathlib.Data.List.Basic

/-!
# Members of sets of bytes

What the sets made from lists and ranges contain, and the order in which members are listed.
-/

namespace ActionRegex.ByteSet

theorem exists_byte {n : Nat} (h : n < 256) : ∃ b : UInt8, b.toNat = n :=
  ⟨UInt8.ofNat n, UInt8.toNat_ofNat_of_lt' h⟩

theorem contains_foldl_insert (bytes : Bytes) (set : ByteSet) (b : UInt8) :
    (bytes.foldl insert set).contains b = true ↔ set.contains b = true ∨ b ∈ bytes := by
  induction bytes generalizing set with
  | nil => simp
  | cons a rest ih =>
    rw [List.foldl_cons, ih, contains_insert, Bool.or_eq_true, decide_eq_true_eq, List.mem_cons,
      or_assoc, eq_comm (a := a)]

@[simp] theorem contains_ofList {bytes : Bytes} {b : UInt8} :
    (ofList bytes).contains b = true ↔ b ∈ bytes := by
  rw [ofList, contains_foldl_insert]
  simp

@[simp] theorem contains_range {first last b : UInt8} :
    (range first last).contains b = true ↔ first ≤ b ∧ b ≤ last := by
  rw [range, contains_ofList, List.mem_filter]
  simp [mem_alphabet]

/-- The members are listed in ascending order. -/
theorem pairwise_toList (set : ByteSet) : set.toList.Pairwise (· < ·) := by
  refine List.Pairwise.filter _ ?_
  rw [alphabet, List.pairwise_map]
  refine List.Pairwise.imp_of_mem ?_ List.pairwise_lt_range
  intro a b ha hb hlt
  rw [List.mem_range] at ha hb
  rwa [UInt8.lt_iff_toNat_lt, UInt8.toNat_ofNat_of_lt' ha, UInt8.toNat_ofNat_of_lt' hb]

end ActionRegex.ByteSet
