import ActionRegex.Dfa.Construction
import ActionRegex.Proofs.ByteSet
import ActionRegex.Proofs.Dfa.Numbering
import ActionRegex.Proofs.Dfa.TransitionSets
import ActionRegex.Proofs.Nfa.OfTree
import ActionRegex.Proofs.SymbolDfa.Folding.Loops
import ActionRegex.Proofs.SymbolDfa.Subset

/-!
# Transition sets are canonical

The transition sets of a state say the same as its transitions, and they are the only sets that do
so in their order (`canonicalSets_of_build?`). The transitions of a state come in ascending order of
their bytes, so the groups come in the order of their lowest bytes, and the bytes of each group in
ascending order (`Ordered`). There, two runs are at least two apart (`pairwise_runs`): the runs are
the longest stretches of consecutive bytes (`maximalRun_iff`).
-/

namespace ActionRegex.Dfa

open Ascending (AscendingKeys)

/-! ## The order of groups -/

/-- Groups have ascending bytes, and come in the order of their lowest ones. -/
structure Ordered (groups : List Group) : Prop where
  ascending : ∀ g ∈ groups, g.bytes.Pairwise (· < ·)
  lowest : groups.Pairwise fun g g' => ∃ low, g.bytes.head? = some low ∧ ∀ b ∈ g'.bytes, low < b
  nonempty : ∀ g ∈ groups, g.bytes ≠ []

theorem ordered_nil : Ordered [] where
  ascending := List.forall_mem_nil _
  lowest := List.Pairwise.nil
  nonempty := List.forall_mem_nil _

theorem ordered_cons {first : Group} {rest : List Group} :
    Ordered (first :: rest) ↔ first.bytes.Pairwise (· < ·) ∧
      (∃ low, first.bytes.head? = some low ∧ ∀ g ∈ rest, ∀ b ∈ g.bytes, low < b) ∧
      Ordered rest := by
  constructor
  · rintro ⟨hascending, hlowest, hnonempty⟩
    obtain ⟨hfirst, hascending⟩ := List.forall_mem_cons.mp hascending
    obtain ⟨hlow, hlowest⟩ := List.pairwise_cons.mp hlowest
    obtain ⟨hne, hnonempty⟩ := List.forall_mem_cons.mp hnonempty
    refine ⟨hfirst, ⟨_, List.head?_eq_some_head hne, fun g hg => ?_⟩,
      hascending, hlowest, hnonempty⟩
    obtain ⟨low, hhead, hall⟩ := hlow g hg
    obtain rfl := Option.some.inj ((List.head?_eq_some_head hne).symm.trans hhead)
    exact hall
  · rintro ⟨hfirst, ⟨low, hhead, hlow⟩, h⟩
    refine ⟨List.forall_mem_cons.mpr ⟨hfirst, h.ascending⟩,
      List.pairwise_cons.mpr ⟨fun g hg => ⟨low, hhead, hlow g hg⟩, h.lowest⟩,
      List.forall_mem_cons.mpr ⟨List.ne_nil_of_mem (List.mem_of_head? hhead), h.nonempty⟩⟩

theorem mem_bytes_of_mem_addToGroups {groups : List Group} {b c : UInt8} {t : Transition}
    {g : Group} (hg : g ∈ addToGroups b t groups) (hc : c ∈ g.bytes) :
    c = b ∨ ∃ g' ∈ groups, c ∈ g'.bytes := by
  rcases mem_addToGroups_cases hg with hg | ⟨g', hg', -, rfl⟩ | rfl
  · exact .inr ⟨g, hg, hc⟩
  · rcases List.mem_append.mp hc with hc | hc
    · exact .inr ⟨g', hg', hc⟩
    · exact .inl (List.mem_singleton.mp hc)
  · exact .inl (List.mem_singleton.mp hc)

/-- Groups stay ordered when a byte is added that is above all others. -/
theorem Ordered.add {groups : List Group} (h : Ordered groups) {b : UInt8}
    (habove : ∀ g ∈ groups, ∀ c ∈ g.bytes, c < b) (t : Transition) :
    Ordered (addToGroups b t groups) := by
  induction groups with
  | nil =>
    exact ordered_cons.mpr ⟨List.pairwise_singleton _ _, ⟨b, rfl, by simp⟩, ordered_nil⟩
  | cons first rest ih =>
    obtain ⟨hfirst, ⟨low, hhead, hlow⟩, hrest⟩ := ordered_cons.mp h
    obtain ⟨hb, habove⟩ := List.forall_mem_cons.mp habove
    rw [addToGroups]
    split
    -- the byte goes to the end of the first group, whose lowest byte stays
    · refine ordered_cons.mpr ⟨?_, ⟨low, ?_, hlow⟩, hrest⟩
      · refine List.pairwise_append.mpr ⟨hfirst, List.pairwise_singleton _ _, ?_⟩
        intro c hc x hx
        rw [List.mem_singleton.mp hx]
        exact hb c hc
      · rw [List.head?_append, hhead, Option.some_or]
    · refine ordered_cons.mpr ⟨hfirst, ⟨low, hhead, fun g hg c hc => ?_⟩, ih hrest habove⟩
      rcases mem_bytes_of_mem_addToGroups hg hc with rfl | ⟨g', hg', hc⟩
      · exact hb low (List.mem_of_head? hhead)
      · exact hlow g' hg' c hc

theorem Ordered.foldl {groups : List Group} (h : Ordered groups)
    {entries : List (UInt8 × Transition)} (hkeys : AscendingKeys entries)
    (habove : ∀ entry ∈ entries, ∀ g ∈ groups, ∀ c ∈ g.bytes, c < entry.1) :
    Ordered (entries.foldl (fun groups entry => addToGroups entry.1 entry.2 groups) groups) := by
  induction entries generalizing groups with
  | nil => exact h
  | cons entry rest ih =>
    obtain ⟨hentry, habove⟩ := List.forall_mem_cons.mp habove
    obtain ⟨hfirst, hkeys⟩ := Ascending.ascendingKeys_cons.mp hkeys
    refine ih (h.add hentry entry.2) hkeys fun later hlater g hg c hc => ?_
    rcases mem_bytes_of_mem_addToGroups hg hc with rfl | ⟨g', hg', hc⟩
    · exact hfirst later hlater
    · exact habove later hlater g' hg' c hc

theorem ordered_groups {s : State} (hkeys : AscendingKeys s.transitions) : Ordered (groups s) :=
  ordered_nil.foldl hkeys (by simp)

/-! ## Runs are as long as they can be -/

/-- The first run starts at its lowest byte. -/
theorem of_mem_first_run {bytes : Bytes} (h : bytes.Pairwise (· < ·)) {c x : UInt8} {run : Bytes}
    {more : List Bytes} (heq : runs bytes = (c :: run) :: more) (hx : x ∈ c :: run) :
    x ∈ bytes ∧ c.toNat ≤ x.toNat := by
  have hflatten := flatten_runs bytes
  rw [heq, List.flatten_cons] at hflatten
  have hrun : (c :: run).Pairwise (· < ·) :=
    h.sublist (hflatten ▸ List.sublist_append_left _ _)
  refine ⟨hflatten ▸ List.mem_append_left _ hx, ?_⟩
  rcases List.mem_cons.mp hx with rfl | hx
  · exact Nat.le_refl _
  · exact Nat.le_of_lt (UInt8.lt_iff_toNat_lt.mp ((List.pairwise_cons.mp hrun).1 x hx))

/-- Two runs of ascending bytes are at least two apart. -/
theorem pairwise_runs {bytes : Bytes} (h : bytes.Pairwise (· < ·)) :
    (runs bytes).Pairwise fun run run' => ∀ a ∈ run, ∀ b ∈ run', a.toNat + 1 < b.toNat := by
  induction bytes with
  | nil => exact List.Pairwise.nil
  | cons b rest ih =>
    obtain ⟨hb, hrest⟩ := List.pairwise_cons.mp h
    have ih := ih hrest
    rw [runs]
    split
    · next c run more heq =>
      rw [heq] at ih
      obtain ⟨hfirst, hmore⟩ := List.pairwise_cons.mp ih
      have hc : ∀ x ∈ c :: run, b.toNat < x.toNat ∧ c.toNat ≤ x.toNat := by
        intro x hx
        obtain ⟨hmem, hle⟩ := of_mem_first_run hrest heq hx
        exact ⟨UInt8.lt_iff_toNat_lt.mp (hb x hmem), hle⟩
      have hbc := (hc c List.mem_cons_self).1
      split
      -- the byte is below the run that it joins, and the others are far from that run
      · refine List.pairwise_cons.mpr ⟨?_, hmore⟩
        intro run' hrun' a ha x hx
        rcases List.mem_cons.mp ha with rfl | ha
        · have hfar := hfirst run' hrun' c List.mem_cons_self x hx
          omega
        · exact hfirst run' hrun' a ha x hx
      · next hgap =>
        refine List.pairwise_cons.mpr ⟨?_, ih⟩
        intro run' hrun' a ha x hx
        obtain rfl := List.mem_singleton.mp ha
        rcases List.mem_cons.mp hrun' with rfl | hrun'
        · have := (hc x hx).2
          omega
        · have hfar := hfirst run' hrun' c List.mem_cons_self x hx
          omega
    · next hnot =>
      cases hruns : runs rest with
      | nil => exact List.pairwise_singleton _ _
      | cons run more =>
        have hrun : run ∈ runs rest := hruns ▸ List.mem_cons_self
        obtain ⟨hne, -⟩ := consecutive_of_mem_runs hrun
        obtain ⟨c, tail, rfl⟩ := List.exists_cons_of_ne_nil hne
        exact absurd hruns (hnot c tail more)

/-- Above a byte of ascending bytes that is not the last one there is another byte. -/
theorem toNat_add_one_of_ascending {bytes : Bytes} (hbytes : bytes.Pairwise (· < ·)) {i : Nat}
    {b : UInt8} (hb : bytes[i]? = some b) (hi : i + 1 < bytes.length) :
    (b + 1).toNat = b.toNat + 1 := by
  obtain ⟨hlt, rfl⟩ := List.getElem?_eq_some_iff.mp hb
  have hnext := List.pairwise_iff_getElem.mp hbytes i (i + 1) hlt hi (Nat.lt_succ_self i)
  rw [UInt8.lt_iff_toNat_lt] at hnext
  have hbound := bytes[i + 1].toNat_lt
  rw [UInt8.toNat_add, UInt8.toNat_one]
  omega

/-- The bytes from `first` to `last` are members, and the bytes next to them are not. -/
structure MaximalRun (bytes : Bytes) (first last : UInt8) : Prop where
  le : first ≤ last
  mem : ∀ b, first ≤ b → b ≤ last → b ∈ bytes
  before : ∀ b ∈ bytes, b.toNat + 1 ≠ first.toNat
  after : ∀ b ∈ bytes, last.toNat + 1 ≠ b.toNat

/-- The first and the last byte of a run. -/
def Spans (run : Bytes) (first last : UInt8) : Prop :=
  run.head? = some first ∧ run.getLast? = some last

theorem exists_spans {bytes run : Bytes} (h : run ∈ runs bytes) :
    ∃ first last, Spans run first last := by
  obtain ⟨hne, -⟩ := consecutive_of_mem_runs h
  exact ⟨_, _, List.head?_eq_some_head hne, List.getLast?_eq_some_getLast hne⟩

theorem mem_iff_of_spans {bytes run : Bytes} (h : run ∈ runs bytes) {first last : UInt8}
    (hspans : Spans run first last) {b : UInt8} : b ∈ run ↔ first ≤ b ∧ b ≤ last :=
  mem_run_iff (consecutive_of_mem_runs h).2 hspans.1 hspans.2

theorem mem_iff_mem_runs (bytes : Bytes) (b : UInt8) :
    b ∈ bytes ↔ ∃ run ∈ runs bytes, b ∈ run := by
  conv_lhs => rw [← flatten_runs bytes, List.mem_flatten]

/-- The bytes of two runs are at least two apart. -/
def Apart (run run' : Bytes) : Prop :=
  ∀ a ∈ run, ∀ b ∈ run', a.toNat + 1 < b.toNat ∨ b.toNat + 1 < a.toNat

instance : Std.Symm Apart where
  symm _ _ h a ha b hb := (h b hb a ha).symm

/-- A byte and the one after it are in the same run. -/
theorem eq_run_of_next {bytes run run' : Bytes} (hbytes : bytes.Pairwise (· < ·))
    (hrun : run ∈ runs bytes) (hrun' : run' ∈ runs bytes) {a b : UInt8} (ha : a ∈ run)
    (hb : b ∈ run') (hnext : a.toNat + 1 = b.toNat) : run = run' := by
  have hapart : (runs bytes).Pairwise Apart :=
    (pairwise_runs hbytes).imp fun h a ha b hb => Or.inl (h a ha b hb)
  by_contra hne
  rcases hapart.forall hrun hrun' hne a ha b hb with h | h
  · omega
  · omega

theorem maximalRun_of_spans {bytes run : Bytes} (hbytes : bytes.Pairwise (· < ·))
    (hrun : run ∈ runs bytes) {first last : UInt8} (hspans : Spans run first last) :
    MaximalRun bytes first last := by
  have hfirst : first ∈ run := List.mem_of_head? hspans.1
  have hlast : last ∈ run := List.mem_of_getLast? hspans.2
  refine ⟨((mem_iff_of_spans hrun hspans).mp hfirst).2, ?_, ?_, ?_⟩
  · intro b hge hle
    exact (mem_iff_mem_runs bytes b).mpr ⟨run, hrun, (mem_iff_of_spans hrun hspans).mpr ⟨hge, hle⟩⟩
  · intro b hb heq
    obtain ⟨run', hrun', hb'⟩ := (mem_iff_mem_runs bytes b).mp hb
    have hsame := eq_run_of_next hbytes hrun' hrun hb' hfirst heq
    have hge := UInt8.le_iff_toNat_le.mp ((mem_iff_of_spans hrun hspans).mp (hsame ▸ hb')).1
    omega
  · intro b hb heq
    obtain ⟨run', hrun', hb'⟩ := (mem_iff_mem_runs bytes b).mp hb
    have hsame := eq_run_of_next hbytes hrun hrun' hlast hb' heq
    have hle := UInt8.le_iff_toNat_le.mp ((mem_iff_of_spans hrun hspans).mp (hsame ▸ hb')).2
    omega

section Shared

variable {bytes : Bytes} {first last first' last' b : UInt8} (h : MaximalRun bytes first last)
  (h' : MaximalRun bytes first' last') (hb : first ≤ b ∧ b ≤ last) (hb' : first' ≤ b ∧ b ≤ last')

include h h' hb hb'

/-- Were a run longer at its front than one that it meets, the byte before that one would be a
member. -/
theorem MaximalRun.first_le : first' ≤ first := by
  simp only [UInt8.le_iff_toNat_le] at hb hb' ⊢
  by_contra hlt
  obtain ⟨x, hx⟩ := ByteSet.exists_byte (n := first'.toNat - 1) (by have := b.toNat_lt; omega)
  have hmem : x ∈ bytes := by
    refine h.mem x ?_ ?_ <;> rw [UInt8.le_iff_toNat_le] <;> omega
  exact h'.before x hmem (by omega)

/-- Were it longer at its end, the byte behind that one would be a member. -/
theorem MaximalRun.last_le : last ≤ last' := by
  simp only [UInt8.le_iff_toNat_le] at hb hb' ⊢
  by_contra hlt
  obtain ⟨x, hx⟩ := ByteSet.exists_byte (n := last'.toNat + 1) (by have := last.toNat_lt; omega)
  have hmem : x ∈ bytes := by
    refine h.mem x ?_ ?_ <;> rw [UInt8.le_iff_toNat_le] <;> omega
  exact h'.after x hmem hx.symm

/-- Maximal runs that meet are the same. -/
theorem MaximalRun.eq_of_shared : first = first' ∧ last = last' :=
  ⟨UInt8.le_antisymm (first_le h' h hb' hb) (first_le h h' hb hb'),
    UInt8.le_antisymm (last_le h h' hb hb') (last_le h' h hb' hb)⟩

end Shared

/-- **The runs of ascending bytes are the maximal ones.** -/
theorem maximalRun_iff {bytes : Bytes} (hbytes : bytes.Pairwise (· < ·)) {first last : UInt8} :
    MaximalRun bytes first last ↔ ∃ run ∈ runs bytes, Spans run first last := by
  constructor
  · intro h
    have hfirst := h.mem first (UInt8.le_refl _) h.le
    obtain ⟨run, hrun, hmem⟩ := (mem_iff_mem_runs bytes first).mp hfirst
    obtain ⟨first', last', hspans⟩ := exists_spans hrun
    obtain ⟨rfl, rfl⟩ := h.eq_of_shared (maximalRun_of_spans hbytes hrun hspans)
      ⟨UInt8.le_refl _, h.le⟩ ((mem_iff_of_spans hrun hspans).mp hmem)
    exact ⟨run, hrun, hspans⟩
  · rintro ⟨run, hrun, hspans⟩
    exact maximalRun_of_spans hbytes hrun hspans

theorem length_of_spans {bytes run : Bytes} (h : run ∈ runs bytes) {first last : UInt8}
    (hspans : Spans run first last) : first.toNat + run.length = last.toNat + 1 := by
  have hrun := (consecutive_of_mem_runs h).2
  obtain ⟨hfirst, hlast⟩ := hspans
  clear h
  induction run generalizing first with
  | nil => simp at hfirst
  | cons a rest ih =>
    obtain rfl : a = first := by simpa using hfirst
    cases rest with
    | nil =>
      obtain rfl : a = last := by simpa using hlast
      rfl
    | cons c tail =>
      obtain ⟨hnext, hrest⟩ := List.isChain_cons_cons.mp hrun
      have := ih hrest rfl (by simpa using hlast)
      rw [List.length_cons]
      omega

/-! ## Ranges and points -/

namespace TransitionSet

/-- The bytes of the ranges one after the other, and then the points. -/
def listed (set : TransitionSet) : Bytes :=
  set.ranges.flatMap (fun range => (ByteSet.range range.1 range.2).toList) ++ set.points

/-- The ranges and the points of a set say which bytes it has: each maximal run of three or more
bytes is a range, the bytes of the other maximal runs are points, and both come in ascending
order. -/
structure Canonical (set : TransitionSet) : Prop where
  nonempty : set.bytes ≠ []
  ascending : set.bytes.Pairwise (· < ·)
  listed : set.listed.Perm set.bytes
  ranges_iff : ∀ first last, (first, last) ∈ set.ranges ↔
    MaximalRun set.bytes first last ∧ first.toNat + 2 ≤ last.toNat
  points_iff : ∀ b, b ∈ set.points ↔ ∃ first last, MaximalRun set.bytes first last ∧
    last.toNat < first.toNat + 2 ∧ first ≤ b ∧ b ≤ last
  ranges : set.ranges.Pairwise fun range range' => range.2 < range'.1
  points : set.points.Pairwise (· < ·)

theorem contains_foldl_union (ranges : List (UInt8 × UInt8)) (set : ByteSet) (b : UInt8) :
    (ranges.foldl (fun acc range => acc.union (ByteSet.range range.1 range.2)) set).contains b =
      true ↔ set.contains b = true ∨ ∃ range ∈ ranges, range.1 ≤ b ∧ b ≤ range.2 := by
  induction ranges generalizing set with
  | nil => simp
  | cons range rest ih =>
    rw [List.foldl_cons, ih, ByteSet.contains_union, Bool.or_eq_true, ByteSet.contains_range,
      List.exists_mem_cons_iff, or_assoc]

theorem mem_bytes_iff {set : TransitionSet} {b : UInt8} : b ∈ set.bytes ↔ set.Covers b := by
  rw [bytes, ByteSet.mem_toList, byteSet, contains_foldl_union, ByteSet.contains_ofList, Covers,
    or_comm]

theorem pairwise_bytes (set : TransitionSet) : set.bytes.Pairwise (· < ·) :=
  ByteSet.pairwise_toList _

theorem rangeOfRun?_eq_some_iff {run : Bytes} {first last : UInt8} :
    rangeOfRun? run = some (first, last) ↔ run.length > maxPoints ∧ Spans run first last := by
  refine ⟨mem_rangeOfRun?, ?_⟩
  rintro ⟨hlong, hfirst, hlast⟩
  rw [rangeOfRun?, if_pos hlong, hfirst, hlast]

section OfGroup

variable {group : Group} (h : group.bytes.Pairwise (· < ·))

include h

/-- **The bytes of a set are those of its group.** -/
theorem bytes_ofGroup : (ofGroup group).bytes = group.bytes :=
  (pairwise_bytes _).eq_of_mem_iff h fun _ => mem_bytes_iff.trans covers_ofGroup_iff

theorem mem_ranges_ofGroup_iff {first last : UInt8} : (first, last) ∈ (ofGroup group).ranges ↔
    MaximalRun group.bytes first last ∧ first.toNat + 2 ≤ last.toNat := by
  rw [maximalRun_iff h]
  show (first, last) ∈ (runs group.bytes).filterMap rangeOfRun? ↔ _
  rw [List.mem_filterMap]
  constructor
  · rintro ⟨run, hrun, hrange⟩
    obtain ⟨hlong, hspans⟩ := rangeOfRun?_eq_some_iff.mp hrange
    have hlength := length_of_spans hrun hspans
    rw [maxPoints] at hlong
    exact ⟨⟨run, hrun, hspans⟩, by omega⟩
  · rintro ⟨⟨run, hrun, hspans⟩, hlong⟩
    have hlength := length_of_spans hrun hspans
    refine ⟨run, hrun, rangeOfRun?_eq_some_iff.mpr ⟨?_, hspans⟩⟩
    rw [maxPoints]
    omega

theorem mem_points_ofGroup_iff {b : UInt8} : b ∈ (ofGroup group).points ↔
    ∃ first last, MaximalRun group.bytes first last ∧ last.toNat < first.toNat + 2 ∧
      first ≤ b ∧ b ≤ last := by
  show b ∈ ((runs group.bytes).filter fun run => run.length ≤ maxPoints).flatten ↔ _
  simp only [maximalRun_iff h, List.mem_flatten, List.mem_filter]
  constructor
  · rintro ⟨run, ⟨hrun, hshort⟩, hb⟩
    obtain ⟨first, last, hspans⟩ := exists_spans hrun
    have hlength := length_of_spans hrun hspans
    have hshort : run.length ≤ 2 := of_decide_eq_true hshort
    exact ⟨first, last, ⟨run, hrun, hspans⟩, by omega, (mem_iff_of_spans hrun hspans).mp hb⟩
  · rintro ⟨first, last, ⟨run, hrun, hspans⟩, hshort, hb⟩
    have hlength := length_of_spans hrun hspans
    have hshort : run.length ≤ 2 := by omega
    exact ⟨run, ⟨hrun, decide_eq_true hshort⟩, (mem_iff_of_spans hrun hspans).mpr hb⟩

theorem pairwise_ranges_ofGroup :
    (ofGroup group).ranges.Pairwise fun range range' => range.2 < range'.1 := by
  show ((runs group.bytes).filterMap rangeOfRun?).Pairwise _
  rw [List.pairwise_filterMap]
  refine (pairwise_runs h).imp ?_
  intro run run' hapart range hrange range' hrange'
  obtain ⟨-, -, hlast⟩ := mem_rangeOfRun? hrange
  obtain ⟨-, hfirst, -⟩ := mem_rangeOfRun? hrange'
  have := hapart _ (List.mem_of_getLast? hlast) _ (List.mem_of_head? hfirst)
  rw [UInt8.lt_iff_toNat_lt]
  omega

theorem pairwise_points_ofGroup : (ofGroup group).points.Pairwise (· < ·) := by
  have hsub : (ofGroup group).points.Sublist (runs group.bytes).flatten :=
    List.Sublist.flatten (List.filter_sublist)
  rw [flatten_runs] at hsub
  exact h.sublist hsub

/-- A range lists the bytes of its run. -/
theorem toList_range_of_spans {run : Bytes} (hrun : run ∈ runs group.bytes) {first last : UInt8}
    (hspans : Spans run first last) : (ByteSet.range first last).toList = run := by
  have hsub : run.Sublist group.bytes := by
    conv_rhs => rw [← flatten_runs group.bytes]
    exact List.sublist_flatten_of_mem hrun
  refine (ByteSet.pairwise_toList _).eq_of_mem_iff (h.sublist hsub) fun b => ?_
  rw [ByteSet.mem_toList, ByteSet.contains_range, mem_iff_of_spans hrun hspans]

/-- The ranges list the bytes of the long runs. -/
theorem flatMap_rangeOfRun? {chosen : List Bytes}
    (hchosen : ∀ run ∈ chosen, run ∈ runs group.bytes) :
    (chosen.filterMap rangeOfRun?).flatMap (fun range =>
      (ByteSet.range range.1 range.2).toList) =
    (chosen.filter fun run => !decide (List.length run ≤ maxPoints)).flatten := by
  induction chosen with
  | nil => rfl
  | cons run rest ih =>
    obtain ⟨hrun, hrest⟩ := List.forall_mem_cons.mp hchosen
    by_cases hlong : List.length run > maxPoints
    · obtain ⟨⟨first, last⟩, hrange⟩ := exists_rangeOfRun? hlong
      have hspans := (rangeOfRun?_eq_some_iff.mp hrange).2
      rw [List.filterMap_cons_some hrange, List.flatMap_cons, toList_range_of_spans h hrun hspans,
        ih hrest, List.filter_cons_of_pos (by simpa using hlong), List.flatten_cons]
    · have hnone : rangeOfRun? run = none := if_neg hlong
      rw [List.filterMap_cons_none hnone, ih hrest, List.filter_cons_of_neg (by simpa using hlong)]

/-- **Ranges and points list each byte of the group once.** -/
theorem listed_ofGroup_perm : (ofGroup group).listed.Perm group.bytes := by
  show (((runs group.bytes).filterMap rangeOfRun?).flatMap _ ++
    ((runs group.bytes).filter fun run => List.length run ≤ maxPoints).flatten).Perm group.bytes
  rw [flatMap_rangeOfRun? h fun _ hrun => hrun, ← List.flatten_append]
  conv_rhs => rw [← flatten_runs group.bytes]
  exact (List.perm_append_comm.trans (List.filter_append_perm _ _)).flatten

theorem canonical_ofGroup (hne : group.bytes ≠ []) : (ofGroup group).Canonical where
  nonempty := by rwa [bytes_ofGroup h]
  ascending := pairwise_bytes _
  listed := by
    rw [bytes_ofGroup h]
    exact listed_ofGroup_perm h
  ranges_iff first last := by
    rw [bytes_ofGroup h]
    exact mem_ranges_ofGroup_iff h
  points_iff b := by
    rw [bytes_ofGroup h]
    exact mem_points_ofGroup_iff h
  ranges := pairwise_ranges_ofGroup h
  points := pairwise_points_ofGroup h

end OfGroup

end TransitionSet

/-! ## The sets of a state -/

/-- The transition on the bytes of a set. -/
def TransitionSet.transition (set : TransitionSet) : Transition :=
  ⟨set.target, set.actions, set.accept⟩

/-- The transitions that a set stands for: one for each byte of its ranges and points. -/
def TransitionSet.entries (set : TransitionSet) : List (UInt8 × Transition) :=
  set.listed.map fun b => (b, set.transition)

/-- The sets of a state stand for its transitions, each byte in one of them, and there is only one
way to write them: no two sets could be one, the sets come in the order of their lowest bytes, and
each has its bytes as the ranges and points of its maximal runs. Where runs are looked for, adding
one to a byte that another byte follows does not wrap around. -/
structure State.CanonicalSets (s : State) : Prop where
  entries : (s.sets.flatMap TransitionSet.entries).Perm s.transitions
  on?_iff : ∀ b t, s.on? b = some t ↔ ∃ set ∈ s.sets, b ∈ set.bytes ∧ set.transition = t
  disjoint : s.sets.Pairwise fun set set' => ∀ b ∈ set.bytes, b ∉ set'.bytes
  distinct : s.sets.Pairwise fun set set' =>
    ¬ (set.target = set'.target ∧ set.actions = set'.actions)
  lowest : s.sets.Pairwise fun set set' =>
    ∃ low, set.bytes.head? = some low ∧ ∀ b ∈ set'.bytes, low < b
  canonical : ∀ set ∈ s.sets, set.Canonical
  succ : ∀ g ∈ groups s, ∀ i b, g.bytes[i]? = some b → i + 1 < g.bytes.length →
    (b + 1).toNat = b.toNat + 1

section State

variable {s : State} (hkeys : AscendingKeys s.transitions)

include hkeys

theorem canonical_of_mem_sets {set : TransitionSet} (hset : set ∈ s.sets) : set.Canonical := by
  obtain ⟨g, hg, rfl⟩ := List.mem_map.mp hset
  have hordered := ordered_groups hkeys
  exact TransitionSet.canonical_ofGroup (hordered.ascending g hg) (hordered.nonempty g hg)

/-- **The bytes of a set are those that it lists, sorted.** -/
theorem bytes_eq_mergeSort {set : TransitionSet} (hset : set ∈ s.sets) :
    set.bytes = set.listed.mergeSort (fun a b => decide (a ≤ b)) := by
  have hcanonical := canonical_of_mem_sets hkeys hset
  have hbytes : set.bytes.Pairwise (· ≤ ·) := hcanonical.ascending.imp UInt8.le_of_lt
  have hsorted : (set.listed.mergeSort fun a b => decide (a ≤ b)).Pairwise (· ≤ ·) := by
    refine (List.pairwise_mergeSort ?_ ?_ _).imp fun hle => of_decide_eq_true hle
    · intro a b c hab hbc
      exact decide_eq_true (UInt8.le_trans (of_decide_eq_true hab) (of_decide_eq_true hbc))
    · intro a b
      rw [Bool.or_eq_true, decide_eq_true_iff, decide_eq_true_iff]
      exact UInt8.le_total a b
  have hperm : set.bytes.Perm (set.listed.mergeSort fun a b => decide (a ≤ b)) :=
    hcanonical.listed.symm.trans (List.mergeSort_perm _ _).symm
  exact hperm.eq_of_pairwise (fun _ _ _ _ => UInt8.le_antisymm) hbytes hsorted

theorem on?_eq_some_iff_sets
    (haccept : ∀ b b' t t', s.on? b = some t → s.on? b' = some t' → t.target = t'.target →
      t.accept = t'.accept) {b : UInt8} {t : Transition} :
    s.on? b = some t ↔ ∃ set ∈ s.sets, b ∈ set.bytes ∧ set.transition = t := by
  constructor
  · intro hon
    obtain ⟨set, hset, hcovers⟩ := exists_covers_of_mem hkeys hon
    obtain ⟨t', hon', htarget, hactions⟩ := (covers_iff_of_mem_sets hkeys hset).mp hcovers
    obtain rfl : t' = t := Option.some.inj (hon'.symm.trans hon)
    obtain ⟨b'', t'', hon'', htarget'', hmark⟩ := exists_accept_of_mem_sets hkeys hset
    refine ⟨set, hset, TransitionSet.mem_bytes_iff.mpr hcovers, ?_⟩
    rw [TransitionSet.transition, htarget, hactions, hmark,
      haccept b'' b t'' t' hon'' hon (htarget''.symm.trans htarget)]
  · rintro ⟨set, hset, hb, rfl⟩
    obtain ⟨t', hon', htarget, hactions⟩ :=
      (covers_iff_of_mem_sets hkeys hset).mp (TransitionSet.mem_bytes_iff.mp hb)
    obtain ⟨b'', t'', hon'', htarget'', hmark⟩ := exists_accept_of_mem_sets hkeys hset
    rw [hon', TransitionSet.transition, htarget, hactions, hmark,
      haccept b'' b t'' t' hon'' hon' (htarget''.symm.trans htarget)]

theorem disjoint_sets : s.sets.Pairwise fun set set' => ∀ b ∈ set.bytes, b ∉ set'.bytes := by
  rw [List.pairwise_iff_getElem]
  intro i j hi hj hlt b hb hb'
  have hapart := List.pairwise_iff_getElem.mp (pairwise_sets hkeys b) i j hi hj hlt
  exact hapart ⟨TransitionSet.mem_bytes_iff.mp hb, TransitionSet.mem_bytes_iff.mp hb'⟩

theorem nodup_entries : (s.sets.flatMap TransitionSet.entries).Nodup := by
  refine List.nodup_flatMap.mpr ⟨fun set hset => ?_, ?_⟩
  · have hcanonical := canonical_of_mem_sets hkeys hset
    have hlisted : set.listed.Nodup :=
      hcanonical.listed.nodup_iff.mpr (hcanonical.ascending.imp UInt8.ne_of_lt)
    exact hlisted.map fun b b' heq => (Prod.mk.inj heq).1
  · refine List.Pairwise.imp_of_mem ?_ (disjoint_sets hkeys)
    intro set set' hset hset' hdisjoint entry hentry hentry'
    obtain ⟨b, hb, rfl⟩ := List.mem_map.mp hentry
    obtain ⟨b', hb', heq⟩ := List.mem_map.mp hentry'
    obtain rfl : b' = b := (Prod.mk.inj heq).1
    exact hdisjoint b' ((canonical_of_mem_sets hkeys hset).listed.mem_iff.mp hb)
      ((canonical_of_mem_sets hkeys hset').listed.mem_iff.mp hb')

/-- **The sets of a state are canonical**, if transitions to the same state agree on whether it
accepts. -/
theorem canonicalSets_of_ascendingKeys
    (haccept : ∀ b b' t t', s.on? b = some t → s.on? b' = some t' → t.target = t'.target →
      t.accept = t'.accept) : s.CanonicalSets where
  entries := by
    have hnodup : s.transitions.Nodup := hkeys.imp fun h heq => by
      rw [heq] at h
      exact UInt8.lt_irrefl _ h
    refine (List.perm_ext_iff_of_nodup (nodup_entries hkeys) hnodup).mpr ?_
    rintro ⟨b, t⟩
    rw [← Ascending.get?_eq_some_iff hkeys]
    refine Iff.trans ?_ (on?_eq_some_iff_sets hkeys haccept).symm
    rw [List.mem_flatMap]
    refine exists_congr fun set => and_congr_right fun hset => ?_
    rw [← (canonical_of_mem_sets hkeys hset).listed.mem_iff]
    simp [TransitionSet.entries]
  on?_iff b t := on?_eq_some_iff_sets hkeys haccept
  disjoint := disjoint_sets hkeys
  distinct := by
    rw [State.sets, List.pairwise_map]
    exact (grouped_groups s).apart
  lowest := by
    rw [State.sets, List.pairwise_map]
    have hordered := ordered_groups hkeys
    refine List.Pairwise.imp_of_mem ?_ hordered.lowest
    intro g g' hg hg' hlow
    rwa [TransitionSet.bytes_ofGroup (hordered.ascending g hg),
      TransitionSet.bytes_ofGroup (hordered.ascending g' hg')]
  canonical set hset := canonical_of_mem_sets hkeys hset
  succ g hg i b := toNat_add_one_of_ascending ((ordered_groups hkeys).ascending g hg)

end State

/-! ## Automata -/

theorem wellFormed_of_build? {nfa : Nfa} {dfa : Dfa} {notes : List Note} (hnfa : nfa.InRange)
    (hsize : Nfa.initial < nfa.size) (h : build? nfa = some (dfa, notes)) : WellFormed dfa := by
  obtain ⟨plain, hsubsets, hplain, -⟩ := SymbolDfa.exists_ofNfa? hnfa hsize
  obtain ⟨f, hfold, hready, -⟩ := SymbolDfa.exists_fold? hplain.toInRange
  rw [build?, hsubsets, Option.bind_some, hfold, Option.bind_some, Option.map_eq_some_iff] at h
  obtain ⟨dfa', hnumbered, heq⟩ := h
  obtain ⟨rfl, -⟩ := Prod.mk.inj heq
  have hclosed : Closed ⟨f.states⟩ := ⟨hready.zero_lt hplain, hready.target_lt, hready.keys⟩
  exact wellFormed_of_ofSymbolDfa? hclosed hnumbered

/-- **The transition sets of an automaton are exact and canonical.** -/
theorem canonicalSets_of_build? {nfa : Nfa} {dfa : Dfa} {notes : List Note} (hnfa : nfa.InRange)
    (hsize : Nfa.initial < nfa.size) (h : build? nfa = some (dfa, notes)) {s : State}
    (hs : s ∈ dfa.states) : s.CanonicalSets := by
  have hwell := wellFormed_of_build? hnfa hsize h
  obtain ⟨id, hid, rfl⟩ := Array.mem_iff_getElem.mp hs
  have hstate : dfa.state id = dfa.states[id] := by
    rw [state, Array.getD_eq_getD_getElem?, Array.getElem?_eq_getElem hid, Option.getD_some]
  rw [← hstate]
  refine canonicalSets_of_ascendingKeys (hwell.keys id) fun b b' t t' hon hon' htarget => ?_
  rw [hwell.accept id b t hon, hwell.accept id b' t' hon', htarget]

/-- Two bytes next to each other, three others, and the highest one: `0|1|a|b|c|\xff`. -/
def stretchesTree : Pattern.Tree :=
  .alternate (.alternate (.alternate (.alternate (.alternate (.byte 48) (.byte 49)) (.byte 97))
    (.byte 98)) (.byte 99)) (.byte 255)

theorem canonicalSets_stretchesTree : ∃ dfa notes,
    build? (Nfa.ofTree stretchesTree) = some (dfa, notes) ∧ ∃ s ∈ dfa.states,
      s.sets = [⟨1, [], true, [(97, 99)], [48, 49, 255]⟩] ∧ s.CanonicalSets := by
  have hsets : ((build? (Nfa.ofTree stretchesTree)).any fun built =>
      built.1.states.any fun s =>
        s.sets == [⟨1, [], true, [(97, 99)], [48, 49, 255]⟩]) = true := by cbv
  obtain ⟨⟨dfa, notes⟩, hbuild, hsets⟩ := (Option.any_eq_true _ _).mp hsets
  obtain ⟨i, hi, heq⟩ := Array.any_eq_true.mp hsets
  have hsize : Nfa.initial < (Nfa.ofTree stretchesTree).size :=
    Nat.lt_of_lt_of_le (by decide) (Nfa.two_le_size_ofTree _)
  exact ⟨dfa, notes, hbuild, _, Array.getElem_mem hi, by simpa using heq,
    canonicalSets_of_build? (Nfa.inRange_ofTree _) hsize hbuild (Array.getElem_mem hi)⟩

end ActionRegex.Dfa
