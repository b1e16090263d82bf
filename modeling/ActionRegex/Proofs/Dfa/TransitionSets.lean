import ActionRegex.Dfa.TransitionSet
import ActionRegex.Proofs.Ascending
import Mathlib.Data.List.Basic

/-!
# What the transition sets of a state cover

The bytes of a group are split into runs of consecutive bytes, and a run is what lies between its
first and its last byte; so ranges and points together cover exactly the bytes of the group
(`covers_ofGroup_iff`). The groups of a state share out its transitions by target and actions
(`grouped_groups`). Together: the sets of a state cover a byte if and only if the state has a
transition on it, and the set that does has the target and the actions of that transition
(`covers_iff_of_mem_sets`, `exists_covers_of_mem`).
-/

namespace ActionRegex.Dfa

open Ascending (AscendingKeys)

/-! ## Runs -/

/-- Each byte of a run is one more than the byte before it. -/
def Consecutive (run : Bytes) : Prop := run.IsChain fun a b => a.toNat + 1 = b.toNat

theorem flatten_runs (bytes : Bytes) : (runs bytes).flatten = bytes := by
  induction bytes with
  | nil => rfl
  | cons b rest ih =>
    rw [runs]
    split
    · next c run more heq =>
      rw [heq] at ih
      split
      · simpa using ih
      · simpa using ih
    · simpa using ih

theorem mem_runs_cases {b : UInt8} {rest run : Bytes} (h : run ∈ runs (b :: rest)) :
    run ∈ runs rest ∨ run = [b] ∨
      ∃ c tail, (c :: tail) ∈ runs rest ∧ b.toNat + 1 = c.toNat ∧ run = b :: c :: tail := by
  rw [runs] at h
  split at h
  · next c tail more heq =>
    split at h
    · next hnext =>
      rcases List.mem_cons.mp h with rfl | h
      · exact Or.inr (Or.inr ⟨c, tail, by simp [heq], hnext, rfl⟩)
      · exact Or.inl (by simp [heq, h])
    · rcases List.mem_cons.mp h with rfl | h
      · exact Or.inr (Or.inl rfl)
      · exact Or.inl (by rwa [heq])
  · rcases List.mem_cons.mp h with rfl | h
    · exact Or.inr (Or.inl rfl)
    · exact Or.inl h

theorem consecutive_of_mem_runs {bytes run : Bytes} (h : run ∈ runs bytes) :
    run ≠ [] ∧ Consecutive run := by
  induction bytes generalizing run with
  | nil => simp [runs] at h
  | cons b rest ih =>
    rcases mem_runs_cases h with h | rfl | ⟨c, tail, hmem, hnext, rfl⟩
    · exact ih h
    · exact ⟨by simp, List.isChain_singleton b⟩
    · exact ⟨by simp, List.isChain_cons_cons.mpr ⟨hnext, (ih hmem).2⟩⟩

/-- **A run consists of the bytes between its first and its last one.** -/
theorem mem_run_iff {first last b : UInt8} {run : Bytes} (hrun : Consecutive run)
    (hfirst : run.head? = some first) (hlast : run.getLast? = some last) :
    b ∈ run ↔ first ≤ b ∧ b ≤ last := by
  induction run generalizing first b with
  | nil => simp at hfirst
  | cons a rest ih =>
    obtain rfl : a = first := by simpa using hfirst
    cases rest with
    | nil =>
      obtain rfl : a = last := by simpa using hlast
      rw [List.mem_singleton, UInt8.le_iff_toNat_le, UInt8.le_iff_toNat_le, ← UInt8.toNat_inj]
      omega
    | cons c tail =>
      obtain ⟨hnext, hrest⟩ := List.isChain_cons_cons.mp hrun
      have hlast' : (c :: tail).getLast? = some last := by simpa using hlast
      -- the last byte is not below the second one
      have hle : c ≤ last :=
        ((ih hrest rfl hlast').mp (List.mem_of_getLast? hlast')).1
      rw [List.mem_cons, ih hrest rfl hlast']
      simp only [UInt8.le_iff_toNat_le, ← UInt8.toNat_inj] at hle ⊢
      omega

/-! ## Ranges and points -/

/-- A transition set covers a byte: the byte is one of its points or in one of its ranges. -/
def TransitionSet.Covers (set : TransitionSet) (b : UInt8) : Prop :=
  (∃ range ∈ set.ranges, range.1 ≤ b ∧ b ≤ range.2) ∨ b ∈ set.points

theorem TransitionSet.mem_rangeOfRun? {run : Bytes} {range : UInt8 × UInt8}
    (h : rangeOfRun? run = some range) :
    run.length > maxPoints ∧ run.head? = some range.1 ∧ run.getLast? = some range.2 := by
  unfold rangeOfRun? at h
  split at h
  · next hlong =>
    split at h
    · next first last hfirst hlast =>
      cases h
      exact ⟨hlong, hfirst, hlast⟩
    · simp at h
  · simp at h

theorem TransitionSet.exists_rangeOfRun? {run : Bytes} (h : run.length > maxPoints) :
    ∃ range, rangeOfRun? run = some range := by
  cases run with
  | nil => simp at h
  | cons b rest =>
    refine ⟨(b, (b :: rest).getLast (by simp)), ?_⟩
    rw [rangeOfRun?, if_pos h, List.getLast?_eq_some_getLast (by simp)]
    rfl

/-- **Ranges and points cover the bytes of the group.** -/
theorem TransitionSet.covers_ofGroup_iff {group : Group} {b : UInt8} :
    (ofGroup group).Covers b ↔ b ∈ group.bytes := by
  conv_rhs => rw [← flatten_runs group.bytes, List.mem_flatten]
  show (∃ range ∈ (runs group.bytes).filterMap rangeOfRun?, range.1 ≤ b ∧ b ≤ range.2) ∨
    b ∈ ((runs group.bytes).filter fun run => run.length ≤ maxPoints).flatten ↔ _
  constructor
  · rintro (⟨range, hrange, hb⟩ | hb)
    · obtain ⟨run, hrun, hof⟩ := List.mem_filterMap.mp hrange
      obtain ⟨-, hfirst, hlast⟩ := mem_rangeOfRun? hof
      exact ⟨run, hrun, (mem_run_iff (consecutive_of_mem_runs hrun).2 hfirst hlast).mpr hb⟩
    · obtain ⟨run, hrun, hb⟩ := List.mem_flatten.mp hb
      exact ⟨run, (List.mem_filter.mp hrun).1, hb⟩
  · rintro ⟨run, hrun, hb⟩
    by_cases hlong : run.length > maxPoints
    · obtain ⟨range, hof⟩ := exists_rangeOfRun? hlong
      obtain ⟨-, hfirst, hlast⟩ := mem_rangeOfRun? hof
      exact Or.inl ⟨range, List.mem_filterMap.mpr ⟨run, hrun, hof⟩,
        (mem_run_iff (consecutive_of_mem_runs hrun).2 hfirst hlast).mp hb⟩
    · exact Or.inr (List.mem_flatten.mpr
        ⟨run, List.mem_filter.mpr ⟨hrun, by simpa using hlong⟩, hb⟩)

/-! ## Groups -/

/-- A transition belongs to a group: it has the same target and the same actions. -/
def Group.Has (group : Group) (t : Transition) : Prop :=
  group.target = t.target ∧ group.actions = t.actions

/-- Two groups differ in their target or their actions. -/
def Group.Apart (group other : Group) : Prop :=
  ¬ (group.target = other.target ∧ group.actions = other.actions)

instance : Std.Symm Group.Apart where
  symm _ _ h h' := h ⟨h'.1.symm, h'.2.symm⟩

/-- Groups share out some transitions. The mark on a group is that of one of its transitions. -/
structure Grouped (entries : List (UInt8 × Transition)) (groups : List Group) : Prop where
  apart : groups.Pairwise Group.Apart
  complete : ∀ b t, (b, t) ∈ entries → ∃ g ∈ groups, g.Has t ∧ b ∈ g.bytes
  sound : ∀ g ∈ groups, ∀ b ∈ g.bytes, ∃ t, (b, t) ∈ entries ∧ g.Has t
  accept : ∀ g ∈ groups, ∃ b t, (b, t) ∈ entries ∧ g.Has t ∧ g.accept = t.accept

/-- A group after a transition is added: one that was there, one that takes up the byte, or one of
its own. -/
theorem mem_addToGroups_cases {b : UInt8} {t : Transition} {groups : List Group} {g : Group}
    (h : g ∈ addToGroups b t groups) :
    g ∈ groups ∨ (∃ g' ∈ groups, g'.Has t ∧ g = { g' with bytes := g'.bytes ++ [b] }) ∨
      g = ⟨t.target, t.actions, t.accept, [b]⟩ := by
  induction groups with
  | nil =>
    rw [addToGroups, List.mem_singleton] at h
    exact Or.inr (Or.inr h)
  | cons first rest ih =>
    rw [addToGroups] at h
    split at h
    · next hhas =>
      rcases List.mem_cons.mp h with h | h
      · exact Or.inr (Or.inl ⟨first, List.mem_cons_self, hhas, h⟩)
      · exact Or.inl (List.mem_cons_of_mem _ h)
    · rcases List.mem_cons.mp h with rfl | h
      · exact Or.inl List.mem_cons_self
      · rcases ih h with h | ⟨g', hg', h⟩ | h
        · exact Or.inl (List.mem_cons_of_mem _ h)
        · exact Or.inr (Or.inl ⟨g', List.mem_cons_of_mem _ hg', h⟩)
        · exact Or.inr (Or.inr h)

/-- No group loses a byte. -/
theorem exists_mem_addToGroups {b : UInt8} {t : Transition} {groups : List Group} {g : Group}
    (h : g ∈ groups) : ∃ g' ∈ addToGroups b t groups, g'.target = g.target ∧
      g'.actions = g.actions ∧ ∀ c ∈ g.bytes, c ∈ g'.bytes := by
  induction groups with
  | nil => simp at h
  | cons first rest ih =>
    rw [addToGroups]
    split
    · rcases List.mem_cons.mp h with rfl | h
      · exact ⟨_, List.mem_cons_self, rfl, rfl, fun c hc => List.mem_append_left _ hc⟩
      · exact ⟨g, List.mem_cons_of_mem _ h, rfl, rfl, fun c hc => hc⟩
    · rcases List.mem_cons.mp h with rfl | h
      · exact ⟨g, List.mem_cons_self, rfl, rfl, fun c hc => hc⟩
      · obtain ⟨g', hg', hkept⟩ := ih h
        exact ⟨g', List.mem_cons_of_mem _ hg', hkept⟩

theorem exists_has_addToGroups (b : UInt8) (t : Transition) (groups : List Group) :
    ∃ g ∈ addToGroups b t groups, g.Has t ∧ b ∈ g.bytes := by
  induction groups with
  | nil => exact ⟨_, List.mem_singleton_self _, ⟨rfl, rfl⟩, List.mem_singleton_self b⟩
  | cons first rest ih =>
    rw [addToGroups]
    split
    · next hhas => exact ⟨_, List.mem_cons_self, hhas, by simp⟩
    · obtain ⟨g, hg, hkept⟩ := ih
      exact ⟨g, List.mem_cons_of_mem _ hg, hkept⟩

/-- Groups stay apart: a group of its own is made only if no group has the transition. -/
theorem apart_addToGroups {b : UInt8} {t : Transition} {groups : List Group}
    (h : groups.Pairwise Group.Apart) : (addToGroups b t groups).Pairwise Group.Apart := by
  induction groups with
  | nil => exact List.pairwise_singleton _ _
  | cons first rest ih =>
    obtain ⟨hfirst, hrest⟩ := List.pairwise_cons.mp h
    rw [addToGroups]
    split
    · exact List.pairwise_cons.mpr ⟨hfirst, hrest⟩
    · next hnot =>
      refine List.pairwise_cons.mpr ⟨fun g hg => ?_, ih hrest⟩
      rcases mem_addToGroups_cases hg with hg | ⟨g', hg', -, rfl⟩ | rfl
      · exact hfirst g hg
      · exact hfirst g' hg'
      · exact hnot

theorem Grouped.add {entries : List (UInt8 × Transition)} {groups : List Group}
    (h : Grouped entries groups) (b : UInt8) (t : Transition) :
    Grouped (entries ++ [(b, t)]) (addToGroups b t groups) where
  apart := apart_addToGroups h.apart
  complete b' t' hmem := by
    rcases List.mem_append.mp hmem with hmem | hmem
    · obtain ⟨g, hg, hhas, hb⟩ := h.complete b' t' hmem
      obtain ⟨g', hg', htarget, hactions, hbytes⟩ := exists_mem_addToGroups (b := b) (t := t) hg
      exact ⟨g', hg', ⟨htarget.trans hhas.1, hactions.trans hhas.2⟩, hbytes b' hb⟩
    · cases List.mem_singleton.mp hmem
      exact exists_has_addToGroups b t groups
  sound g hg c hc := by
    rcases mem_addToGroups_cases hg with hg | ⟨g', hg', hhas, rfl⟩ | rfl
    · obtain ⟨t', hmem, hhas⟩ := h.sound g hg c hc
      exact ⟨t', List.mem_append_left _ hmem, hhas⟩
    · rcases List.mem_append.mp hc with hc | hc
      · obtain ⟨t', hmem, hhas'⟩ := h.sound g' hg' c hc
        exact ⟨t', List.mem_append_left _ hmem, hhas'⟩
      · exact ⟨t, by simp [List.mem_singleton.mp hc], hhas⟩
    · exact ⟨t, by simp [List.mem_singleton.mp hc], ⟨rfl, rfl⟩⟩
  accept g hg := by
    rcases mem_addToGroups_cases hg with hg | ⟨g', hg', -, rfl⟩ | rfl
    · obtain ⟨c, t', hmem, hkept⟩ := h.accept g hg
      exact ⟨c, t', List.mem_append_left _ hmem, hkept⟩
    · obtain ⟨c, t', hmem, hkept⟩ := h.accept g' hg'
      exact ⟨c, t', List.mem_append_left _ hmem, hkept⟩
    · exact ⟨b, t, by simp, ⟨rfl, rfl⟩, rfl⟩

theorem Grouped.foldl {entries : List (UInt8 × Transition)} {groups : List Group}
    (h : Grouped entries groups) (rest : List (UInt8 × Transition)) :
    Grouped (entries ++ rest)
      (rest.foldl (fun groups entry => addToGroups entry.1 entry.2 groups) groups) := by
  induction rest generalizing entries groups with
  | nil => simpa using h
  | cons entry rest ih =>
    rw [List.append_cons, List.foldl_cons]
    exact ih (h.add entry.1 entry.2)

/-- **The groups of a state share out its transitions.** -/
theorem grouped_groups (s : State) : Grouped s.transitions (groups s) := by
  have hempty : Grouped [] [] := ⟨List.Pairwise.nil, by simp, by simp, by simp⟩
  have hall := hempty.foldl s.transitions
  rwa [List.nil_append] at hall

/-! ## Sets -/

/-- A set covers the bytes whose transitions have its target and its actions. -/
theorem covers_iff_of_mem_sets {s : State} (hkeys : AscendingKeys s.transitions)
    {set : TransitionSet} (hset : set ∈ s.sets) {b : UInt8} :
    set.Covers b ↔ ∃ t, s.on? b = some t ∧ set.target = t.target ∧ set.actions = t.actions := by
  obtain ⟨g, hg, rfl⟩ := List.mem_map.mp hset
  have hgrouped := grouped_groups s
  rw [TransitionSet.covers_ofGroup_iff]
  constructor
  · intro hb
    obtain ⟨t, hmem, hhas⟩ := hgrouped.sound g hg b hb
    exact ⟨t, (Ascending.get?_eq_some_iff hkeys).mpr hmem, hhas⟩
  · rintro ⟨t, hon, hhas⟩
    obtain ⟨g', hg', hhas', hb⟩ := hgrouped.complete b t (Ascending.mem_of_get? hon)
    -- the group of the transition is the only one with its target and actions
    have heq : g = g' := by
      by_contra hne
      exact hgrouped.apart.forall hg hg' hne
        ⟨hhas.1.trans hhas'.1.symm, hhas.2.trans hhas'.2.symm⟩
    rwa [heq]

/-- Some set covers a byte with a transition. -/
theorem exists_covers_of_mem {s : State} (hkeys : AscendingKeys s.transitions) {b : UInt8}
    {t : Transition} (hon : s.on? b = some t) : ∃ set ∈ s.sets, set.Covers b := by
  obtain ⟨g, hg, hhas, -⟩ := (grouped_groups s).complete b t (Ascending.mem_of_get? hon)
  have hset : TransitionSet.ofGroup g ∈ s.sets := List.mem_map.mpr ⟨g, hg, rfl⟩
  exact ⟨_, hset, (covers_iff_of_mem_sets hkeys hset).mpr ⟨t, hon, hhas⟩⟩

/-- Each set covers a byte. -/
theorem exists_covers_of_mem_sets {s : State} (hkeys : AscendingKeys s.transitions)
    {set : TransitionSet} (hset : set ∈ s.sets) : ∃ b, set.Covers b := by
  obtain ⟨g, hg, rfl⟩ := List.mem_map.mp hset
  obtain ⟨b, t, hmem, hhas, -⟩ := (grouped_groups s).accept g hg
  exact ⟨b, (covers_iff_of_mem_sets hkeys hset).mpr
    ⟨t, (Ascending.get?_eq_some_iff hkeys).mpr hmem, hhas⟩⟩

/-- The mark on a set is that of a transition with the same target. -/
theorem exists_accept_of_mem_sets {s : State} (hkeys : AscendingKeys s.transitions)
    {set : TransitionSet} (hset : set ∈ s.sets) :
    ∃ b t, s.on? b = some t ∧ set.target = t.target ∧ set.accept = t.accept := by
  obtain ⟨g, hg, rfl⟩ := List.mem_map.mp hset
  obtain ⟨b, t, hmem, hhas, haccept⟩ := (grouped_groups s).accept g hg
  exact ⟨b, t, (Ascending.get?_eq_some_iff hkeys).mpr hmem, hhas.1, haccept⟩

/-- **No byte is covered by two of the sets.** -/
theorem pairwise_sets {s : State} (hkeys : AscendingKeys s.transitions) (b : UInt8) :
    s.sets.Pairwise fun set set' => ¬ (set.Covers b ∧ set'.Covers b) := by
  rw [State.sets, List.pairwise_map]
  refine List.Pairwise.imp_of_mem ?_ (grouped_groups s).apart
  rintro g g' hg hg' hapart ⟨hcovers, hcovers'⟩
  obtain ⟨t, hon, htarget, hactions⟩ :=
    (covers_iff_of_mem_sets hkeys (List.mem_map.mpr ⟨g, hg, rfl⟩)).mp hcovers
  obtain ⟨t', hon', htarget', hactions'⟩ :=
    (covers_iff_of_mem_sets hkeys (List.mem_map.mpr ⟨g', hg', rfl⟩)).mp hcovers'
  obtain rfl : t = t' := Option.some.inj (hon.symm.trans hon')
  exact hapart ⟨htarget.trans htarget'.symm, hactions.trans hactions'.symm⟩

end ActionRegex.Dfa
