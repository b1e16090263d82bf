import ActionRegex.Proofs.SymbolDfa.Folding.Invariant

/-!
# Adding transitions and filling unions

A transition added to a state is merged with the one on the same symbol, and the targets of both are
replaced by their union state. What the state had and what was added is carried on, in the sense of
`Carries`, and the invariant is kept. A union state is filled by adding the transitions of the two
states it merges; since these have lower numbers, they have been filled before, so they cover their
members and the union state covers the members of both.
-/

namespace ActionRegex.SymbolDfa.Folding

open Ascending (AscendingKeys)
open ActionRegex.Symbol (bytes lastBlock)

variable {dfa : SymbolDfa} {f f' : Folding}

/-! ## Changing a state -/

theorem state_modify {id : Nat} (hid : id < f.states.size) (change : State → State) (other : Nat) :
    (f.modify id change).state other =
      if id = other then change (f.state other) else f.state other :=
  Arrays.getD_modify hid change {} other

@[simp] theorem size_modify (f : Folding) (id : Nat) (change : State → State) :
    (f.modify id change).states.size = f.states.size :=
  Array.size_modify

theorem grows_modify {id : Nat} (hid : id < f.states.size) (change : State → State) :
    Grows id f (f.modify id change) := by
  refine ⟨⟨Nat.le_of_eq (size_modify f id change).symm, fun other _ hne => ?_, fun _ _ => rfl,
    fun _ => rfl⟩, ⟨[], (List.append_nil _).symm, fun other => ?_⟩, ?_⟩
  · rw [state_modify hid, if_neg (Ne.symm hne)]
  · simp
  · rw [size_modify]
    rfl

theorem valid_modify (h : Valid dfa f) {id : Nat} (hid : id < f.states.size)
    (hfilled : ¬ f.IsUnfilled id) {change : State → State}
    (hkeys : AscendingKeys (change (f.state id)).transitions)
    (htargets : ∀ entry ∈ (change (f.state id)).transitions, entry.2.target < f.states.size)
    (hsound : StateSound dfa f.membersOf (f.membersOf id) (change (f.state id))) :
    Valid dfa (f.modify id change) := by
  -- what holds of every state before is to be shown of the changed one only
  have hstate : ∀ {P : Nat → State → Prop}, (∀ other, P other (f.state other)) →
      P id (change (f.state id)) → ∀ other, P other ((f.modify id change).state other) := by
    intro P hall hself other
    rw [state_modify hid]
    split
    · next heq =>
      subst heq
      exact hself
    · exact hall other
  refine ⟨h.congr (size_modify f id change) rfl rfl rfl rfl, ?_, ?_, ?_, ?_⟩
  · exact hstate (P := fun _ s => AscendingKeys s.transitions) h.keys hkeys
  · rw [size_modify]
    exact hstate (P := fun _ s => ∀ entry ∈ s.transitions, entry.2.target < f.states.size)
      h.target_lt htargets
  · exact hstate (P := fun other s => StateSound dfa f.membersOf (f.membersOf other) s)
      h.sound hsound
  · intro task htask
    have hne : id ≠ task.1 := by
      rintro rfl
      exact hfilled (List.mem_map_of_mem htask)
    rw [state_modify hid, if_neg hne]
    exact h.empty task htask

/-! ## Union states -/

/-- The folding with a new, empty union state of two states. -/
def addUnion (f : Folding) (a b : Nat) : Folding :=
  let key := Ascending.union (f.membersOf a) (f.membersOf b)
  { f with
    states := f.states.push {}
    collapsed := f.collapsed.push false
    members := f.members.push key
    unions := (key, f.states.size) :: f.unions
    unfilled := f.unfilled ++ [(f.states.size, a, b)] }

theorem state_addUnion (f : Folding) (a b id : Nat) : (f.addUnion a b).state id = f.state id := by
  rw [state, addUnion, Arrays.getD_push, state]
  by_cases h : id = f.states.size
  · rw [if_pos h, Arrays.getD_of_size_le (Nat.le_of_eq h.symm)]
  · rw [if_neg h]

theorem membersOf_addUnion (h : Tables dfa f) (a b id : Nat) :
    (f.addUnion a b).membersOf id =
      if id = f.states.size then Ascending.union (f.membersOf a) (f.membersOf b)
      else f.membersOf id := by
  rw [membersOf, addUnion, Arrays.getD_push, h.members_size]
  rfl

theorem membersOf_addUnion_of_lt (h : Tables dfa f) (a b : Nat) {id : Nat}
    (hid : id < f.states.size) : (f.addUnion a b).membersOf id = f.membersOf id := by
  rw [membersOf_addUnion h, if_neg (Nat.ne_of_lt hid)]

theorem membersOf_addUnion_size (h : Tables dfa f) (a b : Nat) :
    (f.addUnion a b).membersOf f.states.size =
      Ascending.union (f.membersOf a) (f.membersOf b) := by
  rw [membersOf_addUnion h, if_pos rfl]

theorem isCollapsed_addUnion (h : Tables dfa f) (a b id : Nat) :
    (f.addUnion a b).isCollapsed id = f.isCollapsed id := by
  rw [isCollapsed, addUnion, Arrays.getD_push, h.collapsed_size]
  by_cases hid : id = f.states.size
  · rw [if_pos hid, h.isCollapsed_of_size_le (Nat.le_of_eq hid.symm)]
  · rw [if_neg hid]
    rfl

@[simp] theorem size_addUnion (f : Folding) (a b : Nat) :
    (f.addUnion a b).states.size = f.states.size + 1 :=
  Array.size_push _

theorem grows_addUnion (h : Tables dfa f) (a b id : Nat) : Grows id f (f.addUnion a b) := by
  refine ⟨⟨by simp, fun other _ _ => state_addUnion f a b other, fun other hother => ?_,
    isCollapsed_addUnion h a b⟩, ⟨[(f.states.size, a, b)], rfl, fun other => ?_⟩, ?_⟩
  · exact membersOf_addUnion_of_lt h a b hother
  · rw [List.map_singleton, List.mem_singleton, size_addUnion]
    omega
  · rw [size_addUnion, addUnion, List.length_append, List.length_singleton]
    omega

/-- The members of two different states together are not the members of one state at the start. -/
theorem union_ne_singleton (h : Tables dfa f) {a b : Nat} (ha : a < f.states.size)
    (hb : b < f.states.size) (hne : a ≠ b) (m : Nat) :
    Ascending.union (f.membersOf a) (f.membersOf b) ≠ [m] := by
  intro heq
  have hall : ∀ id, id < f.states.size →
      (∀ x ∈ f.membersOf id, x ∈ Ascending.union (f.membersOf a) (f.membersOf b)) →
      f.membersOf id = [m] := by
    intro id hid hsub
    rw [heq] at hsub
    refine (h.sorted id hid).eq_of_mem_iff (List.pairwise_singleton _ _) fun x => ⟨hsub x, ?_⟩
    intro hx
    obtain ⟨y, hy⟩ := List.exists_mem_of_ne_nil _ (h.ne_nil id hid)
    rw [List.mem_singleton.mp hx, ← List.mem_singleton.mp (hsub y hy)]
    exact hy
  have hma := hall a ha fun x hx => Ascending.mem_union.mpr (Or.inl hx)
  have hmb := hall b hb fun x hx => Ascending.mem_union.mpr (Or.inr hx)
  exact hne (h.injective a b ha hb (hma.trans hmb.symm))

/-- The members of two different states without a union state are new. -/
theorem membersOf_ne_union (h : Tables dfa f) {a b : Nat} (ha : a < f.states.size)
    (hb : b < f.states.size) (hne : a ≠ b)
    (hnew : f.unions.lookup (Ascending.union (f.membersOf a) (f.membersOf b)) = none) {id : Nat}
    (hid : id < f.states.size) :
    f.membersOf id ≠ Ascending.union (f.membersOf a) (f.membersOf b) := by
  intro heq
  by_cases hstart : id < dfa.size
  · rw [h.original id hstart] at heq
    exact union_ne_singleton h ha hb hne id heq.symm
  · have hsome := (h.lookup_iff _ id).mpr ⟨Nat.le_of_not_lt hstart, hid, heq⟩
    rw [hnew] at hsome
    simp at hsome

theorem lookup_addUnion_iff (h : Tables dfa f) {a b : Nat}
    (hkey : ∀ id, id < f.states.size →
      f.membersOf id ≠ Ascending.union (f.membersOf a) (f.membersOf b))
    (key : List Nat) (id : Nat) :
    (f.addUnion a b).unions.lookup key = some id ↔
      dfa.size ≤ id ∧ id < (f.addUnion a b).states.size ∧ (f.addUnion a b).membersOf id = key := by
  rw [size_addUnion, Nat.lt_succ_iff_lt_or_eq, addUnion, List.lookup_cons]
  by_cases heq : key = Ascending.union (f.membersOf a) (f.membersOf b)
  · simp only [beq_iff_eq.mpr heq]
    constructor
    · intro hid
      rw [← Option.some.inj hid]
      exact ⟨h.le_size, Or.inr rfl, (membersOf_addUnion_size h a b).trans heq.symm⟩
    · rintro ⟨-, hlt | rfl, hid⟩
      · rw [← addUnion, membersOf_addUnion_of_lt h a b hlt, heq] at hid
        exact absurd hid (hkey id hlt)
      · rfl
  · simp only [beq_eq_false_iff_ne.mpr heq, h.lookup_iff]
    constructor
    · rintro ⟨hle, hlt, hid⟩
      exact ⟨hle, Or.inl hlt, (membersOf_addUnion_of_lt h a b hlt).trans hid⟩
    · rintro ⟨hle, hlt | rfl, hid⟩
      · exact ⟨hle, hlt, (membersOf_addUnion_of_lt h a b hlt).symm.trans hid⟩
      · exact absurd (hid.symm.trans (membersOf_addUnion_size h a b)) heq

theorem lt_or_eq_of_lt_addUnion {a b id : Nat} (hid : id < (f.addUnion a b).states.size) :
    id < f.states.size ∨ id = f.states.size := by
  rw [size_addUnion] at hid
  exact Nat.lt_succ_iff_lt_or_eq.mp hid

/-- Different states still have different members. -/
theorem injective_addUnion (h : Tables dfa f) {a b : Nat}
    (hkey : ∀ id, id < f.states.size →
      f.membersOf id ≠ Ascending.union (f.membersOf a) (f.membersOf b)) {id id' : Nat}
    (hid : id < (f.addUnion a b).states.size) (hid' : id' < (f.addUnion a b).states.size)
    (heq : (f.addUnion a b).membersOf id = (f.addUnion a b).membersOf id') : id = id' := by
  have hlast := membersOf_addUnion_size h a b
  rcases lt_or_eq_of_lt_addUnion hid with hid | rfl <;>
    rcases lt_or_eq_of_lt_addUnion hid' with hid' | rfl
  · rw [membersOf_addUnion_of_lt h a b hid, membersOf_addUnion_of_lt h a b hid'] at heq
    exact h.injective id id' hid hid' heq
  · rw [membersOf_addUnion_of_lt h a b hid, hlast] at heq
    exact absurd heq (hkey id hid)
  · rw [membersOf_addUnion_of_lt h a b hid', hlast] at heq
    exact absurd heq.symm (hkey id' hid')
  · rfl

/-- A new union state is filled from states before it, whose members it has. -/
theorem unfilled_addUnion (h : Tables dfa f) {a b : Nat} (ha : a < f.states.size)
    (hb : b < f.states.size) :
    ∀ task ∈ (f.addUnion a b).unfilled,
      dfa.size ≤ task.1 ∧ task.1 < (f.addUnion a b).states.size ∧
      task.2.1 < task.1 ∧ task.2.2 < task.1 ∧
      (f.addUnion a b).membersOf task.1 =
        Ascending.union ((f.addUnion a b).membersOf task.2.1)
          ((f.addUnion a b).membersOf task.2.2) := by
  have hold : ∀ id, id < f.states.size → (f.addUnion a b).membersOf id = f.membersOf id :=
    fun id hid => membersOf_addUnion_of_lt h a b hid
  intro task htask
  rw [size_addUnion]
  rcases List.mem_append.mp htask with htask | htask
  · obtain ⟨hle, hlt, hfirst, hsecond, hmembers⟩ := h.unfilled task htask
    refine ⟨hle, Nat.lt_succ_of_lt hlt, hfirst, hsecond, ?_⟩
    rw [hold _ hlt, hold _ (Nat.lt_trans hfirst hlt), hold _ (Nat.lt_trans hsecond hlt)]
    exact hmembers
  · rw [List.mem_singleton.mp htask]
    refine ⟨h.le_size, Nat.lt_succ_self _, ha, hb, ?_⟩
    rw [membersOf_addUnion_size h, hold a ha, hold b hb]

theorem tables_addUnion (h : Tables dfa f) {a b : Nat} (ha : a < f.states.size)
    (hb : b < f.states.size) (hne : a ≠ b)
    (hnew : f.unions.lookup (Ascending.union (f.membersOf a) (f.membersOf b)) = none) :
    Tables dfa (f.addUnion a b) := by
  -- no old state has the members of the new one
  have hkey : ∀ id, id < f.states.size →
      f.membersOf id ≠ Ascending.union (f.membersOf a) (f.membersOf b) :=
    fun id hid => membersOf_ne_union h ha hb hne hnew hid
  exact {
    collapsed_size := by rw [size_addUnion, addUnion, Array.size_push, h.collapsed_size]
    members_size := by rw [size_addUnion, addUnion, Array.size_push, h.members_size]
    le_size := by
      rw [size_addUnion]
      exact Nat.le_succ_of_le h.le_size
    original := by
      intro id hid
      rw [membersOf_addUnion_of_lt h a b (Nat.lt_of_lt_of_le hid h.le_size)]
      exact h.original id hid
    sorted := by
      intro id hid
      rcases lt_or_eq_of_lt_addUnion hid with hid | rfl
      · rw [membersOf_addUnion_of_lt h a b hid]
        exact h.sorted id hid
      · rw [membersOf_addUnion_size h]
        exact Ascending.pairwise_union _ (h.sorted a ha)
    ne_nil := by
      intro id hid
      rcases lt_or_eq_of_lt_addUnion hid with hid | rfl
      · rw [membersOf_addUnion_of_lt h a b hid]
        exact h.ne_nil id hid
      · rw [membersOf_addUnion_size h]
        obtain ⟨m, hm⟩ := List.exists_mem_of_ne_nil _ (h.ne_nil a ha)
        exact List.ne_nil_of_mem (Ascending.mem_union.mpr (Or.inl hm))
    members_lt := by
      intro id m hm
      rw [membersOf_addUnion h] at hm
      split at hm
      · rcases Ascending.mem_union.mp hm with hm | hm
        · exact h.members_lt a m hm
        · exact h.members_lt b m hm
      · exact h.members_lt id m hm
    injective := fun id id' hid hid' heq => injective_addUnion h hkey hid hid' heq
    lookup_iff := lookup_addUnion_iff h hkey
    unfilled := unfilled_addUnion h ha hb
    ascending := by
      refine List.pairwise_append.mpr ⟨h.ascending, List.pairwise_singleton _ _, ?_⟩
      intro task htask task' htask'
      rw [List.mem_singleton.mp htask']
      exact (h.unfilled task htask).2.1 }

theorem valid_addUnion (h : Valid dfa f) {a b : Nat} (ha : a < f.states.size)
    (hb : b < f.states.size) (hne : a ≠ b)
    (hnew : f.unions.lookup (Ascending.union (f.membersOf a) (f.membersOf b)) = none) :
    Valid dfa (f.addUnion a b) where
  toTables := tables_addUnion h.toTables ha hb hne hnew
  keys id := by
    rw [state_addUnion]
    exact h.keys id
  target_lt id entry hentry := by
    rw [state_addUnion] at hentry
    exact Nat.lt_of_lt_of_le (h.target_lt id entry hentry) (grows_addUnion h.toTables a b 0).size_le
  sound id := by
    have hgrows := grows_addUnion h.toTables a b 0
    rw [state_addUnion]
    by_cases hid : id < f.states.size
    · rw [hgrows.members_eq id hid]
      exact hgrows.stateSound (h.target_lt id) (h.sound id)
    · rw [state_of_size_le (Nat.le_of_not_lt hid)]
      exact stateSound_empty _ _
  empty task htask := by
    rw [state_addUnion]
    rcases List.mem_append.mp htask with htask | htask
    · exact h.empty task htask
    · rw [List.mem_singleton.mp htask]
      exact state_of_size_le (Nat.le_refl _)

/-- A state that stands for two states, whose folding differs in union states only. It is one of the
two or a union state. -/
structure Joins (dfa : SymbolDfa) (f : Folding) (a b : Nat) (joined : Nat × Folding) : Prop where
  state_eq : ∀ id, joined.2.state id = f.state id
  lt_size : joined.1 < joined.2.states.size
  members_iff : ∀ m, m ∈ joined.2.membersOf joined.1 ↔ m ∈ f.membersOf a ∨ m ∈ f.membersOf b
  target : joined.1 = a ∨ dfa.size ≤ joined.1
  tasks : ∀ task ∈ joined.2.unfilled, task ∈ f.unfilled ∨ task.2 = (a, b)

theorem union_spec (h : Valid dfa f) {a b : Nat} (ha : a < f.states.size)
    (hb : b < f.states.size) (hne : a ≠ b) (id : Nat) :
    Valid dfa (f.union a b).2 ∧ Grows id f (f.union a b).2 ∧ Joins dfa f a b (f.union a b) := by
  rw [union]
  split
  · next target hsome =>
    -- the state that is found may be collapsed; nothing here depends on it
    obtain ⟨hle, hlt, hmembers⟩ := (h.lookup_iff _ target).mp hsome
    refine ⟨h, Grows.refl id f, fun _ => rfl, hlt, fun m => ?_, Or.inr hle, fun _ => Or.inl⟩
    rw [hmembers, Ascending.mem_union]
  · next hnone =>
    refine ⟨valid_addUnion h ha hb hne hnone, grows_addUnion h.toTables a b id,
      state_addUnion f a b, by simp, fun m => ?_, Or.inr h.le_size, fun task htask => ?_⟩
    · show m ∈ (f.addUnion a b).membersOf f.states.size ↔ _
      rw [membersOf_addUnion_size h.toTables, Ascending.mem_union]
    · rcases List.mem_append.mp htask with htask | htask
      · exact Or.inl htask
      · exact Or.inr (by rw [List.mem_singleton.mp htask])

theorem mergeTargets_spec (h : Valid dfa f) (id : Nat) (s : Symbol) {old new : Transition}
    (hold : old.target < f.states.size) (hnew : new.target < f.states.size) :
    Valid dfa (f.mergeTargets id s old new).2 ∧ Grows id f (f.mergeTargets id s old new).2 ∧
      Joins dfa f old.target new.target (f.mergeTargets id s old new) := by
  unfold mergeTargets
  split
  · next heq =>
    refine ⟨h, Grows.refl id f, fun _ => rfl, hold, fun m => ?_, Or.inl rfl, fun _ => Or.inl⟩
    rw [← heq, or_self]
  · next hne =>
    obtain ⟨merges, hmerges⟩ : ∃ merges, f.noteMerge s id old new = { f with merges } := by
      unfold noteMerge
      split
      · exact ⟨f.merges, rfl⟩
      · exact ⟨_, rfl⟩
    rw [hmerges]
    obtain ⟨hvalid', hgrows, hjoins⟩ := union_spec (h.withNotes f.folded merges) hold hnew hne id
    exact ⟨hvalid', ⟨⟨hgrows.size_le, hgrows.state_eq, hgrows.members_eq, hgrows.collapsed_eq⟩,
      hgrows.unfilled, hgrows.length_eq⟩, hjoins.state_eq, hjoins.lt_size, hjoins.members_iff,
      hjoins.target, hjoins.tasks⟩

/-! ## Adding transitions -/

/-- A state has a transition on the symbol of `entry` to a state with at least the members of its
target. -/
def Carries (membersOf membersOf' : Nat → List Nat) (s' : State) (entry : Symbol × Transition) :
    Prop :=
  ∃ entry' ∈ s'.transitions, entry'.1 = entry.1 ∧
    ∀ m ∈ membersOf entry.2.target, m ∈ membersOf' entry'.2.target

/-- A state that a transition of state `id` or one of the given transitions leads to, or a union
state. -/
def Known (dfa : SymbolDfa) (f : Folding) (id : Nat) (entries : List (Symbol × Transition))
    (target : Nat) : Prop :=
  (∃ entry ∈ (f.state id).transitions, entry.2.target = target) ∨
    (∃ entry ∈ entries, entry.2.target = target) ∨ dfa.size ≤ target

/-- What is new leads to known states and is to be filled from known states. -/
structure Reuses (dfa : SymbolDfa) (id : Nat) (entries : List (Symbol × Transition))
    (f f' : Folding) : Prop where
  targets : ∀ entry ∈ (f'.state id).transitions, Known dfa f id entries entry.2.target
  tasks : ∀ task ∈ f'.unfilled, task ∈ f.unfilled ∨
    Known dfa f id entries task.2.1 ∧ Known dfa f id entries task.2.2

theorem Reuses.trans {id : Nat} {entries entries' : List (Symbol × Transition)} {f'' : Folding}
    (h : Reuses dfa id entries f f') (h' : Reuses dfa id entries' f' f'') :
    Reuses dfa id (entries ++ entries') f f'' := by
  have hleft : ∀ target, Known dfa f id entries target →
      Known dfa f id (entries ++ entries') target := by
    rintro target (hknown | ⟨entry, hentry, heq⟩ | hle)
    · exact Or.inl hknown
    · exact Or.inr (Or.inl ⟨entry, List.mem_append.mpr (Or.inl hentry), heq⟩)
    · exact Or.inr (Or.inr hle)
  have hright : ∀ target, Known dfa f' id entries' target →
      Known dfa f id (entries ++ entries') target := by
    rintro target (⟨entry, hentry, rfl⟩ | ⟨entry, hentry, heq⟩ | hle)
    · exact hleft _ (h.targets entry hentry)
    · exact Or.inr (Or.inl ⟨entry, List.mem_append.mpr (Or.inr hentry), heq⟩)
    · exact Or.inr (Or.inr hle)
  refine ⟨fun entry hentry => hright _ (h'.targets entry hentry), fun task htask => ?_⟩
  rcases h'.tasks task htask with htask | ⟨hfirst, hsecond⟩
  · exact (h.tasks task htask).imp_right fun htask => ⟨hleft _ htask.1, hleft _ htask.2⟩
  · exact Or.inr ⟨hright _ hfirst, hright _ hsecond⟩

/-- A change of acceptance and of actions on entry makes no transition. -/
theorem reuses_modify {id : Nat} (hid : id < f.states.size) {change : State → State}
    (hchange : ∀ s, (change s).transitions = s.transitions) :
    Reuses dfa id [] f (f.modify id change) := by
  refine ⟨fun entry hentry => Or.inl ⟨entry, ?_, rfl⟩, fun _ => Or.inl⟩
  rwa [state_modify hid, if_pos rfl, hchange] at hentry

/-- State `id` carries on what it had and some more transitions, and accepts as before. -/
structure Absorbs (dfa : SymbolDfa) (id : Nat) (entries : List (Symbol × Transition))
    (f f' : Folding) : Prop extends Reuses dfa id entries f f' where
  accept_eq : (f'.state id).accept = (f.state id).accept
  kept : ∀ entry ∈ (f.state id).transitions, Carries f.membersOf f'.membersOf (f'.state id) entry
  added : ∀ entry ∈ entries, Carries f.membersOf f'.membersOf (f'.state id) entry

theorem Absorbs.dominates {id : Nat} {entries : List (Symbol × Transition)}
    (h : Absorbs dfa id entries f f') :
    Dominates f.membersOf f'.membersOf (f.state id) (f'.state id) :=
  ⟨fun haccept => h.accept_eq.trans haccept, h.kept⟩

theorem Absorbs.trans {id : Nat} {entries entries' : List (Symbol × Transition)} {f'' : Folding}
    (h : Absorbs dfa id entries f f') (h' : Absorbs dfa id entries' f' f'')
    (hmembers : ∀ entry ∈ entries', f'.membersOf entry.2.target = f.membersOf entry.2.target) :
    Absorbs dfa id (entries ++ entries') f f'' := by
  have hcarry : ∀ entry, Carries f.membersOf f'.membersOf (f'.state id) entry →
      Carries f.membersOf f''.membersOf (f''.state id) entry := by
    rintro entry ⟨entry', hentry', hsymbol, hsub⟩
    obtain ⟨entry'', hentry'', hsymbol', hsub'⟩ := h'.kept entry' hentry'
    exact ⟨entry'', hentry'', hsymbol'.trans hsymbol, fun m hm => hsub' m (hsub m hm)⟩
  refine ⟨h.toReuses.trans h'.toReuses, h'.accept_eq.trans h.accept_eq, ?_, ?_⟩
  · exact fun entry hentry => hcarry entry (h.kept entry hentry)
  · intro entry hentry
    rcases List.mem_append.mp hentry with hentry | hentry
    · exact hcarry entry (h.added entry hentry)
    · obtain ⟨entry', hentry', hsymbol, hsub⟩ := h'.added entry hentry
      exact ⟨entry', hentry', hsymbol, fun m hm => hsub m (by rwa [hmembers entry hentry])⟩

/-- Setting a transition whose target has the members of the old and the new one. -/
theorem put_spec (h : Valid dfa f) {id : Nat} (hid : id < f.states.size)
    (hfilled : ¬ f.IsUnfilled id) (s : Symbol) (new : Transition)
    (htarget : new.target < f.states.size)
    (hsound : EdgeSound dfa (f.membersOf id) (f.membersOf new.target) (s, new))
    (hold : ∀ old, (s, old) ∈ (f.state id).transitions →
      ∀ m ∈ f.membersOf old.target, m ∈ f.membersOf new.target) :
    let f' := f.modify id fun state =>
      { state with transitions := Ascending.put s new state.transitions }
    Valid dfa f' ∧ Absorbs dfa id [(s, new)] f f' := by
  have hput : ∀ entry, entry ∈ Ascending.put s new (f.state id).transitions ↔
      entry = (s, new) ∨ entry ∈ (f.state id).transitions ∧ entry.1 ≠ s :=
    fun entry => Ascending.mem_put_iff (h.keys id)
  have hself : (s, new) ∈ Ascending.put s new (f.state id).transitions :=
    (hput _).mpr (Or.inl rfl)
  refine ⟨valid_modify h hid hfilled ((h.keys id).put s new) ?_ ⟨?_, (h.sound id).entry,
    (h.sound id).accept⟩, ?_⟩
  · intro entry hentry
    rcases (hput entry).mp hentry with rfl | ⟨hentry, -⟩
    · exact htarget
    · exact h.target_lt id entry hentry
  · intro entry hentry
    rcases (hput entry).mp hentry with rfl | ⟨hentry, -⟩
    · exact hsound
    · exact (h.sound id).edges entry hentry
  · have hstate := state_modify hid
      (fun state => { state with transitions := Ascending.put s new state.transitions }) id
    rw [if_pos rfl] at hstate
    refine ⟨⟨?_, fun _ => Or.inl⟩, ?_, ?_, ?_⟩ <;> rw [hstate]
    · intro entry hentry
      rcases (hput entry).mp hentry with rfl | ⟨hentry, -⟩
      · exact Or.inr (Or.inl ⟨_, List.mem_singleton_self _, rfl⟩)
      · exact Or.inl ⟨entry, hentry, rfl⟩
    · intro entry hentry
      by_cases hsymbol : entry.1 = s
      · subst hsymbol
        exact ⟨_, hself, rfl, hold entry.2 hentry⟩
      · exact ⟨entry, (hput entry).mpr (Or.inr ⟨hentry, hsymbol⟩), rfl, fun _ hm => hm⟩
    · intro entry hentry
      rw [List.mem_singleton.mp hentry]
      exact ⟨_, hself, rfl, fun _ hm => hm⟩

/-- A transition to a state that stands for two targets takes in the new one of the two transitions
that it stands for. -/
theorem Joins.absorbs {f₁ : Folding} {id target : Nat} {s : Symbol} {old new merged : Transition}
    (hjoins : Joins dfa f old.target new.target (target, f₁)) (h : Valid dfa f)
    (hgrows : Grows id f f₁) (hold : (s, old) ∈ (f.state id).transitions)
    (hmerged : merged.target = target) (habsorbs : Absorbs dfa id [(s, merged)] f₁ f') :
    Absorbs dfa id [(s, new)] f f' := by
  have hstate : f₁.state id = f.state id := hjoins.state_eq id
  have hknown : ∀ target', Known dfa f₁ id [(s, merged)] target' →
      Known dfa f id [(s, new)] target' := by
    rintro target' (⟨entry, hentry, heq⟩ | ⟨entry, hentry, heq⟩ | hle)
    · exact Or.inl ⟨entry, hstate ▸ hentry, heq⟩
    · rw [List.mem_singleton.mp hentry, hmerged] at heq
      rcases hjoins.target with htarget | hle
      · exact Or.inl ⟨_, hold, htarget.symm.trans heq⟩
      · exact Or.inr (Or.inr (heq ▸ hle))
    · exact Or.inr (Or.inr hle)
  refine ⟨⟨fun entry hentry => hknown _ (habsorbs.targets entry hentry), ?_⟩, ?_, ?_, ?_⟩
  · intro task htask
    rcases habsorbs.tasks task htask with htask | ⟨hfirst, hsecond⟩
    · refine (hjoins.tasks task htask).imp_right fun heq => ?_
      rw [heq]
      exact ⟨Or.inl ⟨_, hold, rfl⟩, Or.inr (Or.inl ⟨_, List.mem_singleton_self _, rfl⟩)⟩
    · exact Or.inr ⟨hknown _ hfirst, hknown _ hsecond⟩
  · rw [← hstate]
    exact habsorbs.accept_eq
  · intro entry hentry
    have hcarries := habsorbs.kept entry (hstate ▸ hentry)
    rwa [Carries, hgrows.members_eq _ (h.target_lt id entry hentry)] at hcarries
  · intro entry hentry
    rw [List.mem_singleton.mp hentry]
    obtain ⟨entry', hentry', hsymbol, hsub⟩ := habsorbs.added _ (List.mem_singleton_self _)
    refine ⟨entry', hentry', hsymbol, fun m hm => hsub m ?_⟩
    rw [hmerged]
    exact (hjoins.members_iff m).mpr (Or.inr hm)

/-- **Adding a transition** keeps the invariant, and nothing is lost by merging. -/
theorem addTransition_spec (h : Valid dfa f) {id : Nat} (hid : id < f.states.size)
    (hfilled : ¬ f.IsUnfilled id) {s : Symbol} {new : Transition}
    (htarget : new.target < f.states.size)
    (hsound : EdgeSound dfa (f.membersOf id) (f.membersOf new.target) (s, new)) :
    Valid dfa (f.addTransition id s new) ∧ Grows id f (f.addTransition id s new) ∧
      Absorbs dfa id [(s, new)] f (f.addTransition id s new) := by
  unfold addTransition
  split
  · next hnone =>
    obtain ⟨hvalid, habsorbs⟩ := put_spec h hid hfilled s new htarget hsound fun old hold =>
      absurd hold (Ascending.get?_eq_none_iff.mp hnone old)
    exact ⟨hvalid, grows_modify hid _, habsorbs⟩
  · next old hsome =>
    have hmem := Ascending.mem_of_get? hsome
    have hlt := h.target_lt id _ hmem
    obtain ⟨hvalid, hgrows, hjoins⟩ := mergeTargets_spec h id s hlt htarget
    generalize f.mergeTargets id s old new = joined at hvalid hgrows hjoins ⊢
    obtain ⟨target, f₁⟩ := joined
    replace hvalid : Valid dfa f₁ := hvalid
    have hmembers : ∀ m, m ∈ f₁.membersOf target ↔
        m ∈ f.membersOf old.target ∨ m ∈ f.membersOf new.target := hjoins.members_iff
    -- both transitions go on as one, to a state that stands for both targets
    let merged : Transition := { target, actions := Ascending.union old.actions new.actions }
    have hmerged : EdgeSound dfa (f₁.membersOf id) (f₁.membersOf target) (s, merged) := by
      rw [hgrows.members_eq id hid]
      refine ((h.sound id).edges _ hmem).merge hsound (fun m hm => (hmembers m).mp hm) ?_
      exact fun x => Ascending.mem_union
    have hold : ∀ old', (s, old') ∈ (f₁.state id).transitions →
        ∀ m ∈ f₁.membersOf old'.target, m ∈ f₁.membersOf target := by
      intro old' hold' m hm
      rw [hjoins.state_eq id, ← Ascending.get?_eq_some_iff (h.keys id), hsome] at hold'
      rw [← Option.some.inj hold', hgrows.members_eq _ hlt] at hm
      exact (hmembers m).mpr (Or.inl hm)
    have hid₁ : id < f₁.states.size := Nat.lt_of_lt_of_le hid hgrows.size_le
    obtain ⟨hvalid', habsorbs⟩ := put_spec hvalid hid₁ (mt (hgrows.isUnfilled hid).mp hfilled)
      s merged hjoins.lt_size hmerged hold
    exact ⟨hvalid', hgrows.trans (grows_modify hid₁ _), hjoins.absorbs h hgrows hmem rfl habsorbs⟩

/-- Adding transitions one after the other, as one step. -/
theorem addTransitions_spec {id : Nat} (entries : List (Symbol × Transition)) :
    ∀ f : Folding, Valid dfa f → id < f.states.size → ¬ f.IsUnfilled id →
    (∀ entry ∈ entries, entry.2.target < f.states.size) →
    (∀ entry ∈ entries, EdgeSound dfa (f.membersOf id) (f.membersOf entry.2.target) entry) →
    Valid dfa (f.addTransitions id entries) ∧ Grows id f (f.addTransitions id entries) ∧
      Absorbs dfa id entries f (f.addTransitions id entries) := by
  induction entries with
  | nil =>
    intro f h _ _ _ _
    refine ⟨h, Grows.refl id f, ⟨?_, fun _ => Or.inl⟩, rfl, ?_, by simp⟩
    · exact fun entry hentry => Or.inl ⟨entry, hentry, rfl⟩
    · exact fun entry hentry => ⟨entry, hentry, rfl, fun _ hm => hm⟩
  | cons entry rest ih =>
    intro f h hid hfilled htargets hsound
    obtain ⟨htarget, htargets⟩ := List.forall_mem_cons.mp htargets
    obtain ⟨hentry, hsound⟩ := List.forall_mem_cons.mp hsound
    obtain ⟨hvalid, hgrows, habsorbs⟩ := addTransition_spec h hid hfilled htarget hentry
    have hmembers := hgrows.members_eq
    obtain ⟨hvalid', hgrows', habsorbs'⟩ := ih (f.addTransition id entry.1 entry.2) hvalid
      (Nat.lt_of_lt_of_le hid hgrows.size_le) (mt (hgrows.isUnfilled hid).mp hfilled)
      (fun x hx => Nat.lt_of_lt_of_le (htargets x hx) hgrows.size_le)
      (fun x hx => by
        rw [hmembers id hid, hmembers _ (htargets x hx)]
        exact hsound x hx)
    exact ⟨hvalid', hgrows.trans hgrows',
      habsorbs.trans habsorbs' fun x hx => hmembers _ (htargets x hx)⟩

/-! ## Filling -/

/-- The folding with the first task taken off. -/
theorem valid_tail (h : Valid dfa f) {task : Nat × Nat × Nat} {rest : List (Nat × Nat × Nat)}
    (hunfilled : f.unfilled = task :: rest) : Valid dfa { f with unfilled := rest } := by
  have hsub : ∀ x ∈ rest, x ∈ f.unfilled := fun x hx => hunfilled ▸ List.mem_cons_of_mem _ hx
  have hascending := h.ascending
  rw [hunfilled] at hascending
  exact ⟨⟨h.collapsed_size, h.members_size, h.le_size, h.original, h.sorted, h.ne_nil, h.members_lt,
    h.injective, h.lookup_iff, fun x hx => h.unfilled x (hsub x hx),
    (List.pairwise_cons.mp hascending).2⟩, h.keys, h.target_lt, h.sound,
    fun x hx => h.empty x (hsub x hx)⟩

/-- States with numbers up to that of the first task are not among the other tasks. -/
theorem not_mem_tail (h : Tables dfa f) {task : Nat × Nat × Nat} {rest : List (Nat × Nat × Nat)}
    (hunfilled : f.unfilled = task :: rest) {id : Nat} (hid : id ≤ task.1) :
    id ∉ rest.map Prod.fst := by
  intro hmem
  obtain ⟨other, hother, rfl⟩ := List.mem_map.mp hmem
  have hascending := h.ascending
  rw [hunfilled] at hascending
  exact Nat.not_lt.mpr hid ((List.pairwise_cons.mp hascending).1 other hother)

/-- What a union state gets before the transitions: acceptance and actions on entry. -/
theorem stateSound_fill (h : Valid dfa f) {id a b : Nat}
    (hmembers : f.membersOf id = Ascending.union (f.membersOf a) (f.membersOf b)) :
    StateSound dfa f.membersOf (f.membersOf id)
      { accept := (f.state a).accept || (f.state b).accept
        entry := Ascending.union (f.state a).entry (f.state b).entry } := by
  have hleft : ∀ m ∈ f.membersOf a, m ∈ f.membersOf id := fun m hm => by
    rw [hmembers]
    exact Ascending.mem_union.mpr (Or.inl hm)
  have hright : ∀ m ∈ f.membersOf b, m ∈ f.membersOf id := fun m hm => by
    rw [hmembers]
    exact Ascending.mem_union.mpr (Or.inr hm)
  refine ⟨by simp, fun hplain x hx => ?_, fun haccept => ?_⟩
  · rcases Ascending.mem_union.mp hx with hx | hx
    · obtain ⟨m, hm, hpath⟩ := (h.sound a).entry hplain x hx
      exact ⟨m, hleft m hm, hpath⟩
    · obtain ⟨m, hm, hpath⟩ := (h.sound b).entry hplain x hx
      exact ⟨m, hright m hm, hpath⟩
  · rcases Bool.or_eq_true_iff.mp haccept with haccept | haccept
    · obtain ⟨m, hm, u, v, hu, hbytes, hnil, hentry⟩ := (h.sound a).accept haccept
      exact ⟨m, hleft m hm, u, v, hu, hbytes, hnil, fun x hx =>
        Ascending.mem_union.mpr (Or.inl (hentry x hx))⟩
    · obtain ⟨m, hm, u, v, hu, hbytes, hnil, hentry⟩ := (h.sound b).accept haccept
      exact ⟨m, hright m hm, u, v, hu, hbytes, hnil, fun x hx =>
        Ascending.mem_union.mpr (Or.inr (hentry x hx))⟩

/-- **Filling a union state**: it then has all that the two states have. -/
theorem fill_spec (h : Valid dfa f) {id a b : Nat} (hid : id < f.states.size)
    (hfilled : ¬ f.IsUnfilled id) (hempty : f.state id = {})
    (hmembers : f.membersOf id = Ascending.union (f.membersOf a) (f.membersOf b)) :
    Valid dfa (f.fill id a b) ∧ Grows id f (f.fill id a b) ∧
      Reuses dfa id ((f.state a).transitions ++ (f.state b).transitions) f (f.fill id a b) ∧
      Dominates f.membersOf (f.fill id a b).membersOf (f.state a) ((f.fill id a b).state id) ∧
      Dominates f.membersOf (f.fill id a b).membersOf (f.state b) ((f.fill id a b).state id) := by
  let change : State → State := fun s =>
    { s with
      accept := (f.state a).accept || (f.state b).accept
      entry := Ascending.union (f.state a).entry (f.state b).entry }
  have hself : (f.modify id change).state id = change {} := by
    rw [state_modify hid, if_pos rfl, hempty]
  have hvalid : Valid dfa (f.modify id change) := by
    refine valid_modify h hid hfilled ?_ ?_ ?_ <;> rw [hempty]
    · exact List.Pairwise.nil
    · simp [change]
    · exact stateSound_fill h hmembers
  have hid' : id < (f.modify id change).states.size := by rwa [size_modify]
  have hsound : ∀ entry ∈ (f.state a).transitions ++ (f.state b).transitions,
      EdgeSound dfa (f.membersOf id) (f.membersOf entry.2.target) entry := by
    intro entry hentry
    rw [hmembers]
    rcases List.mem_append.mp hentry with hentry | hentry
    · exact ((h.sound a).edges entry hentry).mono fun m hm => Ascending.mem_union.mpr (Or.inl hm)
    · exact ((h.sound b).edges entry hentry).mono fun m hm => Ascending.mem_union.mpr (Or.inr hm)
  have htargets : ∀ entry ∈ (f.state a).transitions ++ (f.state b).transitions,
      entry.2.target < (f.modify id change).states.size := by
    intro entry hentry
    rw [size_modify]
    rcases List.mem_append.mp hentry with hentry | hentry
    · exact h.target_lt a entry hentry
    · exact h.target_lt b entry hentry
  obtain ⟨hvalid', hgrows, habsorbs⟩ := addTransitions_spec _ _ hvalid hid' hfilled htargets hsound
  have haccept := habsorbs.accept_eq
  rw [hself] at haccept
  have hreuses : Reuses dfa id [] f (f.modify id change) := reuses_modify hid fun _ => rfl
  refine ⟨hvalid', (grows_modify hid change).trans hgrows, hreuses.trans habsorbs.toReuses,
    ⟨fun hfirst => ?_, ?_⟩, ⟨fun hsecond => ?_, ?_⟩⟩
  · exact haccept.trans (Bool.or_eq_true_iff.mpr (Or.inl hfirst))
  · exact fun entry hentry => habsorbs.added entry (List.mem_append.mpr (Or.inl hentry))
  · exact haccept.trans (Bool.or_eq_true_iff.mpr (Or.inr hsecond))
  · exact fun entry hentry => habsorbs.added entry (List.mem_append.mpr (Or.inr hentry))

/-- One step of `fillAll`. -/
theorem fill_head_spec (h : Valid dfa f) (hcomplete : AllComplete dfa f) {id a b : Nat}
    {rest : List (Nat × Nat × Nat)} (hunfilled : f.unfilled = (id, a, b) :: rest) :
    Valid dfa ({ f with unfilled := rest }.fill id a b) ∧
      AllComplete dfa ({ f with unfilled := rest }.fill id a b) ∧
      Grows id { f with unfilled := rest } ({ f with unfilled := rest }.fill id a b) ∧
      Reuses dfa id ((f.state a).transitions ++ (f.state b).transitions)
        { f with unfilled := rest } ({ f with unfilled := rest }.fill id a b) := by
  have htask : (id, a, b) ∈ f.unfilled := hunfilled ▸ List.mem_cons_self
  obtain ⟨-, hid, ha, hb, hmembers⟩ := h.unfilled _ htask
  have htail : ∀ other, other ≤ id → ¬ Folding.IsUnfilled { f with unfilled := rest } other :=
    fun other hother => not_mem_tail h.toTables hunfilled hother
  obtain ⟨hvalid, hgrows, hreuses, hfirst, hsecond⟩ := fill_spec (valid_tail h hunfilled) hid
    (htail id (Nat.le_refl _)) (h.empty _ htask) hmembers
  refine ⟨hvalid, ?_, hgrows, hreuses⟩
  -- the two states have lower numbers, so they are filled and cover their members
  have hbefore : ∀ other, other < f.states.size → other ≠ id →
      ¬ Folding.IsUnfilled { f with unfilled := rest } other →
      Complete dfa f.membersOf (f.state other) (· ∈ f.membersOf other) nothing := by
    intro other hlt hne hnot
    refine hcomplete other hlt ?_
    rw [IsUnfilled, hunfilled, List.map_cons, List.mem_cons, not_or]
    exact ⟨hne, hnot⟩
  intro other hlt hnot
  by_cases heq : other = id
  · subst heq
    intro m hm u hu
    rw [hgrows.members_eq other hid] at hm
    rcases Ascending.mem_union.mp ((hmembers : f.membersOf other = _) ▸ hm) with hm | hm
    · exact (hbefore a (Nat.lt_trans ha hid) (Nat.ne_of_lt ha) (htail a (Nat.le_of_lt ha)) m hm u
        hu).mono hfirst fun _ hd => hd
    · exact (hbefore b (Nat.lt_trans hb hid) (Nat.ne_of_lt hb) (htail b (Nat.le_of_lt hb)) m hm u
        hu).mono hsecond fun _ hd => hd
  · obtain ⟨hlt', hnot'⟩ := hgrows.of_not_unfilled hlt hnot
    rw [hgrows.state_eq other hlt' heq, hgrows.members_eq other hlt']
    exact (hbefore other hlt' heq hnot').mono (hgrows.dominates (h.target_lt other)) fun _ hm => hm

/-- **Filling all union states** ends, keeps the invariant and changes no other state. -/
theorem fillAll_spec (steps : Nat) :
    ∀ f : Folding, Valid dfa f → AllComplete dfa f →
    f.unfilled.length + setCount dfa.size ≤ steps + f.states.size →
    ∃ f', fillAll steps f = some f' ∧ Valid dfa f' ∧ AllComplete dfa f' ∧ f'.unfilled = [] ∧
      Frame f.IsUnfilled f f' := by
  induction steps with
  | zero =>
    intro f h hcomplete hsteps
    have hle := h.size_le_setCount
    have hnil : f.unfilled = [] := List.length_eq_zero_iff.mp (by omega)
    refine ⟨f, ?_, h, hcomplete, hnil, Frame.refl _ f⟩
    rw [fillAll, hnil]
  | succ steps ih =>
    intro f h hcomplete hsteps
    unfold fillAll
    split
    · next hnil => exact ⟨f, rfl, h, hcomplete, hnil, Frame.refl _ f⟩
    · next id a b rest hunfilled =>
      obtain ⟨hvalid, hcomplete', hgrows, -⟩ := fill_head_spec h hcomplete hunfilled
      -- as many tasks are added as states, so what is left of the bound shrinks by one
      have hlength := hgrows.length_eq
      rw [hunfilled, List.length_cons] at hsteps
      obtain ⟨f', hsome, hvalid', hcomplete'', hnil, hframe⟩ := ih _ hvalid hcomplete'
        (by simp only at hlength; omega)
      refine ⟨f', hsome, hvalid', hcomplete'', hnil, ?_⟩
      have hhead : Frame f.IsUnfilled f ({ f with unfilled := rest }.fill id a b) := by
        refine ⟨hgrows.size_le, fun other hlt hnot => hgrows.state_eq other hlt ?_,
          hgrows.members_eq, hgrows.collapsed_eq⟩
        rintro rfl
        exact hnot (by rw [IsUnfilled, hunfilled]; exact List.mem_cons_self)
      refine hhead.trans hframe fun other hlt hother => ?_
      have hrest := (hgrows.isUnfilled hlt).mp hother
      rw [IsUnfilled, hunfilled]
      exact List.mem_cons_of_mem _ hrest

end ActionRegex.SymbolDfa.Folding
