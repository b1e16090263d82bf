import ActionRegex.Proofs.SymbolDfa.Folding.Live

/-!
# Folding as a whole

The loops end within their limits and keep the invariant, so folding succeeds on every automaton
(`exists_fold?`). When it is done, every state is *settled*: a collapsed state has a
single transition, on an action, and no other state has transitions on actions. The initial state is
not collapsed.

Folding one state inlines each action and state once. In between it removes transitions on actions,
of which a state has no more than the automaton has actions.
-/

namespace ActionRegex.SymbolDfa

namespace Folding

open Ascending (AscendingKeys)

variable {dfa : SymbolDfa} {f f' : Folding}

/-! ## The actions of a state -/

/-- The actions on the transitions of a state. -/
def actionsOf (entries : List (Symbol × Transition)) : List Nat :=
  entries.filterMap fun entry =>
    match entry.1 with
    | .action x => some x
    | .byte _ => none

theorem mem_actionsOf {entries : List (Symbol × Transition)} {x : Nat} :
    x ∈ actionsOf entries ↔ ∃ t, (.action x, t) ∈ entries := by
  rw [actionsOf, List.mem_filterMap]
  constructor
  · rintro ⟨⟨s, t⟩, hmem, heq⟩
    cases s with
    | byte b => simp at heq
    | action y =>
      rw [← Option.some.inj heq]
      exact ⟨t, hmem⟩
  · rintro ⟨t, hmem⟩
    exact ⟨_, hmem, rfl⟩

theorem nodup_actionsOf {entries : List (Symbol × Transition)} (h : AscendingKeys entries) :
    (actionsOf entries).Nodup := by
  induction entries with
  | nil => exact List.nodup_nil
  | cons entry rest ih =>
    have hrest := ih (Ascending.ascendingKeys_cons.mp h).2
    obtain ⟨s, t⟩ := entry
    cases s with
    | byte b => exact hrest
    | action x =>
      refine List.nodup_cons.mpr ⟨fun hmem => ?_, hrest⟩
      obtain ⟨t', ht'⟩ := mem_actionsOf.mp hmem
      exact h.ne_of_mem ht' rfl

theorem length_actionsOf_le (h : Valid dfa f) (id : Nat) :
    (actionsOf (f.state id).transitions).length ≤ dfa.actionLabels.length := by
  refine ((nodup_actionsOf (h.keys id)).subperm fun x hx => ?_).length_le
  obtain ⟨t, ht⟩ := mem_actionsOf.mp hx
  exact ((h.sound id).edges _ ht).label x rfl

theorem actionsOf_erase (a : Nat) (entries : List (Symbol × Transition)) :
    actionsOf (Ascending.erase (.action a) entries) =
      (actionsOf entries).filter fun x => x ≠ a := by
  induction entries with
  | nil => rfl
  | cons entry rest ih =>
    obtain ⟨s, t⟩ := entry
    rw [Ascending.erase] at ih ⊢
    cases s with
    | byte b =>
      rw [List.filter_cons_of_pos (by simp)]
      exact ih
    | action x =>
      by_cases hx : x = a
      · subst hx
        rw [List.filter_cons_of_neg (by simp), ih]
        exact (List.filter_cons_of_neg (by simp)).symm
      · rw [List.filter_cons_of_pos (by simp [hx])]
        show x :: actionsOf _ = List.filter _ (x :: actionsOf rest)
        rw [List.filter_cons_of_pos (by simp [hx]), ih]

theorem length_actionsOf_remove_lt {id : Nat} (hid : id < f.states.size) {a : Nat} {t : Transition}
    (hentry : (.action a, t) ∈ (f.state id).transitions) :
    (actionsOf ((f.remove id a).state id).transitions).length <
      (actionsOf (f.state id).transitions).length := by
  rw [state_remove hid, actionsOf_erase]
  refine List.length_filter_lt_length_iff_exists.mpr ⟨a, mem_actionsOf.mpr ⟨t, hentry⟩, ?_⟩
  simp

/-! ## One state -/

/-- What is known of the actions and states inlined so far: the state covers their members. -/
structure Inlined (dfa : SymbolDfa) (f : Folding) (id : Nat) (inlined : List (Nat × Nat)) :
    Prop where
  nodup : inlined.Nodup
  label : ∀ pair ∈ inlined, pair.1 ∈ dfa.actionLabels
  lt_size : ∀ pair ∈ inlined, pair.2 < f.states.size
  complete : Complete dfa f.membersOf (f.state id)
    (fun m => m ∈ f.membersOf id ∨ ∃ pair ∈ inlined, m ∈ f.membersOf pair.2) nothing

/-- There are no more actions and states to inline than actions and sets of states. -/
theorem Inlined.length_le {id : Nat} {inlined : List (Nat × Nat)} (h : Inlined dfa f id inlined)
    (hvalid : Valid dfa f) : inlined.length ≤ dfa.actionLabels.length * setCount dfa.size := by
  have hsub : inlined ⊆ dfa.actionLabels ×ˢ List.range (setCount dfa.size) := by
    intro pair hpair
    refine List.mem_product.mpr ⟨h.label pair hpair, List.mem_range.mpr ?_⟩
    exact Nat.lt_of_lt_of_le (h.lt_size pair hpair) hvalid.size_le_setCount
  have hlength := (h.nodup.subperm hsub).length_le
  rwa [List.length_product, List.length_range] at hlength

/-- A bound on the steps left for a state. -/
def stepsLeft (dfa : SymbolDfa) (inlined : List (Nat × Nat)) (s : State) : Nat :=
  (dfa.actionLabels.length + 1) *
      (dfa.actionLabels.length * setCount dfa.size - inlined.length) +
    (actionsOf s.transitions).length

theorem stepsLeft_inline_lt {inlined : List (Nat × Nat)} {pair : Nat × Nat} {s s' : State}
    (hinlined : (pair :: inlined).length ≤ dfa.actionLabels.length * setCount dfa.size)
    (hs' : (actionsOf s'.transitions).length ≤ dfa.actionLabels.length) :
    stepsLeft dfa (pair :: inlined) s' < stepsLeft dfa inlined s := by
  -- one more pair is worth more than all actions that a state can have
  obtain ⟨rest, hrest⟩ := Nat.exists_eq_add_of_le hinlined
  rw [List.length_cons] at hrest
  have hbefore : dfa.actionLabels.length * setCount dfa.size - inlined.length = rest + 1 := by omega
  have hafter : dfa.actionLabels.length * setCount dfa.size - (inlined.length + 1) = rest := by
    omega
  rw [stepsLeft, stepsLeft, List.length_cons, hbefore, hafter, Nat.mul_add_one]
  omega

/-- A state is folded to the end. -/
def Settled (f : Folding) (id : Nat) : Prop :=
  if f.isCollapsed id then ∃ a t, (f.state id).transitions = [(.action a, t)]
  else ∀ entry ∈ (f.state id).transitions, entry.1.isAction = false

/-- What folding a state leaves as it is: the symbols of other states, and which of them are
collapsed. -/
structure Keeps (id : Nat) (f f' : Folding) : Prop where
  size_le : f.states.size ≤ f'.states.size
  keys_eq : ∀ other, other < f.states.size → other ≠ id →
    (f'.state other).transitions.map Prod.fst = (f.state other).transitions.map Prod.fst
  collapsed_eq : ∀ other, other ≠ id → f'.isCollapsed other = f.isCollapsed other

theorem Frame.keeps {id : Nat} (h : Frame (· = id) f f') : Keeps id f f' :=
  ⟨h.size_le, fun other hlt hne => by rw [h.state_eq other hlt hne], fun other _ =>
    h.collapsed_eq other⟩

theorem Keeps.trans {id : Nat} {f'' : Folding} (h : Keeps id f f') (h' : Keeps id f' f'') :
    Keeps id f f'' where
  size_le := Nat.le_trans h.size_le h'.size_le
  keys_eq other hlt hne := by
    rw [h'.keys_eq other (Nat.lt_of_lt_of_le hlt h.size_le) hne, h.keys_eq other hlt hne]
  collapsed_eq other hne := by rw [h'.collapsed_eq other hne, h.collapsed_eq other hne]

/-- What holds between the steps of the outer loops. -/
structure Ready (dfa : SymbolDfa) (f : Folding) : Prop extends Valid dfa f where
  complete : AllComplete dfa f
  unfilled_nil : f.unfilled = []

theorem Ready.not_unfilled (h : Ready dfa f) (id : Nat) : ¬ f.IsUnfilled id := by
  simp [IsUnfilled, h.unfilled_nil]

/-- What folding a state achieves. -/
structure Achieves (dfa : SymbolDfa) (id : Nat) (f f' : Folding) : Prop where
  ready : Ready dfa f'
  keeps : Keeps id f f'
  settled : Settled f' id
  zero : f'.isCollapsed id = true → id ≠ 0
  live : UnionsLive dfa f → Live f → Live f'

theorem achieves_of_firstAction?_eq_none (h : Ready dfa f) {id : Nat}
    (hcollapsed : f.isCollapsed id = false) (hnone : (f.state id).firstAction? = none) :
    Achieves dfa id f f := by
  refine ⟨h, (Frame.refl _ f).keeps, ?_, fun hc => ?_, fun _ hlive => hlive⟩
  · rw [Settled, hcollapsed, if_neg (by simp)]
    exact isAction_of_firstAction?_eq_none hnone
  · simp [hcollapsed] at hc

/-- The last step of a state that can be collapsed. -/
theorem achieves_collapse (h : Ready dfa f) {id a : Nat} {t : Transition} (hid : id < f.states.size)
    (hlive : f.isCollapsed id = false) (hentry : (.action a, t) ∈ (f.state id).transitions)
    (hcan : canCollapse (f.state id) id t.target = true) :
    Achieves dfa id f ({ f with folded := f.folded + 1 }.collapse id t.target
      (Ascending.insert a t.actions)) := by
  simp only [canCollapse, Bool.and_eq_true, decide_eq_true_eq, bne_iff_ne, Bool.not_eq_true']
    at hcan
  obtain ⟨⟨⟨hlength, hzero⟩, haccept⟩, hne⟩ := hcan
  have honly : (f.state id).transitions = [(.action a, t)] := by
    obtain ⟨entry, heq⟩ := List.length_eq_one_iff.mp hlength
    rw [heq] at hentry ⊢
    rw [List.mem_singleton.mp hentry]
  have hvalid := h.toValid.withNotes (f.folded + 1) f.merges
  obtain ⟨hvalid', hcomplete'⟩ :=
    collapse_spec hvalid h.complete h.unfilled_nil hid honly haccept
  have hcollapsed := isCollapsed_collapse hvalid.toTables hid t.target
    (Ascending.insert a t.actions)
  refine ⟨⟨hvalid', hcomplete', h.unfilled_nil⟩, ⟨?_, ?_, ?_⟩, ?_, fun _ => hzero, ?_⟩
  · exact Nat.le_of_eq (size_collapse _ _ _ _).symm
  · exact fun other _ _ => keys_collapse _ _ _ _ other
  · intro other hother
    rw [hcollapsed, if_neg (Ne.symm hother)]
    rfl
  · rw [Settled, hcollapsed, if_pos rfl, if_pos rfl, state_collapse, if_pos (by simp)]
    exact ⟨a, t, honly⟩
  · intro _ hall
    have hnotes : Live { f with folded := f.folded + 1 } := ⟨hall.targets, hall.tasks⟩
    exact hnotes.collapse hvalid.toTables h.unfilled_nil hid (hall.targets id hlive _ hentry) hne _

/-- One step of `foldState`: all is well and fewer steps are left. -/
structure Advances (dfa : SymbolDfa) (id : Nat) (inlined inlined' : List (Nat × Nat))
    (f f' : Folding) : Prop where
  ready : Ready dfa f'
  frame : Frame (· = id) f f'
  covers : Inlined dfa f' id inlined'
  lt : stepsLeft dfa inlined' (f'.state id) < stepsLeft dfa inlined (f.state id)
  live : UnionsLive dfa f → Live f → Live f'

theorem Advances.trans {id : Nat} {inlined inlined' : List (Nat × Nat)} {f'' : Folding}
    (h : Advances dfa id inlined inlined' f f') (h' : Achieves dfa id f' f'') :
    Achieves dfa id f f'' :=
  ⟨h'.ready, h.frame.keeps.trans h'.keeps, h'.settled, h'.zero, fun hunions hlive =>
    h'.live (hunions.frame h.frame) (h.live hunions hlive)⟩

/-- One step of `foldState` that skips. -/
theorem advances_skip (h : Ready dfa f) {id a : Nat} {t : Transition} (hid : id < f.states.size)
    (hlive : f.isCollapsed id = false) {inlined : List (Nat × Nat)}
    (hinlined : Inlined dfa f id inlined) (hentry : (.action a, t) ∈ (f.state id).transitions)
    (hold : (a, t.target) ∈ inlined) : Advances dfa id inlined inlined f (f.remove id a) := by
  have hgrows := grows_remove hid a
  obtain ⟨hvalid, hcomplete, hcovers⟩ := skip_spec h.toValid h.complete hid (h.not_unfilled id)
    hentry (fun m hm => Or.inl hm) (fun m hm => Or.inr ⟨_, hold, hm⟩) hinlined.complete
  refine ⟨⟨hvalid, hcomplete, h.unfilled_nil⟩, hgrows.toFrame,
    ⟨hinlined.nodup, hinlined.label, ?_, hcovers⟩, ?_, fun hunions hall => ?_⟩
  · exact fun pair hpair => Nat.lt_of_lt_of_le (hinlined.lt_size pair hpair) hgrows.size_le
  · exact Nat.add_lt_add_left (length_actionsOf_remove_lt hid hentry) _
  · exact hall.remove h.toValid hunions hid (h.not_unfilled id) hlive a

/-- What is known of the actions and states inlined, with one more. -/
theorem Inlined.cons {id a : Nat} {t : Transition} {inlined : List (Nat × Nat)} {f₁ : Folding}
    (h : Inlined dfa f id inlined) (hid : id < f.states.size) (htarget : t.target < f.states.size)
    (hlabel : a ∈ dfa.actionLabels) (hnew : (a, t.target) ∉ inlined) (hframe : Frame (· = id) f f₁)
    (hcomplete : Complete dfa f₁.membersOf (f₁.state id)
      (fun m => (m ∈ f.membersOf id ∨ ∃ pair ∈ inlined, m ∈ f.membersOf pair.2) ∨
        m ∈ f.membersOf t.target) nothing) :
    Inlined dfa f₁ id ((a, t.target) :: inlined) := by
  refine ⟨List.nodup_cons.mpr ⟨hnew, h.nodup⟩, ?_, ?_, ?_⟩
  · exact List.forall_mem_cons.mpr ⟨hlabel, h.label⟩
  · refine List.forall_mem_cons.mpr ⟨Nat.lt_of_lt_of_le htarget hframe.size_le, ?_⟩
    exact fun pair hpair => Nat.lt_of_lt_of_le (h.lt_size pair hpair) hframe.size_le
  · intro m hm
    refine hcomplete m ?_
    rw [hframe.members_eq id hid] at hm
    rcases hm with hm | ⟨pair, hpair, hm⟩
    · exact Or.inl (Or.inl hm)
    · rcases List.mem_cons.mp hpair with rfl | hpair
      · rw [hframe.members_eq _ htarget] at hm
        exact Or.inr hm
      · rw [hframe.members_eq _ (h.lt_size pair hpair)] at hm
        exact Or.inl (Or.inr ⟨pair, hpair, hm⟩)

/-- One step of `foldState` that inlines, with the union states that it creates filled. -/
theorem advances_inline (h : Ready dfa f) {id a : Nat} {t : Transition} (hid : id < f.states.size)
    (hlive : f.isCollapsed id = false) {inlined : List (Nat × Nat)}
    (hinlined : Inlined dfa f id inlined) (hentry : (.action a, t) ∈ (f.state id).transitions)
    (hnew : (a, t.target) ∉ inlined) :
    ∃ f', fillAll (setCount dfa.size)
        ((f.remove id a).copyFrom id t.target (Ascending.insert a t.actions)) = some f' ∧
      Advances dfa id inlined ((a, t.target) :: inlined) f f' := by
  have htarget : t.target < f.states.size := h.target_lt id _ hentry
  obtain ⟨hvalid, hcomplete, hgrows, hreuses, hcovers⟩ := inline_spec h.toValid h.complete hid
    h.unfilled_nil hentry (fun m hm => Or.inl hm) hinlined.complete
  generalize (f.remove id a).copyFrom id t.target (Ascending.insert a t.actions) = f₁ at *
  obtain ⟨f', hsome, hvalid', hcomplete', hnil, hframe⟩ :=
    fillAll_spec (setCount dfa.size) f₁ hvalid hcomplete (by
      have hlength := hgrows.length_eq
      rw [h.unfilled_nil, List.length_nil] at hlength
      omega)
  -- the state itself is not among those that are filled
  have hold : ∀ other, other < f.states.size → ¬ f₁.IsUnfilled other := fun other hlt =>
    mt (hgrows.isUnfilled hlt).mp (h.not_unfilled other)
  have hframe' : Frame (· = id) f f' :=
    hgrows.toFrame.trans hframe fun other hlt hunfilled => absurd hunfilled (hold other hlt)
  have hstate : f'.state id = f₁.state id :=
    hframe.state_eq id (Nat.lt_of_lt_of_le hid hgrows.size_le) (hold id hid)
  have hpairs : Inlined dfa f' id ((a, t.target) :: inlined) := by
    refine hinlined.cons hid htarget (((h.sound id).edges _ hentry).label a rfl) hnew hframe' ?_
    rw [hstate]
    exact hcovers.mono (hframe.dominates (hvalid.target_lt id)) fun _ hd => hd
  refine ⟨f', hsome, ⟨hvalid', hcomplete', hnil⟩, hframe', hpairs,
    stepsLeft_inline_lt (hpairs.length_le hvalid') (length_actionsOf_le hvalid' id),
    fun hunions hall => ?_⟩
  have htargetLive : f.isCollapsed t.target = false := hall.targets id hlive _ hentry
  have hremoved := hall.remove h.toValid hunions hid (h.not_unfilled id) hlive a
  have hcopied : Live f₁ := hall.reuses hunions hlive
    (hremoved.targets t.target htargetLive) hvalid hgrows hreuses
  exact hcopied.fillAll _ _ _ hvalid hcomplete (hunions.frame hgrows.toFrame) hsome

/-- **Folding a state** ends and settles it. -/
theorem foldState_spec {limits : Limits} (hlimits : limits.states = setCount dfa.size) {id : Nat}
    (steps : Nat) :
    ∀ inlined f, Ready dfa f → id < f.states.size → f.isCollapsed id = false →
    Inlined dfa f id inlined → stepsLeft dfa inlined (f.state id) ≤ steps →
    ∃ f', foldState limits id steps inlined f = some f' ∧ Achieves dfa id f f' := by
  induction steps with
  | zero =>
    intro inlined f h hid hcollapsed hinlined hsteps
    unfold foldState
    split
    · next hnone => exact ⟨f, rfl, achieves_of_firstAction?_eq_none h hcollapsed hnone⟩
    · next a t hsome =>
      -- the transition would be among the actions of the state
      have hpos := List.length_pos_of_mem (mem_actionsOf.mpr ⟨t, mem_of_firstAction? hsome⟩)
      rw [stepsLeft] at hsteps
      omega
  | succ steps ih =>
    intro inlined f h hid hcollapsed hinlined hsteps
    unfold foldState
    split
    · next hnone => exact ⟨f, rfl, achieves_of_firstAction?_eq_none h hcollapsed hnone⟩
    · next a t hsome =>
      have hentry := mem_of_firstAction? hsome
      -- skipping and inlining go on in the same way, with fewer steps left
      have hnext : ∀ inlined' f₁, Advances dfa id inlined inlined' f f₁ →
          ∃ f', foldState limits id steps inlined' f₁ = some f' ∧ Achieves dfa id f f' := by
        intro inlined' f₁ hadvances
        have hlt := hadvances.lt
        obtain ⟨f', hsome', hachieves⟩ := ih inlined' f₁ hadvances.ready
          (Nat.lt_of_lt_of_le hid hadvances.frame.size_le)
          (by rw [hadvances.frame.collapsed_eq, hcollapsed]) hadvances.covers (by omega)
        exact ⟨f', hsome', hadvances.trans hachieves⟩
      show ∃ f', (if canCollapse (f.state id) id t.target then _ else _) = some f' ∧ _
      by_cases hcan : canCollapse (f.state id) id t.target = true
      · rw [if_pos hcan]
        exact ⟨_, rfl, achieves_collapse h hid hcollapsed hentry hcan⟩
      · rw [if_neg hcan]
        show ∃ f', (if inlined.contains (a, t.target) then
          foldState limits id steps inlined (f.remove id a) else _) = some f' ∧ _
        by_cases hold : inlined.contains (a, t.target) = true
        · rw [if_pos hold]
          exact hnext _ _ (advances_skip h hid hcollapsed hinlined hentry
            (List.contains_iff_mem.mp hold))
        · rw [if_neg hold, hlimits]
          obtain ⟨f₁, hfill, hadvances⟩ := advances_inline h hid hcollapsed hinlined hentry
            (mt List.contains_iff_mem.mpr hold)
          rw [remove] at hfill
          rw [hfill]
          exact hnext _ _ hadvances

/-! ## All states -/

theorem Settled.keeps {id other : Nat} (h : Settled f other) (hkeeps : Keeps id f f')
    (hlt : other < f.states.size) (hne : other ≠ id) : Settled f' other := by
  have hkeys := hkeeps.keys_eq other hlt hne
  unfold Settled at h ⊢
  rw [hkeeps.collapsed_eq other hne]
  split at h
  · next hcollapsed =>
    obtain ⟨a, t, heq⟩ := h
    rw [if_pos hcollapsed]
    rw [heq, List.map_singleton] at hkeys
    obtain ⟨⟨s, t'⟩, heq', hs⟩ := List.map_eq_singleton_iff.mp hkeys
    replace hs : s = .action a := hs
    exact ⟨a, t', by rw [heq', hs]⟩
  · next hcollapsed =>
    rw [if_neg hcollapsed]
    intro entry hentry
    have hmem := List.mem_map_of_mem (f := Prod.fst) hentry
    rw [hkeys] at hmem
    obtain ⟨entry₀, hentry₀, hsymbol⟩ := List.mem_map.mp hmem
    rw [← hsymbol]
    exact h entry₀ hentry₀

/-- The states before `id` are settled, and those from `id` on are not collapsed. -/
structure Progress (f : Folding) (id : Nat) : Prop where
  settled : ∀ other, other < id → Settled f other
  later : ∀ other, id ≤ other → f.isCollapsed other = false
  zero : f.isCollapsed 0 = false

theorem inlined_nil (h : Ready dfa f) {id : Nat} (hid : id < f.states.size) :
    Inlined dfa f id [] := by
  refine ⟨List.nodup_nil, by simp, by simp, ?_⟩
  rintro m (hm | ⟨pair, hpair, -⟩)
  · exact h.complete id hid (h.not_unfilled id) m hm
  · simp at hpair

/-- The limit is enough for a state of which nothing is inlined yet. -/
theorem stepsLeft_nil_le (h : Valid dfa f) (id : Nat) :
    stepsLeft dfa [] (f.state id) ≤ stepLimit dfa := by
  have hle := length_actionsOf_le h id
  rw [stepsLeft, stepLimit, List.length_nil, Nat.sub_zero, Nat.mul_add_one]
  omega

/-- What folding states one after the other achieves: what is collapsed stays collapsed, and only
collapsed states lead to collapsed states, if no union state is collapsed in the end. -/
structure Continues (dfa : SymbolDfa) (f f' : Folding) : Prop where
  collapsed : ∀ id, f'.isCollapsed id = false → f.isCollapsed id = false
  live : UnionsLive dfa f' → Live f → Live f'

theorem Continues.refl (dfa : SymbolDfa) (f : Folding) : Continues dfa f f :=
  ⟨fun _ h => h, fun _ h => h⟩

theorem Continues.trans {f'' : Folding} (h : Continues dfa f f') (h' : Continues dfa f' f'') :
    Continues dfa f f'' where
  collapsed id hid := h.collapsed id (h'.collapsed id hid)
  live hunions hlive :=
    h'.live hunions (h.live (fun id hid => h'.collapsed id (hunions id hid)) hlive)

theorem Achieves.continues {id : Nat} (h : Achieves dfa id f f')
    (hid : f.isCollapsed id = false) : Continues dfa f f' := by
  have hcollapsed : ∀ other, f'.isCollapsed other = false → f.isCollapsed other = false := by
    intro other hother
    by_cases heq : other = id
    · rw [heq, hid]
    · rwa [h.keeps.collapsed_eq other heq] at hother
  exact ⟨hcollapsed, fun hunions => h.live fun other hother =>
    hcollapsed other (hunions other hother)⟩

/-- The next state is folded. -/
theorem Achieves.progress {id : Nat} (h : Achieves dfa id f f') (hprogress : Progress f id)
    (hid : id < f.states.size) : Progress f' (id + 1) := by
  have hcollapsed := h.keeps.collapsed_eq
  refine ⟨?_, ?_, ?_⟩
  · intro other hlt
    rcases Nat.lt_succ_iff_lt_or_eq.mp hlt with hlt | rfl
    · exact (hprogress.settled other hlt).keeps h.keeps (Nat.lt_trans hlt hid) (Nat.ne_of_lt hlt)
    · exact h.settled
  · intro other hle
    rw [hcollapsed other (by omega)]
    exact hprogress.later other (by omega)
  · by_cases heq : id = 0
    · subst heq
      simpa using mt h.zero (by simp)
    · rw [hcollapsed 0 (Ne.symm heq)]
      exact hprogress.zero

/-- **Folding the states one after the other** ends with all of them settled. -/
theorem foldFrom_spec (steps : Nat) :
    ∀ id f, Ready dfa f → Progress f id → setCount dfa.size ≤ steps + id →
    ∃ f', foldFrom (Limits.of dfa) steps id f = some f' ∧ Ready dfa f' ∧
      Progress f' f'.states.size ∧ Continues dfa f f' := by
  have hend : ∀ id f, Ready dfa f → Progress f id → ¬ id < f.states.size →
      Progress f f.states.size := by
    intro id f h hprogress hid
    refine ⟨fun other hlt => hprogress.settled other (by omega), ?_, hprogress.zero⟩
    exact fun other hle => h.isCollapsed_of_size_le hle
  induction steps with
  | zero =>
    intro id f h hprogress hsteps
    -- there are no more states than sets of states, so all of them are folded
    have hle := h.size_le_setCount
    have hid : ¬ id < f.states.size := by omega
    rw [foldFrom, if_neg hid]
    exact ⟨f, rfl, h, hend id f h hprogress hid, Continues.refl dfa f⟩
  | succ steps ih =>
    intro id f h hprogress hsteps
    unfold foldFrom
    by_cases hid : id < f.states.size
    · have hlive := hprogress.later id (Nat.le_refl _)
      rw [if_pos hid]
      show ∃ f', (if f.isCollapsed id = true then _ else _) = some f' ∧ _
      rw [hlive, if_neg (by simp)]
      obtain ⟨f₁, hsome, hachieves⟩ := @foldState_spec dfa (Limits.of dfa) rfl id
        (Limits.of dfa).steps [] f h hid hlive (inlined_nil h hid) (stepsLeft_nil_le h.toValid id)
      rw [hsome]
      obtain ⟨f', hsome', hready, hprogress', hcontinues⟩ := ih (id + 1) f₁ hachieves.ready
        (hachieves.progress hprogress hid) (by omega)
      exact ⟨f', hsome', hready, hprogress', (hachieves.continues hlive).trans hcontinues⟩
    · rw [if_neg hid]
      exact ⟨f, rfl, h, hend id f h hprogress hid, Continues.refl dfa f⟩

theorem isCollapsed_start (dfa : SymbolDfa) (id : Nat) : (start dfa).isCollapsed id = false := by
  rw [isCollapsed, start, Array.getD_eq_getD_getElem?, Array.getElem?_replicate]
  split <;> rfl

theorem live_start (dfa : SymbolDfa) : Live (start dfa) :=
  ⟨fun _ _ _ _ => isCollapsed_start dfa _, by simp [start]⟩

end Folding

open Folding

/-- **Folding succeeds on every automaton** and settles every state. If it collapses no union state,
only collapsed states lead to collapsed states. -/
theorem exists_fold? {dfa : SymbolDfa} (hrange : dfa.InRange) :
    ∃ f, fold? dfa = some f ∧ Ready dfa f ∧ (∀ id, Settled f id) ∧ f.isCollapsed 0 = false ∧
      (UnionsLive dfa f → Live f) := by
  have hready : Ready dfa (start dfa) := ⟨valid_start hrange, allComplete_start hrange, rfl⟩
  have hprogress : Progress (start dfa) 0 :=
    ⟨by simp, fun id _ => isCollapsed_start dfa id, isCollapsed_start dfa 0⟩
  obtain ⟨f, hsome, hready', hprogress', hcontinues⟩ :=
    foldFrom_spec (Limits.of dfa).states 0 (start dfa) hready hprogress (Nat.le_refl _)
  refine ⟨f, hsome, hready', fun id => ?_, hprogress'.zero, fun hunions =>
    hcontinues.live hunions (live_start dfa)⟩
  by_cases hid : id < f.states.size
  · exact hprogress'.settled id hid
  · rw [Settled, hprogress'.later id (Nat.le_of_not_lt hid), if_neg (by simp),
      Folding.state_of_size_le (Nat.le_of_not_lt hid)]
    simp

end ActionRegex.SymbolDfa
