import ActionRegex.Proofs.SymbolDfa.Folding.Unions

/-!
# Folding one transition

The three ways in which a transition on an action is folded keep the invariant: inlining its target,
skipping it because the same action and state were inlined before, and collapsing its state.

The first two remove the transition, which leaves a debt to the members of its target. Inlining pays
it, because the state then has all that the target has; skipping pays it, because the state covers
the members of what was inlined before. Collapsing changes other states only: what led to the
collapsed state now leads past it.
-/

namespace ActionRegex.SymbolDfa.Folding

open Ascending (AscendingKeys)
open ActionRegex.Symbol (bytes lastBlock)

variable {dfa : SymbolDfa} {f f' : Folding}

/-! ## The first transition on an action -/

theorem mem_of_firstAction? {s : State} {a : Nat} {t : Transition}
    (h : s.firstAction? = some (a, t)) : (.action a, t) ∈ s.transitions := by
  obtain ⟨⟨symbol, t'⟩, hmem, heq⟩ := List.exists_of_findSome?_eq_some h
  cases symbol with
  | byte b => simp at heq
  | action a' =>
    obtain ⟨rfl, rfl⟩ := Prod.mk.inj (Option.some.inj heq)
    exact hmem

theorem isAction_of_firstAction?_eq_none {s : State} (h : s.firstAction? = none) :
    ∀ entry ∈ s.transitions, entry.1.isAction = false := by
  rintro ⟨symbol, t⟩ hmem
  have hnone := List.findSome?_eq_none_iff.mp h _ hmem
  cases symbol with
  | byte b => rfl
  | action a => simp at hnone

/-! ## Removing a transition -/

/-- The folding in which a transition on an action is counted as folded and removed. -/
def remove (f : Folding) (id a : Nat) : Folding :=
  { f with folded := f.folded + 1 }.modify id fun s =>
    { s with transitions := Ascending.erase (.action a) s.transitions }

theorem state_remove {id : Nat} (hid : id < f.states.size) (a : Nat) :
    (f.remove id a).state id =
      { f.state id with transitions := Ascending.erase (.action a) (f.state id).transitions } := by
  rw [remove, state_modify (f := { f with folded := f.folded + 1 }) hid, if_pos rfl]
  rfl

theorem grows_remove {id : Nat} (hid : id < f.states.size) (a : Nat) :
    Grows id f (f.remove id a) := by
  have h := grows_modify (f := { f with folded := f.folded + 1 }) hid fun s =>
    { s with transitions := Ascending.erase (.action a) s.transitions }
  exact ⟨⟨h.size_le, h.state_eq, h.members_eq, h.collapsed_eq⟩, h.unfilled, h.length_eq⟩

theorem valid_remove (h : Valid dfa f) {id : Nat} (hid : id < f.states.size)
    (hfilled : ¬ f.IsUnfilled id) (a : Nat) : Valid dfa (f.remove id a) := by
  have hsub : ∀ entry ∈ Ascending.erase (.action a) (f.state id).transitions,
      entry ∈ (f.state id).transitions := fun entry hentry => (Ascending.mem_erase.mp hentry).1
  refine valid_modify (h.withNotes (f.folded + 1) f.merges) hid hfilled ?_ ?_ ?_
  · exact (h.keys id).erase (.action a)
  · exact fun entry hentry => h.target_lt id entry (hsub entry hentry)
  · exact ⟨fun entry hentry => (h.sound id).edges entry (hsub entry hentry), (h.sound id).entry,
      (h.sound id).accept⟩

theorem reuses_remove {id : Nat} (hid : id < f.states.size) (a : Nat) :
    Reuses dfa id [] f (f.remove id a) := by
  refine ⟨fun entry hentry => Or.inl ⟨entry, ?_, rfl⟩, fun _ => Or.inl⟩
  rw [state_remove hid] at hentry
  exact (Ascending.mem_erase.mp hentry).1

/-- Without the transition, the members of its target are owed. -/
theorem complete_remove (h : Valid dfa f) {id : Nat} (hid : id < f.states.size) {a : Nat}
    {t : Transition} (hentry : (.action a, t) ∈ (f.state id).transitions) {starts : Nat → Prop}
    (hcomplete : Complete dfa f.membersOf (f.state id) starts nothing) :
    Complete dfa (f.remove id a).membersOf ((f.remove id a).state id) starts
      (· ∈ f.membersOf t.target) := by
  intro m hm u hu
  rw [state_remove hid]
  cases hcomplete m hm u hu with
  | accept haccept hbytes => exact Covered.accept haccept hbytes
  | @step entry p v m' hmem hne hp hm' hv =>
    by_cases hsymbol : entry.1 = .action a
    -- there is one transition on the action, so the word goes on at a member of its target
    · have heq : entry.2 = t := by
        have h1 := (Ascending.get?_eq_some_iff (h.keys id)).mpr hentry
        have h2 := (Ascending.get?_eq_some_iff (h.keys id)).mpr
          (show (.action a, entry.2) ∈ _ from hsymbol ▸ hmem)
        exact Option.some.inj (h2.symm.trans h1)
      rw [heq] at hm'
      rw [hsymbol, Symbol.bytes_action] at hp
      exact Covered.owed hne hp hm' hv
    · exact Covered.step (Ascending.mem_erase.mpr ⟨hmem, hsymbol⟩) hne hp hm' hv
  | owed _ _ hm' _ => exact hm'.elim

/-! ## Inlining -/

/-- The copies of transitions that inlining makes. -/
def copies (actions : List Nat) (entries : List (Symbol × Transition)) :
    List (Symbol × Transition) :=
  entries.map fun entry => (entry.1, withActions actions entry.2)

theorem copyFrom_eq (f : Folding) (id target : Nat) (actions : List Nat) :
    f.copyFrom id target actions =
      let f' := f.addTransitions id (copies actions (f.state target).transitions)
      if (f'.state target).accept && !(f'.state id).accept then
        f'.modify id fun s => { s with accept := true, entry := Ascending.union s.entry actions }
      else f' :=
  rfl

/-- What the copies of the target's transitions say is true of the state they are copied to. -/
theorem edgeSound_copies (h : Valid dfa f) {id a : Nat} {t : Transition}
    (hsound : EdgeSound dfa (f.membersOf id) (f.membersOf t.target) (.action a, t)) :
    ∀ entry ∈ copies (Ascending.insert a t.actions) (f.state t.target).transitions,
      EdgeSound dfa (f.membersOf id) (f.membersOf entry.2.target) entry := by
  intro entry hentry
  obtain ⟨⟨s, t'⟩, hmem, rfl⟩ := List.mem_map.mp hentry
  exact hsound.inline ((h.sound t.target).edges _ hmem)

/-- A state may become accepting, with the actions of the transition on its entry, if the target of
the transition accepts. -/
theorem stateSound_accept (h : Valid dfa f) {id a : Nat} {t : Transition}
    (hsound : EdgeSound dfa (f.membersOf id) (f.membersOf t.target) (.action a, t))
    (haccept : (f.state t.target).accept = true) :
    StateSound dfa f.membersOf (f.membersOf id) { f.state id with
      accept := true
      entry := Ascending.union (f.state id).entry (Ascending.insert a t.actions) } := by
  refine ⟨(h.sound id).edges, fun hplain x hx => ?_, fun _ => ?_⟩
  · rcases Ascending.mem_union.mp hx with hx | hx
    · exact (h.sound id).entry hplain x hx
    · obtain ⟨m, hm, u, q, hpath, hbytes, hmem⟩ := hsound.fires hplain x (mem_insert_iff_fires.mp hx)
      rw [Symbol.bytes_action, or_self] at hbytes
      exact ⟨m, hm, u, q, hpath, hbytes, Symbol.mem_of_mem_lastBlock hmem⟩
  -- the actions of `v₁` fire on the entry of the target and are not handed on; those of `u` are
  · obtain ⟨m', hm', v₁, v₂, hv, hbytes', -, -⟩ := (h.sound t.target).accept haccept
    obtain ⟨m, hm, u, hpath, hne, hbytes, hfires⟩ := hsound.reach m' hm'
    refine ⟨m, hm, u, v₁ ++ v₂, hpath.accepts hv, ?_, fun hnil => absurd hnil hne, fun x hx => ?_⟩
    · rw [Symbol.bytes_append, hbytes, hbytes']
      rfl
    · exact Ascending.mem_union.mpr (Or.inr (mem_insert_iff_fires.mpr (hfires x hx)))

/-- A copy leads where the transition leads. -/
theorem Known.of_copies {id : Nat} {actions : List Nat} {entries : List (Symbol × Transition)}
    {target : Nat} (h : Known dfa f id (copies actions entries) target) :
    Known dfa f id entries target := by
  rcases h with hknown | ⟨entry, hentry, heq⟩ | hle
  · exact Or.inl hknown
  · obtain ⟨entry₀, hmem, rfl⟩ := List.mem_map.mp hentry
    exact Or.inr (Or.inl ⟨entry₀, hmem, heq⟩)
  · exact Or.inr (Or.inr hle)

/-- The target of a transition has been copied, but for acceptance. -/
theorem copies_spec (h : Valid dfa f) {id a : Nat} {t : Transition} (hid : id < f.states.size)
    (hfilled : ¬ f.IsUnfilled id) (htarget : t.target < f.states.size)
    (hsound : EdgeSound dfa (f.membersOf id) (f.membersOf t.target) (.action a, t)) :
    let f' := f.addTransitions id
      (copies (Ascending.insert a t.actions) (f.state t.target).transitions)
    Valid dfa f' ∧ Grows id f f' ∧ Absorbs dfa id (f.state t.target).transitions f f' ∧
      (f'.state t.target).accept = (f.state t.target).accept := by
  have htargets : ∀ entry ∈ copies (Ascending.insert a t.actions) (f.state t.target).transitions,
      entry.2.target < f.states.size := by
    intro entry hentry
    obtain ⟨entry₀, hmem, rfl⟩ := List.mem_map.mp hentry
    exact h.target_lt t.target entry₀ hmem
  obtain ⟨hvalid, hgrows, habsorbs⟩ :=
    addTransitions_spec _ f h hid hfilled htargets (edgeSound_copies h hsound)
  refine ⟨hvalid, hgrows, ⟨⟨?_, ?_⟩, habsorbs.accept_eq, habsorbs.kept, ?_⟩, ?_⟩
  · exact fun entry hentry => (habsorbs.targets entry hentry).of_copies
  · intro task htask
    exact (habsorbs.tasks task htask).imp_right fun h => ⟨h.1.of_copies, h.2.of_copies⟩
  · intro entry hentry
    have hcopy : (entry.1, withActions (Ascending.insert a t.actions) entry.2) ∈
        copies (Ascending.insert a t.actions) (f.state t.target).transitions :=
      List.mem_map.mpr ⟨entry, hentry, rfl⟩
    exact habsorbs.added (entry.1, withActions (Ascending.insert a t.actions) entry.2) hcopy
  · by_cases heq : t.target = id
    · subst heq
      exact habsorbs.accept_eq
    · rw [hgrows.state_eq _ htarget heq]

/-- **Copying the target of a transition**: the state then has all that it and the target had. -/
theorem copyFrom_spec (h : Valid dfa f) {id a : Nat} {t : Transition} (hid : id < f.states.size)
    (hfilled : ¬ f.IsUnfilled id) (htarget : t.target < f.states.size)
    (hsound : EdgeSound dfa (f.membersOf id) (f.membersOf t.target) (.action a, t)) :
    let f' := f.copyFrom id t.target (Ascending.insert a t.actions)
    Valid dfa f' ∧ Grows id f f' ∧ Reuses dfa id (f.state t.target).transitions f f' ∧
      Dominates f.membersOf f'.membersOf (f.state id) (f'.state id) ∧
      Dominates f.membersOf f'.membersOf (f.state t.target) (f'.state id) := by
  obtain ⟨hvalid, hgrows, habsorbs, haccept⟩ := copies_spec h hid hfilled htarget hsound
  simp only [copyFrom_eq]
  generalize f.addTransitions id _ = f₁ at hvalid hgrows habsorbs haccept ⊢
  have hid₁ : id < f₁.states.size := Nat.lt_of_lt_of_le hid hgrows.size_le
  have hsound₁ : EdgeSound dfa (f₁.membersOf id) (f₁.membersOf t.target) (.action a, t) := by
    rw [hgrows.members_eq id hid, hgrows.members_eq _ htarget]
    exact hsound
  -- acceptance and the actions on entry change only if the state did not accept before
  by_cases hnew : ((f₁.state t.target).accept && !(f₁.state id).accept) = true
  · rw [if_pos hnew]
    obtain ⟨htarget₁, -⟩ := Bool.and_eq_true_iff.mp hnew
    have hstate := state_modify hid₁ (fun s => { s with
      accept := true
      entry := Ascending.union s.entry (Ascending.insert a t.actions) }) id
    rw [if_pos rfl] at hstate
    refine ⟨?_, hgrows.trans (grows_modify hid₁ _), ?_, ?_, ?_⟩
    · exact valid_modify hvalid hid₁ (mt (hgrows.isUnfilled hid).mp hfilled) (hvalid.keys id)
        (hvalid.target_lt id) (stateSound_accept hvalid hsound₁ htarget₁)
    · refine ⟨fun entry hentry => habsorbs.targets entry ?_, habsorbs.tasks⟩
      rwa [hstate] at hentry
    · rw [hstate]
      exact ⟨fun _ => rfl, habsorbs.kept⟩
    · rw [hstate]
      exact ⟨fun _ => rfl, habsorbs.added⟩
  · rw [if_neg hnew]
    refine ⟨hvalid, hgrows, habsorbs.toReuses, habsorbs.dominates, fun htarget₀ => ?_,
      habsorbs.added⟩
    rw [haccept, htarget₀] at hnew
    simpa using hnew

/-- **Inlining** keeps the invariant, and the state covers what it covered and the members of the
inlined state. -/
theorem inline_spec (h : Valid dfa f) (hcomplete : AllComplete dfa f) {id a : Nat} {t : Transition}
    (hid : id < f.states.size) (hunfilled : f.unfilled = [])
    (hentry : (.action a, t) ∈ (f.state id).transitions) {starts : Nat → Prop}
    (hmembers : ∀ m ∈ f.membersOf id, starts m)
    (hstarts : Complete dfa f.membersOf (f.state id) starts nothing) :
    let f' := (f.remove id a).copyFrom id t.target (Ascending.insert a t.actions)
    Valid dfa f' ∧ AllComplete dfa f' ∧ Grows id f f' ∧
      Reuses dfa id ((f.remove id a).state t.target).transitions f f' ∧
      Complete dfa f'.membersOf (f'.state id) (fun m => starts m ∨ m ∈ f.membersOf t.target)
        nothing := by
  intro f'
  have hfilled : ∀ other, ¬ f.IsUnfilled other := fun other => by simp [IsUnfilled, hunfilled]
  have htarget : t.target < f.states.size := h.target_lt id _ hentry
  have hgrows := grows_remove hid a
  obtain ⟨hvalid', hgrows', hreuses, hself, hother⟩ : Valid dfa f' ∧ Grows id (f.remove id a) f' ∧
      Reuses dfa id ((f.remove id a).state t.target).transitions (f.remove id a) f' ∧
      Dominates f.membersOf f'.membersOf ((f.remove id a).state id) (f'.state id) ∧
      Dominates f.membersOf f'.membersOf ((f.remove id a).state t.target) (f'.state id) :=
    copyFrom_spec (valid_remove h hid (hfilled id) a) (Nat.lt_of_lt_of_le hid hgrows.size_le)
      (mt (hgrows.isUnfilled hid).mp (hfilled id)) (Nat.lt_of_lt_of_le htarget hgrows.size_le)
      ((h.sound id).edges _ hentry)
  have hdebt : Complete dfa f'.membersOf (f'.state id) starts (· ∈ f.membersOf t.target) :=
    (complete_remove h hid hentry hstarts).mono hself fun _ hm => hm
  have hboth : Complete dfa f'.membersOf (f'.state id)
      (fun m => starts m ∨ m ∈ f.membersOf t.target) (· ∈ f.membersOf t.target) := by
    rintro m (hm | hm) u hu
    · exact hdebt m hm u hu
    -- the state may be its own target, but then it has just lost the transition
    · by_cases heq : t.target = id
      · rw [heq] at hm
        exact hdebt m (hmembers m hm) u hu
      · have hcovered := hcomplete t.target htarget (hfilled _) m hm u hu
        rw [← hgrows.state_eq _ htarget heq] at hcovered
        exact hcovered.mono hother fun _ hfalse => hfalse.elim
  have hcovers := hboth.settle fun m hm => Or.inr hm
  refine ⟨hvalid', hcomplete.grows h (hgrows.trans hgrows') fun _ => ?_, hgrows.trans hgrows',
    (reuses_remove hid a).trans hreuses, hcovers⟩
  intro m hm
  rw [(hgrows.trans hgrows').members_eq id hid] at hm
  exact hcovers m (Or.inl (hmembers m hm))

/-- **Skipping** what was inlined before keeps the invariant, and the state covers what it
covered. -/
theorem skip_spec (h : Valid dfa f) (hcomplete : AllComplete dfa f) {id a : Nat} {t : Transition}
    (hid : id < f.states.size) (hfilled : ¬ f.IsUnfilled id)
    (hentry : (.action a, t) ∈ (f.state id).transitions) {starts : Nat → Prop}
    (hmembers : ∀ m ∈ f.membersOf id, starts m) (htarget : ∀ m ∈ f.membersOf t.target, starts m)
    (hstarts : Complete dfa f.membersOf (f.state id) starts nothing) :
    Valid dfa (f.remove id a) ∧ AllComplete dfa (f.remove id a) ∧
      Complete dfa (f.remove id a).membersOf ((f.remove id a).state id) starts nothing := by
  have hcovers := (complete_remove h hid hentry hstarts).settle htarget
  refine ⟨valid_remove h hid hfilled a, hcomplete.grows h (grows_remove hid a) fun _ => ?_,
    hcovers⟩
  exact fun m hm => hcovers m (hmembers m hm)

/-! ## Collapsing -/

@[simp] theorem size_collapse (f : Folding) (id target : Nat) (actions : List Nat) :
    (f.collapse id target actions).states.size = f.states.size :=
  Array.size_mapIdx

theorem state_collapse (f : Folding) (id target : Nat) (actions : List Nat) (other : Nat) :
    (f.collapse id target actions).state other =
      if other = id || f.isCollapsed other then f.state other
      else { f.state other with transitions := (f.state other).transitions.map fun entry =>
        (entry.1, redirect id target actions entry.2) } := by
  rw [state, collapse, Array.getD_eq_getD_getElem?, Array.getElem?_mapIdx, state,
    Array.getD_eq_getD_getElem?]
  cases f.states[other]? with
  | none => simp
  | some s => rfl

theorem isCollapsed_collapse (h : Tables dfa f) {id : Nat} (hid : id < f.states.size)
    (target : Nat) (actions : List Nat) (other : Nat) :
    (f.collapse id target actions).isCollapsed other =
      if id = other then true else f.isCollapsed other := by
  rw [isCollapsed, collapse, Arrays.getD_modify (h.collapsed_size ▸ hid)]
  rfl

/-- Collapsing changes no symbol. -/
theorem keys_collapse (f : Folding) (id target : Nat) (actions : List Nat) (other : Nat) :
    ((f.collapse id target actions).state other).transitions.map Prod.fst =
      (f.state other).transitions.map Prod.fst := by
  rw [state_collapse]
  split
  · rfl
  · rw [List.map_map]
    rfl

/-- A transition after the collapse is one before it, redirected or as it was. -/
theorem mem_collapse_cases {id target other : Nat} {actions : List Nat}
    {entry : Symbol × Transition}
    (h : entry ∈ ((f.collapse id target actions).state other).transitions) :
    entry ∈ (f.state other).transitions ∨ ∃ s t, (s, t) ∈ (f.state other).transitions ∧
      t.target = id ∧ entry = (s, withActions actions { t with target }) := by
  rw [state_collapse] at h
  split at h
  · exact Or.inl h
  · obtain ⟨⟨s, t⟩, hmem, rfl⟩ := List.mem_map.mp h
    by_cases heq : t.target = id
    · exact Or.inr ⟨s, t, hmem, heq, by rw [redirect, if_pos heq]⟩
    · left
      rw [redirect, if_neg heq]
      exact hmem

theorem valid_collapse (h : Valid dfa f) (hunfilled : f.unfilled = []) {id a : Nat} {t : Transition}
    (hentry : (.action a, t) ∈ (f.state id).transitions) :
    Valid dfa (f.collapse id t.target (Ascending.insert a t.actions)) := by
  refine ⟨h.toTables.congr (size_collapse _ _ _ _) Array.size_modify rfl rfl rfl, ?_, ?_, ?_, ?_⟩
  · intro other
    rw [AscendingKeys, ← List.pairwise_map, keys_collapse, List.pairwise_map]
    exact h.keys other
  · intro other entry hmem
    rw [size_collapse]
    rcases mem_collapse_cases hmem with hold | ⟨s, t', -, -, rfl⟩
    · exact h.target_lt other entry hold
    · exact h.target_lt id (.action a, t) hentry
  · intro other
    refine ⟨fun entry hmem => ?_, ?_, ?_⟩
    · rcases mem_collapse_cases hmem with hold | ⟨s, t', hold, heq, rfl⟩
      · exact (h.sound other).edges entry hold
      · have hfirst := (h.sound other).edges _ hold
        rw [heq] at hfirst
        exact hfirst.follow ((h.sound id).edges _ hentry) t.target
    · rw [state_collapse]
      split <;> exact (h.sound other).entry
    · rw [state_collapse]
      split <;> exact (h.sound other).accept
  · intro task htask
    rw [show (f.collapse id t.target _).unfilled = f.unfilled from rfl, hunfilled] at htask
    simp at htask

/-- What led to a collapsed state leads past it. -/
theorem covered_collapse {id a : Nat} {t : Transition}
    (hself : Complete dfa f.membersOf (f.state id) (· ∈ f.membersOf id) nothing)
    (honly : (f.state id).transitions = [(.action a, t)]) (haccept : (f.state id).accept = false)
    {other : Nat} {u : List Symbol} (h : Covered dfa f.membersOf (f.state other) nothing u) :
    Covered dfa f.membersOf
      ((f.collapse id t.target (Ascending.insert a t.actions)).state other) nothing u := by
  rw [state_collapse]
  split
  · exact h
  cases h with
  | accept haccept' hbytes => exact Covered.accept haccept' hbytes
  | owed _ _ hm _ => exact hm.elim
  | @step entry p v m hmem hne hp hm hv =>
    have hredirected := List.mem_map_of_mem (f := fun entry : Symbol × Transition =>
      (entry.1, redirect id t.target (Ascending.insert a t.actions) entry.2)) hmem
    by_cases htarget : entry.2.target = id
    · rw [htarget] at hm
      -- the rest of the word takes the only transition of the collapsed state
      cases hself m hm v hv with
      | accept haccept' _ => simp [haccept] at haccept'
      | owed _ _ hm' _ => exact hm'.elim
      | @step entry' p' v' m' hmem' _ hp' hm' hv' =>
        rw [honly, List.mem_singleton] at hmem'
        subst hmem'
        rw [← List.append_assoc]
        refine Covered.step hredirected (by simp [hne]) ?_ ?_ hv'
        · rw [Symbol.bytes_append, hp, hp', Symbol.bytes_action, List.append_nil]
        · rw [redirect, if_pos htarget]
          exact hm'
    · refine Covered.step hredirected hne hp ?_ hv
      rw [redirect, if_neg htarget]
      exact hm

/-- **Collapsing** keeps the invariant. -/
theorem collapse_spec (h : Valid dfa f) (hcomplete : AllComplete dfa f)
    (hunfilled : f.unfilled = []) {id a : Nat} {t : Transition} (hid : id < f.states.size)
    (honly : (f.state id).transitions = [(.action a, t)]) (haccept : (f.state id).accept = false) :
    Valid dfa (f.collapse id t.target (Ascending.insert a t.actions)) ∧
      AllComplete dfa (f.collapse id t.target (Ascending.insert a t.actions)) := by
  have hfilled : ∀ other, ¬ f.IsUnfilled other := fun other => by simp [IsUnfilled, hunfilled]
  refine ⟨valid_collapse h hunfilled (honly ▸ List.mem_singleton_self _), ?_⟩
  intro other hlt _ m hm u hu
  rw [size_collapse] at hlt
  exact covered_collapse (hcomplete id hid (hfilled id)) honly haccept
    (hcomplete other hlt (hfilled other) m hm u hu)

end ActionRegex.SymbolDfa.Folding
