import ActionRegex.Proofs.SymbolDfa.Folding.Steps

/-!
# States that are not collapsed

Nothing leads to a collapsed state at the moment of the collapse. Later steps make transitions to
states that transitions led to before, with one exception: the union state of two states may have
been there already, and may be collapsed. So as long as no union state is collapsed, only collapsed
states lead to collapsed states (`Live`).
-/

namespace ActionRegex.SymbolDfa.Folding

variable {dfa : SymbolDfa} {f f' : Folding}

/-- Only collapsed states lead to collapsed states, and no union state is to be filled from one. -/
structure Live (f : Folding) : Prop where
  targets : ∀ id, f.isCollapsed id = false →
    ∀ entry ∈ (f.state id).transitions, f.isCollapsed entry.2.target = false
  tasks : ∀ task ∈ f.unfilled, f.isCollapsed task.2.1 = false ∧ f.isCollapsed task.2.2 = false

/-- No union state is collapsed. -/
def UnionsLive (dfa : SymbolDfa) (f : Folding) : Prop :=
  ∀ id, dfa.size ≤ id → f.isCollapsed id = false

theorem UnionsLive.frame {changed : Nat → Prop} (h : UnionsLive dfa f)
    (hframe : Frame changed f f') : UnionsLive dfa f' := fun id hid => by
  rw [hframe.collapsed_eq, h id hid]

/-- A step that makes transitions to known states only. -/
theorem Live.reuses (h : Live f) (hunions : UnionsLive dfa f) {id : Nat}
    {entries : List (Symbol × Transition)} (hlive : f.isCollapsed id = false)
    (hentries : ∀ entry ∈ entries, f.isCollapsed entry.2.target = false) (hvalid : Valid dfa f')
    (hgrows : Grows id f f') (hreuses : Reuses dfa id entries f f') : Live f' := by
  have hcollapsed := hgrows.collapsed_eq
  have hknown : ∀ target, Known dfa f id entries target → f.isCollapsed target = false := by
    rintro target (⟨entry, hentry, rfl⟩ | ⟨entry, hentry, rfl⟩ | hle)
    · exact h.targets id hlive entry hentry
    · exact hentries entry hentry
    · exact hunions target hle
  constructor
  · intro other hother entry hentry
    rw [hcollapsed] at hother ⊢
    by_cases heq : other = id
    · subst heq
      exact hknown _ (hreuses.targets entry hentry)
    · by_cases hlt : other < f.states.size
      · rw [hgrows.state_eq other hlt heq] at hentry
        exact h.targets other hother entry hentry
      · -- a new state is still to fill, so it is empty
        have hlt' : other < f'.states.size := by
          by_contra hge
          rw [state_of_size_le (Nat.le_of_not_lt hge)] at hentry
          simp at hentry
        have hunfilled : f'.IsUnfilled other := by
          by_contra hnot
          exact hlt (hgrows.of_not_unfilled hlt' hnot).1
        obtain ⟨task, htask, rfl⟩ := List.mem_map.mp hunfilled
        rw [hvalid.empty task htask] at hentry
        simp at hentry
  · intro task htask
    rw [hcollapsed, hcollapsed]
    rcases hreuses.tasks task htask with htask | ⟨hfirst, hsecond⟩
    · exact h.tasks task htask
    · exact ⟨hknown _ hfirst, hknown _ hsecond⟩

theorem Live.remove (h : Live f) (hvalid : Valid dfa f) (hunions : UnionsLive dfa f) {id : Nat}
    (hid : id < f.states.size) (hfilled : ¬ f.IsUnfilled id) (hlive : f.isCollapsed id = false)
    (a : Nat) : Live (f.remove id a) :=
  h.reuses hunions hlive (by simp) (valid_remove hvalid hid hfilled a) (grows_remove hid a)
    (reuses_remove hid a)

theorem Live.fillAll (steps : Nat) :
    ∀ f f' : Folding, Live f → Valid dfa f → AllComplete dfa f → UnionsLive dfa f →
    fillAll steps f = some f' → Live f' := by
  induction steps with
  | zero =>
    intro f f' h _ _ _ hsome
    unfold Folding.fillAll at hsome
    split at hsome
    · rwa [← Option.some.inj hsome]
    · simp at hsome
  | succ steps ih =>
    intro f f' h hvalid hcomplete hunions hsome
    unfold Folding.fillAll at hsome
    split at hsome
    · rwa [← Option.some.inj hsome]
    · next id a b rest hunfilled =>
      have htask : (id, a, b) ∈ f.unfilled := hunfilled ▸ List.mem_cons_self
      -- what the union state gets comes from states that are not collapsed
      obtain ⟨ha, hb⟩ := h.tasks _ htask
      obtain ⟨hvalid', hcomplete', hgrows, hreuses⟩ := fill_head_spec hvalid hcomplete hunfilled
      have htail : Live { f with unfilled := rest } :=
        ⟨h.targets, fun task hrest => h.tasks task (hunfilled ▸ List.mem_cons_of_mem _ hrest)⟩
      have hunions' : UnionsLive dfa { f with unfilled := rest } := hunions
      refine ih _ f' ?_ hvalid' hcomplete' (hunions'.frame hgrows.toFrame) hsome
      refine htail.reuses hunions (hunions id (hvalid.unfilled _ htask).1) ?_ hvalid' hgrows hreuses
      intro entry hentry
      rcases List.mem_append.mp hentry with hentry | hentry
      · exact h.targets a ha entry hentry
      · exact h.targets b hb entry hentry

/-- Collapsing a state leaves nothing that leads to it. -/
theorem Live.collapse (h : Live f) (htables : Tables dfa f) (hunfilled : f.unfilled = [])
    {id : Nat} (hid : id < f.states.size) {target : Nat} (htarget : f.isCollapsed target = false)
    (hne : target ≠ id) (actions : List Nat) : Live (f.collapse id target actions) := by
  have hcollapsed := isCollapsed_collapse htables hid target actions
  constructor
  · intro other hother entry hentry
    rw [hcollapsed] at hother ⊢
    by_cases heq : id = other
    · simp [heq] at hother
    · rw [if_neg heq] at hother
      rw [state_collapse, if_neg (by simp [hother, Ne.symm heq])] at hentry
      obtain ⟨entry₀, hmem, rfl⟩ := List.mem_map.mp hentry
      by_cases hto : entry₀.2.target = id
      · rw [redirect, if_pos hto]
        exact (if_neg (Ne.symm hne)).trans htarget
      · rw [redirect, if_neg hto, if_neg (Ne.symm hto)]
        exact h.targets other hother entry₀ hmem
  · intro task htask
    rw [show (f.collapse id target actions).unfilled = f.unfilled from rfl, hunfilled] at htask
    simp at htask

end ActionRegex.SymbolDfa.Folding
