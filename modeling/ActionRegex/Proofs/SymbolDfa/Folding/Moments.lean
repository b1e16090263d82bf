import ActionRegex.Proofs.SymbolDfa.Folding.Loops
import Mathlib.Logic.Relation

/-!
# Folding moment by moment

The loops of folding as one machine that needs no limits (`Moment.next?`). At each moment it fills a
union state, folds the next transition on an action of the state at hand, or goes on to the next
state. The loops with limits go through the moments of this machine, one after the other, and end
where it stops (`exists_halted`).

What holds at every moment follows from what each step keeps (`Moment.Holds`):

* between two fillings, the texts that are accepted from a state are those that were accepted from
  its members at the start (`texts_eq_of_reaches`);
* the machine stops, and there are never more states than non-empty sets of states at the start
  (`fold?_halts`).
-/

namespace ActionRegex.SymbolDfa

namespace Folding

open Relation (ReflTransGen)
open ActionRegex.Symbol (bytes)

variable {dfa : SymbolDfa} {f f' : Folding}

/-! ## Texts -/

/-- A text that is accepted from a state was accepted from one of its members. -/
theorem exists_accepts_of_accepts (h : Valid dfa f) {id : Nat} {u : List Symbol}
    (hu : Accepts ⟨f.states⟩ id u) :
    ∃ m ∈ f.membersOf id, ∃ v, Accepts dfa m v ∧ bytes v = bytes u := by
  induction u generalizing id with
  | nil =>
    obtain ⟨m, hm, v₁, v₂, hv, hbytes, -⟩ := (h.sound id).accept (accepts_nil_iff.mp hu)
    exact ⟨m, hm, v₁ ++ v₂, hv, hbytes⟩
  | cons s u ih =>
    obtain ⟨t, ht, hrest⟩ := accepts_cons_iff.mp hu
    obtain ⟨m', hm', v, hv, hbytes⟩ := ih hrest
    obtain ⟨m, hm, p, hpath, -, hp, -⟩ := ((h.sound id).edges _ ht).reach m' hm'
    refine ⟨m, hm, p ++ v, hpath.accepts hv, ?_⟩
    rw [Symbol.bytes_append, Symbol.bytes_cons, hp, hbytes]

/-- What was accepted from a member is accepted, as a text. -/
theorem exists_accepts_of_mem (hcomplete : AllComplete dfa f) (htables : Tables dfa f)
    (hfilled : ∀ id, ¬ f.IsUnfilled id) {id m : Nat} (hm : m ∈ f.membersOf id) {v : List Symbol}
    (hv : Accepts dfa m v) : ∃ u, Accepts ⟨f.states⟩ id u ∧ bytes u = bytes v := by
  -- induction on the length: a transition consumes a nonempty part of the word
  induction hn : v.length using Nat.strongRecOn generalizing id m v with
  | ind n ih =>
    subst hn
    cases hcomplete id (htables.lt_size_of_mem hm) (hfilled id) m hm v hv with
    | accept haccept hbytes =>
      refine ⟨[], accepts_nil_iff.mpr haccept, ?_⟩
      rw [hbytes]
      rfl
    | owed _ _ hfalse _ => exact hfalse.elim
    | @step entry p w m' hmem hne hp hm' hw =>
      have hlt : w.length < (p ++ w).length := by
        have hpos := List.length_pos_iff.mpr hne
        rw [List.length_append]
        omega
      obtain ⟨u, hu, hbytes⟩ := ih w.length hlt hm' hw rfl
      refine ⟨entry.1 :: u, accepts_cons_iff.mpr ⟨entry.2, hmem, hu⟩, ?_⟩
      rw [Symbol.bytes_cons, Symbol.bytes_append, hp, hbytes]

/-- What is known of a state is not touched by changes of other states. -/
theorem Inlined.frame {id : Nat} {inlined : List (Nat × Nat)} {changed : Nat → Prop}
    (h : Inlined dfa f id inlined) (hvalid : Valid dfa f) (hid : id < f.states.size)
    (hframe : Frame changed f f') (hnot : ¬ changed id) : Inlined dfa f' id inlined := by
  refine ⟨h.nodup, h.label, ?_, ?_⟩
  · exact fun pair hpair => Nat.lt_of_lt_of_le (h.lt_size pair hpair) hframe.size_le
  · rw [hframe.state_eq id hid hnot]
    intro m hm
    refine h.complete.mono (hframe.dominates (hvalid.target_lt id)) (fun _ hd => hd) m ?_
    rw [hframe.members_eq id hid] at hm
    refine hm.imp_right ?_
    rintro ⟨pair, hpair, hm⟩
    rw [hframe.members_eq _ (h.lt_size pair hpair)] at hm
    exact ⟨pair, hpair, hm⟩

/-! ## Moments -/

/-- Where folding stands: the state at hand, and the actions and states inlined into it so far. -/
structure Moment where
  id : Nat
  inlined : List (Nat × Nat)
  folding : Folding

namespace Moment

/-- The first moment. -/
def start (dfa : SymbolDfa) : Moment := ⟨0, [], Folding.start dfa⟩

/-- The moment at which a transition on an action of the state at hand has been folded. -/
def foldTransition (m : Moment) (a : Nat) (t : Transition) : Moment :=
  let actions := Ascending.insert a t.actions
  if canCollapse (m.folding.state m.id) m.id t.target then
    ⟨m.id + 1, [],
      { m.folding with folded := m.folding.folded + 1 }.collapse m.id t.target actions⟩
  else if m.inlined.contains (a, t.target) then ⟨m.id, m.inlined, m.folding.remove m.id a⟩
  else
    ⟨m.id, (a, t.target) :: m.inlined,
      (m.folding.remove m.id a).copyFrom m.id t.target actions⟩

/-- The next moment, unless all states are folded. -/
def next? (m : Moment) : Option Moment :=
  match m.folding.unfilled with
  | (id, a, b) :: rest =>
    some { m with folding := { m.folding with unfilled := rest }.fill id a b }
  | [] =>
    if m.id < m.folding.states.size then
      if m.folding.isCollapsed m.id then some ⟨m.id + 1, [], m.folding⟩
      else
        match (m.folding.state m.id).firstAction? with
        | none => some ⟨m.id + 1, [], m.folding⟩
        | some (a, t) => some (m.foldTransition a t)
    else none

theorem unfilled_nil_of_next?_eq_none {m : Moment} (h : m.next? = none) :
    m.folding.unfilled = [] := by
  unfold next? at h
  split at h
  · simp at h
  · next hunfilled => exact hunfilled

/-- The moments that come after a moment, itself included. -/
def Reaches : Moment → Moment → Prop := ReflTransGen fun m m' => m.next? = some m'

/-- What a step does. -/
inductive Step : Moment → Moment → Prop where
  | fill {id : Nat} {inlined : List (Nat × Nat)} {f : Folding} {task : Nat × Nat × Nat}
    {rest : List (Nat × Nat × Nat)} (hunfilled : f.unfilled = task :: rest) :
    Step ⟨id, inlined, f⟩
      ⟨id, inlined, { f with unfilled := rest }.fill task.1 task.2.1 task.2.2⟩
  | leave {id : Nat} {inlined : List (Nat × Nat)} {f : Folding} (hunfilled : f.unfilled = [])
    (hid : id < f.states.size) : Step ⟨id, inlined, f⟩ ⟨id + 1, [], f⟩
  | collapse {id a : Nat} {inlined : List (Nat × Nat)} {f : Folding} {t : Transition}
    (hunfilled : f.unfilled = []) (hid : id < f.states.size) (hlive : f.isCollapsed id = false)
    (hentry : (.action a, t) ∈ (f.state id).transitions)
    (hcan : canCollapse (f.state id) id t.target = true) :
    Step ⟨id, inlined, f⟩ ⟨id + 1, [],
      { f with folded := f.folded + 1 }.collapse id t.target (Ascending.insert a t.actions)⟩
  | skip {id a : Nat} {inlined : List (Nat × Nat)} {f : Folding} {t : Transition}
    (hunfilled : f.unfilled = []) (hid : id < f.states.size) (hlive : f.isCollapsed id = false)
    (hentry : (.action a, t) ∈ (f.state id).transitions) (hold : (a, t.target) ∈ inlined) :
    Step ⟨id, inlined, f⟩ ⟨id, inlined, f.remove id a⟩
  | inline {id a : Nat} {inlined : List (Nat × Nat)} {f : Folding} {t : Transition}
    (hunfilled : f.unfilled = []) (hid : id < f.states.size) (hlive : f.isCollapsed id = false)
    (hentry : (.action a, t) ∈ (f.state id).transitions) (hnew : (a, t.target) ∉ inlined) :
    Step ⟨id, inlined, f⟩ ⟨id, (a, t.target) :: inlined,
      (f.remove id a).copyFrom id t.target (Ascending.insert a t.actions)⟩

theorem step_of_next? {m m' : Moment} (h : m.next? = some m') : Step m m' := by
  obtain ⟨id, inlined, f⟩ := m
  unfold next? at h
  split at h
  · next union a b rest hunfilled =>
    rw [← Option.some.inj h]
    exact Step.fill hunfilled
  · next hunfilled =>
    split at h
    · next hid =>
      split at h
      · rw [← Option.some.inj h]
        exact Step.leave hunfilled hid
      · next hcollapsed =>
        have hlive : f.isCollapsed id = false := by simpa using hcollapsed
        split at h
        · rw [← Option.some.inj h]
          exact Step.leave hunfilled hid
        · next a t hsome =>
          have hentry := mem_of_firstAction? hsome
          rw [← Option.some.inj h, foldTransition]
          by_cases hcan : canCollapse (f.state id) id t.target = true
          · rw [if_pos hcan]
            exact Step.collapse hunfilled hid hlive hentry hcan
          · rw [if_neg hcan]
            by_cases hold : inlined.contains (a, t.target) = true
            · rw [if_pos hold]
              exact Step.skip hunfilled hid hlive hentry (List.contains_iff_mem.mp hold)
            · rw [if_neg hold]
              exact Step.inline hunfilled hid hlive hentry (mt List.contains_iff_mem.mpr hold)
    · simp at h

/-! ## What holds at every moment -/

/-- The invariant of the machine. While union states are filled, the state at hand is not one of
them. -/
structure Holds (dfa : SymbolDfa) (m : Moment) : Prop where
  valid : Valid dfa m.folding
  complete : AllComplete dfa m.folding
  filling : m.folding.unfilled ≠ [] → m.id < m.folding.states.size
  filled : m.id < m.folding.states.size → ¬ m.folding.IsUnfilled m.id
  inlined : m.id < m.folding.states.size → Inlined dfa m.folding m.id m.inlined

theorem Holds.ready {m : Moment} (h : Holds dfa m) (hunfilled : m.folding.unfilled = []) :
    Ready dfa m.folding :=
  ⟨h.valid, h.complete, hunfilled⟩

/-- A state is taken up. -/
theorem holds_of_ready (h : Ready dfa f) (id : Nat) : Holds dfa ⟨id, [], f⟩ where
  valid := h.toValid
  complete := h.complete
  filling hne := absurd h.unfilled_nil hne
  filled _ := h.not_unfilled id
  inlined hid := inlined_nil h hid

/-- What a step keeps. -/
theorem Holds.step {m m' : Moment} (h : Holds dfa m) (hstep : Step m m') : Holds dfa m' := by
  cases hstep with
  | @fill id inlined f task rest hunfilled =>
    obtain ⟨union, a, b⟩ := task
    obtain ⟨hvalid, hcomplete, hgrows, -⟩ := fill_head_spec h.valid h.complete hunfilled
    have hid : id < f.states.size := h.filling (by simp [hunfilled])
    have hnot := h.filled hid
    rw [IsUnfilled, hunfilled, List.map_cons, List.mem_cons, not_or] at hnot
    refine ⟨hvalid, hcomplete, fun _ => Nat.lt_of_lt_of_le hid hgrows.size_le, fun _ => ?_,
      fun _ => ?_⟩
    · exact mt (hgrows.isUnfilled hid).mp hnot.2
    · have hinlined := h.inlined hid
      refine Inlined.frame ?_ (valid_tail h.valid hunfilled) hid hgrows.toFrame hnot.1
      exact ⟨hinlined.nodup, hinlined.label, hinlined.lt_size, hinlined.complete⟩
  | leave hunfilled hid => exact holds_of_ready (h.ready hunfilled) _
  | collapse hunfilled hid hlive hentry hcan =>
    exact holds_of_ready (achieves_collapse (h.ready hunfilled) hid hlive hentry hcan).ready _
  | skip hunfilled hid hlive hentry hold =>
    have hadvances := advances_skip (h.ready hunfilled) hid hlive (h.inlined hid) hentry hold
    refine ⟨hadvances.ready.toValid, hadvances.ready.complete, fun hne => ?_, fun _ => ?_,
      fun _ => hadvances.covers⟩
    · exact absurd hadvances.ready.unfilled_nil hne
    · exact hadvances.ready.not_unfilled _
  | @inline id a inlined f t hunfilled hid hlive hentry hnew =>
    have hready := h.ready hunfilled
    have hinlined := h.inlined hid
    obtain ⟨hvalid, hcomplete, hgrows, -, hcovers⟩ := inline_spec h.valid h.complete hid hunfilled
      hentry (fun m hm => Or.inl hm) hinlined.complete
    generalize (f.remove id a).copyFrom id t.target (Ascending.insert a t.actions) = f₁ at *
    refine ⟨hvalid, hcomplete, fun _ => Nat.lt_of_lt_of_le hid hgrows.size_le, fun _ => ?_,
      fun _ => ?_⟩
    · exact mt (hgrows.isUnfilled hid).mp (hready.not_unfilled id)
    · exact hinlined.cons hid (h.valid.target_lt id _ hentry)
        (((h.valid.sound id).edges _ hentry).label a rfl) hnew hgrows.toFrame hcovers

theorem ready_start (hrange : dfa.InRange) : Ready dfa (Folding.start dfa) :=
  ⟨valid_start hrange, allComplete_start hrange, rfl⟩

/-- **The invariant holds at every moment.** -/
theorem holds_of_reaches (hrange : dfa.InRange) {m : Moment} (h : Reaches (start dfa) m) :
    Holds dfa m := by
  induction h with
  | refl => exact holds_of_ready (ready_start hrange) 0
  | tail _ hnext ih => exact ih.step (step_of_next? hnext)

/-! ## The loops go through the moments -/

theorem reaches_of_fillAll (id : Nat) (inlined : List (Nat × Nat)) (steps : Nat) :
    ∀ f f', fillAll steps f = some f' →
    Reaches ⟨id, inlined, f⟩ ⟨id, inlined, f'⟩ ∧ f'.unfilled = [] := by
  induction steps with
  | zero =>
    intro f f' h
    unfold fillAll at h
    split at h
    · next hnil =>
      cases h
      exact ⟨ReflTransGen.refl, hnil⟩
    · simp at h
  | succ steps ih =>
    intro f f' h
    unfold fillAll at h
    split at h
    · next hnil =>
      cases h
      exact ⟨ReflTransGen.refl, hnil⟩
    · next union a b rest hunfilled =>
      obtain ⟨hreaches, hnil⟩ := ih _ _ h
      refine ⟨ReflTransGen.head ?_ hreaches, hnil⟩
      simp only [next?, hunfilled]

/-- What the next moment is when a transition on an action is to be folded. -/
theorem next?_eq_foldTransition {id a : Nat} (inlined : List (Nat × Nat)) {t : Transition}
    (hunfilled : f.unfilled = []) (hid : id < f.states.size) (hlive : f.isCollapsed id = false)
    (hfirst : (f.state id).firstAction? = some (a, t)) :
    next? ⟨id, inlined, f⟩ = some (foldTransition ⟨id, inlined, f⟩ a t) := by
  simp only [next?, hunfilled, if_pos hid, hlive, hfirst]
  rfl

theorem reaches_of_foldState {limits : Limits} (hlimits : limits.states = setCount dfa.size)
    {id : Nat} (steps : Nat) :
    ∀ inlined f f', Ready dfa f → id < f.states.size → f.isCollapsed id = false →
    Inlined dfa f id inlined → foldState limits id steps inlined f = some f' →
    Reaches ⟨id, inlined, f⟩ ⟨id + 1, [], f'⟩ := by
  have hdone : ∀ inlined f, Ready dfa f → id < f.states.size → f.isCollapsed id = false →
      (f.state id).firstAction? = none → Reaches ⟨id, inlined, f⟩ ⟨id + 1, [], f⟩ := by
    intro inlined f h hid hlive hnone
    refine ReflTransGen.single ?_
    simp only [next?, h.unfilled_nil, if_pos hid, hlive, hnone]
    rfl
  induction steps with
  | zero =>
    intro inlined f f' h hid hlive _ hsome
    unfold foldState at hsome
    split at hsome
    · next hnone =>
      cases hsome
      exact hdone inlined f h hid hlive hnone
    · simp at hsome
  | succ steps ih =>
    intro inlined f f' h hid hlive hinlined hsome
    unfold foldState at hsome
    split at hsome
    · next hnone =>
      cases hsome
      exact hdone inlined f h hid hlive hnone
    · next a t hfirst =>
      have hentry := mem_of_firstAction? hfirst
      have hnext := next?_eq_foldTransition inlined h.unfilled_nil hid hlive hfirst
      rw [foldTransition] at hnext
      -- skipping and inlining go on in the same way
      have hrest : ∀ inlined' f₁, Advances dfa id inlined inlined' f f₁ →
          foldState limits id steps inlined' f₁ = some f' →
          Reaches ⟨id, inlined', f₁⟩ ⟨id + 1, [], f'⟩ := fun inlined' f₁ hadvances =>
        ih inlined' f₁ f' hadvances.ready (Nat.lt_of_lt_of_le hid hadvances.frame.size_le)
          (by rw [hadvances.frame.collapsed_eq, hlive]) hadvances.covers
      replace hsome : (if canCollapse (f.state id) id t.target then _ else _) = some f' := hsome
      by_cases hcan : canCollapse (f.state id) id t.target = true
      · rw [if_pos hcan] at hsome hnext
        cases hsome
        exact ReflTransGen.single hnext
      · rw [if_neg hcan] at hsome hnext
        replace hsome : (if inlined.contains (a, t.target) then
          foldState limits id steps inlined (f.remove id a) else _) = some f' := hsome
        by_cases hold : inlined.contains (a, t.target) = true
        · rw [if_pos hold] at hsome hnext
          have hadvances :=
            advances_skip h hid hlive hinlined hentry (List.contains_iff_mem.mp hold)
          exact ReflTransGen.head hnext (hrest _ _ hadvances hsome)
        · rw [if_neg hold, hlimits] at hsome
          rw [if_neg hold] at hnext
          obtain ⟨f₁, hfill, hadvances⟩ := advances_inline h hid hlive hinlined hentry
            (mt List.contains_iff_mem.mpr hold)
          have hfilling := (reaches_of_fillAll id ((a, t.target) :: inlined) _ _ _ hfill).1
          rw [remove] at hfill
          rw [hfill] at hsome
          exact ReflTransGen.head hnext (hfilling.trans (hrest _ _ hadvances hsome))

theorem reaches_of_foldFrom (steps : Nat) :
    ∀ id f f', Ready dfa f → foldFrom (Limits.of dfa) steps id f = some f' →
    ∃ id', Reaches ⟨id, [], f⟩ ⟨id', [], f'⟩ ∧ next? ⟨id', [], f'⟩ = none := by
  have hend : ∀ id f, Ready dfa f → ¬ id < f.states.size →
      ∃ id', Reaches ⟨id, [], f⟩ ⟨id', [], f⟩ ∧ next? ⟨id', [], f⟩ = none := by
    intro id f h hid
    refine ⟨id, ReflTransGen.refl, ?_⟩
    simp only [next?, h.unfilled_nil, if_neg hid]
  induction steps with
  | zero =>
    intro id f f' h hsome
    unfold foldFrom at hsome
    by_cases hid : id < f.states.size
    · rw [if_pos hid] at hsome
      simp at hsome
    · rw [if_neg hid] at hsome
      cases hsome
      exact hend id f h hid
  | succ steps ih =>
    intro id f f' h hsome
    unfold foldFrom at hsome
    by_cases hid : id < f.states.size
    · rw [if_pos hid] at hsome
      replace hsome : (if f.isCollapsed id = true then _ else _) = some f' := hsome
      by_cases hcollapsed : f.isCollapsed id = true
      · rw [if_pos hcollapsed] at hsome
        obtain ⟨id', hreaches, hnone⟩ := ih (id + 1) f f' h hsome
        refine ⟨id', ReflTransGen.head ?_ hreaches, hnone⟩
        simp only [next?, h.unfilled_nil, if_pos hid, if_pos hcollapsed]
      · rw [if_neg hcollapsed] at hsome
        have hlive : f.isCollapsed id = false := by simpa using hcollapsed
        have hinlined := inlined_nil h hid
        obtain ⟨f₁, hfold, hachieves⟩ := @foldState_spec dfa (Limits.of dfa) rfl id
          (Limits.of dfa).steps [] f h hid hlive hinlined (stepsLeft_nil_le h.toValid id)
        have hstate := @reaches_of_foldState dfa (Limits.of dfa) rfl id _ _ _ _ h hid hlive
          hinlined hfold
        rw [hfold] at hsome
        obtain ⟨id', hreaches, hnone⟩ := ih (id + 1) f₁ f' hachieves.ready hsome
        exact ⟨id', hstate.trans hreaches, hnone⟩
    · rw [if_neg hid] at hsome
      cases hsome
      exact hend id f h hid

/-- **The machine stops where the loops end.** -/
theorem exists_halted (hrange : dfa.InRange) :
    ∃ last, Reaches (start dfa) last ∧ last.next? = none ∧ fold? dfa = some last.folding := by
  obtain ⟨f, hfold, -⟩ := exists_fold? hrange
  obtain ⟨id, hreaches, hnone⟩ := reaches_of_foldFrom _ _ _ _ (ready_start hrange) hfold
  exact ⟨⟨id, [], f⟩, hreaches, hnone, hfold⟩

/-- Where the machine stops, it comes from every moment. -/
theorem Reaches.halted {m m' last : Moment} (hlast : Reaches m last) (hnone : last.next? = none)
    (h : Reaches m m') : Reaches m' last := by
  have hunique : Relator.RightUnique fun m m' : Moment => m.next? = some m' := by
    intro m m₁ m₂ h₁ h₂
    exact Option.some.inj (h₁.symm.trans h₂)
  rcases ReflTransGen.total_of_right_unique hunique hlast h with hbefore | hafter
  · cases Relation.ReflTransGen.cases_head hbefore with
    | inl heq => exact heq ▸ ReflTransGen.refl
    | inr hnext =>
      obtain ⟨next, hnext, -⟩ := hnext
      rw [hnone] at hnext
      simp at hnext
  · exact hafter

end Moment

/-! ## Texts and termination -/

/-- A folding stands for an automaton at the start: from every state the texts are accepted that
were accepted from its members, and no two states have the same members. -/
structure Faithful (dfa : SymbolDfa) (f : Folding) : Prop where
  texts_iff : ∀ id, id < f.states.size → ∀ w,
    w ∈ texts ⟨f.states⟩ id ↔ ∃ m ∈ f.membersOf id, w ∈ texts dfa m
  injective : ∀ id id', id < f.states.size → id' < f.states.size →
    f.membersOf id = f.membersOf id' → id = id'

theorem Ready.faithful (h : Ready dfa f) : Faithful dfa f := by
  refine ⟨fun id _ w => ?_, h.injective⟩
  constructor
  · rintro ⟨u, hu, rfl⟩
    obtain ⟨m, hm, v, hv, hbytes⟩ := exists_accepts_of_accepts h.toValid hu
    exact ⟨m, hm, v, hv, hbytes⟩
  · rintro ⟨m, hm, v, hv, rfl⟩
    exact exists_accepts_of_mem h.complete h.toTables h.not_unfilled hm hv

end Folding

open Folding (Faithful Moment)

/-- **Folding keeps the texts of every state at every step.** Whenever no union state is to be
filled, which is so after each transition that is folded and after each collapse, every state
accepts what its members accepted at the start, also a collapsed state or a union state. -/
theorem faithful_of_reaches {dfa : SymbolDfa} (hrange : dfa.InRange) :
    (∃ last, Moment.Reaches (Moment.start dfa) last ∧ last.next? = none ∧
      fold? dfa = some last.folding) ∧
    ∀ m, Moment.Reaches (Moment.start dfa) m → m.folding.unfilled = [] →
      Faithful dfa m.folding :=
  ⟨Moment.exists_halted hrange, fun _ hm hunfilled =>
    ((Moment.holds_of_reaches hrange hm).ready hunfilled).faithful⟩

/-- An automaton in which transitions on actions form a cycle and a loop, one transition carries an
action already, and nothing leads to or from the last state. -/
def cycleDfa : SymbolDfa where
  states := #[
    { transitions := [(.byte 97, { target := 1 }), (.action 0, { target := 1 })] },
    { transitions := [(.action 0, { target := 2 }), (.action 1, { target := 0 })] },
    { accept := true
      transitions := [(.byte 98, { target := 0, actions := [3] }), (.action 0, { target := 2 })] },
    {}]

theorem inRange_cycleDfa : cycleDfa.InRange := inRange_of_forall_lt (by decide)

/-- What is left of the cycle in the end stands for what was there. -/
theorem faithful_cycleDfa : cycleDfa.InRange ∧
    ∃ f, fold? cycleDfa = some f ∧ Faithful cycleDfa f := by
  obtain ⟨⟨last, hlast, hnone, hfold⟩, hfaithful⟩ := faithful_of_reaches inRange_cycleDfa
  exact ⟨inRange_cycleDfa, last.folding, hfold,
    hfaithful last hlast (Moment.unfilled_nil_of_next?_eq_none hnone)⟩

/-- **Folding stops.** All moments lead to the one where the loops end, and at none of them there
are more states than non-empty sets of states at the start. -/
theorem fold?_halts {dfa : SymbolDfa} (hrange : dfa.InRange) :
    ∃ last, fold? dfa = some last.folding ∧ last.next? = none ∧
      ∀ m, Moment.Reaches (Moment.start dfa) m →
        Moment.Reaches m last ∧ m.folding.states.size ≤ 2 ^ dfa.size - 1 := by
  obtain ⟨last, hlast, hnone, hfold⟩ := Moment.exists_halted hrange
  refine ⟨last, hfold, hnone, fun m hm => ⟨hlast.halted hnone hm, ?_⟩⟩
  have hlt : m.folding.states.size < 2 ^ dfa.size :=
    (Moment.holds_of_reaches hrange hm).valid.size_lt_setCount
  omega

theorem fold?_halts_cycleDfa : cycleDfa.InRange ∧
    ∃ f, fold? cycleDfa = some f ∧ f.states.size ≤ 15 := by
  obtain ⟨last, hfold, -, hmoments⟩ := fold?_halts inRange_cycleDfa
  have hfirst := (hmoments _ Relation.ReflTransGen.refl).1
  exact ⟨inRange_cycleDfa, last.folding, hfold, (hmoments last hfirst).2⟩

end ActionRegex.SymbolDfa
