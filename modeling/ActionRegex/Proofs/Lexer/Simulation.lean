import ActionRegex.Proofs.Compiler.ActionIndexes
import ActionRegex.Proofs.Dfa.TransitionSets
import ActionRegex.Proofs.Lexer.Reading.Files

/-!
# A generated lexer does what a stepper does

The two files of a lexer are read back as a switch (`read?_write`); here the calls of that
switch are compared with the steps of a stepper. The invariant is that the state variable holds a
*stored* state: the initial state, or one that does not accept (`Stored.step`). Stored states are
the ones with a declared name and a case, and the clauses of a case test for the transition sets of
the state, so a call in a stored state is a step (`call?_of_stored`).
-/

namespace ActionRegex.Lexer

open Bytes (ofString)
open Dfa (Outcome)

/-! ## Steppers under calls -/

/-- What a step does, in terms of a call. -/
def stepAnswer (automaton : Automaton) (state : Nat) (token : UInt8) : Answer :=
  let step := automaton.dfa.step state token
  ⟨step.outcome, step.state, automaton.registry.text step.fired⟩

/-- A stepper under calls. -/
def stepperRun (automaton : Automaton) (state : Nat) : List Call → List Answer × Nat
  | [] => ([], state)
  | .reset :: rest => stepperRun automaton Dfa.initial rest
  | .lex token :: rest =>
    let answer := stepAnswer automaton state token
    let (answers, last) := stepperRun automaton answer.state rest
    (answer :: answers, last)

/-! ## Stored states -/

/-- A state that a lexer can be in. -/
def Stored (dfa : Dfa) (id : Nat) : Prop :=
  id < dfa.size ∧ (id = Dfa.initial ∨ (dfa.state id).accept = false)

theorem isStored_iff {dfa : Dfa} {id : Nat} :
    isStored id (dfa.state id) = true ↔ id = Dfa.initial ∨ (dfa.state id).accept = false := by
  rw [isStored, Bool.or_eq_true, beq_iff_eq, Bool.not_eq_true']

theorem Stored.initial {dfa : Dfa} (h : dfa.WellFormed) : Stored dfa Dfa.initial :=
  ⟨h.size_pos, .inl rfl⟩

theorem Stored.target {dfa : Dfa} (h : dfa.WellFormed) {id : Nat} {b : UInt8} {tr : Dfa.Transition}
    (hon : (dfa.state id).on? b = some tr) (haccept : tr.accept = false) :
    Stored dfa tr.target := by
  rw [h.accept id b tr hon] at haccept
  exact ⟨h.target_lt id b tr hon, .inr haccept⟩

/-- **A stepper stays in stored states.** -/
theorem Stored.step {dfa : Dfa} (h : dfa.WellFormed) {id : Nat} (hid : Stored dfa id) (b : UInt8) :
    Stored dfa (dfa.step id b).state := by
  unfold Dfa.step
  split
  · exact Stored.initial h
  · next tr hon =>
    split
    · exact hid
    · next haccept => exact Stored.target h hon (by simpa using haccept)

theorem Stored.stepperRun {automaton : Automaton} (h : automaton.dfa.WellFormed) {id : Nat}
    (hid : Stored automaton.dfa id) (calls : List Call) :
    Stored automaton.dfa (stepperRun automaton id calls).2 := by
  induction calls generalizing id with
  | nil => exact hid
  | cons call rest ih =>
    cases call with
    | reset => exact ih (Stored.initial h)
    | lex token => exact ih (hid.step h token)

section Cases

variable {automaton : Automaton} {options : Options}

/-- The case of a stored state. -/
def caseOf (options : Options) (automaton : Automaton) (id : Nat) : Case :=
  ⟨id, (automaton.dfa.state id).sets.map (branchOf automaton.registry options.increments id)⟩

theorem mem_cases_iff {c : Case} : c ∈ (programOf options automaton).cases ↔
    ∃ id, Stored automaton.dfa id ∧ c = caseOf options automaton id := by
  have hstate : ∀ id (hid : id < automaton.dfa.states.toList.length),
      automaton.dfa.states.toList[id] = automaton.dfa.state id := by
    intro id hid
    rw [Array.length_toList] at hid
    rw [Dfa.state, Array.getD_eq_getD_getElem?, Array.getElem?_eq_getElem hid, Option.getD_some,
      Array.getElem_toList]
  simp only [programOf, Program.ofAutomaton, List.mem_filterMap, id_eq, exists_eq_right,
    List.mem_mapIdx]
  constructor
  · rintro ⟨id, hid, heq⟩
    rw [hstate id hid, caseOf?] at heq
    split at heq
    · next hstored =>
      exact ⟨id, ⟨by simpa [Dfa.size] using hid, isStored_iff.mp hstored⟩,
        (Option.some.inj heq).symm⟩
    · simp at heq
  · rintro ⟨id, ⟨hlt, hstored⟩, rfl⟩
    refine ⟨id, by simpa [Dfa.size] using hlt, ?_⟩
    rw [hstate, caseOf?, if_pos (isStored_iff.mpr hstored)]
    rfl

/-- The cases are in the order of their states. -/
theorem pairwise_cases (options : Options) (automaton : Automaton) :
    (programOf options automaton).cases.Pairwise fun c c' => c.state < c'.state := by
  have hstate : ∀ id s c, caseOf? automaton.registry options.increments id s = some c →
      c.state = id := by
    intro id s c hcase
    rw [caseOf?] at hcase
    split at hcase
    · obtain rfl := Option.some.inj hcase
      rfl
    · exact nomatch hcase
  rw [programOf, Program.ofAutomaton, List.pairwise_filterMap, List.pairwise_iff_getElem]
  intro i j hi hj hlt c hc c' hc'
  rw [List.getElem_mapIdx] at hc hc'
  rw [hstate _ _ _ hc, hstate _ _ _ hc']
  exact hlt

theorem tagOf_inj {n m : Nat} (h : tagOf options n = tagOf options m) : n = m := by
  rw [tagOf_eq, tagOf_eq] at h
  exact numeral_injective (List.append_cancel_left (List.append_cancel_left h))

/-- **No name is declared twice.** -/
theorem nodup_tags :
    ((switchOf options (programOf options automaton)).tags.map Prod.fst).Nodup := by
  rw [switchOf, List.map_map]
  refine List.pairwise_map.mpr ((pairwise_cases options automaton).imp ?_)
  intro c c' hlt heq
  exact Nat.ne_of_lt hlt (tagOf_inj heq)

theorem mem_tags_iff {tag : Bytes} {state : Nat} :
    (tag, state) ∈ (switchOf options (programOf options automaton)).tags ↔
      Stored automaton.dfa state ∧ tag = tagOf options state := by
  constructor
  · intro hmem
    obtain ⟨c, hc, heq⟩ := List.mem_map.mp hmem
    obtain ⟨id, hid, rfl⟩ := mem_cases_iff.mp hc
    obtain ⟨rfl, rfl⟩ := Prod.mk.inj heq
    exact ⟨hid, rfl⟩
  · rintro ⟨hstored, rfl⟩
    exact List.mem_map.mpr ⟨_, mem_cases_iff.mpr ⟨state, hstored, rfl⟩, rfl⟩

/-- **Names of stored states have the states as their values.** -/
theorem value?_eq_some_iff {tag : Bytes} {state : Nat} :
    (switchOf options (programOf options automaton)).value? tag = some state ↔
      Stored automaton.dfa state ∧ tag = tagOf options state := by
  rw [Switch.value?_eq_some_iff nodup_tags, mem_tags_iff]

theorem value?_tagOf (options : Options) {id : Nat} (h : Stored automaton.dfa id) :
    (switchOf options (programOf options automaton)).value? (tagOf options id) = some id :=
  value?_eq_some_iff.mpr ⟨h, rfl⟩

theorem select?_of_stored {id : Nat} (h : Stored automaton.dfa id) :
    (switchOf options (programOf options automaton)).select? id =
      some (labelledOf options (caseOf options automaton id)) := by
  have hmem : labelledOf options (caseOf options automaton id) ∈
      (switchOf options (programOf options automaton)).cases :=
    List.mem_map.mpr ⟨_, mem_cases_iff.mpr ⟨id, h, rfl⟩, rfl⟩
  cases hfind : (switchOf options (programOf options automaton)).select? id with
  | none =>
    have hnone := List.find?_eq_none.mp hfind _ hmem
    exact absurd (beq_iff_eq.mpr (value?_tagOf options h)) hnone
  | some c =>
    have hfound := List.find?_some hfind
    have hvalue := eq_of_beq hfound
    obtain ⟨c', hc', rfl⟩ := List.mem_map.mp (List.mem_of_find?_eq_some hfind)
    obtain ⟨id', hid', rfl⟩ := mem_cases_iff.mp hc'
    obtain ⟨-, heq⟩ := value?_eq_some_iff.mp hvalue
    obtain rfl : id' = id := tagOf_inj heq
    rfl

end Cases

/-! ## One call -/

section Calls

variable {automaton : Automaton} {options : Options}

/-- The tests of a transition set are passed by the bytes that it covers. -/
theorem any_testsOf_iff {set : Dfa.TransitionSet} {token : UInt8} :
    (testsOf set).any (Test.passes token) = true ↔ set.Covers token := by
  rw [testsOf, List.any_append, Bool.or_eq_true, List.any_map, List.any_map,
    Dfa.TransitionSet.Covers]
  refine or_congr ?_ ?_
  · simp [Test.passes]
  · simp [Test.passes]

/-- The clause of a transition set. -/
def clauseOfSet (options : Options) (automaton : Automaton) (id : Nat) (set : Dfa.TransitionSet) :
    Clause :=
  clauseOf options (branchOf automaton.registry options.increments id set)

theorem clauses_caseOf (id : Nat) :
    (labelledOf options (caseOf options automaton id)).clauses =
      (automaton.dfa.state id).sets.map (clauseOfSet options automaton id) :=
  List.map_map

theorem holds_clauseOfSet_iff {id : Nat} {set : Dfa.TransitionSet} {token : UInt8} :
    (clauseOfSet options automaton id set).holds token = true ↔ set.Covers token :=
  any_testsOf_iff

/-- The mark on a set is that of each transition to its target. -/
theorem accept_of_mem_sets (h : automaton.dfa.WellFormed) {id : Nat} {set : Dfa.TransitionSet}
    (hset : set ∈ (automaton.dfa.state id).sets) :
    set.accept = (automaton.dfa.state set.target).accept := by
  obtain ⟨b, tr, hon, htarget, haccept⟩ := Dfa.exists_accept_of_mem_sets (h.keys id) hset
  rw [haccept, h.accept id b tr hon, htarget]

/-- A clause that is met leads on as the byte's transition does. -/
theorem leave?_clauseOfSet (options : Options) (h : automaton.dfa.WellFormed) {id : Nat}
    {set : Dfa.TransitionSet} (hset : set ∈ (automaton.dfa.state id).sets) {token : UInt8}
    (hcovers : set.Covers token) :
    (switchOf options (programOf options automaton)).leave? id
        ((clauseOfSet options automaton id set).action.getD [])
        (clauseOfSet options automaton id set).exit = some (stepAnswer automaton id token) := by
  obtain ⟨tr, hon, htarget, hactions⟩ := (Dfa.covers_iff_of_mem_sets (h.keys id) hset).mp hcovers
  have haccept : set.accept = tr.accept := by
    rw [accept_of_mem_sets h hset, htarget, h.accept id token tr hon]
  have htext : (clauseOfSet options automaton id set).action.getD [] =
      automaton.registry.text tr.actions := by
    rw [clauseOfSet, clauseOf, branchOf, hactions]
    cases tr.actions with
    | nil => rfl
    | cons x rest => rfl
  rw [htext]
  simp only [clauseOfSet, clauseOf, branchOf, effectOf, haccept, htarget, stepAnswer, Dfa.step, hon]
  by_cases hmatch : tr.accept = true
  · simp [hmatch, exitOf, Switch.leave?]
  · have hvalue := value?_tagOf options
      (Stored.target h hon (by simpa using hmatch))
    by_cases hnext : (options.increments && tr.target == id + 1) = true
    · obtain ⟨hincrements, hsucc⟩ : options.increments = true ∧ tr.target = id + 1 := by
        simpa using hnext
      simp [hmatch, hincrements, hsucc, exitOf, Switch.leave?, Switch.updated?]
    · simp [hmatch, hnext, exitOf, Switch.leave?, Switch.updated?, hvalue]

/-- **A call in a stored state is a step.** -/
theorem call?_of_stored (h : automaton.dfa.WellFormed) {id : Nat} (hid : Stored automaton.dfa id)
    (token : UInt8) : (switchOf options (programOf options automaton)).call? id token =
      some (stepAnswer automaton id token) := by
  rw [Switch.call?, select?_of_stored hid, Option.bind_some, clauses_caseOf]
  cases hfind : ((automaton.dfa.state id).sets.map (clauseOfSet options automaton id)).find?
      (Clause.holds token) with
  | none =>
    have hnone : (automaton.dfa.state id).on? token = none := by
      cases hon : (automaton.dfa.state id).on? token with
      | none => rfl
      | some tr =>
        obtain ⟨set, hset, hcovers⟩ := Dfa.exists_covers_of_mem (h.keys id) hon
        have hfails := List.find?_eq_none.mp hfind _ (List.mem_map.mpr ⟨set, hset, rfl⟩)
        exact absurd (holds_clauseOfSet_iff.mpr hcovers) hfails
    have hzero := value?_tagOf options (Stored.initial h)
    simp only [stepAnswer, Dfa.step, hnone, Switch.leave?, switchOf, Switch.updated?] at hzero ⊢
    rw [hzero]
    rfl
  | some clause =>
    obtain ⟨set, hset, rfl⟩ := List.mem_map.mp (List.mem_of_find?_eq_some hfind)
    exact leave?_clauseOfSet options h hset (holds_clauseOfSet_iff.mp (List.find?_some hfind))

theorem run?_of_stored (h : automaton.dfa.WellFormed) {id : Nat} (hid : Stored automaton.dfa id)
    (calls : List Call) : (switchOf options (programOf options automaton)).run? id calls =
      some (stepperRun automaton id calls) := by
  induction calls generalizing id with
  | nil => rfl
  | cons call rest ih =>
    cases call with
    | reset =>
      have hzero : (switchOf options (programOf options automaton)).value?
          (switchOf options (programOf options automaton)).reset = some Dfa.initial :=
        value?_tagOf options (Stored.initial h)
      rw [Switch.run?, hzero, Option.bind_some, ih (Stored.initial h)]
      rfl
    | lex token =>
      have hnext : Stored automaton.dfa (stepAnswer automaton id token).state := hid.step h token
      rw [Switch.run?, call?_of_stored h hid, Option.bind_some, ih hnext]
      rfl

end Calls

/-! ## Simulation -/

/-- A case is that of a declared name, whose value is a state: its clauses are the transition sets
of the state, no byte meets two of them, and what they assign is declared. -/
structure Labelled.StandsFor (switch : Switch) (dfa : Dfa) (c : Labelled) (tag : Bytes × Nat) :
    Prop where
  label : c.label = tag.1
  clauses : List.Forall₂ (fun clause set => ∀ token, clause.holds token = true ↔ set.Covers token)
    c.clauses (dfa.state tag.2).sets
  disjoint : ∀ token, c.clauses.Pairwise fun clause clause' =>
    ¬ (clause.holds token = true ∧ clause'.holds token = true)
  declared : ∀ clause ∈ c.clauses, ∀ update ∈ clause.exit.update,
    ∃ next, switch.updated? tag.2 update = some next ∧ next ∈ switch.tags.map Prod.snd

/-- A switch does what a stepper does: it declares the stored states, with a case for each; calls
select a case, and their answers and the state variable after them are those of the stepper. -/
structure Switch.Simulates (switch : Switch) (automaton : Automaton) : Prop where
  nodup : (switch.tags.map Prod.fst).Nodup
  declared : ∀ state, state ∈ switch.tags.map Prod.snd ↔ Stored automaton.dfa state
  cases : List.Forall₂ (Labelled.StandsFor switch automaton.dfa) switch.cases switch.tags
  initial : switch.value? switch.reset = some Dfa.initial
  run : ∀ calls, switch.run? Dfa.initial calls = some (stepperRun automaton Dfa.initial calls)
  selects : ∀ calls, ∃ c ∈ switch.cases,
    switch.select? (stepperRun automaton Dfa.initial calls).2 = some c

section Simulation

variable {automaton : Automaton} {options : Options}

theorem standsFor_caseOf (h : automaton.dfa.WellFormed) {id : Nat} (hid : Stored automaton.dfa id) :
    (labelledOf options (caseOf options automaton id)).StandsFor
      (switchOf options (programOf options automaton)) automaton.dfa (tagOf options id, id) where
  label := rfl
  clauses := by
    rw [clauses_caseOf, List.forall₂_map_left_iff]
    exact List.forall₂_same.mpr fun set _ token => holds_clauseOfSet_iff
  disjoint token := by
    rw [clauses_caseOf]
    refine List.pairwise_map.mpr ((Dfa.pairwise_sets (h.keys id) token).imp ?_)
    rintro set set' hnot ⟨hholds, hholds'⟩
    exact hnot ⟨holds_clauseOfSet_iff.mp hholds, holds_clauseOfSet_iff.mp hholds'⟩
  declared clause hclause update hupdate := by
    rw [clauses_caseOf] at hclause
    obtain ⟨set, hset, rfl⟩ := List.mem_map.mp hclause
    obtain ⟨token, hcovers⟩ := Dfa.exists_covers_of_mem_sets (h.keys id) hset
    -- the call with such a byte ends in a stored state
    have hleave := leave?_clauseOfSet options h hset hcovers
    have hnext : Stored automaton.dfa (stepAnswer automaton id token).state := hid.step h token
    rw [Switch.leave?, Option.mem_def.mp hupdate] at hleave
    obtain ⟨next, hvalue, hanswer⟩ := Option.map_eq_some_iff.mp hleave
    refine ⟨next, hvalue, List.mem_map.mpr ⟨(tagOf options next, next), ?_, rfl⟩⟩
    rw [← hanswer] at hnext
    exact mem_tags_iff.mpr ⟨hnext, rfl⟩

theorem simulates_switchOf (h : automaton.dfa.WellFormed) :
    (switchOf options (programOf options automaton)).Simulates automaton where
  nodup := nodup_tags
  declared state := by
    constructor
    · intro hmem
      obtain ⟨tag, htag, rfl⟩ := List.mem_map.mp hmem
      exact (mem_tags_iff.mp htag).1
    · intro hstored
      exact List.mem_map.mpr ⟨_, mem_tags_iff.mpr ⟨hstored, rfl⟩, rfl⟩
  cases := by
    rw [switchOf, List.forall₂_map_left_iff, List.forall₂_map_right_iff]
    refine List.forall₂_same.mpr fun c hc => ?_
    obtain ⟨id, hid, rfl⟩ := mem_cases_iff.mp hc
    exact standsFor_caseOf h hid
  initial := value?_tagOf options (Stored.initial h)
  run := run?_of_stored h (Stored.initial h)
  selects calls := by
    have hstored := (Stored.initial h).stepperRun h calls
    exact ⟨_, List.mem_map.mpr ⟨_, mem_cases_iff.mpr ⟨_, hstored, rfl⟩, rfl⟩,
      select?_of_stored hstored⟩

/-- **Automata with actions in balanced braces can be read.** -/
theorem readable_programOf (h : automaton.dfa.WellFormed)
    (hactions : ∀ text ∈ automaton.registry.toList, Pattern.BlockText text) :
    (programOf options automaton).Readable := by
  intro c hc branch hbranch
  obtain ⟨id, -, rfl⟩ := mem_cases_iff.mp hc
  obtain ⟨set, hset, rfl⟩ := List.mem_map.mp hbranch
  refine ⟨?_, ?_⟩
  · obtain ⟨token, hcovers⟩ := Dfa.exists_covers_of_mem_sets (h.keys id) hset
    intro hnil
    have htests : testsOf set = [] := hnil
    have hpasses := any_testsOf_iff.mpr hcovers
    rw [htests] at hpasses
    exact nomatch hpasses
  · intro text htext
    by_cases hempty : set.actions.isEmpty = true
    · rw [branchOf, if_pos hempty] at htext
      exact nomatch htext
    · rw [branchOf, if_neg hempty] at htext
      obtain rfl := Option.some.inj htext
      exact Pattern.blockText_text hactions set.actions

end Simulation

/-! ## Compiled patterns -/

theorem wellFormed_of_compileTree {tree : Pattern.Tree} {registry : Registry}
    {automaton : Automaton} {notes : List Note}
    (h : Compiler.compileTree tree registry = .ok (automaton, notes)) :
    automaton.dfa.WellFormed := by
  obtain ⟨-, notes', hbuild⟩ := Compiler.of_compileTree h
  obtain ⟨plain, f, hbuilt⟩ := Dfa.exists_built hbuild
  exact Dfa.wellFormed_of_ofSymbolDfa? hbuilt.closed hbuilt.numbered

/-- A compiled pattern is well-formed, and its registry is that of its parser. -/
theorem of_compileWith {compiler : Compiler} {pattern : String} {registry : Registry}
    {automaton : Automaton} {notes : List Note}
    (h : compiler.compileWith pattern registry = .ok (automaton, notes)) :
    automaton.dfa.WellFormed ∧
      automaton.registry = (Pattern.parse compiler.macros (ofString pattern) registry).2 := by
  rw [Compiler.compileWith, Compiler.parse] at h
  rcases hparse : Pattern.parse compiler.macros (ofString pattern) registry with ⟨e | tree, last⟩
  · rw [hparse] at h
    cases h
  · rw [hparse] at h
    exact ⟨wellFormed_of_compileTree h, (Compiler.of_compileTree h).1⟩

/-- **A generated lexer does what a stepper does.** The files that are written for a compiled
pattern are read as a switch that simulates the stepper, whoever provides the state variable and
whether or not states are incremented. So what the calls of a lexer do is the same for all
options. -/
theorem run?_eq_stepperRun {compiler : Compiler} {pattern : String} {header : List String}
    {automaton : Automaton} {notes : List Note}
    (hmacros : ∀ name body, compiler.macros.body? name = some body → Bytes.IsText body)
    (h : compiler.compileWith pattern { header := header } = .ok (automaton, notes))
    (options : Options) (hstate : IsVariable (settingOf options header).variableName) :
    ∃ switch, read? (settingOf options header) (write options automaton).1 = some switch ∧
      switch.Simulates automaton ∧
      ∀ other : Options, IsVariable (settingOf other header).variableName →
        ∃ switch', read? (settingOf other header) (write other automaton).1 = some switch' ∧
          ∀ calls, switch'.run? Dfa.initial calls = switch.run? Dfa.initial calls := by
  obtain ⟨hdfa, hregistry⟩ := of_compileWith h
  have hheader : automaton.registry.header = header := by
    rw [hregistry]
    exact (Pattern.renumbered_parse compiler.macros (ofString pattern) _).registry.header
  have hactions : ∀ text ∈ automaton.registry.toList, Pattern.BlockText text := by
    rw [hregistry]
    exact Pattern.blockText_of_parse hmacros ⟨pattern, rfl⟩ (by simp [Registry.toList])
  have hread : ∀ options : Options, IsVariable options.stateVariable →
      read? (settingOf options header) (write options automaton).1 =
        some (switchOf options (programOf options automaton)) := by
    intro options hstate
    rw [← hheader]
    exact read?_write hstate (readable_programOf hdfa hactions)
  refine ⟨_, hread options hstate, simulates_switchOf hdfa, fun other hother => ?_⟩
  refine ⟨_, hread other hother, fun calls => ?_⟩
  rw [run?_of_stored hdfa (Stored.initial hdfa), run?_of_stored hdfa (Stored.initial hdfa)]

/-- A byte with an action, and another byte. -/
def markPattern : String := "a\x7bx\x7db"

/-- A lexer whose state is kept by the caller. -/
def markOptions : Options := { lexer := "mark", state := some "p->state" }

/-- The action `x` runs with the first byte. A byte that does not fit sets the lexer back, and after
a match the state variable is as before the last byte. -/
theorem run?_markPattern : ∃ automaton notes switch,
    (⟨[]⟩ : Compiler).compileWith markPattern { header := ["int n;"] } = .ok (automaton, notes) ∧
    read? (settingOf markOptions ["int n;"]) (write markOptions automaton).1 = some switch ∧
    switch.run? Dfa.initial [.lex 97, .lex 97, .lex 97, .lex 98, .reset, .lex 98] =
      some ([⟨.continue, 1, [120]⟩, ⟨.fail, 0, []⟩, ⟨.continue, 1, [120]⟩, ⟨.accept, 1, []⟩,
        ⟨.fail, 0, []⟩], 0) := by
  have hmacros : ∀ name body, (⟨[]⟩ : Compiler).macros.body? name = some body →
      Bytes.IsText body := by
    simp [Macros.body?]
  have hvariable : IsVariable (settingOf markOptions ["int n;"]).variableName :=
    ⟨by decide, by decide⟩
  have htext : ofString markPattern = [97, 123, 120, 125, 98] := by decide
  have hrun : ((⟨[]⟩ : Compiler).compileWith markPattern { header := ["int n;"] }).toOption.map
      (fun compiled => stepperRun compiled.1 Dfa.initial
        [.lex 97, .lex 97, .lex 97, .lex 98, .reset, .lex 98]) =
      some ([⟨.continue, 1, [120]⟩, ⟨.fail, 0, []⟩, ⟨.continue, 1, [120]⟩, ⟨.accept, 1, []⟩,
        ⟨.fail, 0, []⟩], 0) := by
    rw [Compiler.compileWith, Compiler.parse, htext]
    cbv
  cases hcompiled : (⟨[]⟩ : Compiler).compileWith markPattern { header := ["int n;"] } with
  | error e => simp [hcompiled, Except.toOption] at hrun
  | ok compiled =>
    obtain ⟨switch, hread, hsimulates, -⟩ :=
      run?_eq_stepperRun hmacros hcompiled markOptions hvariable
    refine ⟨compiled.1, compiled.2, switch, rfl, hread, ?_⟩
    rw [hsimulates.run]
    simpa [hcompiled, Except.toOption] using hrun

end ActionRegex.Lexer
