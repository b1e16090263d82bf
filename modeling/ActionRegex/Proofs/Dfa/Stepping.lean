import ActionRegex.Dfa.Stepper
import ActionRegex.Proofs.Dfa.Language
import ActionRegex.Proofs.Nfa.Finishing

/-!
# What a stepper finds out

A walk over a text exists if and only if the text can be completed to one of the language: no state
of the final automaton is a dead end (`Built.exists_walk_iff`). So a stepper goes on exactly as long
as it should: up to the first byte that completes a text of the language, where it accepts, or the
first byte with which no text of the language goes on, where it fails.
-/

namespace ActionRegex.Dfa

open ActionRegex.Symbol (bytes)
open Pattern (Tree)
open SymbolDfa (Folding)

/-! ## Feeding a stepper -/

/-- The steps of a stepper that starts in a state and consumes bytes one after the other. -/
def feed (dfa : Dfa) (id : Nat) : Bytes → List Step
  | [] => []
  | b :: rest => dfa.step id b :: dfa.feed (dfa.step id b).state rest

/-- The state of such a stepper after the last byte. -/
def after (dfa : Dfa) (id : Nat) : Bytes → Nat
  | [] => id
  | b :: rest => dfa.after (dfa.step id b).state rest

variable {t : Tree} {plain : SymbolDfa} {f : Folding} {dfa : Dfa} {notes : List Note}

theorem feed_append (id : Nat) (w v : Bytes) :
    dfa.feed id (w ++ v) = dfa.feed id w ++ dfa.feed (dfa.after id w) v := by
  induction w generalizing id with
  | nil => rfl
  | cons b rest ih => simp only [List.cons_append, feed, after, ih]

theorem length_feed (id : Nat) (w : Bytes) : (dfa.feed id w).length = w.length := by
  induction w generalizing id with
  | nil => rfl
  | cons b rest ih => simp only [feed, List.length_cons, ih]

/-- The step with the byte after a first part of the input. -/
theorem getElem?_feed (id : Nat) (w : Bytes) (b : UInt8) (rest : Bytes) :
    (dfa.feed id (w ++ b :: rest))[w.length]? = some (dfa.step (dfa.after id w) b) := by
  rw [feed_append, List.getElem?_append_right (by rw [length_feed]), length_feed, Nat.sub_self]
  rfl

/-! ## No state is a dead end -/

theorem walk?_append (id : Nat) (w v : Bytes) :
    dfa.walk? id (w ++ v) = (dfa.walk? id w).bind fun q => dfa.walk? q v := by
  induction w generalizing id with
  | nil => rfl
  | cons b rest ih =>
    rw [List.cons_append, walk?, walk?, Option.bind_assoc]
    exact congrArg _ (funext fun t => ih t.target)

/-- A text can be completed to one of the language. -/
def Extendable (language : Language UInt8) (w : Bytes) : Prop := ∃ v, w ++ v ∈ language

/-- **There is a walk over a text if and only if it can be completed to one of the language.** -/
theorem Built.exists_walk_iff (h : Built t plain f dfa) {w : Bytes} :
    (∃ q, dfa.walk? initial w = some q) ↔ Extendable t.language w := by
  constructor
  · rintro ⟨q, hwalk⟩
    -- a member of the state is reached by a run, and every run can be completed
    obtain ⟨id, hstands, hwords⟩ := h.exists_path_of_walk hwalk
    have hid : id < f.states.size :=
      lt_size_of_mem_order h.closed (List.mem_of_getElem? hstands)
    obtain ⟨m, hm⟩ := List.exists_mem_of_ne_nil _ (h.ready.ne_nil id hid)
    obtain ⟨u, hpath, rfl, -⟩ := hwords m hm
    obtain ⟨r, hrun⟩ := h.run_of_path u m hpath
    obtain ⟨v, hrun⟩ := Nfa.exists_run_final hrun
    refine ⟨bytes v, Tree.mem_language_iff.mpr ⟨u ++ v, Nfa.run_ofTree_iff.mp hrun, ?_⟩⟩
    rw [Symbol.bytes_append]
  · rintro ⟨v, hv⟩
    obtain ⟨u, hu, hbytes⟩ := Tree.mem_language_iff.mp hv
    obtain ⟨q, -, -, -, hwalk, -⟩ :=
      h.walk_of_accepts ((h.accepts_iff u).mpr (Nfa.run_ofTree_iff.mpr hu))
    rw [hbytes, walk?_append, Option.bind_eq_some_iff] at hwalk
    obtain ⟨q', hwalk, -⟩ := hwalk
    exact ⟨q', hwalk⟩

/-- A walk ends in an accepting state if and only if its text belongs to the language. -/
theorem Built.accept_iff (h : Built t plain f dfa) {w : Bytes} {q : Nat}
    (hwalk : dfa.walk? initial w = some q) :
    (dfa.state q).accept = true ↔ w ∈ t.language := by
  have hinitial : initial < dfa.size :=
    (numberState?_of_stands h.numbered (stands_zero h.closed)).2
  have hmatch : dfa.table.isMatch w = true ↔ (dfa.state q).accept = true := by
    rw [Table.isMatch, accepts_table_iff h.target_lt_size hinitial, hwalk]
    simp
  rw [← hmatch, h.isMatch_iff_mem]

/-! ## One step

A stepper that has come to `q` over a text `w` reads a further byte.
-/

section Step

variable {w : Bytes} {q : Nat} {b : UInt8}

theorem walk?_snoc (hwalk : dfa.walk? initial w = some q) :
    dfa.walk? initial (w ++ [b]) = ((dfa.state q).on? b).map Transition.target := by
  rw [walk?_append, hwalk, Option.bind_some, walk?]
  cases (dfa.state q).on? b <;> rfl

theorem Built.accept_transition_iff (h : Built t plain f dfa)
    (hwalk : dfa.walk? initial w = some q) {tr : Transition}
    (hon : (dfa.state q).on? b = some tr) : tr.accept = true ↔ w ++ [b] ∈ t.language := by
  obtain ⟨id, hstands, -⟩ := h.exists_path_of_walk hwalk
  have hwalk' : dfa.walk? initial (w ++ [b]) = some tr.target := by
    rw [walk?_snoc hwalk, hon, Option.map_some]
  rw [accept_of_on? h.closed h.numbered hstands hon, h.accept_iff hwalk']

theorem Built.step_of_not_extendable (h : Built t plain f dfa)
    (hwalk : dfa.walk? initial w = some q) (hnot : ¬ Extendable t.language (w ++ [b])) :
    dfa.step q b = ⟨.fail, initial, []⟩ := by
  have hnone : (dfa.state q).on? b = none := by
    rw [← h.exists_walk_iff, walk?_snoc hwalk] at hnot
    cases hon : (dfa.state q).on? b with
    | none => rfl
    | some tr => simp [hon] at hnot
  rw [step, hnone]

theorem Built.step_of_mem (h : Built t plain f dfa) (hwalk : dfa.walk? initial w = some q)
    (hmem : w ++ [b] ∈ t.language) :
    (dfa.step q b).outcome = .accept ∧ (dfa.step q b).state = q := by
  obtain ⟨q', hwalk'⟩ := h.exists_walk_iff.mpr ⟨[], by rwa [List.append_nil]⟩
  rw [walk?_snoc hwalk, Option.map_eq_some_iff] at hwalk'
  obtain ⟨tr, hon, -⟩ := hwalk'
  simp [step, hon, (h.accept_transition_iff hwalk hon).mpr hmem]

theorem Built.step_of_extendable (h : Built t plain f dfa) (hwalk : dfa.walk? initial w = some q)
    (hextends : Extendable t.language (w ++ [b])) (hnot : w ++ [b] ∉ t.language) :
    (dfa.step q b).outcome = .continue ∧
      dfa.walk? initial (w ++ [b]) = some (dfa.step q b).state := by
  obtain ⟨q', hwalk'⟩ := h.exists_walk_iff.mpr hextends
  rw [walk?_snoc hwalk, Option.map_eq_some_iff] at hwalk'
  obtain ⟨tr, hon, -⟩ := hwalk'
  have haccept : ¬ tr.accept = true := fun ha => hnot ((h.accept_transition_iff hwalk hon).mp ha)
  rw [walk?_snoc hwalk, hon]
  simp [step, hon, haccept]

end Step

/-! ## Whole inputs -/

/-- A text is the end of a match or of all hope: it belongs to the language or cannot be completed
to one that does. -/
def Settled (language : Language UInt8) (w : Bytes) : Prop :=
  w ∈ language ∨ ¬ Extendable language w

/-- As long as no first part of the input settles the match, a stepper walks on. -/
theorem Built.feed_of_unsettled (h : Built t plain f dfa) {u w : Bytes} {q : Nat}
    (hwalk : dfa.walk? initial u = some q)
    (hunsettled : ∀ k, 1 ≤ k → k ≤ w.length → ¬ Settled t.language (u ++ w.take k)) :
    (∀ step ∈ dfa.feed q w, step.outcome = .continue) ∧
      dfa.walk? initial (u ++ w) = some (dfa.after q w) := by
  induction w generalizing u q with
  | nil => simpa [feed, after] using hwalk
  | cons b rest ih =>
    have hfirst := hunsettled 1 (Nat.le_refl 1) (by simp)
    rw [List.take_succ_cons, List.take_zero, Settled, not_or, not_not] at hfirst
    obtain ⟨houtcome, hwalk'⟩ := h.step_of_extendable hwalk hfirst.2 hfirst.1
    have hrest : ∀ k, 1 ≤ k → k ≤ rest.length →
        ¬ Settled t.language (u ++ [b] ++ rest.take k) := by
      intro k hk hle
      have hnext := hunsettled (k + 1) (by omega) (by simpa using hle)
      rwa [List.take_succ_cons, List.append_cons] at hnext
    obtain ⟨hall, hend⟩ := ih hwalk' hrest
    refine ⟨List.forall_mem_cons.mpr ⟨houtcome, hall⟩, ?_⟩
    rw [List.append_cons, hend, after]

/-- The first `k` bytes of an input settle the match. -/
def SettledAt (language : Language UInt8) (w : Bytes) (k : Nat) : Prop :=
  1 ≤ k ∧ k ≤ w.length ∧ Settled language (w.take k)

/-- **A stepper goes on until the match is settled.** Up to the least number of bytes that settle
it, every step continues; the step that settles it accepts, and stays where it is, if the bytes so
far belong to the language, and otherwise fails and goes back to the initial state. If no number of
bytes settles the match, every step continues. -/
theorem feed_until_settled (h : build? (Nfa.ofTree t) = some (dfa, notes)) (w : Bytes) :
    (∀ k, IsLeast {k | SettledAt t.language w k} k →
      (∀ step ∈ (dfa.feed initial w).take (k - 1), step.outcome = .continue) ∧
      ∃ step, (dfa.feed initial w)[k - 1]? = some step ∧
        (w.take k ∈ t.language → step.outcome = .accept ∧
          step.state = dfa.after initial (w.take (k - 1))) ∧
        (w.take k ∉ t.language → step.outcome = .fail ∧ step.state = initial)) ∧
    ((∀ k, ¬ SettledAt t.language w k) →
      ∀ step ∈ dfa.feed initial w, step.outcome = .continue) := by
  obtain ⟨plain, f, hbuilt⟩ := exists_built h
  refine ⟨?_, fun hnever => ?_⟩
  · rintro k ⟨⟨hpos, hle, hsettled⟩, hleast⟩
    obtain ⟨n, rfl⟩ : ∃ n, k = n + 1 := ⟨k - 1, by omega⟩
    -- the input is what stands before the byte that settles the match, that byte, and the rest
    obtain ⟨u, b, rest, rfl, rfl⟩ : ∃ u b rest, w = u ++ b :: rest ∧ n = u.length :=
      ⟨w.take n, w[n], w.drop (n + 1), by simp, by simp; omega⟩
    have htake : (u ++ b :: rest).take (u.length + 1) = u ++ [b] := by
      rw [List.append_cons, List.take_left' (by simp)]
    have hunsettled : ∀ k, 1 ≤ k → k ≤ u.length → ¬ Settled t.language ([] ++ u.take k) := by
      intro k hk hku hk'
      have hbefore : u.length + 1 ≤ k :=
        hleast ⟨hk, by simp; omega, by rwa [List.take_append_of_le_length hku]⟩
      omega
    obtain ⟨hall, hwalk⟩ := hbuilt.feed_of_unsettled (q := initial) rfl hunsettled
    rw [htake] at hsettled ⊢
    rw [Nat.add_sub_cancel, List.take_left' rfl]
    refine ⟨?_, _, getElem?_feed initial u b rest, fun hmem => hbuilt.step_of_mem hwalk hmem,
      fun hnot => ?_⟩
    · rwa [feed_append, List.take_left' (length_feed initial u)]
    · rw [hbuilt.step_of_not_extendable hwalk (hsettled.resolve_left hnot)]
      exact ⟨rfl, rfl⟩
  · exact (hbuilt.feed_of_unsettled (u := []) (q := initial) rfl
      fun k hk hle hsettled => hnever k ⟨hk, hle, hsettled⟩).1

/-- Two bytes with an action between them: `a@0b`. -/
def pairTree : Tree := .concat (.byte 97) (.concat (.action 0) (.byte 98))

theorem mem_language_pairTree {w : Bytes} : w ∈ pairTree.language ↔ w = [97, 98] := by
  rw [Tree.mem_language_iff]
  constructor
  · rintro ⟨u, hu, rfl⟩
    obtain ⟨_, rfl, ur, hr, rfl⟩ := Tree.mem_words_concat.mp hu
    obtain ⟨_, rfl, _, rfl, rfl⟩ := Tree.mem_words_concat.mp hr
    rfl
  · rintro rfl
    exact ⟨_, Tree.mem_words_concat.mpr ⟨[.byte 97], rfl, _, Tree.mem_words_concat.mpr
      ⟨[.action 0], rfl, [.byte 98], rfl, rfl⟩, rfl⟩, rfl⟩

theorem isLeast_settledAt_pairTree : IsLeast {k | SettledAt pairTree.language [97, 98, 99] k} 2 := by
  refine ⟨⟨by decide, by decide, Or.inl (mem_language_pairTree.mpr rfl)⟩, ?_⟩
  rintro k ⟨hpos, -, hsettled⟩
  by_contra hlt
  obtain rfl : k = 1 := by omega
  rcases hsettled with hmem | hnot
  · exact absurd (mem_language_pairTree.mp hmem) (by decide)
  · exact hnot ⟨[98], mem_language_pairTree.mpr rfl⟩

/-- The second byte completes the match; a third one does not matter any more. -/
theorem feed_pairTree : ∃ dfa notes, build? (Nfa.ofTree pairTree) = some (dfa, notes) ∧
    IsLeast {k | SettledAt pairTree.language [97, 98, 99] k} 2 ∧
    (∀ step ∈ (dfa.feed initial [97, 98, 99]).take 1, step.outcome = .continue) ∧
    ∃ step, (dfa.feed initial [97, 98, 99])[1]? = some step ∧ step.outcome = .accept ∧
      step.state = dfa.after initial [97] := by
  obtain ⟨⟨dfa, notes⟩, hbuild⟩ := Option.isSome_iff_exists.mp
    (show (build? (Nfa.ofTree pairTree)).isSome = true by cbv)
  obtain ⟨hcontinue, step, hstep, haccept, -⟩ :=
    (feed_until_settled hbuild [97, 98, 99]).1 2 isLeast_settledAt_pairTree
  exact ⟨dfa, notes, hbuild, isLeast_settledAt_pairTree, hcontinue, step, hstep,
    haccept (mem_language_pairTree.mpr rfl)⟩

end ActionRegex.Dfa
