import ActionRegex.Proofs.Dfa.Construction

/-!
# Which actions fire

What a transition fires stands on a run: among the actions after the last byte before it, or after
the byte it consumes. In the other direction, an action that stands on every accepting run over a
text fires on the way, unless it stands after the last byte of all of them. There it can get lost:
inlining an accepting state hands on the actions of the transition that led to it, but not the
actions that fire on its entry. For that it takes two actions after the last byte.
-/

namespace ActionRegex.Dfa

open ActionRegex.Symbol (bytes lastBlock)
open Pattern (Tree)
open SymbolDfa (Folding)

variable {t : Tree} {plain : SymbolDfa} {f : Folding} {dfa : Dfa} {notes : List Note}

/-! ## No action that is on no run -/

/-- **A transition fires actions of runs only.** They stand in the last block of a run over the text
before the transition, or over that text and the byte of the transition. -/
theorem exists_run_of_mem_actions (h : build? (Nfa.ofTree t) = some (dfa, notes)) {w : Bytes}
    {b : UInt8} {q : Nat} {tr : Transition} (hwalk : dfa.walk? initial w = some q)
    (hon : (dfa.state q).on? b = some tr) {x : Nat} (hx : x ∈ tr.actions) :
    ∃ u r, Nfa.Run (Nfa.ofTree t) Nfa.initial u r ∧ (bytes u = w ∨ bytes u = w ++ [b]) ∧
      .action x ∈ lastBlock u := by
  obtain ⟨plain, f, hbuilt⟩ := exists_built h
  obtain ⟨id, hstands, hwords⟩ := hbuilt.exists_path_of_walk hwalk
  obtain ⟨t', hmem, -, hactions⟩ := exists_of_on? hbuilt.closed hbuilt.numbered hstands hon
  have hsound := (hbuilt.ready.sound id).edges _ hmem
  rw [hactions, Ascending.mem_union] at hx
  -- the action is carried by the transition, or fires on the entry of its target
  rcases hx with hx | hx
  · obtain ⟨m, hm, v, q', hpath', hbytes', hv⟩ := hsound.fires hbuilt.isPlain x (Or.inl hx)
    obtain ⟨u, hpath, hbytes, -⟩ := hwords m hm
    obtain ⟨r, hrun⟩ := hbuilt.run_of_path _ _ (hpath.trans hpath')
    refine ⟨u ++ v, r, hrun, ?_, Symbol.mem_lastBlock_append u hv⟩
    rw [Symbol.bytes_append, hbytes]
    rcases hbytes' with hbytes' | hbytes'
    · exact Or.inl (by rw [hbytes', List.append_nil])
    · exact Or.inr (by rw [hbytes']; rfl)
  · obtain ⟨m', hm', v, q', hpath'', hbytes'', hv⟩ :=
      (hbuilt.ready.sound t'.target).entry hbuilt.isPlain x hx
    obtain ⟨m, hm, v', hpath', -, hbytes', -⟩ := hsound.reach m' hm'
    obtain ⟨u, hpath, hbytes, -⟩ := hwords m hm
    obtain ⟨r, hrun⟩ := hbuilt.run_of_path _ _ ((hpath.trans hpath').trans hpath'')
    refine ⟨u ++ v' ++ v, r, hrun, Or.inr ?_, Symbol.mem_lastBlock_of_bytes_eq_nil _ hbytes'' hv⟩
    rw [Symbol.bytes_append, Symbol.bytes_append, hbytes, hbytes', hbytes'', List.append_nil]
    rfl

/-- An action on one of two ways, and one at the end of both: `a(@0b|c)@1`. -/
def branchTree : Tree :=
  .concat (.byte 97)
    (.concat (.alternate (.concat (.action 0) (.byte 98)) (.byte 99)) (.action 1))

/-- After `a`, the action fires with `b`, before which it stands. -/
theorem exists_run_branchTree :
    ∃ dfa notes q tr, build? (Nfa.ofTree branchTree) = some (dfa, notes) ∧
      dfa.walk? initial [97] = some q ∧ (dfa.state q).on? 98 = some tr ∧ 0 ∈ tr.actions ∧
      ∃ u r, Nfa.Run (Nfa.ofTree branchTree) Nfa.initial u r ∧
        (bytes u = [97] ∨ bytes u = [97] ++ [98]) ∧ .action 0 ∈ lastBlock u := by
  have hfires : ((build? (Nfa.ofTree branchTree)).any fun built =>
      (built.1.walk? initial [97]).any fun q =>
        ((built.1.state q).on? 98).any fun tr => tr.actions.contains 0) = true := by cbv
  obtain ⟨⟨dfa, notes⟩, hbuild, hfires⟩ := (Option.any_eq_true _ _).mp hfires
  obtain ⟨q, hwalk, hfires⟩ := (Option.any_eq_true _ _).mp hfires
  obtain ⟨tr, hon, hfires⟩ := (Option.any_eq_true _ _).mp hfires
  have hmem : 0 ∈ tr.actions := by simpa using hfires
  exact ⟨dfa, notes, q, tr, hbuild, hwalk, hon, hmem,
    exists_run_of_mem_actions hbuild hwalk hon hmem⟩

/-! ## Actions on every run -/

/-- An action stands on every accepting run over a text. -/
def OnEveryRun (t : Tree) (w : Bytes) (x : Nat) : Prop :=
  ∀ u, Nfa.Run (Nfa.ofTree t) Nfa.initial u Nfa.final → bytes u = w → .action x ∈ u

/-- An action stands after the last byte of every accepting run over a text. -/
def AfterEveryRun (t : Tree) (w : Bytes) (x : Nat) : Prop :=
  ∀ u, Nfa.Run (Nfa.ofTree t) Nfa.initial u Nfa.final → bytes u = w → .action x ∈ lastBlock u

/-- The state that stands for a state is the only one. -/
theorem Stands.unique {source : SymbolDfa} {i id id' : Nat} (h : Stands source i id)
    (h' : Stands source i id') : id = id' :=
  Option.some.inj (h.symm.trans h')

/-- An action on every run that does not fire stands after the last byte of every run. -/
theorem afterEveryRun_of_not_fired (h : Built t plain f dfa) {w : Bytes} {x : Nat}
    (hx : OnEveryRun t w x) (hnot : x ∉ dfa.fired initial w) : AfterEveryRun t w x := by
  rintro u hrun rfl
  obtain ⟨q, id, u₁, u₂, hwalk, -, hstands, rfl, hbytes, m, hm, hm₂⟩ :=
    h.walk_of_accepts ((h.accepts_iff u).mpr hrun)
  obtain ⟨id', hstands', hwords⟩ := h.exists_path_of_walk hwalk
  rw [← hstands.unique hstands'] at hwords
  -- the part before the last actions can be exchanged for one whose actions all fire
  obtain ⟨u', hpath, hbytes', hfired⟩ := hwords m hm
  have hrun' := (h.accepts_iff _).mp (hpath.accepts hm₂)
  have hmem := hx (u' ++ u₂) hrun' (by rw [Symbol.bytes_append, hbytes', hbytes, List.append_nil])
  rcases List.mem_append.mp hmem with hmem | hmem
  · exact absurd (hfired x hmem) hnot
  · exact Symbol.mem_lastBlock_of_bytes_eq_nil u₁ hbytes hmem

/-- The actions on the entry of the state in which a walk ends have fired. -/
theorem mem_fired_of_mem_entry (h : Built t plain f dfa) {i q : Nat} {w : Bytes} (hne : w ≠ [])
    (hwalk : dfa.walk? i w = some q) {id id' : Nat} (hstands : Stands ⟨f.states⟩ i id)
    (hend : Stands ⟨f.states⟩ q id') {x : Nat} (hx : x ∈ (f.state id').entry) :
    x ∈ dfa.fired i w := by
  induction w generalizing i id with
  | nil => exact absurd rfl hne
  | cons b rest ih =>
    obtain ⟨tr, hon, hrest⟩ := walk?_cons_eq_some_iff.mp hwalk
    obtain ⟨t', -, htarget, hactions⟩ := exists_of_on? h.closed h.numbered hstands hon
    rw [mem_fired_cons hon]
    cases rest with
    | nil =>
      cases hrest
      rw [← htarget.unique hend] at hx
      rw [hactions]
      exact Or.inl (Ascending.mem_union.mpr (Or.inr hx))
    | cons b' rest => exact Or.inr (ih (by simp) hrest htarget)

/-- Some accepting run fires all its actions up to a first part of its last block, and that part is
not empty unless the block is. -/
theorem exists_run_fired (h : Built t plain f dfa) {w : Bytes} (hne : w ≠ [])
    (hw : w ∈ t.language) :
    ∃ u v₁ v₂, Nfa.Run (Nfa.ofTree t) Nfa.initial (u ++ (v₁ ++ v₂)) Nfa.final ∧ bytes u = w ∧
      bytes (v₁ ++ v₂) = [] ∧ (v₁ = [] → v₂ = []) ∧
      ∀ x, .action x ∈ u ++ v₁ → x ∈ dfa.fired initial w := by
  obtain ⟨u₀, hu₀, rfl⟩ := Tree.mem_language_iff.mp hw
  obtain ⟨q, -, -, -, hwalk, haccept, -⟩ :=
    h.walk_of_accepts ((h.accepts_iff u₀).mpr (Nfa.run_ofTree_iff.mpr hu₀))
  obtain ⟨id, hstands, hwords⟩ := h.exists_path_of_walk hwalk
  rw [accept_of_stands h.numbered hstands] at haccept
  obtain ⟨m, hm, v₁, v₂, hv, hbytes, hnil, hentry⟩ := (h.ready.sound id).accept haccept
  obtain ⟨u, hpath, hu, hfired⟩ := hwords m hm
  refine ⟨u, v₁, v₂, (h.accepts_iff _).mp (hpath.accepts hv), hu, hbytes, hnil, fun x hx => ?_⟩
  rcases List.mem_append.mp hx with hx | hx
  · exact hfired x hx
  · exact mem_fired_of_mem_entry h hne hwalk (stands_zero h.closed) hstands (hentry x hx)

/-- **When no action is lost.** The actions on every accepting run over a text all fire if and only
if those after the last byte of every accepting run do. They do if no accepting run over the text
has more than one action after its last byte. -/
theorem onEveryRun_fired_iff (h : build? (Nfa.ofTree t) = some (dfa, notes)) {w : Bytes}
    (hne : w ≠ []) (hw : w ∈ t.language) :
    ((∀ x, OnEveryRun t w x → x ∈ dfa.fired initial w) ↔
      ∀ x, AfterEveryRun t w x → x ∈ dfa.fired initial w) ∧
    ((∀ u, Nfa.Run (Nfa.ofTree t) Nfa.initial u Nfa.final → bytes u = w →
        (lastBlock u).length ≤ 1) →
      ∀ x, OnEveryRun t w x → x ∈ dfa.fired initial w) := by
  obtain ⟨plain, f, hbuilt⟩ := exists_built h
  refine ⟨⟨fun hall x hx => ?_, fun hall x hx => ?_⟩, fun hshort x hx => ?_⟩
  · exact hall x fun u hrun hu => Symbol.mem_of_mem_lastBlock (hx u hrun hu)
  · by_contra hnot
    exact hnot (hall x (afterEveryRun_of_not_fired hbuilt hx hnot))
  · obtain ⟨u, v₁, v₂, hrun, hu, hbytes, hnil, hfired⟩ := exists_run_fired hbuilt hne hw
    have hw' : bytes (u ++ (v₁ ++ v₂)) = w := by
      rw [Symbol.bytes_append, hu, hbytes, List.append_nil]
    have hlength := Nat.le_trans (Symbol.length_le_length_lastBlock u hbytes) (hshort _ hrun hw')
    -- with one action only, the part that fires is the whole block
    have hv₂ : v₂ = [] := by
      cases v₁ with
      | nil => exact hnil rfl
      | cons s v₁ =>
        rw [List.length_append, List.length_cons] at hlength
        exact List.length_eq_zero_iff.mp (by omega)
    subst hv₂
    rw [List.append_nil] at hrun hw'
    exact hfired x (hx _ hrun hw')

theorem mem_words_branchTree {u : List Symbol} : u ∈ branchTree.words ↔
    u = [.byte 97, .action 0, .byte 98, .action 1] ∨ u = [.byte 97, .byte 99, .action 1] := by
  rw [branchTree, Tree.mem_words_concat]
  constructor
  · rintro ⟨_, rfl, ur, hr, rfl⟩
    obtain ⟨_, hl, _, rfl, rfl⟩ := Tree.mem_words_concat.mp hr
    rcases Tree.mem_words_alternate.mp hl with hl | rfl
    · obtain ⟨_, rfl, _, rfl, rfl⟩ := Tree.mem_words_concat.mp hl
      exact Or.inl rfl
    · exact Or.inr rfl
  · rintro (rfl | rfl)
    · exact ⟨[.byte 97], rfl, _, Tree.mem_words_concat.mpr ⟨[.action 0, .byte 98],
        Or.inl (Tree.mem_words_concat.mpr ⟨[.action 0], rfl, [.byte 98], rfl, rfl⟩),
        [.action 1], rfl, rfl⟩, rfl⟩
    · exact ⟨[.byte 97], rfl, _, Tree.mem_words_concat.mpr ⟨[.byte 99], Or.inr rfl,
        [.action 1], rfl, rfl⟩, rfl⟩

/-- On the way over `b` both actions fire. -/
theorem fired_branchTree : ∃ dfa notes, build? (Nfa.ofTree branchTree) = some (dfa, notes) ∧
    0 ∈ dfa.fired initial [97, 98] ∧ 1 ∈ dfa.fired initial [97, 98] := by
  obtain ⟨⟨dfa, notes⟩, hbuild⟩ := Option.isSome_iff_exists.mp
    (show (build? (Nfa.ofTree branchTree)).isSome = true by cbv)
  have hrun : ∀ u, Nfa.Run (Nfa.ofTree branchTree) Nfa.initial u Nfa.final →
      bytes u = [97, 98] → u = [.byte 97, .action 0, .byte 98, .action 1] := by
    intro u hu hbytes
    rcases mem_words_branchTree.mp (Nfa.run_ofTree_iff.mp hu) with rfl | rfl
    · rfl
    · exact absurd hbytes (by decide)
  have hmem : [97, 98] ∈ branchTree.language :=
    Tree.mem_language_iff.mpr ⟨_, mem_words_branchTree.mpr (Or.inl rfl), rfl⟩
  have hfired := (onEveryRun_fired_iff hbuild (by simp) hmem).2 fun u hu hbytes => by
    rw [hrun u hu hbytes]
    decide
  refine ⟨dfa, notes, hbuild, hfired 0 fun u hu hbytes => ?_, hfired 1 fun u hu hbytes => ?_⟩
  · rw [hrun u hu hbytes]
    decide
  · rw [hrun u hu hbytes]
    decide

/-- A tree with two actions after the last byte: `(a|b(@0|c))(@1|d)`. -/
def lossyTree : Tree :=
  .concat
    (.alternate (.byte 97) (.concat (.byte 98) (.alternate (.action 0) (.byte 99))))
    (.alternate (.action 1) (.byte 100))

/-- The only run over `b` has both actions on it. -/
theorem eq_of_mem_words_lossyTree {u : List Symbol} (h : u ∈ lossyTree.words)
    (hbytes : bytes u = [98]) : u = [.byte 98, .action 0, .action 1] := by
  obtain ⟨ul, hl, ur, hr, rfl⟩ := Tree.mem_words_concat.mp h
  rcases Tree.mem_words_alternate.mp hl with rfl | hl
  · rcases Tree.mem_words_alternate.mp hr with rfl | rfl <;> exact absurd hbytes (by decide)
  · obtain ⟨_, rfl, ux, hx, rfl⟩ := Tree.mem_words_concat.mp hl
    rcases Tree.mem_words_alternate.mp hx with rfl | rfl
    · rcases Tree.mem_words_alternate.mp hr with rfl | rfl
      · rfl
      · exact absurd hbytes (by decide)
    · rcases Tree.mem_words_alternate.mp hr with rfl | rfl <;> exact absurd hbytes (by decide)

/-- The second of two actions after the last byte can get lost. -/
theorem not_fired_lossyTree :
    ∃ dfa notes, build? (Nfa.ofTree lossyTree) = some (dfa, notes) ∧ [98] ∈ lossyTree.language ∧
      OnEveryRun lossyTree [98] 1 ∧ 1 ∉ dfa.fired initial [98] := by
  have hlost : ((build? (Nfa.ofTree lossyTree)).any fun built =>
      !(built.1.fired initial [98]).contains 1) = true := by cbv
  obtain ⟨⟨dfa, notes⟩, hbuild, hlost⟩ := (Option.any_eq_true _ _).mp hlost
  refine ⟨dfa, notes, hbuild, ?_, fun u hu hbytes => ?_, by simpa using hlost⟩
  · refine Tree.mem_language_iff.mpr ⟨[.byte 98, .action 0, .action 1], ?_, rfl⟩
    refine Tree.mem_words_concat.mpr
      ⟨[.byte 98, .action 0], Or.inr ?_, [.action 1], Or.inl rfl, rfl⟩
    exact Tree.mem_words_concat.mpr ⟨[.byte 98], rfl, [.action 0], Or.inl rfl, rfl⟩
  · rw [eq_of_mem_words_lossyTree (Nfa.run_ofTree_iff.mp hu) hbytes]
    decide

end ActionRegex.Dfa
