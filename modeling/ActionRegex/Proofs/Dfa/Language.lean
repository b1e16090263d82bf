import ActionRegex.Proofs.Dfa.Construction

/-!
# The language of the final automaton

The table of the automaton built from a tree matches the texts of the tree's language.
-/

namespace ActionRegex.Dfa

open ActionRegex.Symbol (bytes)
open Pattern (Tree)
open SymbolDfa (Accepts Folding)

variable {t : Tree} {plain : SymbolDfa} {f : Folding} {dfa : Dfa}

/-- The table matches the bytes of the accepted words. -/
theorem Built.isMatch_iff (h : Built t plain f dfa) {w : Bytes} :
    dfa.table.isMatch w = true ↔ ∃ u, Accepts plain 0 u ∧ bytes u = w := by
  have hinitial : initial < dfa.size :=
    (numberState?_of_stands h.numbered (stands_zero h.closed)).2
  rw [Table.isMatch, accepts_table_iff h.target_lt_size hinitial]
  constructor
  -- the word that leads to the state goes on with the actions for which the state accepts
  · rintro ⟨q, hwalk, haccept⟩
    obtain ⟨id, hstands, hwords⟩ := h.exists_path_of_walk hwalk
    rw [accept_of_stands h.numbered hstands] at haccept
    obtain ⟨m, hm, v₁, v₂, hv, hbytes, -⟩ := (h.ready.sound id).accept haccept
    obtain ⟨u, hpath, hu, -⟩ := hwords m hm
    refine ⟨u ++ (v₁ ++ v₂), hpath.accepts hv, ?_⟩
    rw [Symbol.bytes_append, hu, hbytes, List.append_nil]
  · rintro ⟨u, hu, rfl⟩
    obtain ⟨q, -, -, -, hwalk, haccept, -⟩ := h.walk_of_accepts hu
    exact ⟨q, hwalk, haccept⟩

/-- The table matches the texts of the tree's language. -/
theorem Built.isMatch_iff_mem (h : Built t plain f dfa) {w : Bytes} :
    dfa.table.isMatch w = true ↔ w ∈ t.language := by
  rw [h.isMatch_iff, Tree.mem_language_iff]
  refine exists_congr fun u => ?_
  rw [h.accepts_iff, Nfa.run_ofTree_iff]

/-- **The automaton built from a tree matches the texts of the tree's language.** -/
theorem isMatch_iff_mem_language {t : Tree} {dfa : Dfa} {notes : List Note}
    (h : build? (Nfa.ofTree t) = some (dfa, notes)) (w : Bytes) :
    dfa.table.isMatch w = true ↔ w ∈ t.language := by
  obtain ⟨plain, f, hbuilt⟩ := exists_built h
  exact hbuilt.isMatch_iff_mem

/-- A loop in which an action takes the place of a byte: `((a|@0)b)*`. -/
def loopTree : Tree := .closure (.concat (.alternate (.byte 97) (.action 0)) (.byte 98))

theorem isMatch_loopTree : ∃ dfa notes, build? (Nfa.ofTree loopTree) = some (dfa, notes) ∧
    dfa.table.isMatch [98, 97, 98] = true := by
  obtain ⟨⟨dfa, notes⟩, hbuild⟩ := Option.isSome_iff_exists.mp
    (show (build? (Nfa.ofTree loopTree)).isSome = true by cbv)
  refine ⟨dfa, notes, hbuild, (isMatch_iff_mem_language hbuild _).mpr ?_⟩
  refine Tree.mem_language_iff.mpr ⟨[.action 0, .byte 98, .byte 97, .byte 98], ?_, rfl⟩
  refine Tree.mem_words_closure.mpr ⟨[[.action 0, .byte 98], [.byte 97, .byte 98]], rfl, ?_⟩
  intro piece hpiece
  rw [Tree.mem_words_concat]
  rcases List.mem_cons.mp hpiece with rfl | hpiece
  · exact ⟨[.action 0], Or.inr rfl, [.byte 98], rfl, rfl⟩
  · rw [List.mem_singleton.mp hpiece]
    exact ⟨[.byte 97], Or.inl rfl, [.byte 98], rfl, rfl⟩

end ActionRegex.Dfa
