import ActionRegex.Compiler
import ActionRegex.Proofs.Dfa.Construction
import ActionRegex.Proofs.Nfa.Shape
import ActionRegex.Proofs.Pattern.Renumbering
import ActionRegex.Proofs.Pattern.TokenProperties

/-!
# The indexes of actions

A parser hands out the indexes of its registry, so the actions of a tree are registered
(`actionsBelow_of_parse`). What an automaton fires stands in a word of the tree, because each path
of the subset construction is a part of such a word (`Folded.exists_word_of_path`). So the registry
of a compiled pattern has a fragment for each index that can fire, and it is the registry before
with the fragments of the pattern behind it (`Compiler.registry_appends`).
-/

namespace ActionRegex

namespace Pattern

/-! ## Trees -/

/-- All action indexes of a tree are below a number. -/
def Tree.ActionsBelow (n : Nat) : Tree → Prop
  | .symbol (.action index) => index < n
  | .symbol (.byte _) => True
  | .empty => True
  | .concat l r => l.ActionsBelow n ∧ r.ActionsBelow n
  | .alternate l r => l.ActionsBelow n ∧ r.ActionsBelow n
  | .closure t => t.ActionsBelow n

theorem Tree.ActionsBelow.lt_of_mem_words {n index : Nat} {t : Tree} (h : t.ActionsBelow n)
    {u : List Symbol} (hu : u ∈ t.words) (hindex : .action index ∈ u) : index < n := by
  induction t generalizing u with
  | symbol s =>
    rw [mem_words_symbol.mp hu, List.mem_singleton] at hindex
    subst hindex
    exact h
  | empty =>
    rw [mem_words_empty.mp hu] at hindex
    exact absurd hindex List.not_mem_nil
  | concat l r ihl ihr =>
    obtain ⟨ul, hul, ur, hur, rfl⟩ := mem_words_concat.mp hu
    rcases List.mem_append.mp hindex with hindex | hindex
    · exact ihl h.1 hul hindex
    · exact ihr h.2 hur hindex
  | alternate l r ihl ihr =>
    rcases mem_words_alternate.mp hu with hu | hu
    · exact ihl h.1 hu hindex
    · exact ihr h.2 hu hindex
  | closure t ih =>
    obtain ⟨pieces, rfl, hpieces⟩ := mem_words_closure.mp hu
    obtain ⟨piece, hpiece, hindex⟩ := List.mem_flatten.mp hindex
    exact ih h (hpieces piece hpiece) hindex

/-! ## Tokens -/

/-- A token is no action with an index from a number on. -/
def Token.ActionBelow (n : Nat) (x : Token) : Prop :=
  ∀ index, x.kind = .symbol (.action index) → index < n

theorem tracked_actionBelow : Tracked Token.ActionBelow where
  inherited _ _ _ _ hkind index heq := absurd heq (hkind index)
  mono hle hx index hindex := Nat.lt_of_lt_of_le (hx index hindex) hle

/-- Expansion gives an action the index of its block. -/
theorem allows_actionBelow (span : Span) : Tracked.Allows Token.ActionBelow span where
  admits _ _ hkind index heq := absurd heq (hkind index)
  action n index hindex := by
    obtain rfl := Symbol.action.inj (TokenKind.symbol.inj hindex)
    exact Nat.lt_succ_self n

variable {n : Nat}

theorem actionsBelow_of_applyToken {x : Token} {stack stack' : List (Tree × Span)}
    (h : applyToken x stack = .ok stack') (hx : x.ActionBelow n)
    (hstack : ∀ entry ∈ stack, entry.1.ActionsBelow n) :
    ∀ entry ∈ stack', entry.1.ActionsBelow n := by
  unfold applyToken at h
  split at h
  · next value hkind =>
    obtain rfl := Except.ok.inj h
    refine List.forall_mem_cons.mpr ⟨?_, hstack⟩
    cases value with
    | byte b => trivial
    | action index => exact hx index hkind
  · obtain rfl := Except.ok.inj h
    exact List.forall_mem_cons.mpr ⟨trivial, hstack⟩
  · obtain rfl := Except.ok.inj h
    obtain ⟨ht, hrest⟩ := List.forall_mem_cons.mp hstack
    exact List.forall_mem_cons.mpr ⟨ht, hrest⟩
  · obtain rfl := Except.ok.inj h
    obtain ⟨hr, hrest⟩ := List.forall_mem_cons.mp hstack
    obtain ⟨hl, hrest⟩ := List.forall_mem_cons.mp hrest
    exact List.forall_mem_cons.mpr ⟨⟨hl, hr⟩, hrest⟩
  · obtain rfl := Except.ok.inj h
    obtain ⟨hr, hrest⟩ := List.forall_mem_cons.mp hstack
    obtain ⟨hl, hrest⟩ := List.forall_mem_cons.mp hrest
    exact List.forall_mem_cons.mpr ⟨⟨hl, hr⟩, hrest⟩
  · simp at h

theorem actionsBelow_of_foldTokens {tokens : List Token} {stack stack' : List (Tree × Span)}
    (h : foldTokens stack tokens = .ok stack') (htokens : ∀ x ∈ tokens, x.ActionBelow n)
    (hstack : ∀ entry ∈ stack, entry.1.ActionsBelow n) :
    ∀ entry ∈ stack', entry.1.ActionsBelow n := by
  induction tokens generalizing stack with
  | nil => exact Except.ok.inj h ▸ hstack
  | cons x tokens ih =>
    unfold foldTokens at h
    split at h
    · simp at h
    · next happly =>
      obtain ⟨hx, htokens⟩ := List.forall_mem_cons.mp htokens
      exact ih h htokens (actionsBelow_of_applyToken happly hx hstack)

/-- The actions of a tree are those of its tokens. -/
theorem actionsBelow_of_treeOfStream {s : Stream} {t : Tree} (h : treeOfStream s = .ok t)
    (hs : s.All (Token.ActionBelow n)) : t.ActionsBelow n := by
  unfold treeOfStream at h
  split at h
  · simp at h
  · next code hcode =>
    have hmem : ∀ x ∈ code, x.ActionBelow n := by
      intro x hx
      have hreordered := mem_of_reorder (toPostfix_eq_ok_iff.mp hcode) x (List.mem_reverse.mpr hx)
      exact hs x (by simpa using hreordered)
    unfold treeOfPostfix at h
    split at h
    · simp at h
    · next stack hfold =>
      have hstack := actionsBelow_of_foldTokens hfold hmem (by simp)
      unfold takeTree at h
      split at h
      · exact Except.ok.inj h ▸ trivial
      · next span hreverse =>
        obtain rfl := Except.ok.inj h
        exact hstack (_, span) (List.mem_reverse.mp (hreverse ▸ List.mem_singleton_self _))
      · simp at h

/-- **The actions of a tree are registered.** -/
theorem actionsBelow_of_parse {macros : Macros} {pattern : Bytes} {registry last : Registry}
    {t : Tree} (h : parse macros pattern registry = (.ok t, last)) : t.ActionsBelow last.size := by
  obtain ⟨s, htokenize, htree⟩ := exists_tokenize_of_parse h
  have hexpands : Expands macros (macros.countOutside []) [] none (lex pattern).items
      (lex pattern).error .empty registry (tokenize macros pattern registry) :=
    expands_expand (Nat.le_refl _)
  have hall := hexpands.all tracked_actionBelow (fun entry _ => allows_actionBelow _)
    (Stream.all_empty _) (congrArg Prod.fst htokenize)
  rw [htokenize] at hall
  exact actionsBelow_of_treeOfStream htree hall

end Pattern

/-! ## Automata -/

namespace Dfa

open Pattern (Tree)
open SymbolDfa (Folding Determinizes)

variable {t : Tree} {plain : SymbolDfa} {f : Folding} {dfa : Dfa} {notes : List Note}

/-- **Each path of the subset construction is a part of a word.** -/
theorem Folded.exists_word_of_path (h : Folded t plain f) {p q : Nat} {u : List Symbol}
    (hpath : plain.Path p u q) (hp : p < plain.size) : ∃ v w, v ++ u ++ w ∈ t.words := by
  have hsize : Nfa.initial < (Nfa.ofTree t).size :=
    Nat.lt_of_lt_of_le (by decide) (Nfa.two_le_size_ofTree t)
  have hrange := Nfa.inRange_ofTree t
  obtain ⟨_, sets, hsome, hsets⟩ := SymbolDfa.exists_determinizes hrange hsize
  obtain rfl := Option.some.inj (h.subsets.symm.trans hsome)
  have hset := hsets.getElem?_sets hp
  obtain ⟨set', hset', hruns⟩ := hsets.exists_run_of_path hrange hpath hset
  obtain ⟨r', hr'⟩ := List.exists_mem_of_ne_nil _
    (hsets.proper set' (Array.mem_of_getElem? hset')).ne_nil
  obtain ⟨r, hr, hrun⟩ := hruns r' hr'
  have hlt : r < (Nfa.ofTree t).size :=
    (hsets.proper _ (Array.mem_of_getElem? hset)).lt_size r hr
  -- every state of the automaton of a tree lies on an accepting run
  obtain ⟨v, -, hbefore, -⟩ := Nfa.exists_run_through t hlt
  obtain ⟨w, hwhole⟩ := Nfa.exists_run_final (hbefore.trans hrun)
  exact ⟨v, w, Nfa.run_ofTree_iff.mp hwhole⟩

/-- **What a transition fires stands in a word of the tree.** -/
theorem exists_word_of_mem_actions (h : build? (Nfa.ofTree t) = some (dfa, notes)) {s : State}
    (hs : s ∈ dfa.states) {b : UInt8} {tr : Transition} (htr : (b, tr) ∈ s.transitions) {x : Nat}
    (hx : x ∈ tr.actions) : ∃ u ∈ t.words, .action x ∈ u := by
  obtain ⟨plain, f, hbuilt⟩ := exists_built h
  -- an action on a path from a member of a state of the folding stands in a word
  have hpart : ∀ {id m q : Nat} {u : List Symbol}, m ∈ f.membersOf id → plain.Path m u q →
      .action x ∈ u → ∃ u ∈ t.words, .action x ∈ u := by
    intro id m q u hm hpath hu
    obtain ⟨v, w, hword⟩ := hbuilt.exists_word_of_path hpath (hbuilt.ready.members_lt id m hm)
    exact ⟨_, hword, List.mem_append_left _ (List.mem_append_right _ hu)⟩
  obtain ⟨i, hi, rfl⟩ := Array.mem_iff_getElem.mp hs
  have hstate : dfa.state i = dfa.states[i] := by
    rw [state, Array.getD_eq_getD_getElem?, Array.getElem?_eq_getElem hi, Option.getD_some]
  have hkeys := (wellFormed_of_ofSymbolDfa? hbuilt.closed hbuilt.numbered).keys i
  have hon : (dfa.state i).on? b = some tr :=
    (Ascending.get?_eq_some_iff hkeys).mpr (hstate ▸ htr)
  obtain ⟨id, hstands⟩ := exists_stands hbuilt.numbered hi
  obtain ⟨t', hmem, -, hactions⟩ := exists_of_on? hbuilt.closed hbuilt.numbered hstands hon
  rw [hactions, Ascending.mem_union] at hx
  -- the action is carried by the transition, or fires on the entry of its target
  rcases hx with hx | hx
  · obtain ⟨m, hm, v, q, hpath, -, hv⟩ :=
      ((hbuilt.ready.sound id).edges _ hmem).fires hbuilt.isPlain x (Or.inl hx)
    exact hpart hm hpath (Symbol.mem_of_mem_lastBlock hv)
  · obtain ⟨m, hm, v, q, hpath, -, hv⟩ :=
      (hbuilt.ready.sound t'.target).entry hbuilt.isPlain x hx
    exact hpart hm hpath hv

end Dfa

/-! ## Compiled patterns -/

namespace Registry

/-- The text of registered fragments skips none of them. -/
theorem exists_text_eq {registry : Registry} {indexes : List Nat}
    (h : ∀ index ∈ indexes, index < registry.size) :
    ∃ fragments : List Bytes, indexes.map registry.get? = fragments.map some ∧
      registry.text indexes = fragments.flatten := by
  induction indexes with
  | nil => exact ⟨[], rfl, rfl⟩
  | cons index indexes ih =>
    obtain ⟨hindex, hrest⟩ := List.forall_mem_cons.mp h
    obtain ⟨fragments, hget, htext⟩ := ih hrest
    have hfirst : registry.get? index = some registry.fragments[index] :=
      Array.getElem?_eq_getElem hindex
    refine ⟨registry.fragments[index] :: fragments, ?_, ?_⟩
    · rw [List.map_cons, List.map_cons, hfirst, hget]
    · rw [text, List.filterMap_cons_some hfirst, List.flatten_cons, List.flatten_cons, ← htext]
      rfl

end Registry

namespace Compiler

open Pattern (Tree)

theorem of_compileTree {t : Tree} {registry : Registry} {automaton : Automaton}
    {notes : List Note} (h : compileTree t registry = .ok (automaton, notes)) :
    automaton.registry = registry ∧
      ∃ notes', Dfa.build? (Nfa.ofTree t) = some (automaton.dfa, notes') := by
  unfold compileTree at h
  simp only at h
  split at h
  · simp at h
  · next dfa notes' hbuild =>
    obtain ⟨rfl, -⟩ := Prod.mk.inj (Except.ok.inj h)
    exact ⟨rfl, notes', hbuild⟩

/-- **The registry is only appended to, and the indexes of actions lead into it.** Parsing leaves
the fragments and the header of a registry as they are, also when it fails. Its result and the
fragments that it appends are those of parsing with the empty registry, but that the indexes of the
actions are counted from the number of fragments before. In a compiled pattern all indexes that a
transition fires have a fragment, so their text leaves nothing out. -/
theorem registry_appends (compiler : Compiler) (pattern : String) (registry : Registry) :
    (compiler.parse pattern registry).1 =
      (compiler.parse pattern .empty).1.map (Tree.shift registry.size) ∧
    (compiler.parse pattern registry).2.toList =
      registry.toList ++ (compiler.parse pattern .empty).2.toList ∧
    (compiler.parse pattern registry).2.header = registry.header ∧
    ∀ automaton notes, compiler.compileWith pattern registry = .ok (automaton, notes) →
      automaton.registry = (compiler.parse pattern registry).2 ∧
      ∀ s ∈ automaton.dfa.states, ∀ b tr, (b, tr) ∈ s.transitions →
        (∀ index ∈ tr.actions, index < automaton.registry.size) ∧
        ∃ fragments : List Bytes, tr.actions.map automaton.registry.get? = fragments.map some ∧
          automaton.registry.text tr.actions = fragments.flatten := by
  obtain ⟨hresult, hlast⟩ :=
    Pattern.renumbered_parse compiler.macros (Bytes.ofString pattern) registry
  refine ⟨hresult, hlast.toList, hlast.header, ?_⟩
  intro automaton notes hcompile
  unfold compileWith at hcompile
  split at hcompile
  · simp at hcompile
  · next tree last hparse =>
    obtain ⟨hregistry, notes', hbuild⟩ := of_compileTree hcompile
    have hbelow : tree.ActionsBelow last.size := Pattern.actionsBelow_of_parse hparse
    refine ⟨by rw [hregistry, hparse], ?_⟩
    intro s hs b tr htr
    have hindexes : ∀ index ∈ tr.actions, index < automaton.registry.size := by
      intro index hindex
      obtain ⟨u, hu, hmem⟩ := Dfa.exists_word_of_mem_actions hbuild hs htr hindex
      rw [hregistry]
      exact hbelow.lt_of_mem_words hu hmem
    exact ⟨hindexes, Registry.exists_text_eq hindexes⟩

/-- A compiler with a macro `m` whose body is an action block. -/
def blockCompiler : Compiler := ⟨[([109], [123, 121, 125])]⟩

/-- A registry with a fragment `w`. -/
def startedRegistry : Registry := ⟨#[[119]], ["h"]⟩

/-- Behind the fragment, the actions of the macro and of the pattern have the indexes 1 and 2. -/
theorem registry_appends_blocks :
    ∃ automaton notes, blockCompiler.compileWith "m\x7bx\x7da" startedRegistry =
        .ok (automaton, notes) ∧
      automaton.registry.toList = [[119], [121], [120]] ∧
      ∃ s ∈ automaton.dfa.states, ∃ tr, (97, tr) ∈ s.transitions ∧ tr.actions = [1, 2] ∧
        (∀ index ∈ tr.actions, index < automaton.registry.size) ∧
        ∃ fragments : List Bytes, tr.actions.map automaton.registry.get? = fragments.map some ∧
          automaton.registry.text tr.actions = fragments.flatten := by
  have htext : Bytes.ofString "m\x7bx\x7da" = [109, 123, 120, 125, 97] := by decide
  have hfires : ((blockCompiler.compileWith "m\x7bx\x7da" startedRegistry).toOption.any
      fun compiled => compiled.1.dfa.states.any fun s =>
        s.transitions.any fun entry => entry.1 == 97 && entry.2.actions == [1, 2]) = true := by
    rw [compileWith, parse, htext]
    cbv
  have halone : (blockCompiler.parse "m\x7bx\x7da" .empty).2.toList = [[121], [120]] := by
    rw [parse, htext]
    cbv
  obtain ⟨-, htoList, -, hall⟩ := registry_appends blockCompiler "m\x7bx\x7da" startedRegistry
  cases hcompile : blockCompiler.compileWith "m\x7bx\x7da" startedRegistry with
  | error e => simp [hcompile, Except.toOption] at hfires
  | ok compiled =>
    obtain ⟨automaton, notes⟩ := compiled
    obtain ⟨hregistry, htransitions⟩ := hall automaton notes hcompile
    rw [hcompile] at hfires
    obtain ⟨i, hi, hany⟩ := Array.any_eq_true.mp hfires
    obtain ⟨⟨b, tr⟩, hmem, hentry⟩ := List.any_eq_true.mp hany
    obtain ⟨hb, hactions⟩ := Bool.and_eq_true_iff.mp hentry
    obtain rfl : b = 97 := eq_of_beq hb
    refine ⟨automaton, notes, rfl, ?_, _, Array.getElem_mem hi, tr, hmem, eq_of_beq hactions,
      htransitions _ (Array.getElem_mem hi) 97 tr hmem⟩
    rw [hregistry, htoList, halone]
    rfl

end Compiler

end ActionRegex
