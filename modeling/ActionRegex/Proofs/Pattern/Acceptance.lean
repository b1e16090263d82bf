import ActionRegex.Proofs.Pattern.TokenFaults

/-!
# Patterns are parsed by their grammar

Only a repetition is refused for its bounds or its size: one of its bounds is too large, they are in
the wrong order, or the copies of its term do not fit behind the tokens before it (`Refuses`,
`refused_of_addAll`). So a pattern whose items are a sentence has the tree of that sentence unless
one of its repetitions is refused, and a pattern whose items are no sentence has no tree
(`parse_by_grammar`).
-/

namespace ActionRegex.Pattern

/-! ## Refused repetitions -/

/-- Why a repetition is refused behind the tokens of a stream. -/
inductive Stream.Refuses (s : Stream) (min : Nat) (max : Option Nat) : Fault → Prop
  /-- The bounds are in the wrong order. -/
  | backward {m : Nat} (hmax : max = some m) (hlt : m < min) : s.Refuses min max .invalidRepetition
  /-- A bound is too large. -/
  | many (hlarge : 1000 < min ∨ ∃ m, max = some m ∧ 1000 < m) :
    s.Refuses min max .tooManyRepetitions
  /-- The copies of the last term do not fit. -/
  | large {n : Nat} (hlength : termLength s.tokens = some n)
    (hexceeds : 2 ^ 20 < s.size + n * copies min max) : s.Refuses min max .patternTooLarge

/-- A repetition among items is refused with an error: it is the first item that can't be added. -/
def Refused (l : List Lexeme) (e : Error) : Prop :=
  ∃ before x after min max s, l = before ++ x :: after ∧ x.item = .repetition min max ∧
    x.span = e.span ∧ Stream.empty.addAll before = .ok s ∧ s.Refuses min max e.fault

namespace Stream

variable {s : Stream} {min : Nat} {max : Option Nat} {span : Span} {x : Lexeme} {l : List Lexeme}
  {e : Error}

theorem exists_of_any {p : Nat → Bool} (h : max.any p = true) : ∃ m, max = some m ∧ p m = true := by
  cases max with
  | none => exact nomatch h
  | some m => exact ⟨m, rfl, h⟩

theorem refuses_of_repeatTerm (h : s.repeatTerm min max span = .error e)
    (hfault : e.fault.refusesRepetition = true) : s.Refuses min max e.fault := by
  unfold repeatTerm at h
  split at h
  · next hlt =>
    obtain rfl := Except.error.inj h
    obtain ⟨m, hmax, hm⟩ := exists_of_any hlt
    exact .backward hmax (by simpa using hm)
  · split at h
    · next hmany =>
      obtain rfl := Except.error.inj h
      refine .many ?_
      rcases (Bool.or_eq_true _ _).mp hmany with hmin | hany
      · exact .inl (by simpa [maxRepetition] using hmin)
      · obtain ⟨m, hmax, hm⟩ := exists_of_any hany
        exact .inr ⟨m, hmax, by simpa [maxRepetition] using hm⟩
    · split at h
      · obtain rfl := Except.error.inj h
        exact absurd hfault (by simp [Fault.refusesRepetition])
      · next n hlength =>
        split at h
        · simp at h
        · simp at h
        · simp at h
        · unfold writeOut at h
          split at h
          · next hexceeds =>
            obtain rfl := Except.error.inj h
            refine .large hlength ?_
            simp only [maxTokens] at hexceeds
            omega
          · simp at h

/-- Of the items only a repetition is refused. -/
theorem exists_repetition_of_add (h : s.add x = .error e)
    (hfault : e.fault.refusesRepetition = true) :
    ∃ min max, x.item = .repetition min max ∧ s.repeatTerm min max x.span = .error e := by
  unfold add at h
  split at h
  · simp at h
  · split at h
    · simp at h
    · obtain rfl := Except.error.inj h
      exact absurd hfault (by simp [Fault.refusesRepetition])
  · next hitem =>
    cases hx : x.item with
    | repetition min max => exact ⟨min, max, rfl, by rwa [hx] at h⟩
    | _ => simp [hx, addItem] at h

/-- Where items can't be added there is a first one that can't. -/
theorem exists_of_addAll_error (h : s.addAll l = .error e) :
    ∃ before x after s', l = before ++ x :: after ∧ s.addAll before = .ok s' ∧
      s'.add x = .error e := by
  induction l generalizing s with
  | nil => exact nomatch h
  | cons x l ih =>
    cases hadd : s.add x with
    | error e' =>
      rw [addAll, hadd] at h
      obtain rfl := Except.error.inj h
      exact ⟨[], x, l, s, rfl, rfl, hadd⟩
    | ok s₁ =>
      rw [addAll_cons_of_ok hadd] at h
      obtain ⟨before, y, after, s', rfl, hbefore, hy⟩ := ih h
      exact ⟨x :: before, y, after, s', rfl, by rw [addAll_cons_of_ok hadd, hbefore], hy⟩

/-- **Only a repetition is refused for its bounds or its size.** -/
theorem refused_of_addAll (h : Stream.empty.addAll l = .error e)
    (hfault : e.fault.refusesRepetition = true) : Refused l e := by
  obtain ⟨before, x, after, s, hl, hbefore, hadd⟩ := exists_of_addAll_error h
  obtain ⟨min, max, hx, hrepeat⟩ := exists_repetition_of_add hadd hfault
  exact ⟨before, x, after, min, max, s, hl, hx, (of_repeatTerm_error hrepeat).1.symm, hbefore,
    refuses_of_repeatTerm hrepeat hfault⟩

theorem not_refuses_of_treeOfStream (h : treeOfStream s = .error e) :
    e.fault.refusesRepetition = false := by
  rw [fault_of_treeOfStream h]
  split <;> rfl

end Stream

/-! ## Accepted patterns -/

section Accepted

variable {macros : Macros} {pattern : Bytes} {registry : Registry}

/-- A pattern without macros whose items can be read is refused for its bounds or its size only at a
repetition. -/
theorem refused_of_parse
    (hmacros : ∀ name span, (.name name, span) ∈ (lex pattern).items → macros.body? name = none)
    {e : Error} (h : (parse macros pattern registry).1 = .error e)
    (hlex : (lex pattern).error = none) (hfault : e.fault.refusesRepetition = true) :
    Refused (patternLexemes pattern registry) e := by
  rw [parse_eq_addAll hmacros registry, ← patternLexemes, hlex] at h
  cases hadd : Stream.empty.addAll (patternLexemes pattern registry) with
  | error e' =>
    rw [hadd] at h
    obtain rfl := Except.error.inj h
    exact Stream.refused_of_addAll hadd hfault
  | ok s =>
    rw [hadd] at h
    have htree : treeOfStream s = .error e := h
    rw [Stream.not_refuses_of_treeOfStream htree] at hfault
    exact absurd hfault Bool.false_ne_true

/-- A pattern with a tree is a sentence with that tree and no other. -/
theorem sentence_of_parse
    (hmacros : ∀ name span, (.name name, span) ∈ (lex pattern).items → macros.body? name = none)
    (hplain : ∀ x ∈ patternLexemes pattern registry, x.Plain) {t : Tree}
    (h : (parse macros pattern registry).1 = .ok t) :
    (lex pattern).error = none ∧ Sentence (patternLexemes pattern registry) t ∧
      ∀ u, Sentence (patternLexemes pattern registry) u → u = t := by
  rw [parse_eq_addAll hmacros registry, ← patternLexemes] at h
  cases hadd : Stream.empty.addAll (patternLexemes pattern registry) with
  | error e =>
    rw [hadd] at h
    exact nomatch h
  | ok s =>
    rw [hadd] at h
    cases hlex : (lex pattern).error with
    | some e =>
      rw [hlex] at h
      exact nomatch h
    | none =>
      rw [hlex] at h
      have htree : treeOfStream s = .ok t := h
      -- a sentence has the tree of the stream
      have hunique : ∀ u, Sentence (patternLexemes pattern registry) u → u = t := by
        intro u hu
        rcases hu.treeOfStream_eq (fun x hx => (hplain x hx).hasMember) with
          ⟨e, he, -⟩ | ⟨s', hs', hu'⟩
        · exact nomatch hadd.symm.trans he
        · obtain rfl := Except.ok.inj (hadd.symm.trans hs')
          exact Except.ok.inj (hu'.symm.trans htree)
      obtain ⟨u, hu⟩ := exists_sentence_of_treeOfStream hplain hadd htree
      obtain rfl := hunique u hu
      exact ⟨rfl, hu, hunique⟩

/-- A sentence has its tree, or one of its repetitions is refused. -/
theorem parse_of_sentence
    (hmacros : ∀ name span, (.name name, span) ∈ (lex pattern).items → macros.body? name = none)
    (hplain : ∀ x ∈ patternLexemes pattern registry, x.Plain)
    (hlex : (lex pattern).error = none) {t : Tree}
    (h : Sentence (patternLexemes pattern registry) t) :
    (parse macros pattern registry).1 = .ok t ∨
      ∃ e, (parse macros pattern registry).1 = .error e ∧ e.fault.refusesRepetition = true ∧
        Refused (patternLexemes pattern registry) e := by
  rw [parse_eq_addAll hmacros registry, ← patternLexemes, hlex]
  rcases h.treeOfStream_eq (fun x hx => (hplain x hx).hasMember) with
    ⟨e, he, hfault⟩ | ⟨s, hs, htree⟩
  · refine .inr ⟨e, ?_, hfault, Stream.refused_of_addAll he hfault⟩
    rw [he]
    rfl
  · refine .inl ?_
    rw [hs]
    exact htree

/-- **Patterns are parsed by their grammar.** A pattern without macros, and without a repetition
whose upper bound is zero, has a tree only if its items are a sentence, and then the tree is the one
and only tree of that sentence. If the items of a pattern can be read and are a sentence, it has the
tree of that sentence or one of its repetitions is refused. If the pattern is refused although all
of its items can be read and none of its repetitions is refused, the items are not a sentence; and
it is a repetition that is refused where the fault is one of bounds or size. -/
theorem parse_by_grammar
    (hmacros : ∀ name span, (.name name, span) ∈ (lex pattern).items → macros.body? name = none)
    (hzero : ∀ min span, (.repetition min (some 0), span) ∉ (lex pattern).items) :
    (∀ t, (parse macros pattern registry).1 = .ok t →
      (lex pattern).error = none ∧ Sentence (patternLexemes pattern registry) t ∧
        ∀ u, Sentence (patternLexemes pattern registry) u → u = t) ∧
    (∀ t, Sentence (patternLexemes pattern registry) t → (lex pattern).error = none →
      (parse macros pattern registry).1 = .ok t ∨
        ∃ e, (parse macros pattern registry).1 = .error e ∧ e.fault.refusesRepetition = true ∧
          Refused (patternLexemes pattern registry) e) ∧
    ∀ e, (parse macros pattern registry).1 = .error e → (lex pattern).error = none →
      (e.fault.refusesRepetition = false → ∀ t, ¬ Sentence (patternLexemes pattern registry) t) ∧
      (e.fault.refusesRepetition = true → Refused (patternLexemes pattern registry) e) := by
  have hplain : ∀ x ∈ patternLexemes pattern registry, x.Plain := fun x hx =>
    plain_of_mem_patternLexemes hzero hx
  refine ⟨fun t => sentence_of_parse hmacros hplain,
    fun t ht hlex => parse_of_sentence hmacros hplain hlex ht, fun e he hlex => ⟨?_, ?_⟩⟩
  · intro hfault t ht
    rcases parse_of_sentence hmacros hplain hlex ht with hok | ⟨e', he', hrefuses, -⟩
    · exact nomatch he.symm.trans hok
    · obtain rfl := Except.error.inj (he.symm.trans he')
      rw [hfault] at hrefuses
      exact absurd hrefuses Bool.false_ne_true
  · exact refused_of_parse hmacros he hlex

end Accepted

/-- `(a|b)\x7b2\x7d\x7bx\x7d`: a group written twice, and an action block. -/
def pairPattern : Bytes := [40, 97, 124, 98, 41, 123, 50, 125, 123, 120, 125]

/-- The tree of `pairPattern`. -/
def pairTree : Tree :=
  let choice : Tree := .alternate (.byte 97) (.byte 98)
  .concat (.concat choice choice) (.action 0)

/-- `(a|)b`: there is nothing behind the bar, but the tokens have as many operands as operators. -/
def strayPattern : Bytes := [40, 97, 124, 41, 98]

/-- `a\x7b3,2\x7d` -/
def backwardPattern : Bytes := [97, 123, 51, 44, 50, 125]

theorem lex_pairPattern : lex pairPattern =
    ⟨[(.opening, ⟨0, 1⟩), (.name [97], ⟨1, 2⟩), (.bar, ⟨2, 3⟩), (.name [98], ⟨3, 4⟩),
      (.closing, ⟨4, 5⟩), (.repetition 2 (some 2), ⟨5, 8⟩), (.action [120], ⟨8, 11⟩)], none⟩ :=
  Lexed.lex_eq <| .item rfl <| .item rfl <| .item rfl <| .item rfl <| .item rfl <| .item rfl <|
    .item rfl <| .ended _

theorem lex_strayPattern : lex strayPattern =
    ⟨[(.opening, ⟨0, 1⟩), (.name [97], ⟨1, 2⟩), (.bar, ⟨2, 3⟩), (.closing, ⟨3, 4⟩),
      (.name [98], ⟨4, 5⟩)], none⟩ :=
  Lexed.lex_eq <| .item rfl <| .item rfl <| .item rfl <| .item rfl <| .item rfl <| .ended _

theorem lex_backwardPattern : lex backwardPattern =
    ⟨[(.name [97], ⟨0, 1⟩), (.repetition 3 (some 2), ⟨1, 6⟩)], none⟩ :=
  Lexed.lex_eq <| .item rfl <| .item rfl <| .ended _

/-- One of the patterns is a sentence with its tree, one is not a sentence, and in one the
repetition is refused. -/
theorem sentence_pairPattern :
    (∀ pattern name span, (.name name, span) ∈ (lex pattern).items →
      Macros.body? name [] = none) ∧
    (∀ pattern ∈ [pairPattern, strayPattern, backwardPattern], (lex pattern).error = none ∧
      ∀ min span, (.repetition min (some 0), span) ∉ (lex pattern).items) ∧
    ((parse [] pairPattern .empty).1 = .ok pairTree ∧
      Sentence (patternLexemes pairPattern .empty) pairTree) ∧
    ((parse [] strayPattern .empty).1 = .error ⟨.malformedExpression, ⟨2, 3⟩⟩ ∧
      ∀ t, ¬ Sentence (patternLexemes strayPattern .empty) t) ∧
    ((parse [] backwardPattern .empty).1 = .error ⟨.invalidRepetition, ⟨1, 6⟩⟩ ∧
      Refused (patternLexemes backwardPattern .empty) ⟨.invalidRepetition, ⟨1, 6⟩⟩) := by
  have hmacros : ∀ pattern name span, (.name name, span) ∈ (lex pattern).items →
      Macros.body? name [] = none := fun _ _ _ _ => rfl
  have hpair : ∀ min span, (.repetition min (some 0), span) ∉ (lex pairPattern).items := by
    simp [lex_pairPattern]
  have hstray : ∀ min span, (.repetition min (some 0), span) ∉ (lex strayPattern).items := by
    simp [lex_strayPattern]
  have hbackward : ∀ min span, (.repetition min (some 0), span) ∉ (lex backwardPattern).items := by
    simp [lex_backwardPattern]
  have htree : (parse [] pairPattern .empty).1 = .ok pairTree := by
    rw [parse, tokenize, lex_pairPattern]
    cbv
  have herror : (parse [] strayPattern .empty).1 = .error ⟨.malformedExpression, ⟨2, 3⟩⟩ := by
    rw [parse, tokenize, lex_strayPattern]
    cbv
  have hrefused : (parse [] backwardPattern .empty).1 = .error ⟨.invalidRepetition, ⟨1, 6⟩⟩ := by
    rw [parse, tokenize, lex_backwardPattern]
    cbv
  have hread : ∀ pattern ∈ [pairPattern, strayPattern, backwardPattern],
      (lex pattern).error = none ∧
        ∀ min span, (.repetition min (some 0), span) ∉ (lex pattern).items := by
    simp only [List.forall_mem_cons]
    exact ⟨⟨by rw [lex_pairPattern], hpair⟩, ⟨by rw [lex_strayPattern], hstray⟩,
      ⟨by rw [lex_backwardPattern], hbackward⟩, List.forall_mem_nil _⟩
  exact ⟨hmacros, hread, ⟨htree, ((parse_by_grammar (hmacros _) hpair).1 _ htree).2.1⟩,
    ⟨herror, ((parse_by_grammar (hmacros _) hstray).2.2 _ herror (by rw [lex_strayPattern])).1 rfl⟩,
    ⟨hrefused, ((parse_by_grammar (hmacros _) hbackward).2.2 _ hrefused
      (by rw [lex_backwardPattern])).2 rfl⟩⟩

end ActionRegex.Pattern
