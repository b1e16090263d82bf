import ActionRegex.Proofs.Pattern.Within.Alternation
import ActionRegex.Proofs.Pattern.Within.Expansion

/-!
# Faults of tokens

An item that can't be added to a stream is a repetition, and its own span is marked
(`of_addItem_error`). Tokens without a tree have parentheses that do not come in pairs, or else a
missing operand (`fault_of_treeOfStream`); what is marked is a token (`span_of_treeOfStream`).
-/

namespace ActionRegex.Pattern

/-! ## Items -/

/-- The faults of a repetition that can't be written out. -/
def Fault.isRepetition : Fault → Bool
  | .invalidRepetition | .tooManyRepetitions | .nothingToRepeat | .patternTooLarge => true
  | _ => false

theorem Stream.of_repeatTerm_error {s : Stream} {min : Nat} {max : Option Nat} {span : Span}
    {e : Error} (h : s.repeatTerm min max span = .error e) :
    e.span = span ∧ e.fault.isRepetition = true := by
  unfold repeatTerm at h
  split at h
  · obtain rfl := Except.error.inj h
    exact ⟨rfl, rfl⟩
  · split at h
    · obtain rfl := Except.error.inj h
      exact ⟨rfl, rfl⟩
    · split at h
      · obtain rfl := Except.error.inj h
        exact ⟨rfl, rfl⟩
      · split at h
        · simp at h
        · simp at h
        · simp at h
        · unfold writeOut at h
          split at h
          · obtain rfl := Except.error.inj h
            exact ⟨rfl, rfl⟩
          · simp at h

theorem of_addItem_error {s : Stream} {item : Item} {span : Span} {e : Error}
    (h : addItem s span item = .error e) : e.span = span ∧ e.fault.isRepetition = true := by
  cases item with
  | repetition min max => exact Stream.of_repeatTerm_error h
  | _ => exact nomatch h

/-! ## Reordering -/

variable {output waiting rest result : List Token} {e : Error}

theorem openings_eq_zero_of_closeGroup (h : closeGroup output waiting = none) :
    openings waiting = 0 := by
  induction waiting generalizing output with
  | nil => rfl
  | cons top waiting ih =>
    unfold closeGroup at h
    split at h
    · simp at h
    · next htop =>
      rw [openings, List.countP_cons_of_neg (by simpa using htop)]
      exact ih h

theorem of_popAll_error (h : popAll output waiting = .error e) :
    e.fault = .unbalancedParens ∧ (∃ x ∈ waiting, e.span = x.span) ∧ openings waiting ≠ 0 := by
  induction waiting generalizing output with
  | nil => simp [popAll] at h
  | cons top waiting ih =>
    unfold popAll at h
    split at h
    · next htop =>
      obtain rfl := Except.error.inj h
      refine ⟨rfl, ⟨top, List.mem_cons_self, rfl⟩, ?_⟩
      rw [openings, List.countP_cons_of_pos (by simpa using htop)]
      exact Nat.succ_ne_zero _
    · next htop =>
      obtain ⟨hfault, ⟨x, hx, hspan⟩, hopen⟩ := ih h
      refine ⟨hfault, ⟨x, List.mem_cons_of_mem _ hx, hspan⟩, ?_⟩
      rw [openings, List.countP_cons_of_neg (by simpa using htop)]
      exact hopen

/-- **Reordering fails only if the parentheses do not come in pairs**, and marks a token. -/
theorem of_reorder_error (h : reorder output waiting rest = .error e) :
    e.fault = .unbalancedParens ∧ (∃ x ∈ waiting ++ rest, e.span = x.span) ∧
      levelAfter (openings waiting) rest ≠ some 0 := by
  fun_induction reorder output waiting rest with
  | case1 output waiting =>
    obtain ⟨hfault, hmem, hopen⟩ := of_popAll_error h
    rw [List.append_nil]
    exact ⟨hfault, hmem, fun hlevel => hopen (Option.some.inj hlevel)⟩
  | case2 output waiting x rest s hx ih | case3 output waiting x rest hx ih
  | case4 output waiting x rest hx ih =>
    obtain ⟨hfault, ⟨y, hy, hspan⟩, hlevel⟩ := ih h
    refine ⟨hfault, ⟨y, ?_, hspan⟩, ?_⟩
    · simp only [List.mem_append, List.mem_cons] at hy ⊢
      exact hy.imp id .inr
    · simpa [levelAfter, stepLevel, hx] using hlevel
  | case5 output waiting x rest hx ih =>
    obtain ⟨hfault, ⟨y, hy, hspan⟩, hlevel⟩ := ih h
    refine ⟨hfault, ⟨y, ?_, hspan⟩, ?_⟩
    · simp only [List.mem_append, List.mem_cons] at hy ⊢
      tauto
    · simpa [levelAfter, stepLevel, hx, openings] using hlevel
  | case6 output waiting x rest hx hclose =>
    obtain rfl := Except.error.inj h
    refine ⟨rfl, ⟨x, by simp, rfl⟩, ?_⟩
    simp [openings_eq_zero_of_closeGroup hclose, levelAfter, stepLevel, hx]
  | case7 output waiting x rest hx output' waiting' hclose ih =>
    obtain ⟨ops, top, rfl, rfl, htop, hops⟩ := exists_of_closeGroup hclose
    obtain ⟨hfault, ⟨y, hy, hspan⟩, hlevel⟩ := ih h
    refine ⟨hfault, ⟨y, ?_, hspan⟩, ?_⟩
    · simp only [List.mem_append, List.mem_cons] at hy ⊢
      tauto
    · rw [openings_append_of_forall hops]
      simpa [levelAfter, stepLevel, hx, htop, openings] using hlevel
  | case8 output waiting x rest hx output' waiting' hpop ih
  | case9 output waiting x rest hx output' waiting' hpop ih =>
    obtain ⟨ops, rfl, rfl, hops, -⟩ := exists_of_popOperators hpop
    obtain ⟨hfault, ⟨y, hy, hspan⟩, hlevel⟩ := ih h
    refine ⟨hfault, ⟨y, ?_, hspan⟩, ?_⟩
    · simp only [List.mem_append, List.mem_cons] at hy ⊢
      tauto
    · rw [openings_append_of_forall fun op hop => ne_opening_of_bindsFirst (hops op hop)]
      simpa [levelAfter, stepLevel, hx, openings] using hlevel

/-- Reordering adds no tokens. -/
theorem mem_of_reorder (h : reorder output waiting rest = .ok result) :
    ∀ x ∈ result, x ∈ output ++ waiting ++ rest := by
  fun_induction reorder output waiting rest with
  | case1 output waiting =>
    obtain ⟨rfl, -⟩ := of_popAll h
    intro x hx
    simp only [List.mem_append, List.mem_reverse] at hx ⊢
    tauto
  | case2 output waiting x rest s hx ih | case3 output waiting x rest hx ih
  | case4 output waiting x rest hx ih | case5 output waiting x rest hx ih =>
    intro y hy
    have hmem := ih h y hy
    simp only [List.mem_append, List.mem_cons] at hmem ⊢
    tauto
  | case6 => simp at h
  | case7 output waiting x rest hx output' waiting' hclose ih =>
    obtain ⟨ops, top, rfl, rfl, -, -⟩ := exists_of_closeGroup hclose
    intro y hy
    have hmem := ih h y hy
    simp only [List.mem_append, List.mem_cons, List.mem_reverse] at hmem ⊢
    tauto
  | case8 output waiting x rest hx output' waiting' hpop ih
  | case9 output waiting x rest hx output' waiting' hpop ih =>
    obtain ⟨ops, rfl, rfl, -, -⟩ := exists_of_popOperators hpop
    intro y hy
    have hmem := ih h y hy
    simp only [List.mem_append, List.mem_cons, List.mem_reverse] at hmem ⊢
    tauto

/-! ## Folding -/

/-- A tree that is put on the stack has the span of the token that put it there. -/
theorem span_of_applyToken {x : Token} {stack stack' : List (Tree × Span)}
    (h : applyToken x stack = .ok stack') :
    ∀ entry ∈ stack', entry.2 = x.span ∨ entry ∈ stack := by
  unfold applyToken at h
  split at h
  all_goals
    cases h
  all_goals
    intro entry hentry
    rcases List.mem_cons.mp hentry with rfl | hentry
  all_goals first
    | exact .inl rfl
    | exact .inr (by simp [hentry])

theorem span_of_foldTokens {tokens : List Token} {stack stack' : List (Tree × Span)}
    (h : foldTokens stack tokens = .ok stack') :
    ∀ entry ∈ stack', (∃ x ∈ tokens, entry.2 = x.span) ∨ entry ∈ stack := by
  induction tokens generalizing stack with
  | nil =>
    obtain rfl := Except.ok.inj h
    exact fun entry hentry => .inr hentry
  | cons x tokens ih =>
    unfold foldTokens at h
    split at h
    · simp at h
    · next stack'' happly =>
      intro entry hentry
      rcases ih h entry hentry with ⟨y, hy, hspan⟩ | hmem
      · exact .inl ⟨y, List.mem_cons_of_mem _ hy, hspan⟩
      · rcases span_of_applyToken happly entry hmem with hspan | hmem
        · exact .inl ⟨x, List.mem_cons_self, hspan⟩
        · exact .inr hmem

theorem span_of_foldTokens_error {tokens : List Token} {stack : List (Tree × Span)}
    (h : foldTokens stack tokens = .error e) : ∃ x ∈ tokens, e.span = x.span := by
  induction tokens generalizing stack with
  | nil => simp [foldTokens] at h
  | cons x tokens ih =>
    unfold foldTokens at h
    split at h
    · next happly =>
      unfold applyToken at happly
      split at happly
      all_goals cases happly
      obtain rfl := Except.error.inj h
      exact ⟨x, List.mem_cons_self, rfl⟩
    · obtain ⟨y, hy, hspan⟩ := ih h
      exact ⟨y, List.mem_cons_of_mem _ hy, hspan⟩

theorem span_of_treeOfPostfix {code : List Token} (h : treeOfPostfix code = .error e) :
    ∃ x ∈ code, e.span = x.span := by
  unfold treeOfPostfix at h
  split at h
  · next hfold =>
    obtain rfl := Except.error.inj h
    exact span_of_foldTokens_error hfold
  · next stack hfold =>
    unfold takeTree at h
    split at h
    · simp at h
    · simp at h
    · next below second span above hstack =>
      obtain rfl := Except.error.inj h
      have hmem : (second, span) ∈ stack := by
        rw [← List.mem_reverse, hstack]
        simp
      rcases span_of_foldTokens hfold _ hmem with hspan | hmem
      · exact hspan
      · exact absurd hmem List.not_mem_nil

/-! ## Trees -/

/-- **What keeps tokens from having a tree**: parentheses without a pair, or a missing operand. -/
theorem fault_of_treeOfStream {s : Stream} (h : treeOfStream s = .error e) :
    e.fault = if openAfter s.tokens = some 0 then .malformedExpression else .unbalancedParens := by
  unfold treeOfStream at h
  split at h
  · next hpostfix =>
    rw [Except.error.inj h] at hpostfix
    unfold toPostfix at hpostfix
    cases hreorder : reorder [] [] s.tokens.reverse with
    | ok result => simp [hreorder, Except.map] at hpostfix
    | error e' =>
      obtain rfl : e' = e := by simpa [hreorder, Except.map] using hpostfix
      obtain ⟨hfault, -, hlevel⟩ := of_reorder_error hreorder
      exact hfault.trans (if_neg hlevel).symm
  · next code hpostfix =>
    have hlevel : openAfter s.tokens = some 0 :=
      levelAfter_of_reorder (toPostfix_eq_ok_iff.mp hpostfix)
    rw [fault_of_treeOfPostfix h, if_pos hlevel]

/-- **What is marked in tokens without a tree is a token.** -/
theorem span_of_treeOfStream {s : Stream} (h : treeOfStream s = .error e) :
    ∃ x ∈ s.tokens, e.span = x.span := by
  unfold treeOfStream at h
  split at h
  · next hpostfix =>
    rw [Except.error.inj h] at hpostfix
    unfold toPostfix at hpostfix
    cases hreorder : reorder [] [] s.tokens.reverse with
    | ok result => simp [hreorder, Except.map] at hpostfix
    | error e' =>
      obtain rfl : e' = e := by simpa [hreorder, Except.map] using hpostfix
      obtain ⟨-, ⟨x, hx, hspan⟩, -⟩ := of_reorder_error hreorder
      exact ⟨x, by simpa using hx, hspan⟩
  · next code hpostfix =>
    obtain ⟨x, hx, hspan⟩ := span_of_treeOfPostfix h
    have hmem := mem_of_reorder (toPostfix_eq_ok_iff.mp hpostfix) x (by simpa using hx)
    exact ⟨x, by simpa using hmem, hspan⟩

/-- **A pattern is refused** because it can't be expanded, or because its tokens have no tree. -/
theorem tokenize_or_of_parse_error {macros : Macros} {pattern : Bytes} {registry last : Registry}
    (h : parse macros pattern registry = (.error e, last)) :
    tokenize macros pattern registry = (.error e, last) ∨
      ∃ s, tokenize macros pattern registry = (.ok s, last) ∧ treeOfStream s = .error e := by
  unfold parse at h
  split at h
  · next e' last' htokenize =>
    obtain ⟨herror, rfl⟩ := Prod.mk.inj h
    rw [Except.error.inj herror] at htokenize
    exact .inl htokenize
  · next s last' htokenize =>
    obtain ⟨htree, rfl⟩ := Prod.mk.inj h
    exact .inr ⟨s, htokenize, htree⟩

end ActionRegex.Pattern
