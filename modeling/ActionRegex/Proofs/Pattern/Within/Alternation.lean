import ActionRegex.Proofs.Pattern.Within.Postfix

/-!
# Alternations of patterns

Patterns in parentheses with bars between them are put out one after the other, and the alternations
wait behind them (`Alternation`). If every part computes a tree, the whole computes a tree whose
language is the union of theirs (`Joined.computes`).

A pattern of nothing but parentheses computes nothing. Alone it stands for the empty text, but as a
part of an alternation it is an operand that is missing (`Joined.unionOf`).
-/

namespace ActionRegex.Pattern

variable {l joined code : List Token} {parts : List (List Token × Tree)} {part : List Token × Tree}

/-! ## Postfix order -/

/-- Parts in postfix order, each but the first with the alternation that follows it. A part comes
with its tree. -/
inductive Joined : List (List Token × Tree) → List Token → Prop
  | one (part : List Token × Tree) : Joined [part] part.1
  | snoc {parts : List (List Token × Tree)} {part : List Token × Tree} {joined : List Token}
    {bar : Token} (h : Joined parts joined) (hbar : bar.kind = .alternation) :
    Joined (parts ++ [part]) (joined ++ (part.1 ++ [bar]))

/-- The tokens of parts with alternations between them: what is put out, and what still waits. -/
def Alternation (parts : List (List Token × Tree)) (l : List Token) : Prop :=
  ∃ code ops, Joined parts (code ++ ops) ∧ (∀ op ∈ ops, op.kind = .alternation) ∧
    ∀ rest, reorder [] [] (l ++ rest) = reorder code.reverse ops rest

theorem Alternation.one (h : PutsOut l part.1) : Alternation [part] l := by
  refine ⟨part.1, [], ?_, by simp, fun rest => ?_⟩
  · rw [List.append_nil]
    exact .one part
  · rw [h, List.append_nil]

theorem Alternation.snoc {bar : Token} {r : List Token} (h : Alternation parts l)
    (hbar : bar.kind = .alternation) (hr : PutsOut r part.1) :
    Alternation (parts ++ [part]) (l ++ bar :: r) := by
  obtain ⟨code, ops, hjoined, hops, hrun⟩ := h
  refine ⟨code ++ ops ++ part.1, [bar], ?_, by simpa using hbar, fun rest => ?_⟩
  · rw [List.append_assoc]
    exact hjoined.snoc hbar
  · -- the alternations so far all bind before the next one
    have hpop := popOperators_append code.reverse []
      (fun op hop => show bindsFirst op.kind .alternation = true by rw [hops op hop]; rfl) (by simp)
    rw [List.append_nil] at hpop
    have hplace : placeToken code.reverse ops bar = some (ops.reverse ++ code.reverse, [bar]) := by
      rw [placeToken, hbar]
      dsimp only
      rw [hpop]
    rw [List.append_assoc, hrun, List.cons_append, reorder_cons_of_place hplace, hr]
    simp

theorem Alternation.exists_toPostfix (h : Alternation parts l) :
    ∃ joined, Joined parts joined ∧ toPostfix l = .ok joined := by
  obtain ⟨code, ops, hjoined, hops, hrun⟩ := h
  refine ⟨_, hjoined, toPostfix_eq_ok_iff.mpr ?_⟩
  have hend := hrun []
  rw [List.append_nil] at hend
  rw [hend, reorder, popAll_of_forall _ fun op hop => by rw [hops op hop]; decide,
    List.reverse_append]

theorem Joined.ne_nil (h : Joined parts joined) (hlength : 1 < parts.length) : joined ≠ [] := by
  cases h with
  | one => simp at hlength
  | snoc => simp

theorem Joined.eq_singleton (h : Joined parts joined) (hlength : ¬ 1 < parts.length) :
    ∃ part, parts = [part] ∧ joined = part.1 := by
  cases h with
  | one part => exact ⟨part, rfl, rfl⟩
  | snoc hrest =>
    cases hrest with
    | one => simp at hlength
    | snoc => simp at hlength

/-! ## Trees -/

/-- A part that computes its tree, or nothing at all, which alone is the empty text. -/
def Operand (part : List Token × Tree) : Prop :=
  Computes part.1 part.2 ∨ part.1 = [] ∧ part.2 = .empty

theorem Operand.treeOfPostfix_eq (h : Operand part) : treeOfPostfix part.1 = .ok part.2 := by
  rcases h with h | ⟨hnil, hempty⟩
  · exact h.treeOfPostfix_eq
  · rw [hnil, hempty]
    rfl

/-- Parts that compute trees compute a tree for the union of their languages. -/
theorem Joined.computes (h : Joined parts joined)
    (hparts : ∀ part ∈ parts, Computes part.1 part.2) :
    ∃ t, Computes joined t ∧ ∀ w, w ∈ t.language ↔ ∃ part ∈ parts, w ∈ part.2.language := by
  induction h with
  | one part => exact ⟨part.2, hparts part (by simp), by simp⟩
  | @snoc parts part joined bar _ hbar ih =>
    obtain ⟨t, ht, hlanguage⟩ := ih fun p hp => hparts p (List.mem_append_left _ hp)
    refine ⟨.alternate t part.2, ?_, fun w => ?_⟩
    · exact ht.binary (hparts part (by simp)) .alternate fun a b stack => by simp [applyToken, hbar]
    · show w ∈ t.language ∨ w ∈ part.2.language ↔ _
      simp [hlanguage, or_and_right, exists_or]

/-! ## A missing operand -/

theorem Computes.weight_eq {t : Tree} (h : Computes code t) : total TokenKind.weight code = 1 := by
  obtain ⟨span, hfold⟩ := h.exists_foldTokens
  have hlength := length_of_foldTokens hfold
  simpa [eq_comm] using hlength

theorem Operand.weight_le (h : Operand part) :
    total TokenKind.weight part.1 ≤ 1 ∧ (part.1 = [] → total TokenKind.weight part.1 ≤ 0) := by
  refine ⟨?_, fun hnil => by rw [hnil]; simp⟩
  rcases h with h | ⟨hnil, -⟩
  · exact h.weight_eq.le
  · rw [hnil]
    simp

/-- An alternation without one of its operands has too few operands. -/
theorem Joined.weight_le (h : Joined parts joined) (hparts : ∀ part ∈ parts, Operand part) :
    total TokenKind.weight joined ≤ 1 ∧
      ((∃ part ∈ parts, part.1 = []) → total TokenKind.weight joined ≤ 0) := by
  induction h with
  | one part => simpa using (hparts part (by simp)).weight_le
  | @snoc parts part joined bar _ hbar ih =>
    obtain ⟨hle, hmissing⟩ := ih fun p hp => hparts p (List.mem_append_left _ hp)
    obtain ⟨hpart, hnil⟩ := (hparts part (by simp)).weight_le
    have hweight : total TokenKind.weight (joined ++ (part.1 ++ [bar])) =
        total TokenKind.weight joined + (total TokenKind.weight part.1 - 1) := by
      rw [total_append, total_append, total_cons, hbar]
      rfl
    rw [hweight]
    refine ⟨by omega, ?_⟩
    rintro ⟨p, hp, hpnil⟩
    rcases List.mem_append.mp hp with hp | hp
    · have := hmissing ⟨p, hp, hpnil⟩
      omega
    · rw [List.mem_singleton.mp hp] at hpnil
      have := hnil hpnil
      omega

theorem fault_of_foldTokens {stack : List (Tree × Span)} {e : Error}
    (h : foldTokens stack l = .error e) : e.fault = .malformedExpression := by
  induction l generalizing stack with
  | nil => simp [foldTokens] at h
  | cons x l ih =>
    unfold foldTokens at h
    split at h
    · next happly =>
      unfold applyToken at happly
      split at happly
      all_goals cases happly
      obtain rfl := Except.error.inj h
      rfl
    · exact ih h

/-- Postfix order is folded into a tree or is malformed. -/
theorem fault_of_treeOfPostfix {e : Error} (h : treeOfPostfix code = .error e) :
    e.fault = .malformedExpression := by
  unfold treeOfPostfix at h
  split at h
  · next hfold =>
    obtain rfl := Except.error.inj h
    exact fault_of_foldTokens hfold
  · unfold takeTree at h
    split at h
    · simp at h
    · simp at h
    · obtain rfl := Except.error.inj h
      rfl

/-- Without one of its operands an alternation has no tree. -/
theorem Joined.malformed (h : Joined parts joined) (hparts : ∀ part ∈ parts, Operand part)
    (hlength : 1 < parts.length) (hmissing : ∃ part ∈ parts, part.1 = []) :
    ∃ e, treeOfPostfix joined = .error e ∧ e.fault = .malformedExpression := by
  cases htree : treeOfPostfix joined with
  | error e => exact ⟨e, rfl, fault_of_treeOfPostfix htree⟩
  | ok t =>
    -- one tree would need one operand more than alternations
    have hle := (h.weight_le hparts).2 hmissing
    rcases foldTokens_of_treeOfPostfix htree with ⟨span, hfold⟩ | ⟨hnil, -⟩
    · have hcount := length_of_foldTokens hfold
      simp only [List.length_cons, List.length_nil] at hcount
      omega
    · exact absurd hnil (h.ne_nil hlength)

/-! ## All parts -/

/-- What becomes of parts with alternations between them: a tree for the union of their languages,
if there is only one part or none computes nothing. -/
inductive UnionOf (parts : List (List Token × Tree)) : Except Error Tree → Prop
  | tree {t : Tree} (hparts : 1 < parts.length → ∀ part ∈ parts, part.1 ≠ [])
    (h : ∀ w, w ∈ t.language ↔ ∃ part ∈ parts, w ∈ part.2.language) : UnionOf parts (.ok t)
  | missing {e : Error} (hlength : 1 < parts.length) (hmissing : ∃ part ∈ parts, part.1 = [])
    (h : e.fault = .malformedExpression) : UnionOf parts (.error e)

/-- **An alternation of parts.** -/
theorem Joined.unionOf (h : Joined parts joined) (hparts : ∀ part ∈ parts, Operand part) :
    UnionOf parts (treeOfPostfix joined) := by
  by_cases hlength : 1 < parts.length
  · by_cases hmissing : ∃ part ∈ parts, part.1 = []
    · obtain ⟨e, herror, hfault⟩ := h.malformed hparts hlength hmissing
      rw [herror]
      exact .missing hlength hmissing hfault
    · have hcomputes : ∀ part ∈ parts, Computes part.1 part.2 := fun part hpart =>
        (hparts part hpart).resolve_right fun hnil => hmissing ⟨part, hpart, hnil.1⟩
      obtain ⟨t, ht, hlanguage⟩ := h.computes hcomputes
      rw [ht.treeOfPostfix_eq]
      exact .tree (fun _ part hpart hnil => hmissing ⟨part, hpart, hnil⟩) hlanguage
  · obtain ⟨part, rfl, rfl⟩ := h.eq_singleton hlength
    rw [(hparts part (by simp)).treeOfPostfix_eq]
    exact .tree (fun hlt => absurd hlt hlength) (by simp)

end ActionRegex.Pattern
