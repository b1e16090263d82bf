import ActionRegex.Proofs.Pattern.Within.Streams
import ActionRegex.Proofs.Words

/-!
# Postfix order inside a longer pattern

The tokens of a pattern in parentheses are brought into the postfix order that they have alone,
whatever was put out before and waits before (`putsOut_group`), and are folded into the same tree on
top of the trees before them (`computes_move`). Only the spans and the indexes of the actions
change.
-/

namespace ActionRegex.Pattern

variable {k before : Nat} {x y : Token} {l out wait code : List Token}

/-! ## Moved trees -/

/-- A tree with the indexes of its actions counted from `k` on. -/
def Tree.shift (k : Nat) : Tree → Tree
  | .symbol (.action index) => .symbol (.action (k + index))
  | .symbol (.byte b) => .symbol (.byte b)
  | .empty => .empty
  | .concat l r => .concat (l.shift k) (r.shift k)
  | .alternate l r => .alternate (l.shift k) (r.shift k)
  | .closure t => .closure (t.shift k)

/-- Actions are empty text, whatever their indexes. -/
theorem Tree.language_shift (k : Nat) (t : Tree) : (t.shift k).language = t.language := by
  induction t with
  | symbol s => cases s <;> rfl
  | empty => rfl
  | concat l r ihl ihr | alternate l r ihl ihr => simp only [shift, language, ihl, ihr]
  | closure t ih => simp only [shift, language, ih]

/-! ## One token -/

/-- The output and the waiting tokens after one more token. -/
def placeToken (out wait : List Token) (x : Token) : Option (List Token × List Token) :=
  match x.kind with
  | .symbol _ | .empty | .closure => some (x :: out, wait)
  | .opening => some (out, x :: wait)
  | .closing => closeGroup out wait
  | .alternation | .concatenation =>
    some ((popOperators x.kind out wait).1, x :: (popOperators x.kind out wait).2)

theorem reorder_cons (out wait : List Token) (x : Token) (rest : List Token) :
    reorder out wait (x :: rest) =
      match placeToken out wait x with
      | none => .error ⟨.unbalancedParens, x.span⟩
      | some (out', wait') => reorder out' wait' rest := by
  rw [reorder, placeToken]
  cases hx : x.kind with
  | closing =>
    cases hclose : closeGroup out wait with
    | none => rfl
    | some result => rfl
  | _ => rfl

theorem reorder_cons_of_place {out' wait' : List Token}
    (h : placeToken out wait x = some (out', wait')) (rest : List Token) :
    reorder out wait (x :: rest) = reorder out' wait' rest := by
  rw [reorder_cons, h]

theorem bindsFirst_shift (k : Nat) (waiting read : TokenKind) :
    bindsFirst (waiting.shift k) (read.shift k) = bindsFirst waiting read := by
  rcases waiting with ((_ | _) | _) <;> rcases read with ((_ | _) | _) <;> rfl

theorem popOperators_within {out' wait' under : List Token} {kind : TokenKind}
    (h : popOperators kind out wait = (out', wait')) (hunder : Opened under)
    (k before : Nat) (base : List Token) :
    popOperators (kind.shift k) (out.map (Token.move k before) ++ base)
        (wait.map (Token.move k before) ++ under) =
      (out'.map (Token.move k before) ++ base, wait'.map (Token.move k before) ++ under) := by
  obtain ⟨ops, rfl, rfl, hops, hstops⟩ := exists_of_popOperators h
  rw [List.map_append, List.append_assoc, popOperators_append]
  · simp
  · intro op hop
    obtain ⟨op, hmem, rfl⟩ := List.mem_map.mp hop
    exact (bindsFirst_shift k op.kind kind).trans (hops op hmem)
  · intro top htop
    cases wait' with
    | nil =>
      rw [hunder top htop]
      rfl
    | cons first wait' =>
      obtain rfl := Option.some.inj htop
      exact (bindsFirst_shift k first.kind kind).trans (hstops first rfl)

theorem forall_ne_opening_move {ops : List Token} (h : ∀ op ∈ ops, op.kind ≠ .opening)
    (k before : Nat) : ∀ op ∈ ops.map (Token.move k before), op.kind ≠ .opening := by
  intro op hop
  obtain ⟨op, hmem, rfl⟩ := List.mem_map.mp hop
  exact fun hopening => h op hmem ((op.kind.shift_eq_iff k (by simp)).mp hopening)

theorem closeGroup_within {out' wait' : List Token} (h : closeGroup out wait = some (out', wait'))
    (k before : Nat) (base under : List Token) :
    closeGroup (out.map (Token.move k before) ++ base) (wait.map (Token.move k before) ++ under) =
      some (out'.map (Token.move k before) ++ base, wait'.map (Token.move k before) ++ under) := by
  obtain ⟨ops, top, rfl, rfl, htop, hops⟩ := exists_of_closeGroup h
  rw [List.map_append, List.map_cons, List.append_assoc, List.cons_append,
    closeGroup_append _ _ (forall_ne_opening_move hops k before)
      ((top.kind.shift_eq_iff k (by simp)).mpr htop)]
  simp

/-- **A token is placed in the same way inside a longer pattern.** -/
theorem placeToken_within {out' wait' under : List Token}
    (h : placeToken out wait x = some (out', wait')) (hunder : Opened under) (k before : Nat)
    (base : List Token) :
    placeToken (out.map (Token.move k before) ++ base) (wait.map (Token.move k before) ++ under)
        (x.move k before) =
      some (out'.map (Token.move k before) ++ base, wait'.map (Token.move k before) ++ under) := by
  obtain ⟨kind, span⟩ := x
  cases kind with
  | symbol s =>
    obtain ⟨rfl, rfl⟩ := Prod.mk.inj (Option.some.inj h)
    cases s <;> rfl
  | empty | closure | opening =>
    obtain ⟨rfl, rfl⟩ := Prod.mk.inj (Option.some.inj h)
    rfl
  | closing => exact closeGroup_within h k before base under
  | alternation =>
    obtain ⟨rfl, rfl⟩ := Prod.mk.inj (Option.some.inj h)
    have hpop := popOperators_within (show popOperators .alternation out wait = (_, _) from rfl)
      hunder k before base
    exact congrArg (fun result => some (result.1, _ :: result.2)) hpop
  | concatenation =>
    obtain ⟨rfl, rfl⟩ := Prod.mk.inj (Option.some.inj h)
    have hpop := popOperators_within (show popOperators .concatenation out wait = (_, _) from rfl)
      hunder k before base
    exact congrArg (fun result => some (result.1, _ :: result.2)) hpop

/-- **Tokens are reordered in the same way inside a longer pattern.** -/
theorem exists_reorder_within {result : List Token} (h : reorder out wait l = .ok result)
    (k before : Nat) : ∃ out' wait' : List Token, result = wait'.reverse ++ out' ∧
      (∀ op ∈ wait', op.kind ≠ .opening) ∧
      ∀ base under rest : List Token, Opened under →
        reorder (out.map (Token.move k before) ++ base) (wait.map (Token.move k before) ++ under)
            (l.map (Token.move k before) ++ rest) =
          reorder (out'.map (Token.move k before) ++ base)
            (wait'.map (Token.move k before) ++ under) rest := by
  induction l generalizing out wait with
  | nil =>
    obtain ⟨hresult, hops⟩ := of_popAll h
    exact ⟨out, wait, hresult, hops, fun _ _ _ _ => rfl⟩
  | cons x l ih =>
    rw [reorder_cons] at h
    split at h
    · simp at h
    · next hplace =>
      obtain ⟨out', wait', hresult, hops, hrun⟩ := ih h
      refine ⟨out', wait', hresult, hops, fun base under rest hunder => ?_⟩
      rw [List.map_cons, List.cons_append,
        reorder_cons_of_place (placeToken_within hplace hunder k before base)]
      exact hrun base under rest hunder

/-! ## Folding -/

/-- A tree of a pattern inside a longer one. -/
def moveTree (k before : Nat) (entry : Tree × Span) : Tree × Span :=
  (entry.1.shift k, entry.2.move before)

theorem applyToken_within {stack stack' : List (Tree × Span)} (h : applyToken x stack = .ok stack')
    (k before : Nat) (base : List (Tree × Span)) :
    applyToken (x.move k before) (stack.map (moveTree k before) ++ base) =
      .ok (stack'.map (moveTree k before) ++ base) := by
  obtain ⟨kind, span⟩ := x
  unfold applyToken at h
  split at h
  · next s hkind =>
    obtain rfl := Except.ok.inj h
    obtain rfl : kind = .symbol s := hkind
    cases s <;> rfl
  · next hkind =>
    obtain rfl := Except.ok.inj h
    obtain rfl : kind = .empty := hkind
    rfl
  · next hkind =>
    obtain rfl := Except.ok.inj h
    obtain rfl : kind = .closure := hkind
    rfl
  · next hkind =>
    obtain rfl := Except.ok.inj h
    obtain rfl : kind = .concatenation := hkind
    rfl
  · next hkind =>
    obtain rfl := Except.ok.inj h
    obtain rfl : kind = .alternation := hkind
    rfl
  · simp at h

/-- **Tokens are folded in the same way inside a longer pattern.** -/
theorem foldTokens_within {stack stack' : List (Tree × Span)} (h : foldTokens stack l = .ok stack')
    (k before : Nat) (base : List (Tree × Span)) (rest : List Token) :
    foldTokens (stack.map (moveTree k before) ++ base) (l.map (Token.move k before) ++ rest) =
      foldTokens (stack'.map (moveTree k before) ++ base) rest := by
  induction l generalizing stack with
  | nil =>
    obtain rfl := Except.ok.inj h
    rfl
  | cons x l ih =>
    unfold foldTokens at h
    split at h
    · simp at h
    · next happly =>
      rw [List.map_cons, List.cons_append, foldTokens, applyToken_within happly]
      exact ih h

theorem computes_move {t : Tree} {span : Span} (h : foldTokens [] code = .ok [(t, span)])
    (k before : Nat) : Computes (code.map (Token.move k before)) (t.shift k) :=
  fun stack rest => ⟨span.move before, foldTokens_within h k before stack rest⟩

/-! ## Groups -/

/-- Tokens that are put out in the given order, whatever was put out before and waits before. -/
def PutsOut (l code : List Token) : Prop :=
  ∀ out wait rest, reorder out wait (l ++ rest) = reorder (code.reverse ++ out) wait rest

/-- **A pattern in parentheses is put out as it is alone.** -/
theorem putsOut_group (h : toPostfix l = .ok code) (hx : x.kind = .opening) (hy : y.kind = .closing)
    (k before : Nat) :
    PutsOut (x :: l.map (Token.move k before) ++ [y]) (code.map (Token.move k before)) := by
  intro out wait rest
  obtain ⟨out', wait', hresult, hops, hrun⟩ :=
    exists_reorder_within (toPostfix_eq_ok_iff.mp h) k before
  have hopened := reorder_cons_of_place (show placeToken out wait x = some (out, x :: wait) by
    rw [placeToken, hx]) (l.map (Token.move k before) ++ y :: rest)
  have hclosed := closeGroup_append (out'.map (Token.move k before) ++ out) wait
    (forall_ne_opening_move hops k before) hx
  rw [List.append_assoc, List.cons_append, List.singleton_append, hopened]
  refine (hrun out (x :: wait) (y :: rest) (by simp [Opened, hx])).trans ?_
  have hcode : (code.map (Token.move k before)).reverse =
      (wait'.map (Token.move k before)).reverse ++ out'.map (Token.move k before) := by
    rw [← List.map_reverse, hresult, List.map_append, List.map_reverse]
  rw [reorder_cons_of_place (show placeToken _ _ y = _ by rw [placeToken, hy]; exact hclosed),
    hcode, List.append_assoc]

/-- Parentheses around nothing are put out as the empty text. -/
theorem putsOut_emptyGroup {e : Token} (hx : x.kind = .opening) (he : e.kind = .empty)
    (hy : y.kind = .closing) : PutsOut [x, e, y] [e] := by
  intro out wait rest
  simp [reorder, hx, he, hy, closeGroup]

end ActionRegex.Pattern
