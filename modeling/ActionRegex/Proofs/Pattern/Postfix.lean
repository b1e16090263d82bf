import ActionRegex.Pattern.Postfix
import ActionRegex.Proofs.Pattern.Grammar
import Mathlib.Algebra.BigOperators.Group.List.Basic
import Mathlib.Data.List.Perm.Basic
import Mathlib.Tactic.Linarith

/-!
# Postfix order and trees

`Forms` is the grammar of token streams, in which concatenation is written. Its sentences are
brought into postfix order and folded into their trees (`treeOfPostfix_of_forms`): at each level of
the grammar, reordering leaves only operators of that level waiting, and what it has put out is
completed by them to a computation of the tree.

In the other direction, tokens that give some tree have their parentheses in pairs, and their
operands are one more than their binary operators (`levelAfter_of_reorder`, `of_treeOfPostfix`).
-/

namespace ActionRegex.Pattern

/-! ## The grammar of tokens -/

/-- Tokens form a part of the given level, with the given tree. -/
inductive Forms : Level → List Token → Tree → Prop
  | symbol {x : Token} {s : Symbol} (h : x.kind = .symbol s) : Forms .term [x] (.symbol s)
  | empty {x : Token} (h : x.kind = .empty) : Forms .term [x] .empty
  | group {x y : Token} {l : List Token} {t : Tree} (hx : x.kind = .opening)
    (hl : Forms .alternatives l t) (hy : y.kind = .closing) : Forms .term (x :: l ++ [y]) t
  | closure {x : Token} {l : List Token} {t : Tree} (hl : Forms .term l t)
    (hx : x.kind = .closure) : Forms .term (l ++ [x]) (.closure t)
  | term {l : List Token} {t : Tree} (h : Forms .term l t) : Forms .sequence l t
  | concat {x : Token} {l r : List Token} {t u : Tree} (hl : Forms .sequence l t)
    (hx : x.kind = .concatenation) (hr : Forms .term r u) :
    Forms .sequence (l ++ x :: r) (.concat t u)
  | sequence {l : List Token} {t : Tree} (h : Forms .sequence l t) : Forms .alternatives l t
  | alternate {x : Token} {l r : List Token} {t u : Tree} (hl : Forms .alternatives l t)
    (hx : x.kind = .alternation) (hr : Forms .sequence r u) :
    Forms .alternatives (l ++ x :: r) (.alternate t u)

/-! ## Moving operators -/

theorem popOperators_append {kind : TokenKind} {ops : List Token} (output waiting : List Token)
    (hops : ∀ op ∈ ops, bindsFirst op.kind kind = true)
    (hwaiting : ∀ top ∈ waiting.head?, bindsFirst top.kind kind = false) :
    popOperators kind output (ops ++ waiting) = (ops.reverse ++ output, waiting) := by
  induction ops generalizing output with
  | nil =>
    cases waiting with
    | nil => rfl
    | cons top waiting => simp [popOperators, hwaiting top rfl]
  | cons op ops ih =>
    rw [List.cons_append, popOperators, if_pos (hops op List.mem_cons_self),
      ih _ fun x hx => hops x (List.mem_cons_of_mem _ hx)]
    simp

theorem closeGroup_append {ops : List Token} {top : Token} (output waiting : List Token)
    (hops : ∀ op ∈ ops, op.kind ≠ .opening) (htop : top.kind = .opening) :
    closeGroup output (ops ++ top :: waiting) = some (ops.reverse ++ output, waiting) := by
  induction ops generalizing output with
  | nil => simp [closeGroup, htop]
  | cons op ops ih =>
    rw [List.cons_append, closeGroup, if_neg (hops op List.mem_cons_self),
      ih _ fun x hx => hops x (List.mem_cons_of_mem _ hx)]
    simp

theorem popAll_of_forall {ops : List Token} (output : List Token)
    (hops : ∀ op ∈ ops, op.kind ≠ .opening) : popAll output ops = .ok (ops.reverse ++ output) := by
  induction ops generalizing output with
  | nil => rfl
  | cons op ops ih =>
    rw [popAll, if_neg (hops op List.mem_cons_self),
      ih _ fun x hx => hops x (List.mem_cons_of_mem _ hx)]
    simp

/-! ## From sentences to trees -/

/-- Tokens in postfix order compute a tree: folding them puts it on the stack. -/
def Computes (code : List Token) (t : Tree) : Prop :=
  ∀ stack rest, ∃ span, foldTokens stack (code ++ rest) = foldTokens ((t, span) :: stack) rest

theorem Computes.exists_foldTokens {code : List Token} {t : Tree} (h : Computes code t) :
    ∃ span, foldTokens [] code = .ok [(t, span)] := by
  obtain ⟨span, hspan⟩ := h [] []
  rw [List.append_nil] at hspan
  exact ⟨span, hspan⟩

theorem Computes.treeOfPostfix_eq {code : List Token} {t : Tree} (h : Computes code t) :
    treeOfPostfix code = .ok t := by
  obtain ⟨span, hspan⟩ := h.exists_foldTokens
  rw [treeOfPostfix, hspan]
  rfl

theorem Computes.binary {code code' : List Token} {x : Token} {t u : Tree} (h : Computes code t)
    (h' : Computes code' u) (op : Tree → Tree → Tree)
    (hx : ∀ a b stack, applyToken x ((u, a) :: (t, b) :: stack) = .ok ((op t u, x.span) :: stack)) :
    Computes (code ++ (code' ++ [x])) (op t u) := by
  intro stack rest
  obtain ⟨b, hb⟩ := h stack (code' ++ ([x] ++ rest))
  obtain ⟨a, ha⟩ := h' ((t, b) :: stack) ([x] ++ rest)
  refine ⟨x.span, ?_⟩
  rw [List.append_assoc, List.append_assoc, hb, ha, List.singleton_append, foldTokens, hx]

/-- The operators that may wait after tokens of a level. -/
def Level.Waits : Level → TokenKind → Prop
  | .term, _ => False
  | .sequence, kind => kind = .concatenation
  | .alternatives, kind => kind = .concatenation ∨ kind = .alternation

/-- The operators that wait before tokens of a level are not moved by the operator of that level. -/
def Level.Stops : Level → List Token → Prop
  | .term, _ => True
  | .sequence, waiting => ∀ top ∈ waiting.head?, bindsFirst top.kind .concatenation = false
  | .alternatives, waiting => ∀ top ∈ waiting.head?, bindsFirst top.kind .alternation = false

theorem Level.Waits.ne_opening {level : Level} {kind : TokenKind} (h : level.Waits kind) :
    kind ≠ .opening := by
  cases level with
  | term => exact h.elim
  | sequence => rw [show kind = .concatenation from h]; decide
  | alternatives =>
    rcases h with rfl | rfl
    · decide
    · decide

theorem Level.stops_cons_opening {x : Token} (hx : x.kind = .opening) (level : Level)
    (waiting : List Token) : level.Stops (x :: waiting) := by
  cases level with
  | term => trivial
  | sequence => simp [Level.Stops, hx, bindsFirst]
  | alternatives => simp [Level.Stops, hx, bindsFirst]

theorem Level.Stops.sequence {waiting : List Token} (h : Level.alternatives.Stops waiting) :
    Level.sequence.Stops waiting := by
  intro top htop
  have hfalse := h top htop
  cases hkind : top.kind with
  | opening => rfl
  | _ => simp [hkind, bindsFirst] at hfalse

/-- Reading a binary operator and its operands: the operator completes the operand before it, and
waits behind the operators of the operand that follows. -/
theorem reorder_binary {x : Token} (hx : x.kind = .concatenation ∨ x.kind = .alternation)
    {output waiting l r rest code ops code' ops' : List Token}
    (hleft : reorder output waiting (l ++ (x :: r ++ rest)) =
      reorder (code.reverse ++ output) (ops ++ waiting) (x :: r ++ rest))
    (hpop : popOperators x.kind (code.reverse ++ output) (ops ++ waiting) =
      (ops.reverse ++ (code.reverse ++ output), waiting))
    (hright : reorder (ops.reverse ++ (code.reverse ++ output)) (x :: waiting) (r ++ rest) =
      reorder (code'.reverse ++ (ops.reverse ++ (code.reverse ++ output))) (ops' ++ x :: waiting)
        rest) :
    reorder output waiting (l ++ x :: r ++ rest) =
      reorder ((code ++ ops ++ code').reverse ++ output) (ops' ++ [x] ++ waiting) rest := by
  rw [List.append_assoc, hleft, List.cons_append, reorder]
  rcases hx with hx | hx
  · rw [hx] at hpop ⊢
    simp only [hpop, hright]
    simp
  · rw [hx] at hpop ⊢
    simp only [hpop, hright]
    simp

/-- Reading tokens of a level moves them to the output, but for some operators that still wait. -/
theorem exists_reorder_of_forms {level : Level} {l : List Token} {t : Tree} (h : Forms level l t)
    (output waiting rest : List Token) (hwaiting : level.Stops waiting) :
    ∃ code ops, reorder output waiting (l ++ rest) =
        reorder (code.reverse ++ output) (ops ++ waiting) rest ∧
      Computes (code ++ ops) t ∧ ∀ op ∈ ops, level.Waits op.kind := by
  induction h generalizing output waiting rest with
  | @symbol x s hx =>
    refine ⟨[x], [], by simp [reorder, hx], fun stack rest => ⟨x.span, ?_⟩, by simp⟩
    simp [foldTokens, applyToken, hx]
  | @empty x hx =>
    refine ⟨[x], [], by simp [reorder, hx], fun stack rest => ⟨x.span, ?_⟩, by simp⟩
    simp [foldTokens, applyToken, hx]
  | @group x y l t hx hl hy ih =>
    obtain ⟨code, ops, hreorder, hcode, hops⟩ :=
      ih output (x :: waiting) (y :: rest) (Level.stops_cons_opening hx _ _)
    refine ⟨code ++ ops, [], ?_, by simpa using hcode, by simp⟩
    have hclose := closeGroup_append (code.reverse ++ output) waiting
      (fun op hop => (hops op hop).ne_opening) hx
    rw [List.cons_append, List.cons_append, reorder, hx]
    simp only [List.append_assoc, List.singleton_append, hreorder]
    rw [reorder, hy]
    simp [hclose]
  | @closure x l t hl hx ih =>
    obtain ⟨code, ops, hreorder, hcode, hops⟩ := ih output waiting (x :: rest) trivial
    obtain rfl := List.eq_nil_iff_forall_not_mem.mpr hops
    refine ⟨code ++ [x], [], ?_, fun stack rest => ⟨x.span, ?_⟩, by simp⟩
    · rw [List.append_assoc, List.singleton_append, hreorder, reorder, hx]
      simp
    · obtain ⟨span, hspan⟩ := hcode stack ([x] ++ rest)
      simp only [List.append_nil, List.append_assoc] at hspan ⊢
      rw [hspan]
      simp [foldTokens, applyToken, hx]
  | term h ih =>
    obtain ⟨code, ops, hreorder, hcode, hops⟩ := ih output waiting rest trivial
    exact ⟨code, ops, hreorder, hcode, fun op hop => (hops op hop).elim⟩
  | @concat x l r t u hl hx hr ihl ihr =>
    obtain ⟨code, ops, hreorder, hcode, hops⟩ := ihl output waiting (x :: r ++ rest) hwaiting
    have hpop := popOperators_append (code.reverse ++ output) waiting
      (fun op hop => by rw [show op.kind = .concatenation from hops op hop]; rfl) hwaiting
    obtain ⟨code', ops', hreorder', hcode', hops'⟩ :=
      ihr (ops.reverse ++ (code.reverse ++ output)) (x :: waiting) rest trivial
    obtain rfl := List.eq_nil_iff_forall_not_mem.mpr hops'
    refine ⟨code ++ ops ++ code', [x], ?_, ?_, by simp [Level.Waits, hx]⟩
    · exact reorder_binary (Or.inl hx) hreorder (hx ▸ hpop) hreorder'
    · rw [List.append_nil] at hcode'
      rw [List.append_assoc]
      exact hcode.binary hcode' .concat fun a b stack => by simp [applyToken, hx]
  | sequence h ih =>
    obtain ⟨code, ops, hreorder, hcode, hops⟩ := ih output waiting rest hwaiting.sequence
    exact ⟨code, ops, hreorder, hcode, fun op hop => Or.inl (hops op hop)⟩
  | @alternate x l r t u hl hx hr ihl ihr =>
    obtain ⟨code, ops, hreorder, hcode, hops⟩ := ihl output waiting (x :: r ++ rest) hwaiting
    have hpop := popOperators_append (code.reverse ++ output) waiting
      (fun op hop => by rcases hops op hop with h | h <;> rw [h] <;> rfl) hwaiting
    obtain ⟨code', ops', hreorder', hcode', hops'⟩ :=
      ihr (ops.reverse ++ (code.reverse ++ output)) (x :: waiting) rest
        (by simp [Level.Stops, hx, bindsFirst])
    refine ⟨code ++ ops ++ code', ops' ++ [x], ?_, ?_, ?_⟩
    · exact reorder_binary (Or.inr hx) hreorder (hx ▸ hpop) hreorder'
    · rw [List.append_assoc, ← List.append_assoc code']
      exact hcode.binary hcode' .alternate fun a b stack => by simp [applyToken, hx]
    · intro op hop
      rcases List.mem_append.mp hop with hop | hop
      · exact Or.inl (hops' op hop)
      · rw [List.mem_singleton.mp hop, hx]
        exact Or.inr rfl

/-- **A sentence of tokens is folded into its tree.** -/
theorem treeOfPostfix_of_forms {l : List Token} {t : Tree} (h : Forms .alternatives l t) :
    ∃ code, toPostfix l = .ok code ∧ treeOfPostfix code = .ok t := by
  obtain ⟨code, ops, hreorder, hcode, hops⟩ :=
    exists_reorder_of_forms h [] [] [] (by simp [Level.Stops])
  refine ⟨code ++ ops, ?_, hcode.treeOfPostfix_eq⟩
  simp only [List.append_nil] at hreorder
  rw [toPostfix, hreorder, reorder, popAll_of_forall _ fun op hop => (hops op hop).ne_opening]
  simp [Except.map]

/-! ## From trees to tokens -/

/-- The number of open parentheses after a token; there is none if the token closes too many. -/
def stepLevel (depth : Nat) : TokenKind → Option Nat
  | .opening => some (depth + 1)
  | .closing => if depth = 0 then none else some (depth - 1)
  | _ => some depth

/-- The number of open parentheses after tokens. -/
def levelAfter (depth : Nat) : List Token → Option Nat
  | [] => some depth
  | x :: rest => (stepLevel depth x.kind).bind fun depth => levelAfter depth rest

theorem levelAfter_append (depth : Nat) (l r : List Token) :
    levelAfter depth (l ++ r) = (levelAfter depth l).bind fun depth => levelAfter depth r := by
  induction l generalizing depth with
  | nil => rfl
  | cons x l ih =>
    rw [List.cons_append, levelAfter, levelAfter, Option.bind_assoc]
    exact Option.bind_congr fun depth _ => ih depth

/-- What tokens add up to, each with a value of its kind. -/
def total (value : TokenKind → Int) (tokens : List Token) : Int :=
  (tokens.map fun x => value x.kind).sum

@[simp] theorem total_nil (value : TokenKind → Int) : total value [] = 0 := rfl

@[simp] theorem total_cons (value : TokenKind → Int) (x : Token) (tokens : List Token) :
    total value (x :: tokens) = value x.kind + total value tokens := by
  simp [total]

@[simp] theorem total_append (value : TokenKind → Int) (l r : List Token) :
    total value (l ++ r) = total value l + total value r := by
  simp [total]

@[simp] theorem total_reverse (value : TokenKind → Int) (tokens : List Token) :
    total value tokens.reverse = total value tokens := by
  induction tokens with
  | nil => rfl
  | cons x tokens ih => rw [List.reverse_cons, total_append, total_cons, ih]; simp [add_comm]

/-- The operands that a token adds to a stack. -/
def TokenKind.weight : TokenKind → Int
  | .symbol _ | .empty => 1
  | .alternation | .concatenation => -1
  | .opening | .closing | .closure => 0

/-- Whether a token is one of a pair of parentheses. -/
def TokenKind.isParen : TokenKind → Bool
  | .opening | .closing => true
  | _ => false

/-- One for each token that is not a parenthesis. -/
def TokenKind.counted (kind : TokenKind) : Int := if kind.isParen then 0 else 1

theorem ne_opening_of_bindsFirst {waiting read : TokenKind} (h : bindsFirst waiting read = true) :
    waiting ≠ .opening := by
  rintro rfl
  simp [bindsFirst] at h

theorem isParen_of_total_counted {tokens : List Token} (h : total TokenKind.counted tokens = 0) :
    ∀ x ∈ tokens, x.kind.isParen = true := by
  have hnonneg : ∀ l : List Token, 0 ≤ total TokenKind.counted l := by
    intro l
    induction l with
    | nil => simp
    | cons x l ih =>
      have hx : 0 ≤ x.kind.counted := by
        unfold TokenKind.counted
        split <;> decide
      rw [total_cons]
      omega
  intro x hx
  by_contra hparen
  obtain ⟨l, r, rfl⟩ := List.append_of_mem hx
  have hl := hnonneg l
  have hr := hnonneg r
  rw [total_append, total_cons, TokenKind.counted, if_neg hparen] at h
  omega

theorem exists_of_popOperators {kind : TokenKind} {output waiting output' waiting' : List Token}
    (h : popOperators kind output waiting = (output', waiting')) :
    ∃ ops, waiting = ops ++ waiting' ∧ output' = ops.reverse ++ output ∧
      (∀ op ∈ ops, bindsFirst op.kind kind = true) ∧
      ∀ top ∈ waiting'.head?, bindsFirst top.kind kind = false := by
  induction waiting generalizing output with
  | nil =>
    obtain ⟨rfl, rfl⟩ := Prod.mk.inj h
    exact ⟨[], rfl, rfl, by simp, by simp⟩
  | cons top waiting ih =>
    unfold popOperators at h
    split at h
    · next hbinds =>
      obtain ⟨ops, rfl, rfl, hops, hstops⟩ := ih h
      exact ⟨top :: ops, rfl, by simp, List.forall_mem_cons.mpr ⟨hbinds, hops⟩, hstops⟩
    · next hstops =>
      obtain ⟨rfl, rfl⟩ := Prod.mk.inj h
      exact ⟨[], rfl, rfl, by simp, by simpa using hstops⟩

theorem exists_of_closeGroup {output waiting output' waiting' : List Token}
    (h : closeGroup output waiting = some (output', waiting')) :
    ∃ ops top, waiting = ops ++ top :: waiting' ∧ output' = ops.reverse ++ output ∧
      top.kind = .opening ∧ ∀ op ∈ ops, op.kind ≠ .opening := by
  induction waiting generalizing output with
  | nil => simp [closeGroup] at h
  | cons top waiting ih =>
    unfold closeGroup at h
    split at h
    · next htop =>
      obtain ⟨rfl, rfl⟩ := Prod.mk.inj (Option.some.inj h)
      exact ⟨[], top, rfl, rfl, htop, by simp⟩
    · next htop =>
      obtain ⟨ops, opening, rfl, rfl, hopening, hops⟩ := ih h
      refine ⟨top :: ops, opening, rfl, by simp, hopening, ?_⟩
      rintro op (_ | ⟨_, hop⟩)
      · exact htop
      · exact hops op hop

theorem of_popAll {output waiting result : List Token} (h : popAll output waiting = .ok result) :
    result = waiting.reverse ++ output ∧ ∀ op ∈ waiting, op.kind ≠ .opening := by
  induction waiting generalizing output with
  | nil => simpa [popAll, eq_comm] using h
  | cons top waiting ih =>
    unfold popAll at h
    split at h
    · simp at h
    · next htop =>
      obtain ⟨rfl, hops⟩ := ih h
      refine ⟨by simp, ?_⟩
      rintro op (_ | ⟨_, hop⟩)
      · exact htop
      · exact hops op hop

/-- The number of open parentheses among the tokens that wait. -/
def openings (waiting : List Token) : Nat := waiting.countP fun x => x.kind = .opening

theorem openings_append_of_forall {ops : List Token} (hops : ∀ op ∈ ops, op.kind ≠ .opening)
    (waiting : List Token) : openings (ops ++ waiting) = openings waiting := by
  rw [openings, List.countP_append, List.countP_eq_zero.mpr (by simpa using hops), Nat.zero_add,
    openings]

/-- **Reordering keeps everything but the parentheses.** -/
theorem total_of_reorder (value : TokenKind → Int) (hopening : value .opening = 0)
    (hclosing : value .closing = 0) {output waiting rest result : List Token}
    (h : reorder output waiting rest = .ok result) :
    total value result = total value output + total value waiting + total value rest := by
  fun_induction reorder output waiting rest with
  | case1 output waiting =>
    obtain ⟨rfl, -⟩ := of_popAll h
    simp [add_comm]
  | case2 output waiting x rest s hx ih | case3 output waiting x rest hx ih
  | case4 output waiting x rest hx ih | case5 output waiting x rest hx ih =>
    have hrest := ih h
    simp only [total_cons, hx, hopening] at hrest ⊢
    omega
  | case6 => simp at h
  | case7 output waiting x rest hx output' waiting' hclose ih =>
    obtain ⟨ops, top, rfl, rfl, htop, -⟩ := exists_of_closeGroup hclose
    have hrest := ih h
    simp only [total_append, total_cons, total_reverse, hx, htop, hopening, hclosing] at hrest ⊢
    omega
  | case8 output waiting x rest hx output' waiting' hpop ih
  | case9 output waiting x rest hx output' waiting' hpop ih =>
    obtain ⟨ops, rfl, rfl, -, -⟩ := exists_of_popOperators hpop
    have hrest := ih h
    simp only [total_append, total_cons, total_reverse] at hrest ⊢
    omega

/-- **Reordering succeeds only if the parentheses come in pairs.** -/
theorem levelAfter_of_reorder {output waiting rest result : List Token}
    (h : reorder output waiting rest = .ok result) :
    levelAfter (openings waiting) rest = some 0 := by
  fun_induction reorder output waiting rest with
  | case1 output waiting =>
    obtain ⟨-, hops⟩ := of_popAll h
    have hzero := openings_append_of_forall hops []
    rw [List.append_nil] at hzero
    rw [hzero]
    rfl
  | case2 output waiting x rest s hx ih | case3 output waiting x rest hx ih
  | case4 output waiting x rest hx ih =>
    simpa [levelAfter, stepLevel, hx] using ih h
  | case5 output waiting x rest hx ih =>
    simpa [levelAfter, stepLevel, hx, openings] using ih h
  | case6 => simp at h
  | case7 output waiting x rest hx output' waiting' hclose ih =>
    obtain ⟨ops, top, rfl, rfl, htop, hops⟩ := exists_of_closeGroup hclose
    rw [openings_append_of_forall hops]
    simpa [levelAfter, stepLevel, hx, htop, openings] using ih h
  | case8 output waiting x rest hx output' waiting' hpop ih
  | case9 output waiting x rest hx output' waiting' hpop ih =>
    obtain ⟨ops, rfl, rfl, hops, -⟩ := exists_of_popOperators hpop
    rw [openings_append_of_forall fun op hop => ne_opening_of_bindsFirst (hops op hop)]
    simpa [levelAfter, stepLevel, hx, openings] using ih h

theorem length_of_applyToken {x : Token} {stack stack' : List (Tree × Span)}
    (h : applyToken x stack = .ok stack') :
    (stack'.length : Int) = stack.length + x.kind.weight ∧ stack' ≠ [] := by
  unfold applyToken at h
  split at h
  all_goals cases h
  all_goals simp_all [TokenKind.weight]

/-- **Folding adds one tree for each operand and takes one for each binary operator.** -/
theorem length_of_foldTokens {tokens : List Token} {stack stack' : List (Tree × Span)}
    (h : foldTokens stack tokens = .ok stack') :
    (stack'.length : Int) = stack.length + total TokenKind.weight tokens := by
  induction tokens generalizing stack with
  | nil => cases h; simp
  | cons x tokens ih =>
    unfold foldTokens at h
    split at h
    · simp at h
    · next stack'' happly =>
      rw [ih h, (length_of_applyToken happly).1, total_cons, add_assoc]

theorem eq_nil_of_foldTokens {tokens : List Token} {stack : List (Tree × Span)}
    (h : foldTokens stack tokens = .ok []) : tokens = [] := by
  induction tokens generalizing stack with
  | nil => rfl
  | cons x tokens ih =>
    unfold foldTokens at h
    split at h
    · simp at h
    · next stack' happly =>
      rw [ih h] at h
      exact absurd (Except.ok.inj h) (length_of_applyToken happly).2

theorem toPostfix_eq_ok_iff {l code : List Token} :
    toPostfix l = .ok code ↔ reorder [] [] l = .ok code.reverse := by
  unfold toPostfix
  cases reorder [] [] l with
  | error e => simp [Except.map]
  | ok result => simp [Except.map, List.reverse_eq_iff]

/-- Folding leaves one tree, or there was nothing to fold. -/
theorem foldTokens_of_treeOfPostfix {code : List Token} {t : Tree}
    (h : treeOfPostfix code = .ok t) :
    (∃ span, foldTokens [] code = .ok [(t, span)]) ∨ code = [] ∧ t = .empty := by
  unfold treeOfPostfix at h
  split at h
  · simp at h
  · next stack hfold =>
    unfold takeTree at h
    split at h
    · next hnil =>
      rw [List.reverse_eq_nil_iff.mp hnil] at hfold
      exact .inr ⟨eq_nil_of_foldTokens hfold, (Except.ok.inj h).symm⟩
    · next u span hone =>
      obtain rfl : u = t := Except.ok.inj h
      rw [List.reverse_eq_iff.mp hone] at hfold
      exact .inl ⟨span, hfold⟩
    · simp at h

/-- **Tokens with a tree** have their parentheses in pairs, and one operand more than binary
operators unless they are nothing but parentheses. -/
theorem of_treeOfPostfix {l code : List Token} {t : Tree} (hcode : toPostfix l = .ok code)
    (h : treeOfPostfix code = .ok t) :
    levelAfter 0 l = some 0 ∧ (total TokenKind.weight l = 1 ∨ total TokenKind.counted l = 0) := by
  have hresult := toPostfix_eq_ok_iff.mp hcode
  refine ⟨levelAfter_of_reorder hresult, ?_⟩
  have hweight := total_of_reorder TokenKind.weight rfl rfl hresult
  have hcounted := total_of_reorder TokenKind.counted rfl rfl hresult
  simp only [total_reverse, total_nil, zero_add] at hweight hcounted
  rcases foldTokens_of_treeOfPostfix h with ⟨span, hfold⟩ | ⟨rfl, -⟩
  · left
    have hlength := length_of_foldTokens hfold
    simp only [List.length_cons, List.length_nil] at hlength
    omega
  · right
    exact hcounted.symm

end ActionRegex.Pattern
