import ActionRegex.Pattern.Item
import ActionRegex.Pattern.Tree
import Mathlib.Data.List.Basic

/-!
# The grammar of patterns

Alternatives are separated by bars, an alternative is a sequence of terms, and a term is an atom or
a group with repetitions behind it. `Derives` gives the tree of each sentence: alternation and
concatenation group to the left, and repetitions bind tightest.

The second part reads sentences from left to right. `Begins` says which lists of items start a
sentence and how many groups are open after them; each kind of item continues such a list under one
condition on the place that has been reached.
-/

namespace ActionRegex.Pattern

/-! ## Trees of items -/

namespace Tree

/-- Bytes one after the other. -/
def inOrder : Bytes → Tree
  | [] => empty
  | b :: rest => rest.foldl (fun t b => concat t (byte b)) (byte b)

/-- Bytes as alternatives. -/
def anyOf : Bytes → Tree
  | [] => empty
  | b :: rest => rest.foldl (fun t b => alternate t (byte b)) (byte b)

/-- A number of copies of a tree, one after the other. -/
def power (t : Tree) : Nat → Tree
  | 0 => empty
  | 1 => t
  | n + 2 => concat (power t (n + 1)) t

/-- A repetition: the numbers of copies as alternatives, or without an upper bound the least number
of copies and any number after them. -/
def repeated (t : Tree) (min : Nat) : Option Nat → Tree
  | none => if min = 0 then closure t else concat (power t min) (closure t)
  | some max =>
    (List.range' (min + 1) (max - min)).foldl (fun u n => alternate u (power t n)) (power t min)

end Tree

/-- An item with its span and the index that it gets if it is an action block. -/
structure Lexeme where
  item : Item
  span : Span
  index : Nat

/-- Numbers the action blocks of a pattern in their order. -/
def lexemes (index : Nat) : List (Item × Span) → List Lexeme
  | [] => []
  | (item, span) :: rest =>
    let next := match item with
      | .action _ => index + 1
      | _ => index
    ⟨item, span, index⟩ :: lexemes next rest

/-- The tree of an atom. A name is an atom if it is a single letter, which stands for itself. -/
def Lexeme.atom? (x : Lexeme) : Option Tree :=
  match x.item with
  | .byte b => some (.byte b)
  | .oneOf set => some (.anyOf set.toList)
  | .quoted bytes => some (.inOrder bytes)
  | .action _ => some (.action x.index)
  | .name [b] => some (.byte b)
  | _ => none

/-! ## Sentences -/

/-- How tightly the parts of a pattern are bound. -/
inductive Level where
  | alternatives
  | sequence
  | term

/-- The items of a pattern form a part of the given level, with the given tree. -/
inductive Derives : Level → List Lexeme → Tree → Prop
  | atom {x : Lexeme} {t : Tree} (h : x.atom? = some t) : Derives .term [x] t
  | emptyGroup {x y : Lexeme} (hx : x.item = .opening) (hy : y.item = .closing) :
    Derives .term [x, y] .empty
  | group {x y : Lexeme} {l : List Lexeme} {t : Tree} (hx : x.item = .opening)
    (hl : Derives .alternatives l t) (hy : y.item = .closing) : Derives .term (x :: l ++ [y]) t
  | repetition {x : Lexeme} {l : List Lexeme} {t : Tree} {min : Nat} {max : Option Nat}
    (hl : Derives .term l t) (hx : x.item = .repetition min max) :
    Derives .term (l ++ [x]) (t.repeated min max)
  | term {l : List Lexeme} {t : Tree} (h : Derives .term l t) : Derives .sequence l t
  | concat {l r : List Lexeme} {t u : Tree} (hl : Derives .sequence l t) (hr : Derives .term r u) :
    Derives .sequence (l ++ r) (.concat t u)
  | sequence {l : List Lexeme} {t : Tree} (h : Derives .sequence l t) : Derives .alternatives l t
  | alternate {x : Lexeme} {l r : List Lexeme} {t u : Tree} (hl : Derives .alternatives l t)
    (hx : x.item = .bar) (hr : Derives .sequence r u) :
    Derives .alternatives (l ++ x :: r) (.alternate t u)

/-- The items of a pattern form a sentence: nothing at all, or alternatives. -/
inductive Sentence : List Lexeme → Tree → Prop
  | empty : Sentence [] .empty
  | alternatives {l : List Lexeme} {t : Tree} (h : Derives .alternatives l t) : Sentence l t

/-! ## Beginnings of sentences -/

/-- Where a reader stands in a group: before its first item, behind a term, or behind a bar. -/
inductive Place where
  | start
  | term
  | bar

/-- What a group holds up to a place. -/
inductive Inside : Place → List Lexeme → Prop
  | start : Inside .start []
  | term {l : List Lexeme} {t : Tree} (h : Derives .alternatives l t) : Inside .term l
  | bar {l : List Lexeme} {t : Tree} {x : Lexeme} (h : Derives .alternatives l t)
    (hx : x.item = .bar) : Inside .bar (l ++ [x])

/-- Items that start a sentence, up to a place inside `depth` groups. -/
inductive Begins : Nat → Place → List Lexeme → Prop
  | outside {p : Place} {l : List Lexeme} (h : Inside p l) : Begins 0 p l
  | group {depth : Nat} {p q : Place} {l r : List Lexeme} {x : Lexeme} (hl : Begins depth q l)
    (hx : x.item = .opening) (hr : Inside p r) : Begins (depth + 1) p (l ++ x :: r)

theorem Derives.add_term {l r : List Lexeme} {t u : Tree} (hl : Derives .alternatives l t)
    (hr : Derives .term r u) : ∃ v, Derives .alternatives (l ++ r) v := by
  cases hl with
  | sequence h => exact ⟨_, .sequence (.concat h hr)⟩
  | alternate hl hx h =>
    rw [List.append_assoc, List.cons_append]
    exact ⟨_, .alternate hl hx (.concat h hr)⟩

theorem Derives.add_repetition_sequence {l : List Lexeme} {t : Tree} {x : Lexeme} {min : Nat}
    {max : Option Nat} (h : Derives .sequence l t) (hx : x.item = .repetition min max) :
    ∃ u, Derives .sequence (l ++ [x]) u := by
  cases h with
  | term h => exact ⟨_, .term (.repetition h hx)⟩
  | concat hl hr =>
    rw [List.append_assoc]
    exact ⟨_, .concat hl (.repetition hr hx)⟩

theorem Derives.add_repetition {l : List Lexeme} {t : Tree} {x : Lexeme} {min : Nat}
    {max : Option Nat} (h : Derives .alternatives l t) (hx : x.item = .repetition min max) :
    ∃ u, Derives .alternatives (l ++ [x]) u := by
  cases h with
  | sequence h =>
    obtain ⟨u, hu⟩ := h.add_repetition_sequence hx
    exact ⟨u, .sequence hu⟩
  | alternate hl hbar h =>
    obtain ⟨u, hu⟩ := h.add_repetition_sequence hx
    rw [List.append_assoc, List.cons_append]
    exact ⟨_, .alternate hl hbar hu⟩

theorem Inside.add_term {p : Place} {l r : List Lexeme} {t : Tree} (hl : Inside p l)
    (hr : Derives .term r t) : Inside .term (l ++ r) := by
  cases hl with
  | start => exact .term (.sequence (.term hr))
  | term h =>
    obtain ⟨u, hu⟩ := h.add_term hr
    exact .term hu
  | bar h hx =>
    rw [List.append_assoc]
    exact .term (.alternate h hx (.term hr))

namespace Begins

variable {depth : Nat} {p : Place} {l : List Lexeme} {x : Lexeme}

theorem nil : Begins 0 .start [] := .outside .start

/-- The groups before the last open one do not matter for what stands in it. -/
theorem extend {q : Place} {r : List Lexeme} (h : Begins depth p l)
    (hinside : ∀ {k}, Inside p k → Inside q (k ++ r)) : Begins depth q (l ++ r) := by
  cases h with
  | outside h => exact .outside (hinside h)
  | group hl hx hr =>
    rw [List.append_assoc]
    exact .group hl hx (hinside hr)

theorem add_term {r : List Lexeme} {t : Tree} (h : Begins depth p l) (hr : Derives .term r t) :
    Begins depth .term (l ++ r) :=
  h.extend fun hk => hk.add_term hr

theorem add_opening (h : Begins depth p l) (hx : x.item = .opening) :
    Begins (depth + 1) .start (l ++ [x]) :=
  .group h hx .start

theorem add_closing (h : Begins (depth + 1) p l) (hp : p ≠ .bar) (hx : x.item = .closing) :
    Begins depth .term (l ++ [x]) := by
  cases h with
  | group hl hopening hr =>
    rw [List.append_assoc]
    cases hr with
    | start => exact hl.add_term (.emptyGroup hopening hx)
    | term h => exact hl.add_term (.group hopening h hx)
    | bar => exact absurd rfl hp

theorem add_bar (h : Begins depth .term l) (hx : x.item = .bar) : Begins depth .bar (l ++ [x]) := by
  refine h.extend fun hk => ?_
  cases hk with
  | term h => exact .bar h hx

theorem add_repetition {min : Nat} {max : Option Nat} (h : Begins depth .term l)
    (hx : x.item = .repetition min max) : Begins depth .term (l ++ [x]) := by
  refine h.extend fun hk => ?_
  cases hk with
  | term h =>
    obtain ⟨u, hu⟩ := h.add_repetition hx
    exact .term hu

/-- A beginning with no group open and a term at its end is a sentence. -/
theorem derives (h : Begins 0 .term l) : ∃ t, Derives .alternatives l t := by
  cases h with
  | outside h =>
    cases h with
    | term h => exact ⟨_, h⟩

end Begins

end ActionRegex.Pattern
