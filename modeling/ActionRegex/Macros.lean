import ActionRegex.Text.Bytes

/-!
# Macros

A macro gives a name to the text of a pattern. Macros keep the order in which they were first
defined; defining a name again replaces its body and keeps its place.
-/

namespace ActionRegex

/-- Names and the texts they stand for, in the order of their first definition. -/
abbrev Macros := List (Bytes × Bytes)

namespace Macros

/-- Sets the body of a name. -/
def define (name body : Bytes) : Macros → Macros
  | [] => [(name, body)]
  | (n, b) :: rest => if n = name then (n, body) :: rest else (n, b) :: define name body rest

/-- Defines names one after the other. -/
def defineAll (definitions : List (Bytes × Bytes)) (macros : Macros) : Macros :=
  definitions.foldl (fun table entry => define entry.1 entry.2 table) macros

/-- The body of a name. -/
def body? (name : Bytes) : Macros → Option Bytes
  | [] => none
  | (n, b) :: rest => if n = name then some b else body? name rest

theorem body?_define_self (name body : Bytes) (macros : Macros) :
    body? name (define name body macros) = some body := by
  induction macros with
  | nil => simp [define, body?]
  | cons entry rest ih =>
    simp only [define]
    split
    · next h => simp [body?, h]
    · next h => simp [body?, h, ih]

theorem body?_define_of_ne {name other : Bytes} (h : name ≠ other) (body : Bytes)
    (macros : Macros) : body? other (define name body macros) = body? other macros := by
  induction macros with
  | nil => simp [define, body?, h]
  | cons entry rest ih =>
    simp only [define]
    split
    · next hn => simp [body?, hn, h]
    · simp only [body?, ih]

/-! ## Names still to expand -/

/-- The number of entries whose name is not in a list. -/
def countOutside (names : List Bytes) (macros : Macros) : Nat :=
  macros.countP fun entry => !names.contains entry.1

/-- Adding a defined name to the list leaves fewer entries outside. -/
theorem countOutside_cons_lt {name : Bytes} {names : List Bytes} {macros : Macros} {body : Bytes}
    (hbody : body? name macros = some body) (hname : ¬ names.contains name = true) :
    countOutside (name :: names) macros < countOutside names macros := by
  induction macros with
  | nil => simp [body?] at hbody
  | cons entry rest ih =>
    have hle : countOutside (name :: names) rest ≤ countOutside names rest := by
      refine List.countP_mono_left fun e _ he => ?_
      simp only [List.contains_cons, Bool.not_eq_true', Bool.or_eq_false_iff] at he ⊢
      exact he.2
    simp only [body?] at hbody
    simp only [countOutside, List.countP_cons, List.contains_cons] at hle ih ⊢
    split at hbody
    · next h =>
      subst h
      simp only [Bool.not_eq_true] at hname
      have hname' : List.contains names entry.1 = false := hname
      simp only [hname', beq_self_eq_true, Bool.true_or, Bool.not_true,
        Bool.false_eq_true, ↓reduceIte, Bool.not_false]
      omega
    · next h =>
      have := ih hbody
      have hbeq : (entry.1 == name) = false := by simpa using h
      simp only [hbeq, Bool.false_or]
      omega

end Macros

end ActionRegex
