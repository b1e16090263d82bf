import ActionRegex.Proofs.Pattern.Scanning
import ActionRegex.Proofs.Pattern.TokenFaults
import ActionRegex.Proofs.Pattern.Within.Groups

/-!
# Recursive macros

`Expands` states the rules of expansion as derivations, which do not end by themselves; that each
text has a derivation, with expansions inside expansions no deeper than there are macros, says that
expansion ends (`expands_iff`). Along a derivation the macros that are being expanded depend on all
macros that the items name. So a macro that is refused for being recursive depends on itself, and an
expansion that succeeds has followed all dependencies to their ends (`recursion_is_caught`).
-/

namespace ActionRegex.Pattern

open Relation (TransGen ReflTransGen)

variable {macros : Macros} {depth : Nat} {expanding : List Bytes} {origin : Option Span}
  {items : List (Item × Span)} {fault : Option Error} {stream : Stream} {registry : Registry}
  {result : Expanded}

/-! ## Derivations -/

/-- What items, and the fault behind them, are expanded to, with expansions inside expansions at
most `depth` deep. -/
inductive Expands (macros : Macros) : Nat → List Bytes → Option Span → List (Item × Span) →
    Option Error → Stream → Registry → Expanded → Prop
  | done {depth : Nat} {expanding : List Bytes} {origin : Option Span} {stream : Stream}
    {registry : Registry} :
    Expands macros depth expanding origin [] none stream registry (.ok stream, registry)
  | failed {depth : Nat} {expanding : List Bytes} {origin : Option Span} {e : Error}
    {stream : Stream} {registry : Registry} :
    Expands macros depth expanding origin [] (some e) stream registry (.error e, registry)
  | action {depth : Nat} {expanding : List Bytes} {origin : Option Span} {text : Bytes} {span : Span}
    {rest : List (Item × Span)} {fault : Option Error} {stream : Stream} {registry : Registry}
    {result : Expanded}
    (h : Expands macros depth expanding origin rest fault
      (stream.emit (.symbol (.action registry.size)) (origin.getD span)) (registry.add text) result) :
    Expands macros depth expanding origin ((.action text, span) :: rest) fault stream registry result
  | letter {depth : Nat} {expanding : List Bytes} {origin : Option Span} {b : UInt8} {span : Span}
    {rest : List (Item × Span)} {fault : Option Error} {stream : Stream} {registry : Registry}
    {result : Expanded} (hbody : macros.body? [b] = none)
    (h : Expands macros depth expanding origin rest fault (stream.emitByte (origin.getD span) b)
      registry result) :
    Expands macros depth expanding origin ((.name [b], span) :: rest) fault stream registry result
  | unknown {depth : Nat} {expanding : List Bytes} {origin : Option Span} {name : Bytes} {span : Span}
    {rest : List (Item × Span)} {fault : Option Error} {stream : Stream} {registry : Registry}
    (hbody : macros.body? name = none) (hname : ∀ b, name ≠ [b]) :
    Expands macros depth expanding origin ((.name name, span) :: rest) fault stream registry
      (.error ⟨.unknownMacro name, origin.getD span⟩, registry)
  | recursive {depth : Nat} {expanding : List Bytes} {origin : Option Span} {name body : Bytes}
    {span : Span} {rest : List (Item × Span)} {fault : Option Error} {stream : Stream}
    {registry : Registry} (hbody : macros.body? name = some body)
    (hname : expanding.contains name = true) :
    Expands macros depth expanding origin ((.name name, span) :: rest) fault stream registry
      (.error ⟨.recursiveMacro name, origin.getD span⟩, registry)
  | refused {depth : Nat} {expanding : List Bytes} {origin : Option Span} {name body : Bytes}
    {span : Span} {rest : List (Item × Span)} {fault : Option Error} {stream : Stream}
    {registry last : Registry} {e : Error} (hbody : macros.body? name = some body)
    (hname : ¬ expanding.contains name = true)
    (hinner : Expands macros depth (name :: expanding) (some (origin.getD span)) (lex body).items
      (lex body).error .empty registry (.error e, last)) :
    Expands macros (depth + 1) expanding origin ((.name name, span) :: rest) fault stream registry
      (.error ⟨e.fault, origin.getD span⟩, last)
  | reference {depth : Nat} {expanding : List Bytes} {origin : Option Span} {name body : Bytes}
    {span : Span} {rest : List (Item × Span)} {fault : Option Error} {stream inner : Stream}
    {registry registry' : Registry} {result : Expanded} (hbody : macros.body? name = some body)
    (hname : ¬ expanding.contains name = true)
    (hinner : Expands macros depth (name :: expanding) (some (origin.getD span)) (lex body).items
      (lex body).error .empty registry (.ok inner, registry'))
    (h : Expands macros (depth + 1) expanding origin rest fault
      (stream.emitGroup inner (origin.getD span)) registry' result) :
    Expands macros (depth + 1) expanding origin ((.name name, span) :: rest) fault stream registry
      result
  | rejected {depth : Nat} {expanding : List Bytes} {origin : Option Span} {item : Item} {span : Span}
    {rest : List (Item × Span)} {fault : Option Error} {stream : Stream} {registry : Registry}
    {e : Error} (haction : ∀ text, item ≠ .action text) (hname : ∀ name, item ≠ .name name)
    (hadd : addItem stream (origin.getD span) item = .error e) :
    Expands macros depth expanding origin ((item, span) :: rest) fault stream registry
      (.error e, registry)
  | item {depth : Nat} {expanding : List Bytes} {origin : Option Span} {item : Item} {span : Span}
    {rest : List (Item × Span)} {fault : Option Error} {stream added : Stream} {registry : Registry}
    {result : Expanded} (haction : ∀ text, item ≠ .action text) (hname : ∀ name, item ≠ .name name)
    (hadd : addItem stream (origin.getD span) item = .ok added)
    (h : Expands macros depth expanding origin rest fault added registry result) :
    Expands macros depth expanding origin ((item, span) :: rest) fault stream registry result

theorem Expands.expand_eq
    (h : Expands macros depth expanding origin items fault stream registry result) :
    expand macros expanding origin items fault stream registry = result := by
  induction h with
  | done => exact expand_nil _ _
  | failed => rw [expand.eq_def]
  | action _ ih => rw [expand, ih]
  | letter hbody _ ih => rw [expand_letter hbody, ih]
  | unknown hbody hname => exact expand_unknown hbody hname _ _ _ _ _
  | recursive hbody hname => exact expand_recursive hbody hname _ _ _ _ _
  | refused hbody hname _ ih => rw [expand_reference hbody hname, ih]
  | reference hbody hname _ _ ihInner ih =>
    rw [expand_reference hbody hname, ihInner]
    exact ih
  | rejected haction hname hadd => rw [expand_item haction hname, hadd]
  | item haction hname hadd _ ih =>
    rw [expand_item haction hname, hadd]
    exact ih

/-- Expansion follows the rules, and goes no deeper than there are macros left. -/
theorem expands_expand (hdepth : macros.countOutside expanding ≤ depth) :
    Expands macros depth expanding origin items fault stream registry
      (expand macros expanding origin items fault stream registry) := by
  fun_induction expand macros expanding origin items fault stream registry generalizing depth with
  | case1 expanding origin fault stream registry =>
    cases fault with
    | none => exact .done
    | some e => exact .failed
  | case2 =>
    next ih => exact .action (ih hdepth)
  | case3 expanding origin fault stream registry itemSpan rest span b hbody =>
    next ih => exact .letter hbody (ih hdepth)
  | case4 expanding origin fault stream registry itemSpan rest span name hbody =>
    next hname =>
    refine .unknown hbody fun b hb => ?_
    subst hb
    exact hname b hbody rfl HEq.rfl
  | case5 expanding origin fault stream registry itemSpan rest span name body hbody =>
    next hname => exact .recursive hbody hname
  | case6 expanding origin fault stream registry itemSpan rest span name body hbody hname reading e
      registry₁ hinner =>
    next ihInner =>
    have hlt := Macros.countOutside_cons_lt hbody hname
    obtain ⟨depth, rfl⟩ : ∃ n, depth = n + 1 := ⟨depth - 1, by omega⟩
    have hrefused := ihInner (Nat.le_of_lt_succ (Nat.lt_of_lt_of_le hlt hdepth))
    rw [hinner] at hrefused
    exact .refused hbody hname hrefused
  | case7 expanding origin fault stream registry itemSpan rest span name body hbody hname reading
      inner registry₁ hinner =>
    next ihInner ih =>
    have hlt := Macros.countOutside_cons_lt hbody hname
    obtain ⟨depth, rfl⟩ : ∃ n, depth = n + 1 := ⟨depth - 1, by omega⟩
    have hexpanded := ihInner (Nat.le_of_lt_succ (Nat.lt_of_lt_of_le hlt hdepth))
    rw [hinner] at hexpanded
    exact .reference hbody hname hexpanded (ih hdepth)
  | case8 expanding origin fault stream registry itemSpan rest span item haction hname e =>
    next hadd => exact .rejected haction hname hadd
  | case9 expanding origin fault stream registry itemSpan rest span item haction hname added hadd =>
    next ih => exact .item haction hname hadd (ih hdepth)

/-- **Expansion ends**: it has the one result that the rules lead to. -/
theorem expands_iff (hdepth : macros.countOutside expanding ≤ depth) :
    Expands macros depth expanding origin items fault stream registry result ↔
      result = expand macros expanding origin items fault stream registry := by
  constructor
  · intro h
    exact h.expand_eq.symm
  · rintro rfl
    exact expands_expand hdepth

/-! ## Dependencies -/

/-- A macro is named among items. A letter that is no macro stands for itself and names nothing. -/
def Names (macros : Macros) (items : List (Item × Span)) (name : Bytes) : Prop :=
  (∃ body, macros.body? name = some body) ∧ ∃ span, (.name name, span) ∈ items

/-- A text refers to a macro. -/
def Mentions (macros : Macros) (text name : Bytes) : Prop := Names macros (lex text).items name

/-- The body of one macro refers to another. -/
def DependsOn (macros : Macros) (name other : Bytes) : Prop :=
  ∃ body, macros.body? name = some body ∧ Mentions macros body other

theorem names_cons_iff {item : Item} {span : Span} {name : Bytes} :
    Names macros ((item, span) :: items) name ↔
      (item = .name name ∧ ∃ body, macros.body? name = some body) ∨ Names macros items name := by
  constructor
  · rintro ⟨hbody, span', hmem⟩
    rcases List.mem_cons.mp hmem with heq | hmem
    · exact .inl ⟨(Prod.mk.inj heq).1.symm, hbody⟩
    · exact .inr ⟨hbody, span', hmem⟩
  · rintro (⟨rfl, hbody⟩ | ⟨hbody, span', hmem⟩)
    · exact ⟨hbody, span, List.mem_cons_self⟩
    · exact ⟨hbody, span', List.mem_cons_of_mem _ hmem⟩

theorem Names.cons {x : Item × Span} {name : Bytes} (h : Names macros items name) :
    Names macros (x :: items) name :=
  names_cons_iff.mpr (.inr h)

/-- **A macro that is refused for being recursive depends on itself**, if the macros that are being
expanded depend on those that the items name. -/
theorem Expands.transGen_of_recursive {name : Bytes} {span : Span}
    (h : Expands macros depth expanding origin items fault stream registry result)
    (hfault : ∀ e, fault = some e → e.fault.isLexical = true)
    (hdepends : ∀ outer ∈ expanding, ∀ other, Names macros items other →
      TransGen (DependsOn macros) outer other)
    (hresult : result.1 = .error ⟨.recursiveMacro name, span⟩) :
    TransGen (DependsOn macros) name name := by
  induction h generalizing span with
  | done => exact nomatch hresult
  | failed =>
    have hlexical := hfault _ rfl
    rw [Except.error.inj hresult] at hlexical
    exact absurd hlexical Bool.false_ne_true
  | action _ ih | letter _ _ ih | item _ _ _ _ ih =>
    exact ih hfault (fun outer houter other hother => hdepends outer houter other hother.cons) hresult
  | unknown => exact nomatch hresult
  | @recursive depth expanding origin found body span' rest fault stream registry hbody hname =>
    obtain ⟨hfound, -⟩ := Error.mk.inj (Except.error.inj hresult)
    obtain rfl := Fault.recursiveMacro.inj hfound
    exact hdepends found (List.contains_iff_mem.mp hname) found
      (names_cons_iff.mpr (.inl ⟨rfl, body, hbody⟩))
  | @refused depth expanding origin found body span' rest fault stream registry last e hbody hname _
      ih =>
    obtain ⟨hfound, -⟩ := Error.mk.inj (Except.error.inj hresult)
    -- the macros that are being expanded depend on this one, and it on what its body names
    have herror : (Except.error e : Except Error Stream) = .error ⟨.recursiveMacro name, e.span⟩ := by
      rw [← hfound]
    refine ih (fun e' he' => (span_of_error_lex he').1) ?_ herror
    intro outer houter other hother
    have hstep : DependsOn macros found other := ⟨body, hbody, hother⟩
    rcases List.mem_cons.mp houter with rfl | houter
    · exact .single hstep
    · exact (hdepends outer houter found (names_cons_iff.mpr (.inl ⟨rfl, body, hbody⟩))).tail hstep
  | reference _ _ _ _ _ ih =>
    exact ih hfault (fun outer houter other hother => hdepends outer houter other hother.cons) hresult
  | rejected _ _ hadd =>
    have hrepetition := (of_addItem_error hadd).2
    rw [Except.error.inj hresult] at hrepetition
    exact absurd hrepetition Bool.false_ne_true

/-- **An expansion that succeeds follows all dependencies to their ends.** -/
theorem Expands.acc_of_names {t : Stream} {name : Bytes}
    (h : Expands macros depth expanding origin items fault stream registry result)
    (hresult : result.1 = .ok t) (hname : Names macros items name) :
    Acc (Function.swap (DependsOn macros)) name := by
  induction h generalizing t name with
  | done => exact absurd hname.2.choose_spec List.not_mem_nil
  | failed => exact nomatch hresult
  | action _ ih =>
    rcases names_cons_iff.mp hname with ⟨heq, -⟩ | hname
    · exact nomatch heq
    · exact ih hresult hname
  | letter hbody _ ih =>
    rcases names_cons_iff.mp hname with ⟨heq, body, hbody'⟩ | hname
    · obtain rfl := Item.name.inj heq
      exact absurd (hbody.symm.trans hbody') (by simp)
    · exact ih hresult hname
  | unknown => exact nomatch hresult
  | recursive => exact nomatch hresult
  | refused => exact nomatch hresult
  | @reference depth expanding origin found body span rest fault stream inner registry registry'
      result hbody _ _ _ ihInner ih =>
    rcases names_cons_iff.mp hname with ⟨heq, -⟩ | hname
    · obtain rfl := Item.name.inj heq
      refine .intro found fun other hother => ?_
      obtain ⟨body', hbody', hmentions⟩ := hother
      obtain rfl := Option.some.inj (hbody.symm.trans hbody')
      exact ihInner rfl hmentions
    · exact ih hresult hname
  | rejected => exact nomatch hresult
  | item haction hitem _ _ ih =>
    rcases names_cons_iff.mp hname with ⟨heq, -⟩ | hname
    · exact absurd heq (hitem _)
    · exact ih hresult hname

theorem not_rel_self_of_acc {α : Type} {r : α → α → Prop} {a : α} (h : Acc r a) : ¬ r a a := by
  induction h with
  | intro a _ ih =>
    intro hself
    exact ih a hself hself

/-- What follows its dependencies to their ends meets no circle. -/
theorem not_transGen_of_acc {name other : Bytes}
    (hacc : Acc (Function.swap (DependsOn macros)) name)
    (hreach : ReflTransGen (DependsOn macros) name other) :
    ¬ TransGen (DependsOn macros) other other := by
  have hother : Acc (Function.swap (DependsOn macros)) other := by
    induction hreach with
    | refl => exact hacc
    | tail _ hstep ih => exact ih.inv hstep
  intro hcircle
  exact not_rel_self_of_acc hother.transGen (Relation.transGen_swap.mpr hcircle)

/-! ## Patterns -/

theorem countOutside_nil (macros : Macros) : macros.countOutside [] = macros.length := by
  simp [Macros.countOutside]

/-- **Recursion of macros is caught, and nothing else is taken for it.** For all macros and patterns
the rules of expansion lead to one result, with expansions inside expansions no deeper than there
are macros. A macro is refused for being recursive only if it depends on itself, directly or through
others. A pattern that refers to a macro from which such a circle is reached has no tree. -/
theorem recursion_is_caught (macros : Macros) (pattern : Bytes) (registry : Registry) :
    (∀ result, Expands macros macros.length [] none (lex pattern).items (lex pattern).error .empty
      registry result ↔ result = tokenize macros pattern registry) ∧
    (∀ name span, (parse macros pattern registry).1 = .error ⟨.recursiveMacro name, span⟩ →
      TransGen (DependsOn macros) name name) ∧
    (∀ name other, Mentions macros pattern name → ReflTransGen (DependsOn macros) name other →
      TransGen (DependsOn macros) other other → ∀ t, (parse macros pattern registry).1 ≠ .ok t) := by
  have hends : ∀ result, Expands macros macros.length [] none (lex pattern).items
      (lex pattern).error .empty registry result ↔ result = tokenize macros pattern registry :=
    fun result => expands_iff (Nat.le_of_eq (countOutside_nil macros))
  have hexpands := (hends _).mpr rfl
  refine ⟨hends, ?_, ?_⟩
  · intro name span hparse
    rcases tokenize_or_of_parse_error (Prod.ext hparse rfl) with htokenize | ⟨s, -, htree⟩
    · exact hexpands.transGen_of_recursive (fun e he => (span_of_error_lex he).1)
        (fun outer houter => absurd houter List.not_mem_nil) (congrArg Prod.fst htokenize)
    · have hfault := fault_of_treeOfStream htree
      split at hfault
      · simp at hfault
      · simp at hfault
  · intro name other hmentions hreach hcircle t hparse
    obtain ⟨s, htokenize, -⟩ := exists_tokenize_of_parse (Prod.ext hparse rfl)
    have hacc := hexpands.acc_of_names (congrArg Prod.fst htokenize) hmentions
    exact not_transGen_of_acc hacc hreach hcircle

/-- Macros `m` and `n` whose bodies are each other's names, and a macro `l` whose body is `m`. -/
def loopMacros : Macros := [([108], [109]), ([109], [110]), ([110], [109])]

theorem recursion_is_caught_loop :
    (parse loopMacros [108] .empty).1 = .error ⟨.recursiveMacro [109], ⟨0, 1⟩⟩ ∧
    TransGen (DependsOn loopMacros) [109] [109] ∧ ∀ t, (parse loopMacros [108] .empty).1 ≠ .ok t := by
  have hl : (lex [108]).items = [(.name [108], ⟨0, 1⟩)] := by cbv
  have hm : (lex [109]).items = [(.name [109], ⟨0, 1⟩)] := by cbv
  have hparse : (parse loopMacros [108] .empty).1 = .error ⟨.recursiveMacro [109], ⟨0, 1⟩⟩ := by cbv
  have hcircle : TransGen (DependsOn loopMacros) [109] [109] :=
    (recursion_is_caught loopMacros [108] .empty).2.1 [109] ⟨0, 1⟩ hparse
  have hmentions : Mentions loopMacros [108] [108] := ⟨⟨[109], rfl⟩, ⟨0, 1⟩, by simp [hl]⟩
  have hstep : DependsOn loopMacros [108] [109] := ⟨[109], rfl, ⟨[110], rfl⟩, ⟨0, 1⟩, by simp [hm]⟩
  exact ⟨hparse, hcircle, (recursion_is_caught loopMacros [108] .empty).2.2 [108] [109] hmentions
    (.single hstep) hcircle⟩

end ActionRegex.Pattern
