import ActionRegex.Proofs.Arrays
import ActionRegex.Proofs.Pattern.Blocks
import ActionRegex.Proofs.Pattern.Within.Groups

/-!
# Alternations of rules

Rules that have a tree on their own are read together as the alternation of the rules, each in
parentheses (`unionText`). Every rule adds its part to the alternation of those before it
(`exists_lexed_tail`), and its action blocks come behind theirs; the tree of the whole is the one of
an alternation of parts (`parse_unionText`).
-/

namespace ActionRegex.Pattern

variable {macros : Macros}

/-! ## A rule on its own -/

/-- A rule describes a text: it has a tree on its own, with the text in its language. -/
def Describes (macros : Macros) (rule w : Bytes) : Prop :=
  ∃ t registry, parse macros rule .empty = (.ok t, registry) ∧ w ∈ t.language

/-- A rule has tokens on its own, and they are nothing but parentheses. -/
def OnlyParens (macros : Macros) (rule : Bytes) : Prop :=
  ∃ s registry, tokenize macros rule .empty = (.ok s, registry) ∧ BareParens s.tokens

/-- The action blocks that a rule registers on its own. -/
def fragmentsOf (macros : Macros) (rule : Bytes) : List Bytes := (parse macros rule .empty).2.toList

/-- A rule has a tree on its own. -/
def Parses (macros : Macros) (rule : Bytes) : Prop := ∃ t, (parse macros rule .empty).1 = .ok t

/-- What a rule with a tree is on its own: items, tokens, action blocks and the tree. -/
structure Alone (macros : Macros) (rule : Bytes) (items : List (Item × Span)) (s : Stream)
    (registry : Registry) (t : Tree) : Prop where
  lexed : Lexed ⟨0, rule⟩ items
  expand_eq : expand macros [] none items none .empty .empty = (.ok s, registry)
  tokenize_eq : tokenize macros rule .empty = (.ok s, registry)
  tree : treeOfStream s = .ok t

theorem Parses.exists_alone {rule : Bytes} (h : Parses macros rule) :
    ∃ items s registry t, Alone macros rule items s registry t := by
  obtain ⟨t, ht⟩ := h
  obtain ⟨s, htokenize, htree⟩ := exists_tokenize_of_parse (Prod.ext ht rfl)
  obtain ⟨items, hlexed, hexpand⟩ := exists_lexed_of_tokenize htokenize
  exact ⟨items, s, _, t, hlexed, hexpand, htokenize, htree⟩

theorem Alone.parse_eq {rule : Bytes} {items : List (Item × Span)} {s : Stream}
    {registry : Registry} {t : Tree} (h : Alone macros rule items s registry t) :
    parse macros rule .empty = (.ok t, registry) := by
  rw [parse, h.tokenize_eq]
  exact congrArg (·, registry) h.tree

/-- A part of an alternation that comes from a rule. -/
structure RulePart (macros : Macros) (rule : Bytes) (part : List Token × Tree) : Prop where
  operand : Operand part
  mem_language_iff : ∀ w, w ∈ part.2.language ↔ Describes macros rule w
  eq_nil_iff : part.1 = [] ↔ OnlyParens macros rule

theorem Alone.rulePart {rule : Bytes} {items : List (Item × Span)} {s : Stream}
    {registry : Registry} {t : Tree} {part : List Token × Tree}
    (h : Alone macros rule items s registry t) (hpart : PartOf s t part) :
    RulePart macros rule part where
  operand := hpart.operand
  mem_language_iff w := by
    rw [hpart.language]
    constructor
    · exact fun hw => ⟨t, registry, h.parse_eq, hw⟩
    · rintro ⟨t', registry', hparse, hw⟩
      obtain rfl : t = t' :=
        Except.ok.inj (Prod.mk.inj (h.parse_eq.symm.trans hparse)).1
      exact hw
  eq_nil_iff := by
    rw [hpart.bareParens]
    constructor
    · exact fun hbare => ⟨s, registry, h.tokenize_eq, hbare⟩
    · rintro ⟨s', registry', htokenize, hbare⟩
      obtain rfl : s = s' :=
        Except.ok.inj (Prod.mk.inj (h.tokenize_eq.symm.trans htokenize)).1
      exact hbare

/-! ## Rules one after the other -/

/-- The text of further rules. -/
def tailText (rules : List Bytes) : Bytes := rules.flatMap fun rule => Ascii.bar :: wrap rule

theorem tailText_cons (rule : Bytes) (rules : List Bytes) :
    tailText (rule :: rules) = Ascii.bar :: (wrap rule ++ tailText rules) := rfl

/-- What becomes of further rules in an expansion: their parts follow the parts so far and their
action blocks those so far, unless the pattern is too large. -/
inductive ExpandsRules (macros : Macros) (rules : List Bytes) (parts : List (List Token × Tree))
    (registry : Registry) : Expanded → Prop
  | tooLarge {e : Error} {registry' : Registry} (h : e.fault = .patternTooLarge) :
    ExpandsRules macros rules parts registry (.error e, registry')
  | alternation {s : Stream} {registry' : Registry} {more : List (List Token × Tree)}
    (hmore : List.Forall₂ (RulePart macros) rules more)
    (htokens : Alternation (parts ++ more) s.tokens.reverse)
    (hregistry : registry'.toList = registry.toList ++ rules.flatMap (fragmentsOf macros)) :
    ExpandsRules macros rules parts registry (.ok s, registry')

/-- The part of a rule follows the parts so far; the further rules follow it. -/
theorem ExpandsGroup.expandsRules {rule : Bytes} {rules : List Bytes}
    {items rest : List (Item × Span)} {alone s : Stream} {last registry : Registry} {t : Tree}
    {parts : List (List Token × Tree)}
    {result : Expanded} (halone : Alone macros rule items alone last t)
    (h : ExpandsGroup macros rest alone t last.toList s registry result)
    (hrest : ∀ part group s' registry', PutsOut group part.1 →
      s'.tokens = group.reverse ++ s.tokens →
      ExpandsRules macros rules (parts ++ [part]) registry'
        (expand macros [] none rest none s' registry')) :
    ExpandsRules macros (rule :: rules) parts registry result := by
  cases h with
  | tooLarge h => exact .tooLarge h
  | @group s' registry' group part hpart hgroup htokens hregistry =>
    have hfragments : fragmentsOf macros rule = last.toList := by rw [fragmentsOf, halone.parse_eq]
    have hexpands := hrest part group s' registry' hgroup htokens
    generalize expand macros [] none rest none s' registry' = result at hexpands
    cases hexpands with
    | tooLarge h => exact .tooLarge h
    | alternation hmore hall hlast =>
      refine .alternation (.cons (halone.rulePart hpart) hmore) ?_ ?_
      · rwa [List.append_assoc] at hall
      · rw [hlast, hregistry, List.flatMap_cons, hfragments, List.append_assoc]

/-- **Further rules add their parts.** -/
theorem exists_lexed_tail {rules : List Bytes} (hrules : ∀ rule ∈ rules, Parses macros rule)
    (before : Nat) : ∃ items, Lexed ⟨before, tailText rules⟩ items ∧
      ∀ parts s registry, Alternation parts s.tokens.reverse →
        ExpandsRules macros rules parts registry
          (expand macros [] none items none s registry) := by
  induction rules generalizing before with
  | nil =>
    refine ⟨[], .ended before, fun parts s registry htokens => ?_⟩
    rw [expand.eq_def]
    exact .alternation .nil (by rwa [List.append_nil]) (by simp)
  | cons rule rules ih =>
    obtain ⟨items', hlexed', hexpand'⟩ :=
      ih (fun r hr => hrules r (List.mem_cons_of_mem _ hr)) (before + 1 + (wrap rule).length)
    obtain ⟨items, alone, last, t, halone⟩ := (hrules rule List.mem_cons_self).exists_alone
    obtain ⟨opening, closing, hlexed⟩ := halone.lexed.wrap hlexed'
    refine ⟨_, .punctuation (show ofPunctuation? Ascii.bar = some .bar from rfl) hlexed,
      fun parts s registry htokens => ?_⟩
    rw [expand_item (by simp) (by simp)]
    show ExpandsRules _ _ _ _ (expand macros [] none _ none (s.emit .alternation _) registry)
    have hbar : (s.emit .alternation ⟨before, before + 1⟩).tokens = ⟨.alternation, _⟩ :: s.tokens :=
      Stream.emit_operator rfl (by simp)
    have hends : endsTerm (s.emit .alternation ⟨before, before + 1⟩).tokens = false := by
      rw [hbar]
      rfl
    refine (expand_group halone.expand_eq halone.tree hends (before + 1 + 1) opening closing items'
      registry).expandsRules halone fun part group s' registry' hgroup hs' => ?_
    refine hexpand' _ _ _ ?_
    rw [hs', hbar, List.reverse_append, List.reverse_reverse, List.reverse_cons, List.append_assoc]
    exact htokens.snoc rfl hgroup

/-! ## All rules -/

/-- The text of rules as one pattern. -/
def unionText : List Bytes → Bytes
  | [] => []
  | rule :: rules => wrap rule ++ tailText rules

theorem parse_unionText_nil (registry : Registry) :
    parse macros (unionText []) registry = (.ok .empty, registry) := by
  rw [parse, tokenize, unionText, (Lexed.ended 0).lex_eq, expand.eq_def]
  rfl

/-- What becomes of rules that are parsed as one pattern: the alternation of their parts, with the
action blocks of all of them, unless it is too large. -/
inductive ParsesRules (macros : Macros) (rules : List Bytes) (registry : Registry) :
    Except Error Tree × Registry → Prop
  | tooLarge {e : Error} {registry' : Registry} (h : e.fault = .patternTooLarge) :
    ParsesRules macros rules registry (.error e, registry')
  | union {parts : List (List Token × Tree)} {result : Except Error Tree} {registry' : Registry}
    (hparts : List.Forall₂ (RulePart macros) rules parts) (h : UnionOf parts result)
    (hregistry : registry'.toList = registry.toList ++ rules.flatMap (fragmentsOf macros)) :
    ParsesRules macros rules registry (result, registry')

/-- **Rules are parsed together as they are parsed alone.** -/
theorem parse_unionText {rules : List Bytes} (hne : rules ≠ [])
    (hrules : ∀ rule ∈ rules, Parses macros rule) (registry : Registry) :
    ParsesRules macros rules registry (parse macros (unionText rules) registry) := by
  obtain ⟨rule, rules, rfl⟩ := List.exists_cons_of_ne_nil hne
  obtain ⟨items', hlexed', hexpand'⟩ := exists_lexed_tail
    (fun r hr => hrules r (List.mem_cons_of_mem _ hr)) (0 + (wrap rule).length)
  obtain ⟨items, alone, last, t, halone⟩ := (hrules rule List.mem_cons_self).exists_alone
  obtain ⟨opening, closing, hlexed⟩ := halone.lexed.wrap hlexed'
  have hexpand : ExpandsRules macros (rule :: rules) [] registry
      (tokenize macros (unionText (rule :: rules)) registry) := by
    rw [tokenize, unionText, hlexed.lex_eq]
    refine (expand_group halone.expand_eq halone.tree rfl (0 + 1) opening closing items'
      registry).expandsRules halone fun part group s' registry' hgroup hs' => ?_
    refine hexpand' _ _ _ ?_
    rw [hs', List.reverse_append, List.reverse_reverse]
    exact .one hgroup
  rw [parse]
  generalize tokenize macros (unionText (rule :: rules)) registry = result at hexpand
  cases hexpand with
  | tooLarge h => exact .tooLarge h
  | @alternation s registry' parts hparts htokens hregistry =>
    obtain ⟨joined, hjoined, hpostfix⟩ := Alternation.exists_toPostfix htokens
    have hoperands : ∀ part ∈ parts, Operand part := by
      intro part hpart
      obtain ⟨_, -, hrule⟩ := Arrays.exists_left_of_forall₂ hparts hpart
      exact hrule.operand
    have htree : treeOfStream s = treeOfPostfix joined := by rw [treeOfStream, hpostfix]
    refine .union hparts ?_ hregistry
    rw [htree]
    exact hjoined.unionOf hoperands

end ActionRegex.Pattern
