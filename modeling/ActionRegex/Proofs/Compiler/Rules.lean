import ActionRegex.Compiler
import ActionRegex.Proofs.Dfa.Language
import ActionRegex.Proofs.Pattern.Within.Rules
import ActionRegex.Proofs.Text.Lines

/-!
# The automaton of a rule file

The rules of a file are compiled as one pattern, their alternation. If every rule has a tree on its
own, the automaton matches the texts that some rule describes, and its action blocks are those of
the rules, one rule after the other (`compileRules_union`).

This needs every rule to be an operand of the alternation. A macro may have parentheses without a
pair, so a rule can be accepted although its tokens are nothing but parentheses. Alone it is the
empty text; together with other rules it is missing, and the file is refused
(`compileRules_strayFile`).
-/

namespace ActionRegex

open Pattern (unionText wrap tailText_cons)

theorem Pattern.ofString_wrap (rule : String) :
    Bytes.ofString ("(" ++ rule ++ ")") = wrap (Bytes.ofString rule) := by
  rw [Bytes.ofString_append, Bytes.ofString_append]
  rfl

namespace RuleFile

/-- The pattern of a file is the text of its rules as one pattern. -/
theorem ofString_expression (file : RuleFile) :
    Bytes.ofString file.expression = unionText (file.rules.map Bytes.ofString) := by
  unfold expression
  cases file.rules with
  | nil => rfl
  | cons rule rules =>
    rw [List.map_cons, List.map_cons, unionText]
    induction rules generalizing rule with
    | nil =>
      rw [List.map_nil, String.intercalate_singleton, Pattern.ofString_wrap]
      exact (List.append_nil _).symm
    | cons next rules ih =>
      rw [List.map_cons, String.intercalate_cons_cons, Bytes.ofString_append,
        Bytes.ofString_append, ih, Pattern.ofString_wrap, List.map_cons, tailText_cons,
        List.append_assoc]
      rfl

end RuleFile

/-! ## Compilation -/

namespace Compiler

open Pattern (Parses Describes OnlyParens fragmentsOf)

/-- The macros for the rules of a file: the names of the file over those of the compiler. -/
def macrosFor (compiler : Compiler) (file : RuleFile) : Macros :=
  compiler.macros.defineAll file.names

variable {macros : Macros} {rules : List Bytes}

/-- The texts that rules describe: those that some rule describes on its own. No rules at all
describe the empty text. -/
def RulesDescribe (macros : Macros) (rules : List Bytes) (w : Bytes) : Prop :=
  (rules = [] ∧ w = []) ∨ ∃ rule ∈ rules, Describes macros rule w

/-- Every rule has a place in an alternation: it is the only rule, or it has tokens besides
parentheses. -/
def Separable (macros : Macros) (rules : List Bytes) : Prop :=
  1 < rules.length → ∀ rule ∈ rules, ¬ OnlyParens macros rule

/-- What becomes of rules that have trees on their own: an automaton for the texts that they
describe, with the action blocks of all of them, one rule after the other. The pattern may be too
large, the construction of the automaton may not succeed, and rules that are not separable are
refused. -/
inductive CompilesRules (macros : Macros) (rules : List Bytes) :
    Except CompileError (Automaton × List Note) → Prop
  | tooLarge {e : Pattern.Error} (h : e.fault = .patternTooLarge) :
    CompilesRules macros rules (.error (.pattern e))
  | malformed {e : Pattern.Error} (h : e.fault = .malformedExpression)
    (hrules : ¬ Separable macros rules) : CompilesRules macros rules (.error (.pattern e))
  | incomplete {t : Pattern.Tree} (hrules : Separable macros rules)
    (ht : ∀ w, w ∈ t.language ↔ RulesDescribe macros rules w)
    (h : Dfa.build? (Nfa.ofTree t) = none) : CompilesRules macros rules (.error .incomplete)
  | automaton {automaton : Automaton} {notes : List Note} (hrules : Separable macros rules)
    (hmatch : ∀ w, automaton.dfa.table.isMatch w = true ↔ RulesDescribe macros rules w)
    (hfragments : automaton.registry.toList = rules.flatMap (fragmentsOf macros)) :
    CompilesRules macros rules (.ok (automaton, notes))

/-- The automaton of a tree for the rules. -/
theorem compilesRules_compileTree {t : Pattern.Tree} {registry : Registry}
    (hrules : Separable macros rules) (ht : ∀ w, w ∈ t.language ↔ RulesDescribe macros rules w)
    (hregistry : registry.toList = rules.flatMap (fragmentsOf macros)) :
    CompilesRules macros rules (compileTree t registry) := by
  unfold compileTree
  dsimp only
  generalize hbuild : Dfa.build? (Nfa.ofTree t) = built
  cases built with
  | none => exact .incomplete hrules ht hbuild
  | some result =>
    obtain ⟨dfa, notes⟩ := result
    obtain ⟨plain, f, hbuilt⟩ := Dfa.exists_built hbuild
    exact .automaton hrules (fun w => hbuilt.isMatch_iff_mem.trans (ht w)) hregistry

/-- The union of the parts of rules. -/
theorem compilesRules_of_union {parts : List (List Pattern.Token × Pattern.Tree)}
    {result : Except Pattern.Error Pattern.Tree} {registry : Registry} (hne : rules ≠ [])
    (hparts : List.Forall₂ (Pattern.RulePart macros) rules parts) (h : Pattern.UnionOf parts result)
    (hregistry : registry.toList = rules.flatMap (fragmentsOf macros)) :
    CompilesRules macros rules
      (match (result, registry) with
        | (.error e, _) => .error (.pattern e)
        | (.ok tree, registry) => compileTree tree registry) := by
  have hparens : (∃ rule ∈ rules, OnlyParens macros rule) ↔ ∃ part ∈ parts, part.1 = [] :=
    Arrays.exists_mem_iff_of_forall₂ hparts fun _ _ hpart => hpart.eq_nil_iff.symm
  cases h with
  | missing hlength hmissing hfault =>
    refine .malformed hfault fun hrules => ?_
    obtain ⟨rule, hrule, honly⟩ := hparens.mpr hmissing
    exact hrules (hparts.length_eq ▸ hlength) rule hrule honly
  | tree hcomputes hlanguage =>
    refine compilesRules_compileTree (fun hlength rule hrule honly => ?_) (fun w => ?_) hregistry
    · obtain ⟨part, hpart, hnil⟩ := hparens.mp ⟨rule, hrule, honly⟩
      exact hcomputes (hparts.length_eq ▸ hlength) part hpart hnil
    · rw [hlanguage, RulesDescribe, or_iff_right fun hnil => hne hnil.1]
      exact (Arrays.exists_mem_iff_of_forall₂ hparts
        fun _ _ hpart => (hpart.mem_language_iff w).symm).symm

/-- **A rule file means the union of its rules**, if they are separable. -/
theorem compileRules_union (compiler : Compiler) (file : RuleFile)
    (hrules : ∀ rule ∈ file.rules.map Bytes.ofString, Parses (compiler.macrosFor file) rule) :
    CompilesRules (compiler.macrosFor file) (file.rules.map Bytes.ofString)
      (compiler.compileRules file) := by
  unfold compileRules compileWith parse
  rw [RuleFile.ofString_expression]
  generalize file.rules.map Bytes.ofString = rules at hrules
  by_cases hne : rules = []
  · subst hne
    rw [Pattern.parse_unionText_nil]
    have hempty : ∀ w, w ∈ Pattern.Tree.empty.language ↔
        RulesDescribe (compiler.macrosFor file) [] w := by
      simp [RulesDescribe, Pattern.Tree.language, Language.mem_one]
    exact compilesRules_compileTree (by simp [Separable]) hempty rfl
  · have hparse := Pattern.parse_unionText hne hrules { header := file.header }
    show CompilesRules _ _ (match Pattern.parse (compiler.macrosFor file) (unionText rules)
      { header := file.header } with
      | (.error e, _) => .error (.pattern e)
      | (.ok tree, registry) => compileTree tree registry)
    generalize Pattern.parse (compiler.macrosFor file) (unionText rules)
      { header := file.header } = result at hparse ⊢
    cases hparse with
    | tooLarge h => exact .tooLarge h
    | union hparts h hregistry =>
      exact compilesRules_of_union hne hparts h (by simpa [Registry.toList] using hregistry)

/-- Two rules with an action block each. The name in the first one stands for an alternation. -/
def pairFile : RuleFile :=
  { lexer := "p", names := [([109], [97, 124, 98])], rules := ["m\x7bgo\x7d", "c\x7bon\x7d"] }

/-- A compiler that has another body for the name. -/
def pairCompiler : Compiler := ⟨[([109], [122])]⟩

theorem compileRules_pairFile :
    (∀ rule ∈ pairFile.rules.map Bytes.ofString,
      Parses (pairCompiler.macrosFor pairFile) rule) ∧
    ∃ automaton notes, pairCompiler.compileRules pairFile = .ok (automaton, notes) ∧
      automaton.dfa.table.isMatch [98] = true ∧
      automaton.registry.toList = [[103, 111], [111, 110]] := by
  have hmacros : pairCompiler.macrosFor pairFile = [([109], [97, 124, 98])] := by cbv
  have htexts : pairFile.rules.map Bytes.ofString =
      [[109, 123, 103, 111, 125], [99, 123, 111, 110, 125]] := by decide
  have hfirst : Pattern.parse [([109], [97, 124, 98])] [109, 123, 103, 111, 125] .empty =
      (.ok (.concat (.alternate (.byte 97) (.byte 98)) (.action 0)), ⟨#[[103, 111]], []⟩) := by cbv
  have hsecond : Pattern.parse [([109], [97, 124, 98])] [99, 123, 111, 110, 125] .empty =
      (.ok (.concat (.byte 99) (.action 0)), ⟨#[[111, 110]], []⟩) := by cbv
  have hrules : ∀ rule ∈ pairFile.rules.map Bytes.ofString,
      Parses (pairCompiler.macrosFor pairFile) rule := by
    rw [hmacros, htexts]
    simp [Parses, hfirst, hsecond]
  have hok : (pairCompiler.compileRules pairFile).isOk = true := by
    rw [compileRules, compileWith, parse, RuleFile.ofString_expression, htexts]
    cbv
  have hcompiles := compileRules_union pairCompiler pairFile hrules
  generalize pairCompiler.compileRules pairFile = result at hok hcompiles ⊢
  refine ⟨hrules, ?_⟩
  rw [hmacros, htexts] at hcompiles
  cases hcompiles with
  | tooLarge | malformed | incomplete => simp [Except.isOk, Except.toBool] at hok
  | @automaton automaton notes _ hmatch hfragments =>
    refine ⟨automaton, notes, rfl, (hmatch [98]).mpr (.inr ⟨_, List.mem_cons_self, ?_⟩), ?_⟩
    · exact ⟨_, _, hfirst, [98], .inr rfl, [], rfl, rfl⟩
    · rw [hfragments]
      simp [fragmentsOf, hfirst, hsecond, Registry.toList]

/-- A rule that opens a parenthesis, and a name that closes it. -/
def strayFile : RuleFile :=
  { lexer := "p", names := [([109], [41])], rules := ["a", "(m"] }

/-- Both rules have trees on their own, but the file is refused. -/
theorem compileRules_strayFile :
    (∀ rule ∈ strayFile.rules.map Bytes.ofString, Parses (macrosFor {} strayFile) rule) ∧
    ∃ e, compileRules {} strayFile = .error (.pattern e) ∧ e.fault = .malformedExpression := by
  have hmacros : macrosFor {} strayFile = [([109], [41])] := by cbv
  have htexts : strayFile.rules.map Bytes.ofString = [[97], [40, 109]] := by decide
  have hfirst : (Pattern.parse [([109], [41])] [97] .empty).1 = .ok (.byte 97) := by cbv
  have hsecond : (Pattern.parse [([109], [41])] [40, 109] .empty).1 = .ok .empty := by cbv
  refine ⟨?_, ⟨.malformedExpression, ⟨3, 4⟩⟩, ?_, rfl⟩
  · rw [hmacros, htexts]
    simp [Parses, hfirst, hsecond]
  · rw [compileRules, compileWith, parse, RuleFile.ofString_expression, htexts]
    cbv

end Compiler

end ActionRegex
