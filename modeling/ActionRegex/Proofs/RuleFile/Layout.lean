import ActionRegex.Proofs.RuleFile.Reading
import Mathlib.Data.List.Nodup
import Mathlib.Tactic.FinCases

/-!
# Writing a rule file and reading it back

A layout is the content of a rule file with its sections still apart: the directives, the lines of
code, the names section, and the rules. What is written down section by section (`Layout.text`) is
read back as it was (`read_text`), if every part is one that its section can hold
(`Layout.Writable`).
-/

namespace ActionRegex.RuleFile

open Text (isBlank splitLines trim trimEnd trimStart)

/-- The content of a rule file, section by section. -/
structure Layout where
  lexer : String
  args : Option String := none
  state : Option String := none
  header : List String := []
  /-- Names and their expansions, if the file has a names section. -/
  names : Option (List (String × String)) := none
  rules : List String

namespace Layout

/-- The content as it is read. -/
def file (layout : Layout) : RuleFile where
  lexer := layout.lexer
  args := layout.args
  state := layout.state
  header := layout.header
  names := (layout.names.getD []).map encodeName
  rules := layout.rules

/-- The names section, with the line it starts with. -/
def namesSection : Option (List (String × String)) → List String
  | none => []
  | some names => "%names" :: names.map nameLine

/-- What is written down, each part behind the other. A rule may have many lines. -/
def parts (layout : Layout) : List String :=
  Directive.lexer.line layout.lexer :: (layout.args.toList.map Directive.args.line ++
    (layout.state.toList.map Directive.state.line ++ (layout.header ++
      (namesSection layout.names ++ layout.rules.flatMap fun rule => ["%rule", rule]))))

/-- The text of a rule file: its parts, each ended by a newline. -/
def text (layout : Layout) : String := String.join (layout.parts.map fun part => part ++ "\n")

/-- The lines of a rule file. -/
def lines (layout : Layout) : List (List Char) :=
  (layout.parts.map String.toList).flatMap splitLines

/-- One line without blanks on either side. -/
structure IsValue (value : String) : Prop where
  trimmed : trim value.toList = value.toList
  single : '\n' ∉ value.toList

/-- The parts are such that their sections can hold them. -/
structure Writable (layout : Layout) : Prop where
  lexer : isIdentifier layout.lexer.toList = true
  args : ∀ value ∈ layout.args, IsValue value
  state : ∀ value ∈ layout.state, IsValue value
  header : ∀ line ∈ layout.header, line.toList.head? ≠ some '%' ∧ '\n' ∉ line.toList
  names : ∀ entry ∈ layout.names.getD [], isIdentifier entry.1.toList = true ∧ IsValue entry.2
  distinct : ((layout.names.getD []).map Prod.fst).Nodup
  rules_ne_nil : layout.rules ≠ []
  rules : ∀ rule ∈ layout.rules, IsRule rule
  no_return : ∀ line ∈ layout.lines, line.getLast? ≠ some '\r'

variable {layout : Layout}

/-! ## Lines -/

/-- The lines of a text do not depend on their numbers. -/
theorem map_snd_mapIdx (lines : List (List Char)) :
    (lines.mapIdx fun i line => (i + 1, line)).map Prod.snd = lines := by
  refine List.ext_getElem (by simp) fun i h₁ h₂ => ?_
  simp

theorem numberLines_text (h : layout.Writable) :
    (numberLines layout.text).map Prod.snd = layout.lines := by
  have htext : layout.text.toList =
      (layout.parts.map String.toList).flatMap fun part => part ++ ['\n'] := by
    rw [text, String.toList_join, List.flatMap_map, List.flatMap_map]
    simp only [String.toList_append]
    rfl
  rw [numberLines, htext, Text.lines_flatMap_splitLines h.no_return]
  exact map_snd_mapIdx _

/-- Parts of one line each. -/
theorem flatMap_splitLines_of_single {parts : List String}
    (h : ∀ part ∈ parts, '\n' ∉ part.toList) :
    (parts.map String.toList).flatMap splitLines = parts.map String.toList := by
  induction parts with
  | nil => rfl
  | cons part parts ih =>
    rw [List.map_cons, List.flatMap_cons, Text.splitLines_of_not_mem (h part List.mem_cons_self),
      ih fun part hmem => h part (List.mem_cons_of_mem _ hmem), List.singleton_append]

theorem newline_not_mem_line {directive : Directive} {value : String}
    (h : '\n' ∉ value.toList) : '\n' ∉ (directive.line value).toList := by
  rw [Directive.toList_line]
  cases directive with
  | lexer => simpa [Directive.word] using h
  | args => simpa [Directive.word] using h
  | state => simpa [Directive.word] using h

theorem newline_not_mem_nameLine {entry : String × String}
    (hname : isIdentifier entry.1.toList = true) (hbody : '\n' ∉ entry.2.toList) :
    '\n' ∉ (nameLine entry).toList := by
  rw [toList_nameLine]
  have hnot : '\n' ∉ entry.1.toList := not_mem_of_isIdentifier hname (by decide)
  simp [hnot, hbody]

theorem newline_not_mem_namesSection (h : layout.Writable) :
    ∀ part ∈ namesSection layout.names, '\n' ∉ part.toList := by
  have hnames := h.names
  cases hsome : layout.names with
  | none => simp [namesSection]
  | some names =>
    rw [hsome, Option.getD_some] at hnames
    intro part hpart
    cases List.mem_cons.mp hpart with
    | inl heq => rw [heq]; decide
    | inr hmem =>
      obtain ⟨entry, hentry, rfl⟩ := List.mem_map.mp hmem
      exact newline_not_mem_nameLine (hnames entry hentry).1 (hnames entry hentry).2.single

/-- The lines of the rules, each rule behind its separator. -/
theorem flatMap_splitLines_rules (rules : List String) :
    ((rules.flatMap fun rule => ["%rule", rule]).map String.toList).flatMap splitLines =
      rules.flatMap fun rule => "%rule".toList :: ruleLines rule := by
  induction rules with
  | nil => rfl
  | cons rule rules ih =>
    have hsep : splitLines "%rule".toList = ["%rule".toList] :=
      Text.splitLines_of_not_mem (by decide)
    rw [List.flatMap_cons, List.flatMap_cons, List.map_append, List.flatMap_append, ih,
      List.map_cons, List.map_singleton, List.flatMap_cons, List.flatMap_singleton, hsep]
    rfl

/-- The lines of a rule file, section by section. -/
theorem lines_eq (h : layout.Writable) :
    layout.lines = (Directive.lexer.line layout.lexer).toList ::
      ((layout.args.toList.map fun value => (Directive.args.line value).toList) ++
        ((layout.state.toList.map fun value => (Directive.state.line value).toList) ++
          (layout.header.map String.toList ++
            ((namesSection layout.names).map String.toList ++
              layout.rules.flatMap fun rule => "%rule".toList :: ruleLines rule)))) := by
  have hlexer : splitLines (Directive.lexer.line layout.lexer).toList = [_] :=
    Text.splitLines_of_not_mem (newline_not_mem_line (not_mem_of_isIdentifier h.lexer (by decide)))
  have hvalues : ∀ (directive : Directive) (value? : Option String),
      (∀ value ∈ value?, IsValue value) →
      ((value?.toList.map directive.line).map String.toList).flatMap splitLines =
        value?.toList.map fun value => (directive.line value).toList := by
    intro directive value? hvalue
    rw [flatMap_splitLines_of_single, List.map_map]
    · rfl
    · intro part hpart
      obtain ⟨value, hmem, rfl⟩ := List.mem_map.mp hpart
      exact newline_not_mem_line (hvalue value (Option.mem_toList.mp hmem)).single
  rw [lines, parts, List.map_cons, List.flatMap_cons, hlexer]
  simp only [List.map_append, List.flatMap_append, hvalues _ _ h.args, hvalues _ _ h.state,
    flatMap_splitLines_of_single (newline_not_mem_namesSection h), flatMap_splitLines_rules,
    flatMap_splitLines_of_single fun line hline => (h.header line hline).2]
  rfl

/-! ## Sections -/

/-- The header that is read. -/
def readHeader (layout : Layout) : Header where
  lexer := some layout.lexer
  args := layout.args
  state := layout.state
  lines := layout.header.reverse

theorem readHeader_eq (h : layout.Writable) {number : Nat} {args state header rest : List Line}
    (hargs : args.map Prod.snd =
      layout.args.toList.map fun value => (Directive.args.line value).toList)
    (hstate : state.map Prod.snd =
      layout.state.toList.map fun value => (Directive.state.line value).toList)
    (hheader : header.map Prod.snd = layout.header.map String.toList) :
    RuleFile.readHeader {} ((number, (Directive.lexer.line layout.lexer).toList) ::
        (args ++ (state ++ (header ++ rest)))) =
      RuleFile.readHeader layout.readHeader rest := by
  have hcode : ∀ directives : Header,
      directives = { lexer := some layout.lexer, args := layout.args, state := layout.state } →
      { directives with lines := layout.header.reverse ++ directives.lines } =
        layout.readHeader := by
    rintro directives rfl
    rw [readHeader, List.append_nil]
  rw [readHeader_directive rfl (trim_of_isIdentifier h.lexer) (fun _ => h.lexer) rfl,
    readHeader_directive? rfl (fun value hvalue => (h.args value hvalue).trimmed) (by decide) hargs,
    readHeader_directive? _ (fun value hvalue => (h.state value hvalue).trimmed) (by decide) hstate,
    readHeader_code (fun line hline => (h.header line hline).1) hheader]
  · refine congrArg (fun header => RuleFile.readHeader header rest) (hcode _ ?_)
    cases layout.args with
    | none =>
      cases layout.state with
      | none => rfl
      | some state => rfl
    | some args =>
      cases layout.state with
      | none => rfl
      | some state => rfl
  · cases layout.args with
    | none => rfl
    | some args => rfl

/-- The names that are read, and the lines of the first rule. -/
theorem readNames_eq (h : layout.Writable) (header : Header) (number : Nat) {names : List Line}
    (hnames : names.map Prod.snd = (namesSection layout.names).map String.toList)
    (rest : List Line) : ∃ boundary,
      RuleFile.readHeader header (names ++ (number, "%rule".toList) :: rest) =
        .ok (header, boundary) ∧
      readNamesAt boundary = .ok (layout.file.names, .rules rest) := by
  cases hsome : layout.names with
  | none =>
    rw [hsome] at hnames
    obtain rfl : names = [] := List.map_eq_nil_iff.mp hnames
    refine ⟨.rules rest, rfl, ?_⟩
    simp [readNamesAt, file, hsome]
  | some entries =>
    have hentries := h.names
    have hdistinct := h.distinct
    rw [hsome] at hnames hentries hdistinct
    rw [Option.getD_some] at hentries hdistinct
    obtain ⟨⟨number', line⟩, names, rfl, hline, hentriesLines⟩ := List.map_eq_cons_iff.mp hnames
    obtain rfl : line = "%names".toList := hline
    refine ⟨.names (names ++ (number, "%rule".toList) :: rest), rfl, ?_⟩
    rw [List.map_map] at hentriesLines
    have hnodup : (entries.map fun entry => Bytes.ofString entry.1).Nodup := by
      have hmap := List.Nodup.map Bytes.ofString_injective hdistinct
      rwa [List.map_map] at hmap
    have hread := @readNames_names ((number, "%rule".toList) :: rest) entries
      (fun entry hentry => ⟨(hentries entry hentry).1, (hentries entry hentry).2.trimmed⟩)
      [] names hentriesLines hnodup
    rw [readNamesAt, hread, readNames_rule, file, hsome]
    rfl

end Layout

/-- **A rule file that is written down is read back**, with the same directives, the same lines of
code, and the same names and rules in the same order. -/
theorem read_text {layout : Layout} (h : layout.Writable) : read layout.text = .ok layout.file := by
  have hlines := (Layout.numberLines_text h).trans (Layout.lines_eq h)
  obtain ⟨rule, rules, hrules⟩ := List.exists_cons_of_ne_nil h.rules_ne_nil
  -- the numbered lines come apart into the sections
  obtain ⟨⟨number, line⟩, ls, hnumber, hline, hls⟩ := List.map_eq_cons_iff.mp hlines
  obtain rfl : line = _ := hline
  obtain ⟨args, ls, rfl, hargs, hls⟩ := List.map_eq_append_iff.mp hls
  obtain ⟨state, ls, rfl, hstate, hls⟩ := List.map_eq_append_iff.mp hls
  obtain ⟨header, ls, rfl, hheader, hls⟩ := List.map_eq_append_iff.mp hls
  obtain ⟨names, ls, rfl, hnames, hls⟩ := List.map_eq_append_iff.mp hls
  rw [hrules, List.flatMap_cons, List.cons_append] at hls
  obtain ⟨⟨number', line⟩, ls, rfl, hline, hrulesLines⟩ := List.map_eq_cons_iff.mp hls
  obtain rfl : line = "%rule".toList := hline
  obtain ⟨boundary, hheaderRead, hnamesRead⟩ :=
    Layout.readNames_eq h layout.readHeader number' hnames ls
  have hrulesRead : readRulesAt (.rules ls) = .ok (rule :: rules) :=
    @readRules_rules rules rule ls [] (fun r hr => h.rules r (hrules ▸ hr)) hrulesLines
  rw [read, hnumber, Layout.readHeader_eq h hargs hstate hheader, hheaderRead]
  simp only [Layout.readHeader, hnamesRead, hrulesRead, List.reverse_reverse]
  rw [Layout.file, hrules]

/-- A layout with all sections, an empty line of code, an empty expansion, and a rule whose second
line starts with a number sign inside an action block. -/
def blockLayout : Layout where
  lexer := "my_lexer"
  args := some "FILE *out, int x"
  state := some ""
  header := ["#include <stdio.h>", "", " %code"]
  names := some [("digit", "[0-9]"), ("none", "")]
  rules := ["(!digit)+ \x7ba(\"\x7d\");\n# b\n\x7d", "x\n\ny"]

theorem isRule_blockLayout : ∀ rule ∈ blockLayout.rules, IsRule rule := by
  intro rule hrule
  cases hrule with
  | head => exact ⟨by decide, by decide, by decide, by decide, by decide⟩
  | tail _ hrule =>
    cases hrule with
    | head => exact ⟨by decide, by decide, by decide, by decide, by decide⟩
    | tail _ hrule => cases hrule

/-- The layout with all sections is read back. -/
theorem read_blockLayout :
    blockLayout.Writable ∧ read blockLayout.text = .ok blockLayout.file := by
  have hvalue : ∀ value ∈ ["FILE *out, int x", "", "[0-9]"], Layout.IsValue value := by
    intro value hvalue
    fin_cases hvalue
    all_goals exact ⟨by decide, by decide⟩
  have hwritable : blockLayout.Writable := {
    lexer := by decide
    args := fun value h => by cases h; exact hvalue _ (by decide)
    state := fun value h => by cases h; exact hvalue _ (by decide)
    header := by decide
    names := by
      intro entry h
      fin_cases h
      · exact ⟨by decide, hvalue _ (by decide)⟩
      · exact ⟨by decide, hvalue _ (by decide)⟩
    distinct := by decide
    rules_ne_nil := by decide
    rules := isRule_blockLayout
    no_return := by decide }
  exact ⟨hwritable, read_text hwritable⟩

end ActionRegex.RuleFile
