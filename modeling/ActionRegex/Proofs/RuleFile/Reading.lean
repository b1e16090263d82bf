import ActionRegex.Proofs.RuleFile.BraceScan
import ActionRegex.Proofs.Text.Lines

/-!
# Reading a section

What the three readers of a rule file make of the lines that a section is meant to have: a directive
sets its value, a line of code is kept (`readHeader_code`), a name is defined behind the names
before it (`readNames_names`), and the lines of a rule are kept up to the next separator
(`readRules_rules`). Lines carry numbers for error messages only, so the lines of a section are
given by their texts.
-/

namespace ActionRegex.RuleFile

open Text (isBlank splitFirst splitLines trim trimEnd trimStart)

variable {number : Nat} {text : List Char} {rest : List Line}

/-! ## Identifiers -/

theorem toNat_mem_of_isAlphanum {c : Char} (h : (c.isAlphanum || c == '_') = true) :
    48 ≤ c.toNat ∧ c.toNat ≤ 57 ∨ 65 ≤ c.toNat ∧ c.toNat ≤ 90 ∨ c.toNat = 95 ∨
      97 ≤ c.toNat ∧ c.toNat ≤ 122 := by
  have htoNat : c.toNat = c.val.toNat := rfl
  have halnum : c.isAlphanum = (decide ('A'.val ≤ c.val ∧ c.val ≤ 'Z'.val) ||
      (decide ('a'.val ≤ c.val) && decide (c.val ≤ 'z'.val)) ||
        (decide ('0'.val ≤ c.val) && decide (c.val ≤ '9'.val))) := rfl
  simp only [halnum, Bool.or_eq_true, Bool.and_eq_true, decide_eq_true_eq,
    UInt32.le_iff_toNat_le, beq_iff_eq] at h
  rcases h with h | rfl
  · have hdigits : '0'.val.toNat = 48 ∧ '9'.val.toNat = 57 := ⟨rfl, rfl⟩
    have hupper : 'A'.val.toNat = 65 ∧ 'Z'.val.toNat = 90 := ⟨rfl, rfl⟩
    have hlower : 'a'.val.toNat = 97 ∧ 'z'.val.toNat = 122 := ⟨rfl, rfl⟩
    omega
  · exact Or.inr (Or.inr (Or.inl rfl))

/-- The characters of an identifier. -/
theorem isIdentifier_iff : isIdentifier text = true ↔
    ∃ c rest, text = c :: rest ∧ c.isAlpha = true ∧
      ∀ c ∈ rest, (c.isAlphanum || c == '_') = true := by
  cases text with
  | nil => simp [isIdentifier]
  | cons c rest => simp [isIdentifier, List.all_eq_true]

theorem isAlphanum_of_mem (h : isIdentifier text = true) {c : Char}
    (hc : c ∈ text) : (c.isAlphanum || c == '_') = true := by
  obtain ⟨first, rest, rfl, hfirst, hrest⟩ := isIdentifier_iff.mp h
  cases List.mem_cons.mp hc with
  | inl heq =>
    subst heq
    simp [Char.isAlphanum, hfirst]
  | inr hmem => exact hrest c hmem

theorem isBlank_eq_false_of_mem (h : isIdentifier text = true) {c : Char}
    (hc : c ∈ text) : isBlank c = false := by
  have hrange := toNat_mem_of_isAlphanum (isAlphanum_of_mem h hc)
  simp only [isBlank, Text.blankRanges, List.any_cons, List.any_nil, Bool.or_eq_false_iff,
    Bool.and_eq_false_iff, decide_eq_false_iff_not, and_true]
  omega

theorem not_mem_of_isIdentifier (h : isIdentifier text = true) {c : Char}
    (hc : (c.isAlphanum || c == '_') = false) : c ∉ text := by
  intro hmem
  rw [isAlphanum_of_mem h hmem] at hc
  exact Bool.noConfusion hc

theorem trim_of_isIdentifier (h : isIdentifier text = true) : trim text = text := by
  have hblank : ∀ c ∈ text, isBlank c = false := fun _ hc => isBlank_eq_false_of_mem h hc
  obtain ⟨c, rest, rfl, -, -⟩ := isIdentifier_iff.mp h
  refine Text.trim_eq_self (hblank c List.mem_cons_self) ?_
  rw [trimEnd, List.dropWhile_eq_self_iff.mpr, List.reverse_reverse]
  intro hpos
  rw [hblank _ (List.mem_reverse.mp (List.getElem_mem hpos))]
  exact Bool.false_ne_true

/-! ## Header -/

/-- The word of a directive. -/
def Directive.word : Directive → String
  | .lexer => "prefix"
  | .args => "args"
  | .state => "state"

/-- The line of a directive: a percent sign, its word, a blank and its value. -/
def Directive.line (directive : Directive) (value : String) : String :=
  "%" ++ directive.word ++ " " ++ value

theorem Directive.toList_line (directive : Directive) (value : String) :
    (directive.line value).toList = '%' :: (directive.word.toList ++ ' ' :: value.toList) := by
  simp [line, String.toList_append]

theorem splitDirective_line (directive : Directive) (value : List Char) :
    splitDirective (directive.word.toList ++ ' ' :: value) =
      (directive.word.toList, trim value) := by
  have hword : ∀ c ∈ directive.word.toList, isBlank c = false := by
    intro c hc
    refine isBlank_eq_false_of_mem ?_ hc
    cases directive with
    | lexer => rfl
    | args => rfl
    | state => rfl
  rw [splitDirective, Text.splitFirst_append_cons hword (by decide)]

/-- A directive sets its value, if it has none so far. -/
theorem Header.add_line {header : Header} {directive : Directive} {value : String}
    (hnew : header.get? directive = none) (htrim : trim value.toList = value.toList)
    (hlexer : directive = .lexer → isIdentifier value.toList = true) (number : Nat) :
    header.add number (directive.word.toList ++ ' ' :: value.toList) =
      .ok (header.set directive value) := by
  have hword : Directive.ofWord? directive.word.toList = some directive := by
    cases directive with
    | lexer => rfl
    | args => rfl
    | state => rfl
  rw [Header.add, splitDirective_line]
  simp only [hword, hnew, htrim, String.ofList_toList, Option.isSome_none, Bool.false_eq_true,
    if_false]
  exact if_neg fun h => h.2 (hlexer h.1)

/-- The line of a directive does not end the header. -/
theorem Directive.not_startsWith_line (directive : Directive) (value : String) :
    startsWith "%names" (directive.line value).toList = false ∧
      startsWith "%rule" (directive.line value).toList = false := by
  rw [toList_line]
  cases directive with
  | lexer => exact ⟨rfl, rfl⟩
  | args => exact ⟨rfl, rfl⟩
  | state => exact ⟨rfl, rfl⟩

theorem readHeader_directive {header : Header} {directive : Directive} {value : String}
    (hnew : header.get? directive = none) (htrim : trim value.toList = value.toList)
    (hlexer : directive = .lexer → isIdentifier value.toList = true)
    (htext : text = (directive.line value).toList) :
    readHeader header ((number, text) :: rest) = readHeader (header.set directive value) rest := by
  obtain ⟨hnames, hrule⟩ := directive.not_startsWith_line value
  subst htext
  rw [Directive.toList_line] at hnames hrule ⊢
  rw [readHeader, hnames, hrule, if_neg Bool.false_ne_true, if_neg Bool.false_ne_true]
  simp only [Header.add_line hnew htrim hlexer]

/-- A directive that may be missing. -/
theorem readHeader_directive? {header : Header} {directive : Directive} {value? : Option String}
    {ls : List Line} (hnew : header.get? directive = none)
    (htrim : ∀ value ∈ value?, trim value.toList = value.toList)
    (hlexer : directive ≠ .lexer)
    (hls : ls.map Prod.snd = value?.toList.map fun value => (directive.line value).toList) :
    readHeader header (ls ++ rest) =
      readHeader (value?.elim header (header.set directive)) rest := by
  cases value? with
  | none =>
    obtain rfl : ls = [] := List.map_eq_nil_iff.mp hls
    rfl
  | some value =>
    obtain ⟨⟨number, text⟩, ls', rfl, htext, hls'⟩ := List.map_eq_cons_iff.mp hls
    obtain rfl : ls' = [] := List.map_eq_nil_iff.mp hls'
    exact readHeader_directive hnew (htrim value rfl) (fun h => absurd h hlexer) htext

/-- A line of code is kept. -/
theorem readHeader_line {header : Header} (htext : text.head? ≠ some '%') :
    readHeader header ((number, text) :: rest) =
      readHeader { header with lines := String.ofList text :: header.lines } rest := by
  cases text with
  | nil => rfl
  | cons c text =>
    have hc : ('%' == c) = false := beq_eq_false_iff_ne.mpr fun h => htext (by rw [← h]; rfl)
    have hnames : startsWith "%names" (c :: text) = false := by
      show ('%' == c && _) = false
      rw [hc, Bool.false_and]
    have hrule : startsWith "%rule" (c :: text) = false := by
      show ('%' == c && _) = false
      rw [hc, Bool.false_and]
    rw [readHeader, hnames, hrule, if_neg Bool.false_ne_true, if_neg Bool.false_ne_true]
    · intro rest heq
      rw [(List.cons.inj heq).1] at hc
      simp at hc

/-- Lines of code are kept in their order. -/
theorem readHeader_code {code : List String} (hcode : ∀ line ∈ code, line.toList.head? ≠ some '%') :
    ∀ {header : Header} {ls : List Line}, ls.map Prod.snd = code.map String.toList →
    readHeader header (ls ++ rest) =
      readHeader { header with lines := code.reverse ++ header.lines } rest := by
  induction code with
  | nil =>
    intro header ls hls
    obtain rfl : ls = [] := List.map_eq_nil_iff.mp hls
    rfl
  | cons line code ih =>
    intro header ls hls
    obtain ⟨⟨number, text⟩, ls', rfl, htext, hls'⟩ := List.map_eq_cons_iff.mp hls
    obtain rfl : text = line.toList := htext
    rw [List.cons_append, readHeader_line (hcode line List.mem_cons_self),
      ih (fun line h => hcode line (List.mem_cons_of_mem _ h)) hls', String.ofList_toList,
      List.reverse_cons, List.append_assoc, List.singleton_append]

/-! ## Names -/

/-- The line of a name: the name, an equals sign between blanks, and the expansion. -/
def nameLine (entry : String × String) : String := entry.1 ++ " = " ++ entry.2

theorem toList_nameLine (entry : String × String) :
    (nameLine entry).toList = entry.1.toList ++ ' ' :: '=' :: ' ' :: entry.2.toList := by
  simp [nameLine, String.toList_append]

/-- A name that is not defined is added behind the others. -/
theorem Macros.define_eq_append {name : Bytes} {macros : Macros} (hnew : name ∉ macros.map Prod.fst)
    (body : Bytes) : Macros.define name body macros = macros ++ [(name, body)] := by
  induction macros with
  | nil => rfl
  | cons entry macros ih =>
    rw [List.map_cons, List.mem_cons, not_or] at hnew
    obtain ⟨n, b⟩ := entry
    rw [Macros.define, if_neg (Ne.symm hnew.1), ih hnew.2, List.cons_append]

/-- What is left of the line of a name without its blanks is read as that name and its
expansion. -/
theorem trim_nameLine {entry : String × String} (hname : isIdentifier entry.1.toList = true)
    (hbody : trim entry.2.toList = entry.2.toList) :
    ∃ body, trim (nameLine entry).toList = entry.1.toList ++ ' ' :: '=' :: body ∧
      trim body = entry.2.toList := by
  obtain ⟨c, front, hfront, -, -⟩ := isIdentifier_iff.mp hname
  have hc : isBlank c = false := isBlank_eq_false_of_mem hname (by rw [hfront]; simp)
  have hstart : trimStart (nameLine entry).toList = (nameLine entry).toList := by
    rw [toList_nameLine, hfront]
    exact Text.trimStart_cons hc
  refine ⟨trimEnd (' ' :: entry.2.toList), ?_, ?_⟩
  · rw [trim, hstart, toList_nameLine, List.append_cons, Text.trimEnd_append_cons (by decide) _ _,
      ← List.append_cons]
  · cases hlist : entry.2.toList with
    | nil => decide
    | cons d body =>
      rw [hlist] at hbody
      have hd : isBlank d = false :=
        Text.isBlank_of_trimStart_eq (Text.trimStart_eq_of_trim_eq hbody)
      have hend : trimEnd (' ' :: d :: body) = ' ' :: d :: trimEnd body :=
        Text.trimEnd_append_cons hd [' '] body
      have hbodyEnd : d :: trimEnd body = d :: body :=
        (Text.trimEnd_append_cons hd [] body).symm.trans (Text.trimEnd_eq_of_trim_eq hbody)
      rw [hend, hbodyEnd, Text.trim_cons_of_isBlank (by decide), hbody]

/-- A name and its expansion, as they are kept. -/
def encodeName (entry : String × String) : Bytes × Bytes :=
  (Bytes.ofString entry.1, Bytes.ofString entry.2)

/-- A text that starts with an identifier does not start with anything else. -/
theorem isPrefixOf_append_of_isIdentifier {name : List Char} (h : isIdentifier name = true)
    {c : Char} (hc : (c.isAlphanum || c == '_') = false) (word text : List Char) :
    List.isPrefixOf (c :: word) (name ++ text) = false := by
  obtain ⟨first, name, rfl, -, -⟩ := isIdentifier_iff.mp h
  have hne : (c == first) = false := by
    refine beq_eq_false_iff_ne.mpr fun heq => ?_
    rw [heq, isAlphanum_of_mem h List.mem_cons_self] at hc
    exact Bool.noConfusion hc
  rw [List.cons_append, List.isPrefixOf_cons_cons, hne, Bool.false_and]

/-- An equals sign separates the name and the expansion, and the blanks around it are dropped. -/
theorem splitName_append {name : List Char} (h : isIdentifier name = true) (body : List Char) :
    splitName (name ++ ' ' :: '=' :: body) = some (name, trim body) := by
  have hequals : ∀ c ∈ name ++ [' '], (c == '=') = false := by
    intro c hc
    refine beq_eq_false_iff_ne.mpr fun heq => ?_
    subst heq
    cases List.mem_append.mp hc with
    | inl hc => exact not_mem_of_isIdentifier h (by decide) hc
    | inr hc => simp at hc
  have htrim : trim (name ++ [' ']) = name := by
    have hstart : trimStart (name ++ [' ']) = name ++ [' '] := by
      obtain ⟨first, name, rfl, -, -⟩ := isIdentifier_iff.mp h
      exact Text.trimStart_cons (isBlank_eq_false_of_mem h List.mem_cons_self)
    rw [trim, hstart, Text.trimEnd_concat_of_isBlank (by decide)]
    exact Text.trimEnd_eq_of_trim_eq (trim_of_isIdentifier h)
  rw [splitName, List.append_cons, Text.splitFirst_append_cons hequals (by decide)]
  simp only [htrim, h, if_true]

/-- A name is defined. -/
theorem readNames_name {names : Macros} {entry : String × String}
    (hname : isIdentifier entry.1.toList = true) (hbody : trim entry.2.toList = entry.2.toList)
    (htext : text = (nameLine entry).toList) :
    readNames names ((number, text) :: rest) =
      readNames (Macros.define (encodeName entry).1 (encodeName entry).2 names) rest := by
  obtain ⟨body, hline, htrim⟩ := trim_nameLine hname hbody
  have hrule : startsWith "%rule" (entry.1.toList ++ ' ' :: '=' :: body) = false :=
    isPrefixOf_append_of_isIdentifier hname (by decide) _ _
  have hcomment : startsWith "#" (entry.1.toList ++ ' ' :: '=' :: body) = false :=
    isPrefixOf_append_of_isIdentifier hname (by decide) _ _
  have hempty : (entry.1.toList ++ ' ' :: '=' :: body).isEmpty = false := by simp
  subst htext
  rw [readNames, hline, hrule, hempty, hcomment]
  simp [splitName_append hname, htrim, encodeName]

/-- **The names of a section are defined in their order.** -/
theorem readNames_names {entries : List (String × String)}
    (hnames : ∀ entry ∈ entries, isIdentifier entry.1.toList = true ∧
      trim entry.2.toList = entry.2.toList) :
    ∀ {names : Macros} {ls : List Line},
    ls.map Prod.snd = entries.map (fun entry => (nameLine entry).toList) →
    (names.map Prod.fst ++ entries.map fun entry => Bytes.ofString entry.1).Nodup →
    readNames names (ls ++ rest) = readNames (names ++ entries.map encodeName) rest := by
  induction entries with
  | nil =>
    intro names ls hls _
    obtain rfl : ls = [] := List.map_eq_nil_iff.mp hls
    rw [List.nil_append, List.map_nil, List.append_nil]
  | cons entry entries ih =>
    intro names ls hls hnodup
    obtain ⟨⟨number, text⟩, ls', rfl, htext, hls'⟩ := List.map_eq_cons_iff.mp hls
    obtain ⟨hname, hbody⟩ := hnames entry List.mem_cons_self
    have hnew : (encodeName entry).1 ∉ names.map Prod.fst := by
      intro hmem
      have hdisjoint := (List.nodup_append.mp hnodup).2.2
      exact hdisjoint _ hmem _ List.mem_cons_self rfl
    rw [List.cons_append, readNames_name hname hbody htext, Macros.define_eq_append hnew,
      ih (fun entry h => hnames entry (List.mem_cons_of_mem _ h)) hls', List.append_assoc]
    · rfl
    · rw [List.map_append, List.append_assoc]
      exact hnodup

theorem readNames_rule (names : Macros) (number : Nat) (rest : List Line) :
    readNames names ((number, "%rule".toList) :: rest) = .ok (names, .rules rest) := rfl

/-! ## Rules -/

/-- The lines of a rule. -/
def ruleLines (rule : String) : List (List Char) := splitLines rule.toList

/-- How many braces are open after some lines of a rule. -/
def openBraces (lines : List (List Char)) : Nat :=
  (BraceScan.scanLines {} (lines.map fun line => (0, Bytes.ofString (String.ofList line)))).depth

/-- What is written between two separators: no separator, no comment outside action blocks, and no
action block that is open in the end. -/
structure IsRule (rule : String) : Prop where
  nonblank : trim rule.toList ≠ []
  trimmed : trimEnd rule.toList = rule.toList
  not_separator : ∀ line ∈ ruleLines rule, trim line ≠ "%rule".toList
  not_comment : ∀ k (h : k < (ruleLines rule).length), openBraces ((ruleLines rule).take k) = 0 →
    startsWith "#" (trimStart (ruleLines rule)[k]) = false
  closed : openBraces (ruleLines rule) = 0

theorem IsRule.not_comment_of_eq {rule : String} (h : IsRule rule) {before after : List (List Char)}
    {line : List Char} (heq : ruleLines rule = before ++ line :: after)
    (hdepth : openBraces before = 0) : startsWith "#" (trimStart line) = false := by
  have hk : before.length < (ruleLines rule).length := by
    rw [heq, List.length_append, List.length_cons]
    omega
  have hline := h.not_comment before.length hk
  simp only [heq, List.take_left, List.getElem_append_right (Nat.le_refl _), Nat.sub_self,
    List.getElem_cons_zero] at hline
  exact hline hdepth

/-- How many braces are open does not depend on line numbers. -/
theorem depth_scanBytes_congr {number' : Nat} {scan scan' : BraceScan}
    (h : scan.depth = scan'.depth) (context : BraceScan.Context) (skip : Bool) (bytes : Bytes) :
    (BraceScan.scanBytes number context skip scan bytes).depth =
      (BraceScan.scanBytes number' context skip scan' bytes).depth := by
  induction bytes generalizing context skip scan scan' with
  | nil => exact h
  | cons b bytes ih =>
    unfold BraceScan.scanBytes
    rw [h]
    split
    · exact ih h _ _
    · -- both scans take the same branch, and it changes the depth in the same way
      cases context
      all_goals
        dsimp only
        split_ifs
        all_goals exact ih (by simp [h]) _ _

/-- One more line of a rule. -/
theorem depth_scanLine {lines : List (List Char)} {scan : BraceScan}
    (h : scan.depth = openBraces lines) (number : Nat) (line : List Char) :
    (scan.scanLine number (Bytes.ofString (String.ofList line))).depth =
      openBraces (lines ++ [line]) := by
  rw [openBraces, List.map_append, BraceScan.scanLines, List.foldl_append]
  exact depth_scanBytes_congr h _ _ _

/-- Adds lines to the current rule. -/
def Rules.addLines (rules : Rules) (ls : List Line) : Rules :=
  ls.foldl (fun rules line => rules.addLine line.1 line.2) rules

theorem readRules_append {ls : List Line}
    (hsep : ∀ line ∈ ls.map Prod.snd, trim line ≠ "%rule".toList) (rules : Rules) :
    readRules rules (ls ++ rest) = readRules (rules.addLines ls) rest := by
  induction ls generalizing rules with
  | nil => rfl
  | cons line ls ih =>
    obtain ⟨number, text⟩ := line
    rw [List.map_cons] at hsep
    rw [List.cons_append, readRules, if_neg (hsep text List.mem_cons_self),
      ih fun line h => hsep line (List.mem_cons_of_mem _ h)]
    rfl

/-- The rules read so far, with some lines of the current one. -/
structure Rules.Holds (rules : Rules) (complete : List String) (lines : List (List Char)) :
    Prop where
  complete_eq : rules.complete = complete
  current_eq : rules.current = lines.reverse
  depth_eq : rules.scan.depth = openBraces lines

/-- A line that is not a comment is added. -/
theorem Rules.Holds.addLine {rules : Rules} {complete : List String} {lines : List (List Char)}
    (h : rules.Holds complete lines)
    (hcomment : openBraces lines = 0 → startsWith "#" (trimStart text) = false) (number : Nat) :
    (rules.addLine number text).Holds complete (lines ++ [text]) := by
  have hnot : ¬ (rules.scan.depth = 0 ∧ startsWith "#" (trimStart text) = true) := by
    rintro ⟨hdepth, hstarts⟩
    rw [hcomment (h.depth_eq ▸ hdepth)] at hstarts
    exact Bool.noConfusion hstarts
  rw [Rules.addLine, if_neg hnot]
  refine ⟨h.complete_eq, ?_, depth_scanLine h.depth_eq number text⟩
  rw [List.reverse_append, ← h.current_eq]
  rfl

theorem Rules.Holds.addLines {ls : List Line} {complete : List String} :
    ∀ {rules : Rules} {lines : List (List Char)}, rules.Holds complete lines →
    (∀ before line after, ls.map Prod.snd = before ++ line :: after →
      openBraces (lines ++ before) = 0 → startsWith "#" (trimStart line) = false) →
    (rules.addLines ls).Holds complete (lines ++ ls.map Prod.snd) := by
  induction ls with
  | nil =>
    intro rules lines h _
    rw [List.map_nil, List.append_nil]
    exact h
  | cons first ls ih =>
    intro rules lines h hcomment
    obtain ⟨number, text⟩ := first
    have hfirst := h.addLine (fun hdepth => hcomment [] text (ls.map Prod.snd) rfl
      (by rwa [List.append_nil])) number
    rw [List.map_cons, List.append_cons]
    refine ih hfirst fun before line after heq hdepth => ?_
    refine hcomment (text :: before) line after ?_ ?_
    · rw [List.map_cons, heq, List.cons_append]
    · rwa [List.append_cons]

/-- A rule of whole lines is complete at the separator. -/
theorem Rules.Holds.finish {rules : Rules} {complete : List String} {rule : String}
    (h : rules.Holds complete (ruleLines rule)) (hrule : IsRule rule) :
    rules.finish = .ok { complete := rule :: complete } := by
  have htext : trimEnd (ruleText rules.current) = rule.toList := by
    rw [ruleText, h.current_eq, List.reverse_reverse, ruleLines, Text.flatMap_splitLines,
      Text.trimEnd_concat_of_isBlank (by decide), hrule.trimmed]
  have hne : rule.toList.isEmpty = false := by
    cases hlist : rule.toList with
    | nil => exact absurd (by rw [hlist]; rfl) hrule.nonblank
    | cons c text => rfl
  have hclosed : ¬ rules.scan.depth > 0 := by
    rw [h.depth_eq, hrule.closed]
    exact Nat.lt_irrefl 0
  rw [Rules.finish, if_neg hclosed]
  simp only [htext, hne, h.complete_eq, String.ofList_toList]
  rfl

/-- The lines of a rule are read up to the next separator. -/
theorem readRules_rule {ls : List Line} {rule : String} (hrule : IsRule rule)
    (hls : ls.map Prod.snd = ruleLines rule) (complete : List String) (rest : List Line) :
    ∃ rules, rules.finish = .ok { complete := rule :: complete } ∧
      readRules { complete } (ls ++ rest) = readRules rules rest := by
  refine ⟨Rules.addLines { complete } ls, ?_, readRules_append ?_ _⟩
  · have hstart : Rules.Holds { complete } complete [] := ⟨rfl, rfl, rfl⟩
    have hholds := hstart.addLines fun before line after heq =>
      hrule.not_comment_of_eq (hls ▸ heq)
    rw [List.nil_append, hls] at hholds
    exact hholds.finish hrule
  · rw [hls]
    exact hrule.not_separator

/-- **The rules of a section are read in their order.** -/
theorem readRules_rules {rules : List String} :
    ∀ {rule : String} {ls : List Line} {complete : List String},
    (∀ r ∈ rule :: rules, IsRule r) →
    ls.map Prod.snd =
      ruleLines rule ++ rules.flatMap (fun rule => "%rule".toList :: ruleLines rule) →
    readRules { complete } ls = .ok (complete.reverse ++ rule :: rules) := by
  induction rules with
  | nil =>
    intro rule ls complete hrules hls
    rw [List.flatMap_nil, List.append_nil] at hls
    obtain ⟨finished, hfinish, hread⟩ :=
      readRules_rule (hrules rule List.mem_cons_self) hls complete []
    rw [List.append_nil] at hread
    rw [hread, readRules, hfinish]
    simp
  | cons next rules ih =>
    intro rule ls complete hrules hls
    obtain ⟨first, more, rfl, hfirst, hmore⟩ := List.map_eq_append_iff.mp hls
    obtain ⟨⟨number, text⟩, more, rfl, htext, hrest⟩ := List.map_eq_cons_iff.mp hmore
    obtain rfl : text = "%rule".toList := htext
    obtain ⟨finished, hfinish, hread⟩ :=
      readRules_rule (hrules rule List.mem_cons_self) hfirst complete
        ((number, "%rule".toList) :: more)
    have hsep : trim "%rule".toList = "%rule".toList := rfl
    rw [hread, readRules, if_pos hsep, hfinish]
    show readRules { complete := rule :: complete } more = _
    rw [ih (fun r h => hrules r (List.mem_cons_of_mem _ h)) hrest, List.reverse_cons,
      List.append_assoc, List.singleton_append]

end ActionRegex.RuleFile
