import ActionRegex.Proofs.Lexer.Reading.Conditions
import ActionRegex.Proofs.Pattern.Registered
import ActionRegex.Proofs.RuleFile.Reading

/-!
# Written lexers are read back

What is written for a program is read as the switch of that program (`read?_write`), if no branch is
without a test and the actions can stand between braces (`Readable`). The state variable must not be
mistaken for the start of a block or of a return (`IsVariable`). No expression of C is, and neither
is the variable of a lexer whose name is an identifier (`isVariable_stateVariable`).
-/

namespace ActionRegex.Lexer

open Bytes (ofString ofString_append)
open Dfa (Outcome)
open Pattern (BlockText)

variable {rest : Bytes}

/-! ## Names -/

section Files

variable (options : Options) (lines : List String)

/-- What a lexer with options was asked for. -/
def settingOf : Setting := ⟨options.lexer, options.args, options.state, lines⟩

variable {options lines}

theorem tagOf_eq (state : Nat) :
    tagOf options state = ofString options.lexer ++ (ofString "_STATE_" ++ numeral state) := by
  rw [tagOf, Options.tag, ofString_append, ofString_append, List.append_assoc]
  rfl

theorem ofString_tag (state : Nat) : ofString (options.tag state) = tagOf options state := rfl

theorem readTag_tagOf (state : Nat) (hrest : EndsDigits rest) :
    readTag (settingOf options lines) (tagOf options state ++ rest) =
      some (tagOf options state, rest) := by
  rw [tagOf_eq, List.append_assoc, List.append_assoc]
  simp only [readTag, settingOf, expect_cons, expect_nil, readDigits_numeral state hrest,
    Option.bind_eq_bind, Option.bind_some, List.append_assoc]

theorem endsDigits_cons {b : UInt8} (hb : Ascii.isDigit b = false) (rest : Bytes) :
    EndsDigits (b :: rest) :=
  Pattern.isDigit_head hb

theorem expect_eq_none {part : String} {text : Bytes} (parts : List String)
    (h : ¬ ofString part <+: text) : expect (part :: parts) text = none := by
  cases hdrop : text.dropPrefix? (ofString part) with
  | none => rw [expect, hdrop, Option.bind_none]
  | some rest =>
    obtain ⟨front, rfl, hfront⟩ := List.dropPrefix?_eq_some_iff.mp hdrop
    obtain rfl := eq_of_beq hfront
    exact absurd (List.prefix_append _ _) h

theorem IsVariable.expect_block {name : String} (h : IsVariable name) {b : UInt8}
    (hb : b ≠ Ascii.leftBrace) : expect ["\x7b"] (ofString name ++ b :: rest) = none := by
  refine expect_eq_none [] fun hprefix => ?_
  have hbrace : ofString "\x7b" = [Ascii.leftBrace] := rfl
  have hnot := h.not_block
  rw [hbrace] at hprefix hnot
  cases hname : ofString name with
  | nil =>
    rw [hname] at hprefix
    exact hb (List.cons_prefix_cons.mp hprefix).1.symm
  | cons c cs =>
    rw [hname] at hprefix hnot
    exact hnot (List.cons_prefix_cons.mpr ⟨(List.cons_prefix_cons.mp hprefix).1, List.nil_prefix⟩)

theorem IsVariable.expect_return {name : String} (h : IsVariable name) {b : UInt8}
    (hb : b = Ascii.plus ∨ b = Ascii.space) :
    expect ["return "] (ofString name ++ b :: rest) = none := by
  refine expect_eq_none [] fun hprefix => ?_
  have hnot := h.not_return
  rw [ofString_append] at hnot
  generalize ofString name = text at hprefix hnot
  rcases List.prefix_or_prefix_of_prefix hprefix (List.prefix_append text _) with hlong | hshort
  · exact hnot (hlong.trans (List.prefix_append _ _))
  · have hreturn : ofString "return " = [114, 101, 116, 117, 114, 110, 32] := rfl
    have hspace : ofString " " = [32] := rfl
    rw [hreturn] at hshort hnot hprefix
    rw [hspace] at hnot
    -- a shorter name ends where the keyword goes on with a letter
    have hmem := (List.mem_inits _ _).mpr hshort
    simp only [List.inits, List.map_cons, List.map_nil, List.mem_cons, List.not_mem_nil,
      or_false] at hmem
    rcases hb with rfl | rfl <;> rcases hmem with rfl | rfl | rfl | rfl | rfl | rfl | rfl | rfl <;>
      simp [Ascii.plus, Ascii.space] at hprefix hnot

/-- A lexer whose name is an identifier has a variable of its own. -/
theorem isVariable_stateVariable (hname : RuleFile.isIdentifier options.lexer.toList = true)
    (hstate : options.state = none) : IsVariable options.stateVariable := by
  have hvariable : options.stateVariable = options.lexer ++ "_state" := by
    rw [Options.stateVariable, hstate]
    rfl
  have hnot : ∀ c b, String.utf8EncodeChar c = [b] → Ascii.isHigh b = false →
      (c.isAlphanum || c == '_') = false → b ∉ ofString options.stateVariable := by
    intro c b hencode hb hc hmem
    have hmem' := Bytes.mem_toList_of_mem_ofString hencode hb hmem
    rw [hvariable, String.toList_append] at hmem'
    rcases List.mem_append.mp hmem' with hlexer | hending
    · exact RuleFile.not_mem_of_isIdentifier hname hc hlexer
    · have hall : ("_state".toList.all fun c => c.isAlphanum || c == '_') = true := rfl
      rw [List.all_eq_true.mp hall c hending] at hc
      exact Bool.noConfusion hc
  refine ⟨fun hprefix => ?_, fun hprefix => ?_⟩
  · have hmem : (123 : UInt8) ∈ ofString "\x7b" := by decide
    exact hnot '\x7b' 123 rfl rfl (by decide) (List.IsPrefix.subset hprefix hmem)
  · -- the keyword and its blank are no longer than the name, so the blank would be in the name
    rw [ofString_append] at hprefix
    have hlength : (ofString "return ").length ≤ (ofString options.stateVariable).length := by
      have hpositive : 0 < (ofString options.lexer).length := by
        obtain ⟨c, rest, hchars, -, -⟩ := RuleFile.isIdentifier_iff.mp hname
        obtain ⟨first, more, hencode, -, -⟩ := Bytes.utf8EncodeChar_shape c
        rw [ofString, hchars, List.flatMap_cons, hencode]
        exact Nat.succ_pos _
      have hending : (ofString "_state").length = 6 := rfl
      have hreturn : (ofString "return ").length = 7 := rfl
      rw [hvariable, ofString_append, List.length_append, hending, hreturn]
      omega
    have hwithin := List.prefix_of_prefix_length_le hprefix (List.prefix_append _ _) hlength
    have hmem : (32 : UInt8) ∈ ofString "return " := by decide
    exact hnot ' ' 32 rfl rfl (by decide) (List.IsPrefix.subset hwithin hmem)

/-! ## Ends of calls -/

/-- The ending of the name of an outcome, in a statement. -/
def endingOf : Outcome → String
  | .accept => "_ACCEPT;"
  | .continue => "_CONTINUE;"
  | .fail => "_FAIL;"

/-- A return as it is written. -/
def returnOf (options : Options) (outcome : Outcome) : String :=
  "return " ++ options.lexer ++ endingOf outcome

theorem readReturn_returnOf (outcome : Outcome) (rest : Bytes) :
    readReturn (settingOf options lines) (ofString (returnOf options outcome) ++
      (ofString "\n" ++ rest)) = some (outcome, rest) := by
  rw [returnOf, ofString_append, ofString_append, List.append_assoc, List.append_assoc]
  simp only [readReturn, settingOf, expect_cons, expect_nil, Option.bind_eq_bind, Option.bind_some]
  cases outcome with
  | accept =>
    simp only [outcomes, endingOf, List.findSome?, expect_cons, expect_nil, Option.map_some]
  | «continue» =>
    have haccept : expect ["_ACCEPT;", "\n"]
        (ofString "_CONTINUE;" ++ (ofString "\n" ++ rest)) = none := rfl
    simp only [outcomes, endingOf, List.findSome?, haccept, expect_cons, expect_nil,
      Option.map_none, Option.map_some]
  | fail =>
    have haccept : expect ["_ACCEPT;", "\n"]
        (ofString "_FAIL;" ++ (ofString "\n" ++ rest)) = none := rfl
    have hcontinue : expect ["_CONTINUE;", "\n"]
        (ofString "_FAIL;" ++ (ofString "\n" ++ rest)) = none := rfl
    simp only [outcomes, endingOf, List.findSome?, haccept, hcontinue, expect_cons, expect_nil,
      Option.map_none, Option.map_some]

/-- A statement that changes the state variable as it is written. -/
def updateOf (options : Options) : Update → Bytes
  | .assign tag => ofString options.stateVariable ++ (ofString " = " ++ (tag ++ ofString ";"))
  | .increment => ofString options.stateVariable ++ ofString "++;"

theorem readIncrement_updateOf (rest : Bytes) :
    readIncrement (settingOf options lines) (updateOf options .increment ++
      (ofString "\n" ++ rest)) = some (.increment, rest) := by
  have hname : (settingOf options lines).variableName = options.stateVariable := rfl
  rw [updateOf, List.append_assoc, readIncrement, hname, expect_cons, expect_cons, expect_cons,
    expect_nil]
  rfl

theorem readAssignment_updateOf (state : Nat) (rest : Bytes) :
    readAssignment (settingOf options lines) (updateOf options (.assign (tagOf options state)) ++
      (ofString "\n" ++ rest)) = some (.assign (tagOf options state), rest) := by
  have hname : (settingOf options lines).variableName = options.stateVariable := rfl
  have htag : EndsDigits (ofString ";" ++ (ofString "\n" ++ rest)) := endsDigits_cons rfl _
  simp only [updateOf, readAssignment, hname, List.append_assoc, expect_cons, expect_nil,
    readTag_tagOf state htag, Option.bind_eq_bind, Option.bind_some]

/-- What an update may be. -/
inductive IsUpdate (options : Options) : Update → Prop
  | assign (state : Nat) : IsUpdate options (.assign (tagOf options state))
  | increment : IsUpdate options .increment

theorem readUpdate_updateOf {update : Update} (h : IsUpdate options update) (rest : Bytes) :
    (readIncrement (settingOf options lines) (updateOf options update ++
        (ofString "\n" ++ rest)) <|>
      readAssignment (settingOf options lines) (updateOf options update ++
        (ofString "\n" ++ rest))) = some (update, rest) := by
  cases h with
  | increment =>
    rw [readIncrement_updateOf]
    rfl
  | assign state =>
    have hother : readIncrement (settingOf options lines)
        (updateOf options (.assign (tagOf options state)) ++ (ofString "\n" ++ rest)) = none := by
      have hname : (settingOf options lines).variableName = options.stateVariable := rfl
      rw [updateOf, List.append_assoc, List.append_assoc, readIncrement, hname, expect_cons]
      rfl
    rw [hother, readAssignment_updateOf]
    rfl

/-- Where an update is written, there is neither a block nor a return. -/
theorem expect_updateOf (hstate : IsVariable options.stateVariable) {update : Update}
    (h : IsUpdate options update) (rest : Bytes) :
    expect ["\x7b"] (updateOf options update ++ rest) = none ∧
      expect ["return "] (updateOf options update ++ rest) = none := by
  cases h with
  | increment =>
    rw [updateOf, List.append_assoc]
    exact ⟨hstate.expect_block (by decide), hstate.expect_return (.inl rfl)⟩
  | assign state =>
    rw [updateOf, List.append_assoc, List.append_assoc]
    exact ⟨hstate.expect_block (by decide), hstate.expect_return (.inr rfl)⟩

/-- The end of a call as it is written. -/
def exitText (options : Options) (indentation : List String) (exit : Exit) : Bytes :=
  match exit.update with
  | none => indentation.flatMap ofString ++ (ofString (returnOf options exit.outcome) ++
      ofString "\n")
  | some update => indentation.flatMap ofString ++ (updateOf options update ++ (ofString "\n" ++
      (indentation.flatMap ofString ++ (ofString (returnOf options exit.outcome) ++
        ofString "\n"))))

theorem readExit_exitText (lines : List String) (hstate : IsVariable options.stateVariable)
    {exit : Exit} (h : ∀ update ∈ exit.update, IsUpdate options update) (indentation : List String)
    (rest : Bytes) :
    readExit (settingOf options lines) indentation (exitText options indentation exit ++ rest) =
      some (exit, rest) := by
  obtain ⟨update, outcome⟩ := exit
  cases update with
  | none =>
    have hreturn : (expect ["return "] (ofString (returnOf options outcome) ++
        (ofString "\n" ++ rest))).isSome = true := by
      rw [returnOf, ofString_append, ofString_append, List.append_assoc, List.append_assoc,
        expect_cons]
      rfl
    simp only [exitText, readExit, List.append_assoc, expect_flatMap, Option.bind_eq_bind,
      Option.bind_some, hreturn, ↓reduceIte, readReturn_returnOf]
  | some update =>
    have hupdate := h update rfl
    have hreturn := (expect_updateOf hstate hupdate (ofString "\n" ++
      (indentation.flatMap ofString ++ (ofString (returnOf options outcome) ++
        (ofString "\n" ++ rest))))).2
    simp only [exitText, readExit, List.append_assoc, expect_flatMap, Option.bind_eq_bind,
      Option.bind_some, hreturn, Option.isSome_none, Bool.false_eq_true, ↓reduceIte,
      readUpdate_updateOf hupdate, readReturn_returnOf]

/-! ## Clauses -/

theorem indent_eq_level : indent = level := rfl

/-- The line of an action. -/
def blockLines : Option Bytes → List String
  | some text => [indent ++ indent ++ indent ++ "\x7b" ++ Bytes.text text ++ "\x7d"]
  | none => []

/-- The lines of an effect. -/
def effectLines (options : Options) : Effect → List String
  | .accept => [indent ++ indent ++ indent ++ "return " ++ options.lexer ++ "_ACCEPT;"]
  | .goto state =>
    [indent ++ indent ++ indent ++ options.stateVariable ++ " = " ++ options.tag state ++ ";",
      indent ++ indent ++ indent ++ "return " ++ options.lexer ++ "_CONTINUE;"]
  | .increment =>
    [indent ++ indent ++ indent ++ options.stateVariable ++ "++;",
      indent ++ indent ++ indent ++ "return " ++ options.lexer ++ "_CONTINUE;"]

theorem branchLines_eq (branch : Branch) : branchLines options branch =
    [indent ++ indent ++ "if (" ++ condition branch.tests ++ ") \x7b"] ++
      blockLines branch.action ++ effectLines options branch.effect ++
      [indent ++ indent ++ "\x7d"] := rfl

theorem isUpdate_of_mem_exitOf {effect : Effect} {update : Update}
    (h : update ∈ (exitOf options effect).update) : IsUpdate options update := by
  cases effect with
  | accept => exact nomatch h
  | goto state =>
    obtain rfl := Option.some.inj h
    exact .assign state
  | increment =>
    obtain rfl := Option.some.inj h
    exact .increment

theorem ofString_effectLines (effect : Effect) :
    ofString (unlines (effectLines options effect)) =
      exitText options [level, level, level] (exitOf options effect) := by
  cases effect <;>
    simp only [effectLines, exitOf, exitText, returnOf, endingOf, updateOf, tagOf, indent_eq_level,
      ofString_unlines_cons, ofString_unlines_nil, ofString_append, List.flatMap_cons,
      List.flatMap_nil, List.append_assoc, List.append_nil]

/-- A call does not end with a block. -/
theorem expect_exitText (hstate : IsVariable options.stateVariable) {exit : Exit}
    (h : ∀ update ∈ exit.update, IsUpdate options update) (rest : Bytes) :
    expect [level, level, level, "\x7b"] (exitText options [level, level, level] exit ++ rest) =
      none := by
  obtain ⟨update, outcome⟩ := exit
  cases update with
  | none =>
    simp only [exitText, returnOf, ofString_append, List.flatMap_cons, List.flatMap_nil,
      List.append_assoc, List.nil_append, expect_cons]
    rfl
  | some update =>
    simp only [exitText, List.flatMap_cons, List.flatMap_nil, List.append_assoc, List.nil_append,
      expect_cons]
    exact (expect_updateOf hstate (h update rfl) _).1

theorem readBlock_blockLines {action : Option Bytes} (haction : ∀ text ∈ action, BlockText text)
    (hrest : expect [level, level, level, "\x7b"] rest = none) :
    readBlock (ofString (unlines (blockLines action)) ++ rest) = some (action, rest) := by
  cases action with
  | none => simp only [blockLines, ofString_unlines_nil, List.nil_append, readBlock, hrest]
  | some text =>
    have htext := haction text rfl
    have hlength : Pattern.blockLength .code 0 0
        (text ++ (ofString "\x7d" ++ (ofString "\n" ++ rest))) = some text.length :=
      (Pattern.blockLength_of_nested htext.balanced 0 _).trans (by rw [Nat.zero_add])
    simp only [blockLines, indent_eq_level, ofString_unlines_cons, ofString_unlines_nil,
      ofString_append, List.append_assoc, List.nil_append, htext.isText.ofString_text, readBlock,
      expect_cons, expect_nil, Option.bind_eq_bind, Option.bind_some, hlength, List.take_left',
      List.drop_left']

/-- A branch that can be read: it has a test, and its action can stand between braces. -/
structure Branch.Readable (branch : Branch) : Prop where
  tests : branch.tests ≠ []
  action : ∀ text ∈ branch.action, BlockText text

theorem readClause_branchLines (lines : List String) (hstate : IsVariable options.stateVariable)
    {branch : Branch} (h : branch.Readable) (rest : Bytes) :
    readClause (settingOf options lines) (ofString (unlines (branchLines options branch)) ++ rest) =
      some (clauseOf options branch, rest) := by
  have hupdate : ∀ update ∈ (exitOf options branch.effect).update, IsUpdate options update :=
    fun _ hmem => isUpdate_of_mem_exitOf hmem
  have hstop : ∀ rest, expect [" || "] (ofString ") \x7b" ++ rest) = none := fun _ => rfl
  simp only [branchLines_eq, readClause, indent_eq_level, ofString_unlines_append,
    ofString_unlines_cons, ofString_unlines_nil, ofString_append, List.append_assoc,
    List.nil_append, ofString_effectLines, expect_cons, expect_nil,
    readCondition_condition h.tests (hstop _),
    readBlock_blockLines h.action (expect_exitText hstate hupdate _),
    readExit_exitText lines hstate hupdate, Option.bind_eq_bind, Option.bind_some]
  rfl

/-! ## Cases and enumerators -/

/-- A program that can be read. -/
def Program.Readable (program : Program) : Prop :=
  ∀ c ∈ program.cases, ∀ branch ∈ c.branches, branch.Readable

theorem readLabelled_caseLines (lines : List String) (hstate : IsVariable options.stateVariable)
    {c : Case} (h : ∀ branch ∈ c.branches, branch.Readable) (rest : Bytes) :
    readLabelled (settingOf options lines) (ofString (unlines (caseLines options c)) ++ rest) =
      some (labelledOf options c, rest) := by
  have hlabel : ∀ rest, EndsDigits (ofString ":" ++ rest) := fun rest => endsDigits_cons rfl rest
  have hstop : readClause (settingOf options lines)
      (ofString level ++ (ofString level ++ (ofString "break;" ++ (ofString "\n" ++ rest)))) =
      none := by
    rw [readClause, expect_cons, expect_cons]
    rfl
  have hclauses := readMany_flatMap c.branches
    (fun branch hmem => readClause_branchLines lines hstate (h branch hmem))
    (fun branch _ => ofString_unlines_ne_nil (by simp [branchLines_eq])) hstop
  simp only [caseLines, readLabelled, indent_eq_level, ofString_unlines_append,
    ofString_unlines_cons, ofString_unlines_nil, ofString_unlines_flatMap, ofString_append,
    List.append_assoc, List.nil_append, expect_cons, expect_nil, Option.bind_eq_bind,
    Option.bind_some]
  rw [← tagOf, readTag_tagOf c.state (hlabel _), Option.bind_some]
  simp only [expect_cons, expect_nil, Option.bind_some, hclauses]
  rfl

/-- The line of a state in the enumeration. -/
def enumeratorLine (options : Options) (c : Case) : String :=
  indent ++ options.tag c.state ++ " = " ++ toString c.state ++ ","

theorem readEnumerator_enumeratorLine (options : Options) (lines : List String) (c : Case)
    (rest : Bytes) :
    readEnumerator (settingOf options lines)
      ((ofString (enumeratorLine options c) ++ ofString "\n") ++ rest) =
      some ((tagOf options c.state, c.state), rest) := by
  have htag : ∀ rest, EndsDigits (ofString " = " ++ rest) := fun rest => endsDigits_cons rfl rest
  have hvalue : ∀ rest, EndsDigits (ofString "," ++ rest) := fun rest => endsDigits_cons rfl rest
  simp only [enumeratorLine, readEnumerator, indent_eq_level, ofString_append, List.append_assoc,
    expect_cons, expect_nil, Option.bind_eq_bind, Option.bind_some]
  rw [← tagOf, readTag_tagOf c.state (htag _), Option.bind_some]
  simp only [expect_cons, expect_nil, Option.bind_some]
  rw [← numeral, readNumber_numeral c.state (hvalue _), Option.bind_some]
  simp only [expect_cons, expect_nil, Option.bind_some]

/-! ## Files -/

theorem ofString_empty : ofString "" = [] := rfl

theorem ofString_unlines (given : List String) :
    ofString (unlines given) = (given.flatMap fun line => [line, "\n"]).flatMap ofString := by
  induction given with
  | nil => rfl
  | cons line given ih =>
    rw [ofString_unlines_cons, ih, List.flatMap_cons, List.flatMap_append, ← List.append_assoc]
    simp only [List.flatMap_cons, List.flatMap_nil, List.append_nil]

theorem ofString_block (given : List String) :
    ofString (unlines (block given)) = (givenLines given).flatMap ofString := by
  rw [block, givenLines]
  split
  · rfl
  · rw [ofString_unlines_append, ofString_unlines, List.flatMap_append]
    rfl

theorem ofString_prototype (lines : List String) :
    ofString options.prototype = (declaration (settingOf options lines)).flatMap ofString := by
  cases hargs : options.args <;>
    simp only [Options.prototype, declaration, settingOf, hargs, ofString_append, ofString_empty,
      List.flatMap_cons, List.flatMap_nil, List.flatMap_append, List.append_assoc, List.append_nil]

theorem toUpper_ne_newline {c : Char} (h : c.isAlphanum = true) : c.toUpper ≠ '\n' := by
  intro hc
  delta Char.toUpper at hc
  split at hc
  · next hlower =>
    have hval : c.val + ('A'.val - 'a'.val) = '\n'.val := by rw [← hc]
    have heq : c.val = '\n'.val - ('A'.val - 'a'.val) := by
      rw [← hval]
      exact (UInt32.add_sub_cancel _ _).symm
    rw [heq] at hlower
    exact absurd hlower.1 (by decide)
  · subst hc
    exact absurd h (by decide)

theorem newline_not_mem_guardName (stem : String) : '\n' ∉ (guardName stem).toList := by
  rw [guardName, String.toList_append, String.toList_ofList]
  intro hmem
  rcases List.mem_append.mp hmem with hname | hending
  · obtain ⟨c, -, hc⟩ := List.mem_map.mp hname
    split at hc
    · next halnum => exact toUpper_ne_newline halnum hc
    · exact absurd hc (by decide)
  · exact absurd hending (by decide)

theorem isInclude_eq (line : String) : Setting.isInclude line = Registry.isInclude line := by
  rw [Setting.isInclude, Registry.isInclude, Bool.eq_iff_iff, Registry.containsPart_iff,
    List.infix_iff_prefix_suffix, List.any_eq_true]
  refine exists_congr fun rest => ?_
  rw [List.mem_tails, List.isPrefixOf_iff_prefix, and_comm]

theorem ofString_storage (lines : List String) :
    ofString (unlines (if options.state.isNone then
      ["extern " ++ options.lexer ++ "_state_t " ++ options.lexer ++ "_state;", ""] else [])) =
        (storage (settingOf options lines) ["extern "]).flatMap ofString ∧
    ofString (unlines (if options.state.isNone then
      [options.lexer ++ "_state_t " ++ options.lexer ++ "_state;", ""] else [])) =
        (storage (settingOf options lines) []).flatMap ofString := by
  cases hstate : options.state <;>
    simp only [storage, settingOf, hstate, Option.isNone_none, Option.isNone_some, ↓reduceIte,
      Bool.false_eq_true, ofString_unlines_cons, ofString_unlines_nil, ofString_append,
      ofString_empty, List.flatMap_append, List.flatMap_cons, List.flatMap_nil, List.append_assoc,
      List.append_nil, List.nil_append, and_self]

theorem readGuard_guardName (stem : String) (rest : Bytes) :
    readGuard (ofString "#ifndef " ++ (ofString (guardName stem) ++ (ofString "\n" ++
      (ofString "#define " ++ (ofString (guardName stem) ++ rest))))) = some rest := by
  have hname : ∀ b ∈ ofString (guardName stem), decide (b ≠ Ascii.newline) = true := by
    intro b hmem
    rw [decide_eq_true_iff]
    rintro rfl
    exact newline_not_mem_guardName stem (Bytes.mem_toList_of_mem_ofString rfl rfl hmem)
  have htake : ∀ rest, (ofString (guardName stem) ++ (ofString "\n" ++ rest)).takeWhile
      (· ≠ Ascii.newline) = ofString (guardName stem) := by
    intro rest
    rw [List.takeWhile_append_of_pos hname]
    exact List.append_nil _
  simp only [readGuard, expect_cons, expect_nil, Option.bind_eq_bind, Option.bind_some, htake,
    List.drop_left, dropPrefix?_append]

theorem ofString_enumerators (program : Program) :
    ofString (unlines (program.cases.map fun c =>
      indent ++ options.tag c.state ++ " = " ++ toString c.state ++ ",")) =
        program.cases.flatMap fun c => ofString (enumeratorLine options c) ++ ofString "\n" :=
  ofString_unlines_map _ _

theorem readHeader_headerLines (options : Options) (registry : Registry) (program : Program) :
    readHeader (settingOf options registry.header)
        (ofString (unlines (headerLines options registry program))) =
      some (program.cases.map fun c => (tagOf options c.state, c.state),
        tagOf options Dfa.initial) := by
  have hgiven : (settingOf options registry.header).lines.filter Setting.isInclude =
      registry.includeLines :=
    List.filter_congr fun line _ => isInclude_eq line
  have hname : (settingOf options registry.header).variableName = options.stateVariable := rfl
  have hlexer : (settingOf options registry.header).lexer = options.lexer := rfl
  have htags := fun rest => readMany_flatMap program.cases
    (fun c _ => readEnumerator_enumeratorLine options registry.header c)
    (fun c _ => List.append_ne_nil_of_right_ne_nil _ (List.cons_ne_nil _ _))
    (rfl : readEnumerator (settingOf options registry.header) (ofString "\x7d " ++ rest) = none)
  have hreset : ∀ rest, readTag (settingOf options registry.header)
      (tagOf options Dfa.initial ++ (ofString ")" ++ rest)) =
        some (tagOf options Dfa.initial, ofString ")" ++ rest) :=
    fun rest => readTag_tagOf Dfa.initial (endsDigits_cons rfl rest)
  -- the text of the header, part by part
  simp only [headerLines, ofString_unlines_append, ofString_unlines_cons, ofString_unlines_nil,
    ofString_append, ofString_block, ofString_empty, List.append_assoc, List.nil_append,
    List.append_nil, ofString_prototype registry.header, ofString_enumerators,
    (ofString_storage registry.header).1, ← hgiven, ofString_tag]
  simp only [readHeader, readGuard_guardName, Option.bind_eq_bind, Option.bind_some, expect_append,
    expect_cons, expect_nil, expect_last, expect_flatMap, hlexer, hname, htags, hreset,
    List.isEmpty_nil, ↓reduceIte]

theorem readBody_bodyLines (hstate : IsVariable options.stateVariable) (registry : Registry)
    {program : Program} (h : program.Readable) :
    readBody (settingOf options registry.header) options.fileStem
        (ofString (unlines (bodyLines options registry program))) =
      some (program.cases.map (labelledOf options),
        ⟨some (.assign (tagOf options Dfa.initial)), .fail⟩) := by
  have hgiven : ((settingOf options registry.header).lines.filter fun line =>
      !Setting.isInclude line) = registry.bodyLines :=
    List.filter_congr fun line _ => congrArg _ (isInclude_eq line)
  have hname : (settingOf options registry.header).variableName = options.stateVariable := rfl
  have hcases := fun rest => readMany_flatMap program.cases
    (fun c hmem => readLabelled_caseLines registry.header hstate (h c hmem))
    (fun c _ => ofString_unlines_ne_nil (by simp [caseLines]))
    (rfl : readLabelled (settingOf options registry.header)
      (ofString level ++ (ofString "\x7d" ++ rest)) = none)
  have hupdate : ∀ update ∈ (⟨some (.assign (tagOf options Dfa.initial)), .fail⟩ : Exit).update,
      IsUpdate options update := by
    intro update hmem
    obtain rfl := Option.some.inj hmem
    exact .assign Dfa.initial
  have hafter := readExit_exitText registry.header hstate hupdate [level]
  simp only [exitText, updateOf, returnOf, endingOf, ofString_append, List.flatMap_cons,
    List.flatMap_nil, List.append_assoc, List.nil_append] at hafter
  -- the text of the body, part by part
  simp only [bodyLines, ofString_unlines_append, ofString_unlines_cons, ofString_unlines_nil,
    ofString_append, ofString_block, ofString_empty, List.append_assoc, List.nil_append,
    List.append_nil, ofString_prototype registry.header, ofString_unlines_flatMap,
    (ofString_storage registry.header).2, ← hgiven, ofString_tag, indent_eq_level]
  simp only [readBody, Option.bind_eq_bind, Option.bind_some, expect_append, expect_cons,
    expect_nil, expect_last, expect_flatMap, hname, hcases, hafter, List.isEmpty_nil, ↓reduceIte]

/-- **What is written for a program is read as its switch.** -/
theorem read?_write (hstate : IsVariable options.stateVariable) {automaton : Automaton}
    (h : (programOf options automaton).Readable) :
    read? (settingOf options automaton.registry.header) (write options automaton).1 =
      some (switchOf options (programOf options automaton)) := by
  have hheader := readHeader_headerLines options automaton.registry (programOf options automaton)
  have hbody := readBody_bodyLines hstate automaton.registry h
  rw [programOf] at hheader hbody
  rw [read?, write, hheader, hbody]
  rfl

end Files

end ActionRegex.Lexer
