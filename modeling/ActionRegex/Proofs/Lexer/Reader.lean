import ActionRegex.Pattern.Lexing.Block
import ActionRegex.Proofs.Lexer.Switch
import Mathlib.Data.List.Basic

/-!
# Reading a lexer

The two files of a lexer are read as C text, without regard to how they were made. A reader knows
what the lexer was asked for (`Setting`): the names that the caller chose, and the lines that stand
in the files as they were given. Everything else is read: the values of the enumeration, the cases
with their labels, the conditions with their literals, the actions, and how each clause ends.
Statements stand on lines of their own, and there are no blanks besides those that are expected.
-/

namespace ActionRegex.Lexer

open Bytes (ofString)
open Dfa (Outcome)

/-- What a lexer was asked for. -/
structure Setting where
  /-- What all names start with. -/
  lexer : String
  /-- Further parameters of the function. -/
  args : Option String
  /-- The variable that holds the state, if the caller provides it. -/
  state : Option String
  /-- Lines for the files. Those with `#include` go to the header, the others to the body. -/
  lines : List String

namespace Setting

variable (setting : Setting)

/-- The variable that holds the state. -/
def variableName : String := setting.state.getD (setting.lexer ++ "_state")

/-- Whether a line has `#include` somewhere. -/
def isInclude (line : String) : Bool :=
  line.toList.tails.any fun rest => "#include".toList.isPrefixOf rest

end Setting

/-- The name of a variable is not mistaken for a block or for a return where a statement starts. -/
structure IsVariable (name : String) : Prop where
  not_block : ¬ ofString "\x7b" <+: ofString name
  not_return : ¬ ofString "return " <+: ofString (name ++ " ")

/-! ## Parts of a text -/

/-- The text behind parts that it must start with. -/
def expect : List String → Bytes → Option Bytes
  | [], text => some text
  | part :: parts, text => (text.dropPrefix? (ofString part)).bind (expect parts)

/-- Reads as often as possible. -/
def readMany {α : Type} (read : Bytes → Option (α × Bytes)) (text : Bytes) : List α × Bytes :=
  match read text with
  | none => ([], text)
  | some (a, rest) =>
    if rest.length < text.length then
      let (more, last) := readMany read rest
      (a :: more, last)
    else ([], text)
termination_by text.length

/-- Given lines with an empty line behind them, if there are any. -/
def givenLines (lines : List String) : List String :=
  if lines.isEmpty then [] else lines.flatMap (fun line => [line, "\n"]) ++ ["\n"]

/-- One level of indentation. -/
def level : String := "    "

/-! ## Numbers and literals -/

/-- Digits, at least one. -/
def readDigits (text : Bytes) : Option (Bytes × Bytes) :=
  let digits := text.takeWhile Ascii.isDigit
  if digits.isEmpty then none else some (digits, text.dropWhile Ascii.isDigit)

/-- A decimal number. With a zero in front it would be an octal one. -/
def readNumber (text : Bytes) : Option (Nat × Bytes) := do
  let (digits, rest) ← readDigits text
  if digits.head? = some 0x30 ∧ digits.length ≠ 1 then none
  else some (Ascii.decimal digits, rest)

/-- A byte as a number of two hexadecimal digits, or as a character between quotes, of which the
quote and the backslash are escaped. -/
def readLiteral : Bytes → Option (UInt8 × Bytes)
  | 0x30 :: 0x78 :: high :: low :: rest => do
    some (16 * (← Ascii.hexValue? high) + (← Ascii.hexValue? low), rest)
  | 0x27 :: 0x5c :: b :: 0x27 :: rest =>
    if b = Ascii.quote ∨ b = Ascii.backslash then some (b, rest) else none
  | 0x27 :: b :: 0x27 :: rest =>
    if b = Ascii.quote ∨ b = Ascii.backslash then none
    else if b = Ascii.space ∨ Ascii.isGraphic b then some (b, rest) else none
  | _ => none

/-! ## Conditions -/

def readBetween (text : Bytes) : Option (Test × Bytes) := do
  let (first, rest) ← readLiteral (← expect ["token >= "] text)
  let (last, rest) ← readLiteral (← expect [" && token <= "] rest)
  some (.between first last, rest)

def readEquals (text : Bytes) : Option (Test × Bytes) := do
  let (value, rest) ← readLiteral (← expect ["token == "] text)
  some (.equals value, rest)

def readTest (text : Bytes) : Option (Test × Bytes) := readBetween text <|> readEquals text

/-- A test in parentheses. -/
def readGroup (text : Bytes) : Option (Test × Bytes) := do
  let (test, rest) ← readTest (← expect ["("] text)
  some (test, ← expect [")"] rest)

/-- A test after an `or`. -/
def readAlternative (text : Bytes) : Option (Test × Bytes) := do
  readGroup (← expect [" || "] text)

/-- A test alone, or tests in parentheses with an `or` between them. -/
def readCondition (text : Bytes) : Option (List Test × Bytes) :=
  match readGroup text with
  | some (test, rest) =>
    let (tests, last) := readMany readAlternative rest
    some (test :: tests, last)
  | none => (readTest text).map fun (test, rest) => ([test], rest)

section Files

variable (setting : Setting)

/-! ## Statements -/

/-- The name of a state. -/
def readTag (text : Bytes) : Option (Bytes × Bytes) := do
  let (digits, rest) ← readDigits (← expect [setting.lexer, "_STATE_"] text)
  some (ofString setting.lexer ++ ofString "_STATE_" ++ digits, rest)

def readIncrement (text : Bytes) : Option (Update × Bytes) := do
  some (.increment, ← expect [setting.variableName, "++;", "\n"] text)

def readAssignment (text : Bytes) : Option (Update × Bytes) := do
  let (tag, rest) ← readTag setting (← expect [setting.variableName, " = "] text)
  some (.assign tag, ← expect [";", "\n"] rest)

/-- The endings of the names of the outcomes, in a statement. -/
def outcomes : List (String × Outcome) :=
  [("_ACCEPT;", .accept), ("_CONTINUE;", .continue), ("_FAIL;", .fail)]

def readReturn (text : Bytes) : Option (Outcome × Bytes) := do
  let rest ← expect ["return ", setting.lexer] text
  outcomes.findSome? fun (ending, outcome) => (expect [ending, "\n"] rest).map (outcome, ·)

/-- A return, and perhaps a statement before it that changes the state variable. -/
def readExit (indentation : List String) (text : Bytes) : Option (Exit × Bytes) := do
  let rest ← expect indentation text
  if (expect ["return "] rest).isSome then
    let (outcome, rest) ← readReturn setting rest
    some (⟨none, outcome⟩, rest)
  else
    let (update, rest) ← readIncrement setting rest <|> readAssignment setting rest
    let (outcome, rest) ← readReturn setting (← expect indentation rest)
    some (⟨some update, outcome⟩, rest)

/-- The text of a block, if there is one. -/
def readBlock (text : Bytes) : Option (Option Bytes × Bytes) :=
  match expect [level, level, level, "\x7b"] text with
  | none => some (none, text)
  | some rest => do
    let length ← Pattern.blockLength .code 0 0 rest
    some (some (rest.take length), ← expect ["\x7d", "\n"] (rest.drop length))

def readClause (text : Bytes) : Option (Clause × Bytes) := do
  let (tests, rest) ← readCondition (← expect [level, level, "if ("] text)
  let (action, rest) ← readBlock (← expect [") \x7b", "\n"] rest)
  let (exit, rest) ← readExit setting [level, level, level] rest
  some (⟨tests, action, exit⟩, ← expect [level, level, "\x7d", "\n"] rest)

def readLabelled (text : Bytes) : Option (Labelled × Bytes) := do
  let (label, rest) ← readTag setting (← expect [level, "case "] text)
  let (clauses, rest) := readMany (readClause setting) (← expect [":", "\n"] rest)
  some (⟨label, clauses⟩, ← expect [level, level, "break;", "\n"] rest)

/-! ## Files -/

/-- The declaration of the function, without what follows it. -/
def declaration : List String :=
  let parameters := match setting.args with
    | none => []
    | some args => [", ", args]
  [setting.lexer, "_action_t ", setting.lexer, "_lex(unsigned char token"] ++ parameters ++ [")"]

def readEnumerator (text : Bytes) : Option ((Bytes × Nat) × Bytes) := do
  let (tag, rest) ← readTag setting (← expect [level] text)
  let (value, rest) ← readNumber (← expect [" = "] rest)
  some ((tag, value), ← expect [",", "\n"] rest)

/-- The declaration of the state variable, if it is not the caller's, in a header or in a body. -/
def storage (keyword : List String) : List String :=
  if setting.state.isNone then
    keyword ++ [setting.lexer, "_state_t ", setting.lexer, "_state;", "\n", "\n"]
  else []

/-- The text behind a guard against a second inclusion: the same name is tested and defined. -/
def readGuard (text : Bytes) : Option Bytes := do
  let rest ← expect ["#ifndef "] text
  let name := rest.takeWhile (· ≠ Ascii.newline)
  let rest ← expect ["\n", "#define "] (rest.drop name.length)
  rest.dropPrefix? name

/-- The declared names with their values, and the name that a reset assigns. -/
def readHeader (text : Bytes) : Option (List (Bytes × Nat) × Bytes) := do
  let p := setting.lexer
  let given := givenLines (setting.lines.filter Setting.isInclude)
  let rest ← readGuard text
  let rest ← expect (["\n", "\n"] ++ given ++ ["typedef enum \x7b", p, "_ACCEPT, ", p,
    "_CONTINUE, ", p, "_FAIL\x7d ", p, "_action_t;", "\n", "\n", "typedef enum \x7b", "\n"]) rest
  let (tags, rest) := readMany (readEnumerator setting) rest
  let rest ← expect (["\x7d ", p, "_state_t;", "\n", "\n"] ++ storage setting ["extern "] ++
    declaration setting ++ [";", "\n", "\n"] ++
    ["#define ", p, "_reset() (", setting.variableName, " = "]) rest
  let (reset, rest) ← readTag setting rest
  let rest ← expect [")", "\n", "\n", "#endif", "\n"] rest
  if rest.isEmpty then some (tags, reset) else none

/-- The cases of the switch, and what is done behind it. The body names the header file. -/
def readBody (stem : String) (text : Bytes) : Option (List Labelled × Exit) := do
  let given := givenLines (setting.lines.filter fun line => !Setting.isInclude line)
  let rest ← expect (["#include \"", stem, ".h\"", "\n", "\n"] ++ given ++ storage setting [] ++
    declaration setting ++ [" \x7b", "\n"] ++
    [level, "switch (", setting.variableName, ") \x7b", "\n"]) text
  let (cases, rest) := readMany (readLabelled setting) rest
  let (after, rest) ← readExit setting [level] (← expect [level, "\x7d", "\n"] rest)
  let rest ← expect ["\x7d", "\n"] rest
  if rest.isEmpty then some (cases, after) else none

/-- **The switch that the files of a lexer are.** -/
def read? (source : Source) : Option Switch := do
  let (tags, reset) ← readHeader setting (ofString source.header)
  let (cases, after) ← readBody setting source.stem (ofString source.body)
  some ⟨tags, cases, after, reset⟩

end Files

end ActionRegex.Lexer
