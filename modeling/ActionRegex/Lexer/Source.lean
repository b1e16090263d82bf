import ActionRegex.Lexer.Program

/-!
# C source of a lexer

A lexer is written as a header with its types and a body with its function. All names start with the
name of the lexer. The function takes one byte and returns whether it completed a match, continues
one, or fails.
-/

namespace ActionRegex.Lexer

/-- How the source of a lexer is written. -/
structure Options where
  /-- What all names start with. -/
  lexer : String
  /-- Further parameters of the function. -/
  args : Option String := none
  /-- The variable that holds the state, if the caller provides it. -/
  state : Option String := none
  /-- Whether going to the next state is written as an increment. -/
  increments : Bool := true
  /-- The name of the files without their extension. -/
  stem : Option String := none

/-- The options that a rule file asks for. -/
def Options.ofRuleFile (file : RuleFile) : Options :=
  { lexer := file.lexer, args := file.args, state := file.state }

/-- The text of the two files of a lexer. -/
structure Source where
  stem : String
  header : String
  body : String

namespace Source

/-- The name of the header file. -/
def headerName (source : Source) : String := source.stem ++ ".h"

/-- The name of the body file. -/
def bodyName (source : Source) : String := source.stem ++ ".c"

end Source

/-! ## Names -/

/-- The name of the files without their extension. -/
def Options.fileStem (options : Options) : String := options.stem.getD ("lex_" ++ options.lexer)

/-- The variable that holds the state. -/
def Options.stateVariable (options : Options) : String :=
  options.state.getD (options.lexer ++ "_state")

/-- The constant of a state. -/
def Options.tag (options : Options) (state : Nat) : String :=
  options.lexer ++ "_STATE_" ++ toString state

/-- The declaration of the function, without what follows it. -/
def Options.prototype (options : Options) : String :=
  let args := match options.args with
    | some args => ", " ++ args
    | none => ""
  options.lexer ++ "_action_t " ++ options.lexer ++ "_lex(unsigned char token" ++ args ++ ")"

/-- The name of a file as an identifier in capitals. -/
def guardName (stem : String) : String :=
  String.ofList (stem.toList.map fun c => if c.isAlphanum then c.toUpper else '_') ++ "_H"

/-! ## Pieces -/

/-- One level of indentation. -/
def indent : String := "    "

/-- A byte as a C literal. -/
def literal (b : UInt8) : String :=
  if b = Ascii.quote then "'\\''"
  else if b = Ascii.backslash then "'\\\\'"
  else if 0x20 ≤ b && b ≤ 0x7e then Ascii.display b
  else "0x" ++ Ascii.hexPair b

/-- A test as a C condition. -/
def Test.source : Test → String
  | .between first last => "token >= " ++ literal first ++ " && token <= " ++ literal last
  | .equals value => "token == " ++ literal value

/-- Tests of which one must hold as a C condition. -/
def condition (tests : List Test) : String :=
  match tests with
  | [test] => test.source
  | tests => " || ".intercalate (tests.map fun test => "(" ++ test.source ++ ")")

/-- The lines of a branch, without their line ends. -/
def branchLines (options : Options) (branch : Branch) : List String :=
  let inner := indent ++ indent ++ indent
  let action := match branch.action with
    | some text => [inner ++ "\x7b" ++ Bytes.text text ++ "\x7d"]
    | none => []
  let effect := match branch.effect with
    | .accept => [inner ++ "return " ++ options.lexer ++ "_ACCEPT;"]
    | .goto state =>
      [inner ++ options.stateVariable ++ " = " ++ options.tag state ++ ";",
        inner ++ "return " ++ options.lexer ++ "_CONTINUE;"]
    | .increment =>
      [inner ++ options.stateVariable ++ "++;",
        inner ++ "return " ++ options.lexer ++ "_CONTINUE;"]
  [indent ++ indent ++ "if (" ++ condition branch.tests ++ ") \x7b"] ++ action ++ effect ++
    [indent ++ indent ++ "\x7d"]

/-- The lines of a case. -/
def caseLines (options : Options) (c : Case) : List String :=
  [indent ++ "case " ++ options.tag c.state ++ ":"] ++
    c.branches.flatMap (branchLines options) ++ [indent ++ indent ++ "break;"]

/-- Lines and an empty line after them, if there are any. -/
def block (lines : List String) : List String := if lines.isEmpty then [] else lines ++ [""]

/-! ## Files -/

/-- The lines of the header. -/
def headerLines (options : Options) (registry : Registry) (program : Program) : List String :=
  let guard := guardName options.fileStem
  let p := options.lexer
  ["#ifndef " ++ guard, "#define " ++ guard, ""] ++
    block registry.includeLines ++
    ["typedef enum \x7b" ++ p ++ "_ACCEPT, " ++ p ++ "_CONTINUE, " ++ p ++ "_FAIL\x7d " ++ p ++
        "_action_t;", "",
      "typedef enum \x7b"] ++
    program.cases.map
      (fun c => indent ++ options.tag c.state ++ " = " ++ toString c.state ++ ",") ++
    ["\x7d " ++ p ++ "_state_t;", ""] ++
    (if options.state.isNone then ["extern " ++ p ++ "_state_t " ++ p ++ "_state;", ""] else []) ++
    [options.prototype ++ ";", "",
      "#define " ++ p ++ "_reset() (" ++ options.stateVariable ++ " = " ++
        options.tag Dfa.initial ++ ")", "",
      "#endif"]

/-- The lines of the body. -/
def bodyLines (options : Options) (registry : Registry) (program : Program) : List String :=
  let p := options.lexer
  ["#include \"" ++ options.fileStem ++ ".h\"", ""] ++
    block registry.bodyLines ++
    (if options.state.isNone then [p ++ "_state_t " ++ p ++ "_state;", ""] else []) ++
    [options.prototype ++ " \x7b", indent ++ "switch (" ++ options.stateVariable ++ ") \x7b"] ++
    program.cases.flatMap (caseLines options) ++
    [indent ++ "\x7d", indent ++ options.stateVariable ++ " = " ++ options.tag Dfa.initial ++ ";",
      indent ++ "return " ++ p ++ "_FAIL;", "\x7d"]

/-- Lines as a text in which each is ended by a newline. -/
def unlines (lines : List String) : String := String.join (lines.map fun line => line ++ "\n")

/-- Writes the lexer of an automaton. -/
def write (options : Options) (automaton : Automaton) : Source × List Note :=
  let program := Program.ofAutomaton options.increments automaton
  ({ stem := options.fileStem
     header := unlines (headerLines options automaton.registry program)
     body := unlines (bodyLines options automaton.registry program) },
    [.lexerWritten (options.lexer ++ "_lex") program.cases.length])

end ActionRegex.Lexer
