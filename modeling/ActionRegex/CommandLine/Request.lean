import ActionRegex.CommandLine.Argument

/-!
# Requests

What a command line asks for. There are three commands: `compile` writes the lexer of a rule file,
`dump` shows the automaton of a rule file or a pattern, `match` tests inputs against a pattern.
-/

namespace ActionRegex.CommandLine

/-- Where a dump gets its pattern from. -/
inductive DumpSource where
  | rules (path : String)
  | pattern (text : String)
  deriving DecidableEq

/-- A command with its arguments. -/
inductive Request where
  /-- Write the lexer of a rule file. -/
  | compile (rules : String) (outputDirectory : Option String) (increments : Bool)
  /-- Show an automaton, and on demand the tree and the automaton that it is made from. -/
  | dump (source : DumpSource) (tree nfa : Bool)
  /-- Test inputs against a pattern. -/
  | test (pattern : String) (inputs : List String) (macros : List (String × String))
  /-- Explain the commands. -/
  | help
  /-- Name the program and its version. -/
  | version
  deriving DecidableEq

/-- A command line. -/
structure Invocation where
  request : Request
  /-- The configuration file to use. -/
  config : Option String := none
  /-- The files that must be there. -/
  files : List String := []
  deriving DecidableEq

/-! ## Options -/

def helpOption : OptionSpec := { long := "help", short := some 'h', ends := true }

def versionOption : OptionSpec := { long := "version", short := some 'V', ends := true }

def configOption : OptionSpec :=
  { long := "config", short := some 'C', takesValue := true, namesFile := true }

def outputOption : OptionSpec :=
  { long := "output-dir", short := some 'o', takesValue := true
    accepts := fun value => !value.isEmpty }

def stillOption : OptionSpec := { long := "no-increments" }

def treeOption : OptionSpec := { long := "ast" }

def nfaOption : OptionSpec := { long := "nfa" }

def patternOption : OptionSpec := { long := "pattern", short := some 'p', takesValue := true }

/-- A macro definition: the name, an equals sign, the text. -/
def definition? (text : String) : Option (String × String) :=
  match splitValue text.toList with
  | (_, none) => none
  | (name, some body) => some (String.ofList name, String.ofList body)

def defineOption : OptionSpec :=
  { long := "define", short := some 'd', takesValue := true
    accepts := fun value => (definition? value).isSome
    repeatable := true }

/-! ## Commands -/

/-- What may stand before the name of a command. -/
def globalSpec : CommandSpec :=
  { options := [configOption, versionOption, helpOption], maxOperands := some 0 }

def compileSpec : CommandSpec :=
  { options := [stillOption, outputOption, helpOption]
    maxOperands := some 1
    operandsNameFiles := true }

def dumpSpec : CommandSpec :=
  { options := [treeOption, nfaOption, patternOption, helpOption]
    maxOperands := some 1
    operandsNameFiles := true }

def testSpec : CommandSpec := { options := [defineOption, helpOption] }

def compileRequest? (arguments : Arguments) : Option Request :=
  match arguments.operands with
  | [rules] =>
    some (.compile rules (arguments.value? outputOption.long) !arguments.has stillOption.long)
  | _ => none

def dumpRequest? (arguments : Arguments) : Option Request :=
  let request (source : DumpSource) : Request :=
    .dump source (arguments.has treeOption.long) (arguments.has nfaOption.long)
  match arguments.operands, arguments.value? patternOption.long with
  | [rules], none => some (request (.rules rules))
  | [], some pattern => some (request (.pattern pattern))
  | _, _ => none

def testRequest? (arguments : Arguments) : Option Request :=
  match arguments.operands with
  | pattern :: input :: inputs =>
    some (.test pattern (input :: inputs)
      ((arguments.values defineOption.long).filterMap definition?))
  | _ => none

/-- The command line of a command and its arguments. -/
def invocation? (command : CommandSpec) (request? : Arguments → Option Request)
    (arguments : List String) : Option Invocation := do
  let arguments ← Arguments.collect? command (scan command.options false arguments).said
  let request ← if arguments.has helpOption.long then some .help else request? arguments
  return { request, files := arguments.files }

/-- The command line from the name of the command on. -/
def command? : List String → Option Invocation
  | "compile" :: arguments => invocation? compileSpec compileRequest? arguments
  | "dump" :: arguments => invocation? dumpSpec dumpRequest? arguments
  | "match" :: arguments => invocation? testSpec testRequest? arguments
  | ["help"] => some { request := .help }
  | ["help", name] =>
    if ["compile", "dump", "match", "help"].contains name then some { request := .help } else none
  | _ => none

/-! ## Command lines -/

/-- Reads a command line: options, then the name of a command and its arguments. Whoever asks a
command for help need not have the configuration file. -/
def parse (arguments : List String) : Option Invocation := do
  let scan := scan globalSpec.options true arguments
  let global ← Arguments.collect? globalSpec scan.said
  if global.has helpOption.long then return { request := .help, files := global.files }
  else if global.has versionOption.long then return { request := .version, files := global.files }
  else
    let invocation ← command? scan.rest
    if invocation.request = .help then return invocation
    else return { invocation with
      config := global.value? configOption.long
      files := global.files ++ invocation.files }

end ActionRegex.CommandLine
