import ActionRegex.CommandLine.Request
import ActionRegex.Config
import ActionRegex.Dfa.Table
import ActionRegex.FileSystem.Basic
import ActionRegex.Lexer.Source
import ActionRegex.Report.Layout
import ActionRegex.RuleFile.Reader

/-!
# Commands

A command reads files, says something on its two outputs, writes files, and ends with an exit code:
0 for success, 1 for failure, 2 for a command line that is not understood.
-/

namespace ActionRegex.CommandLine

/-- How a command ended. -/
structure Outcome where
  code : Nat := 0
  stdout : String := ""
  stderr : String := ""
  deriving DecidableEq

/-! ## Outcomes -/

def exitFailure : Nat := 1

def exitUsage : Nat := 2

/-- The outcome of a command line that is not understood. -/
def usageError : Outcome := { code := exitUsage }

/-- A failure with its cause, after something has been said. -/
def failureAfter (said cause : String) : Outcome :=
  { code := exitFailure, stdout := said, stderr := "error: " ++ cause ++ "\n" }

/-- A failure with its cause. -/
def failure (cause : String) : Outcome := failureAfter "" cause

/-- The outcome for a configuration file that is not valid. -/
def invalidConfig : Outcome := { code := exitFailure, stderr := "invalid config file" }

/-- A failure to compile a pattern, with a report. -/
def patternFailure (pattern origin : String) : CompileError → Outcome
  | .incomplete => failure "the automaton can not be completed"
  | .pattern error =>
    let report := { Report.ofPatternError pattern error with origin }
    let cause := failure "the expression is not valid"
    { cause with stderr := (report.render? false).getD error.fault.message ++ "\n" ++ cause.stderr }

/-! ## Texts -/

/-- The name of the program and its version. -/
def versionText : String := "rexc-cli 0.1.0\n"

/-- A summary of the commands. -/
def usageText : String :=
  "Usage:\n" ++
    "  rexc [-C CONFIG_FILE] compile [--no-increments] [-o OUTPUT_DIR] RULES_FILE\n" ++
    "  rexc [-C CONFIG_FILE] dump [--ast] [--nfa] (RULES_FILE | -p PATTERN)\n" ++
    "  rexc [-C CONFIG_FILE] match [-d NAME=EXPANSION]... PATTERN INPUT...\n"

/-- A path as messages show it. -/
def quoted (path : String) : String := "`" ++ path ++ "`"

/-! ## Matching -/

/-- Tests inputs. All of them must match. -/
def testInputs (pattern : String) (inputs : List String) (macros : List (String × String)) :
    Outcome :=
  match (Compiler.defineAll {} macros).compile pattern with
  | .error error => patternFailure pattern "pattern" error
  | .ok (automaton, _) =>
    let table := automaton.dfa.table
    let results := inputs.map fun input => (input, table.isMatch (Bytes.ofString input))
    { code := if results.all Prod.snd then 0 else exitFailure
      stdout := String.join (results.map fun result =>
        (if result.2 then "match " else "no match ") ++ result.1 ++ "\n") }

/-! ## Automata -/

/-- The lines of the action fragments. -/
def actionLines (registry : Registry) : String :=
  String.join (registry.toList.mapIdx fun index text =>
    "@" ++ toString index ++ ": \x7b" ++ Bytes.text text ++ "\x7d\n")

/-- Shows the automaton of a pattern. -/
def showAutomaton (compiler : Compiler) (pattern origin : String) (tree nfa : Bool) : Outcome :=
  match compiler.parse pattern .empty with
  | (.error error, _) => patternFailure pattern origin (.pattern error)
  | (.ok parsed, registry) =>
    let states := Nfa.ofTree parsed
    match Dfa.build? states with
    | none => patternFailure pattern origin .incomplete
    | some (dfa, _) =>
      { stdout :=
          (if tree then parsed.outline ++ "\n" else "") ++
          (if nfa then states.display ++ "\n" else "") ++
          dfa.display ++ actionLines registry }

/-! ## Files -/

variable {m : Type → Type} [Monad m]

/-- Reads a rule file. -/
def readRules (fs : FileSystem m) (path : String) : m (Except Outcome RuleFile) := do
  match ← fs.read path with
  | .error e => return .error (failure ("can not read " ++ quoted path ++ ": " ++ e.message))
  | .ok text =>
    match RuleFile.read text with
    | .error e => return .error (failure ("invalid rule file " ++ quoted path ++ ": " ++ e.message))
    | .ok file => return .ok file

/-- Writes files in turn, and says the path of each. `said` is what has been said before. -/
def writeFiles (fs : FileSystem m) (said : String) : List (String × String) → m Outcome
  | [] => return { stdout := said }
  | (path, content) :: rest => do
    match ← fs.write path content with
    | .error e => return failureAfter said ("can not write " ++ quoted path ++ ": " ++ e.message)
    | .ok _ => writeFiles fs (said ++ path ++ "\n") rest

/-! ## Lexers -/

/-- Writes the lexer of a rule file. -/
def writeLexer (fs : FileSystem m) (config : Config) (rules : String)
    (outputDirectory : Option String) (increments : Bool) : m Outcome := do
  match ← readRules fs rules with
  | .error outcome => return outcome
  | .ok file =>
    match Compiler.compileRules {} file with
    | .error error => return patternFailure file.expression rules error
    | .ok (automaton, _) =>
      let options := { Lexer.Options.ofRuleFile file with
        increments := config.increments && increments
        stem := some (config.filePrefix ++ file.lexer) }
      let source := (Lexer.write options automaton).1
      let directory :=
        (outputDirectory <|> config.outputDirectory).getD (Path.directoryOf rules)
      match ← fs.createDirectories (Path.ofString directory) with
      | .error e =>
        return failure ("can not create directory " ++ quoted directory ++ ": " ++ e.message)
      | .ok _ =>
        writeFiles fs "" [(Path.join directory source.headerName, source.header),
          (Path.join directory source.bodyName, source.body)]

/-! ## Command lines -/

/-- Whether all files are there. -/
def allPresent (fs : FileSystem m) : List String → m Bool
  | [] => return true
  | path :: rest => do
    if ← fs.present path then allPresent fs rest else return false

/-- The configuration in a file. -/
def readConfig? (fs : FileSystem m) (path : String) : m (Option Config) := do
  match ← fs.read path with
  | .error _ => return none
  | .ok text => return Config.read? text

/-- The configuration of a command line: the file that it names, which must be valid, or the one at
the given path if there is a valid one there. -/
def loadConfig? (fs : FileSystem m) (standard : Option String) (named : Option String) :
    m (Option Config) := do
  match named, standard with
  | some path, _ => readConfig? fs path
  | none, some path => return some ((← readConfig? fs path).getD {})
  | none, none => return some {}

/-- Carries out a request. -/
def Request.run (fs : FileSystem m) (config : Config) : Request → m Outcome
  | .compile rules outputDirectory increments =>
    writeLexer fs config rules outputDirectory increments
  | .dump (.rules path) tree nfa => do
    match ← readRules fs path with
    | .error outcome => return outcome
    | .ok file =>
      return showAutomaton ⟨Macros.defineAll file.names []⟩ file.expression path tree nfa
  | .dump (.pattern pattern) tree nfa => return showAutomaton {} pattern "pattern" tree nfa
  | .test pattern inputs macros => return testInputs pattern inputs macros
  | .help => return { stdout := usageText }
  | .version => return { stdout := versionText }

/-- The name of the configuration file in the home directory. -/
def configName : String := ".rexc.toml"

/-- Runs a command line. `home` is the home directory, if there is one. -/
def run (fs : FileSystem m) (home : Option String) (arguments : List String) : m Outcome := do
  match parse arguments with
  | none => return usageError
  | some invocation =>
    if ← allPresent fs invocation.files then
      match ← loadConfig? fs (home.map fun home => Path.join home configName) invocation.config with
      | none => return invalidConfig
      | some config => invocation.request.run fs config
    else return usageError

end ActionRegex.CommandLine
