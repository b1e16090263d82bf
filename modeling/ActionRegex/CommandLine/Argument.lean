/-!
# Arguments

A command has options, some of which take a value, and operands. Options are written `--name value`,
`--name=value`, `-n value`, `-nvalue` or `-n=value`. A value that is an argument of its own does not
look like an option. After `--`, all arguments are operands. Some options, such as the one for help,
end the command line: nothing after them is looked at, but what stands before them has to be right.
-/

namespace ActionRegex.CommandLine

/-- An option of a command. -/
structure OptionSpec where
  long : String
  short : Option Char := none
  takesValue : Bool := false
  /-- The values that it can have. -/
  accepts : String → Bool := fun _ => true
  /-- Whether its value is the path of a file that must be there. -/
  namesFile : Bool := false
  repeatable : Bool := false
  /-- Whether nothing after it is looked at. -/
  ends : Bool := false

/-- What an argument, with the value that may follow it, says. -/
inductive Argument where
  | operand (text : String)
  /-- An option without a value. -/
  | flag (option : OptionSpec)
  /-- An option with its value. -/
  | setting (option : OptionSpec) (value : String)
  /-- Not understood: an unknown option, a missing value or one too many. -/
  | invalid

/-- Whether an argument is taken for an option. A single `-` is not. -/
def looksLikeOption (argument : String) : Bool :=
  match argument.toList with
  | '-' :: _ :: _ => true
  | _ => false

/-- What stands before and after the first equals sign. -/
def splitValue (text : List Char) : List Char × Option (List Char) :=
  match text.dropWhile (· ≠ '=') with
  | [] => (text, none)
  | _ :: value => (text.takeWhile (· ≠ '='), some value)

/-- An option that is written, with the value attached to it, if any. -/
structure Written where
  option : OptionSpec
  attached : Option String

/-- Reads an argument that looks like an option. What is attached to the short name of an option
that ends the command line is not looked at. -/
def written? (options : List OptionSpec) (argument : String) : Option Written :=
  match argument.toList with
  | '-' :: '-' :: text =>
    let (name, value) := splitValue text
    (options.find? fun option => option.long == String.ofList name).map fun option =>
      ⟨option, value.map String.ofList⟩
  | '-' :: name :: text =>
    (options.find? fun option => option.short == some name).map fun option =>
      let value := match text with
        | '=' :: value => value
        | value => value
      ⟨option, if text.isEmpty || option.ends then none else some (String.ofList value)⟩
  | _ => none

/-! ## Scanning -/

/-- What arguments say, and the arguments that are left. -/
structure Scan where
  said : List Argument := []
  rest : List String := []

/-- A scan with one more argument before it. -/
def Scan.cons (argument : Argument) (scan : Scan) : Scan :=
  { scan with said := argument :: scan.said }

/-- Reads arguments, all of them or those before the first operand. Nothing is read after an
argument that is not understood, and after an option that ends the command line. -/
def scan (options : List OptionSpec) (untilOperand : Bool) : List String → Scan
  | [] => {}
  | argument :: rest =>
    if argument = "--" then { said := rest.map .operand }
    else if looksLikeOption argument then
      match written? options argument, rest with
      | none, _ => { said := [.invalid] }
      | some ⟨option, some value⟩, rest =>
        if option.takesValue then .cons (.setting option value) (scan options untilOperand rest)
        else { said := [.invalid] }
      | some ⟨option, none⟩, rest =>
        if option.ends then { said := [.flag option] }
        else if option.takesValue then
          match rest with
          | [] => { said := [.invalid] }
          | value :: rest =>
            if looksLikeOption value then { said := [.invalid] }
            else .cons (.setting option value) (scan options untilOperand rest)
        else .cons (.flag option) (scan options untilOperand rest)
    else if untilOperand then { rest := argument :: rest }
    else .cons (.operand argument) (scan options untilOperand rest)
termination_by arguments => arguments.length

/-! ## Collecting -/

/-- What a command takes. -/
structure CommandSpec where
  options : List OptionSpec
  /-- The most operands, if there is a bound. -/
  maxOperands : Option Nat := none
  /-- Whether operands are paths of files that must be there. -/
  operandsNameFiles : Bool := false

/-- The arguments of a command, by kind and in order. -/
structure Arguments where
  operands : List String := []
  /-- The options without values, by their long names. -/
  flags : List String := []
  /-- The options with values, by their long names. -/
  settings : List (String × String) := []
  /-- The files that must be there. -/
  files : List String := []

namespace Arguments

/-- Whether an option is given. -/
def has (arguments : Arguments) (option : String) : Bool := arguments.flags.contains option

/-- The values of an option, in order. -/
def values (arguments : Arguments) (option : String) : List String :=
  arguments.settings.filterMap fun entry => if entry.1 = option then some entry.2 else none

/-- The last value of an option. -/
def value? (arguments : Arguments) (option : String) : Option String :=
  (arguments.values option).getLast?

/-- Adds an argument, unless it is not understood or there is no place for it. -/
def add? (command : CommandSpec) (arguments : Arguments) : Argument → Option Arguments
  | .operand text =>
    if command.maxOperands.all (arguments.operands.length < ·) then
      some { arguments with
        operands := arguments.operands ++ [text]
        files := arguments.files ++ if command.operandsNameFiles then [text] else [] }
    else none
  | .flag option =>
    if arguments.has option.long && !option.repeatable then none
    else some { arguments with flags := arguments.flags ++ [option.long] }
  | .setting option value =>
    if !(arguments.values option.long).isEmpty && !option.repeatable then none
    else if !option.accepts value then none
    else
      some { arguments with
        settings := arguments.settings ++ [(option.long, value)]
        files := arguments.files ++ if option.namesFile then [value] else [] }
  | .invalid => none

/-- The arguments of a command, if all are understood and have a place. -/
def collect? (command : CommandSpec) (said : List Argument) : Option Arguments :=
  said.foldlM (add? command) {}

end Arguments

end ActionRegex.CommandLine
