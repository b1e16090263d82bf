import ActionRegex.RuleFile.Basic
import ActionRegex.RuleFile.BraceScan
import ActionRegex.Text.Blank

/-!
# Reading rule files

A rule file has three sections, read one after the other from numbered lines: the header up to the
first line that starts with `%names` or `%rule`, the names up to the first line that starts with
`%rule` after its blanks, and the rules, each up to a line that holds nothing but `%rule`.
-/

namespace ActionRegex.RuleFile

/-- A line and its number, counted from one. -/
abbrev Line := Nat × List Char

/-! ## Header -/

/-- The directives of a header. -/
inductive Directive where
  | lexer
  | args
  | state
  deriving DecidableEq

/-- The word of a directive, after its percent sign. -/
def Directive.ofWord? (word : List Char) : Option Directive :=
  if word = "prefix".toList then some .lexer
  else if word = "args".toList then some .args
  else if word = "state".toList then some .state
  else none

/-- A header under way: the directives read so far, and its lines, latest first. -/
structure Header where
  lexer : Option String := none
  args : Option String := none
  state : Option String := none
  lines : List String := []

/-- The value of a directive. -/
def Header.get? (header : Header) : Directive → Option String
  | .lexer => header.lexer
  | .args => header.args
  | .state => header.state

/-- Sets the value of a directive. -/
def Header.set (header : Header) (directive : Directive) (value : String) : Header :=
  match directive with
  | .lexer => { header with lexer := some value }
  | .args => { header with args := some value }
  | .state => { header with state := some value }

/-- Whether a text is a letter followed by letters, digits and underscores, all of them ASCII. -/
def isIdentifier : List Char → Bool
  | [] => false
  | c :: rest => c.isAlpha && rest.all fun c => c.isAlphanum || c == '_'

/-- The word and the value of a directive line, given without its percent sign. -/
def splitDirective (text : List Char) : List Char × List Char :=
  match Text.splitFirst Text.isBlank text with
  | some (word, value) => (word, Text.trim value)
  | none => (text, [])

/-- Adds a directive line. -/
def Header.add (header : Header) (number : Nat) (text : List Char) : Except Error Header :=
  let (word, value) := splitDirective text
  let shown := String.ofList ('%' :: word)
  match Directive.ofWord? word with
  | none => .error (.unknownDirective shown number)
  | some directive =>
    if (header.get? directive).isSome then .error (.duplicateDirective shown number)
    else if directive = .lexer ∧ ¬ isIdentifier value then
      .error (.invalidPrefix (String.ofList value) number)
    else .ok (header.set directive (String.ofList value))

/-- What ends a section: the file, or the first line of a further section, with the lines after
it. -/
inductive Boundary where
  | ended
  | names (rest : List Line)
  | rules (rest : List Line)

/-- Whether a line starts with a word. -/
def startsWith (word : String) (line : List Char) : Bool := word.toList.isPrefixOf line

/-- Reads the header. -/
def readHeader (header : Header) : List Line → Except Error (Header × Boundary)
  | [] => .ok (header, .ended)
  | (number, line) :: rest =>
    if startsWith "%names" line then .ok (header, .names rest)
    else if startsWith "%rule" line then .ok (header, .rules rest)
    else
      match line with
      | '%' :: text =>
        match header.add number text with
        | .error e => .error e
        | .ok header => readHeader header rest
      | _ => readHeader { header with lines := String.ofList line :: header.lines } rest

/-! ## Names -/

/-- The name and the expansion on a line of the names section. -/
def splitName (line : List Char) : Option (List Char × List Char) :=
  match Text.splitFirst (· == '=') line with
  | none => none
  | some (name, expansion) =>
    if isIdentifier (Text.trim name) then some (Text.trim name, Text.trim expansion) else none

/-- Reads the names, up to the first rule. -/
def readNames (names : Macros) : List Line → Except Error (Macros × Boundary)
  | [] => .ok (names, .ended)
  | (number, line) :: rest =>
    let line := Text.trim line
    if startsWith "%rule" line then .ok (names, .rules rest)
    else if line.isEmpty || startsWith "#" line then readNames names rest
    else
      match splitName line with
      | none => .error (.invalidName number)
      | some (name, expansion) =>
        readNames
          (Macros.define (Bytes.ofString (String.ofList name))
            (Bytes.ofString (String.ofList expansion)) names) rest

/-! ## Rules -/

/-- Rules under way: the complete rules and the lines of the current one, both latest first, and the
braces open in it. -/
structure Rules where
  complete : List String := []
  current : List (List Char) := []
  scan : BraceScan := {}

/-- The text of the lines of a rule, each ended by a newline. -/
def ruleText (lines : List (List Char)) : List Char :=
  lines.reverse.flatMap fun line => line ++ ['\n']

/-- Ends the current rule. An open action block is an error, and a blank rule is dropped. -/
def Rules.finish (rules : Rules) : Except Error Rules :=
  if rules.scan.depth > 0 then .error (.unterminatedAction rules.scan.line)
  else
    let text := Text.trimEnd (ruleText rules.current)
    .ok
      { complete :=
          if text.isEmpty then rules.complete else String.ofList text :: rules.complete }

/-- Adds a line to the current rule. Outside action blocks, comments are dropped. -/
def Rules.addLine (rules : Rules) (number : Nat) (line : List Char) : Rules :=
  if rules.scan.depth = 0 ∧ startsWith "#" (Text.trimStart line) then rules
  else
    { rules with
      current := line :: rules.current
      scan := rules.scan.scanLine number (Bytes.ofString (String.ofList line)) }

/-- Reads the rules. -/
def readRules (rules : Rules) : List Line → Except Error (List String)
  | [] =>
    match rules.finish with
    | .error e => .error e
    | .ok rules => .ok rules.complete.reverse
  | (number, line) :: rest =>
    if Text.trim line = "%rule".toList then
      match rules.finish with
      | .error e => .error e
      | .ok rules => readRules rules rest
    else readRules (rules.addLine number line) rest

/-! ## Files -/

/-- The lines of a text with their numbers. -/
def numberLines (text : String) : List Line :=
  (Text.lines text.toList).mapIdx fun i line => (i + 1, line)

/-- Reads the rules at a boundary; a file that ends there has none. -/
def readRulesAt : Boundary → Except Error (List String)
  | .rules rest => readRules {} rest
  | _ => .ok []

/-- Reads the names at a boundary, if the names section starts there. -/
def readNamesAt : Boundary → Except Error (Macros × Boundary)
  | .names rest => readNames [] rest
  | other => .ok ([], other)

/-- Reads a rule file. -/
def read (text : String) : Except Error RuleFile :=
  match readHeader {} (numberLines text) with
  | .error e => .error e
  | .ok (header, boundary) =>
    match header.lexer with
    | none => .error .missingPrefix
    | some lexer =>
      match readNamesAt boundary with
      | .error e => .error e
      | .ok (names, boundary) =>
        match readRulesAt boundary with
        | .error e => .error e
        | .ok [] => .error .noRules
        | .ok rules =>
          .ok
            { lexer, args := header.args, state := header.state
              header := header.lines.reverse, names, rules }

end ActionRegex.RuleFile
