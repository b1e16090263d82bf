import ActionRegex.Toml.Statement

/-!
# Configuration

A configuration is a TOML document with one table, `codegen`, of at most three settings. The table
may be opened by a header, written inline, or set key by key. An array that starts with all three
settings in their order serves as well. Whatever else a document holds, and whatever is set twice,
makes it invalid.
-/

namespace ActionRegex

/-- How lexers are written. -/
structure Config where
  /-- What the names of files start with, before the name of the lexer. -/
  filePrefix : String := "lex_"
  /-- Whether going to the next state is written as an increment. -/
  increments : Bool := true
  /-- Where files are written, if not beside the rule file. -/
  outputDirectory : Option String := none
  deriving DecidableEq

namespace Config

/-- The settings that a document makes. -/
structure Settings where
  filePrefix : Option String := none
  increments : Option Bool := none
  outputDirectory : Option String := none
  deriving DecidableEq

/-- How a document has written the table so far. -/
inductive Table where
  | absent
  /-- Key by key, from outside. -/
  | dotted
  /-- By a header; the keys that follow belong to it. -/
  | opened
  /-- Inline or as an array. Nothing can be added. -/
  | closed
  deriving DecidableEq

/-- Reading a document. -/
structure Reading where
  table : Table := .absent
  settings : Settings := {}
  deriving DecidableEq

/-- The name of the table. -/
def tableName : String := "codegen"

/-- Makes a setting that is not made yet. -/
def Settings.set? (settings : Settings) (key : Toml.Key) (value : Toml.Value) : Option Settings :=
  match key, value with
  | ["file_prefix"], .text text =>
    if settings.filePrefix.isNone then some { settings with filePrefix := some text } else none
  | ["increments"], .flag flag =>
    if settings.increments.isNone then some { settings with increments := some flag } else none
  | ["output_dir"], .text text =>
    if settings.outputDirectory.isNone then some { settings with outputDirectory := some text }
    else none
  | _, _ => none

/-- The settings that a value of the table makes: the entries of an inline table, or the first items
of an array. -/
def Settings.ofValue? : Toml.Value → Option Settings
  | .table entries => entries.foldlM (fun settings entry => settings.set? entry.1 entry.2) {}
  | .array (.text filePrefix :: .flag increments :: .text outputDirectory :: _) =>
    some ⟨filePrefix, increments, outputDirectory⟩
  | _ => none

/-- Reads a statement. -/
def Reading.read? (r : Reading) (statement : Toml.Statement) : Option Reading :=
  match r.table, statement with
  | .absent, .header key => if key = [tableName] then some { r with table := .opened } else none
  | .opened, .assign key value =>
    (r.settings.set? key value).map fun settings => { r with settings }
  | .absent, .assign [name] value =>
    if name = tableName then (Settings.ofValue? value).map fun settings => ⟨.closed, settings⟩
    else none
  | .absent, .assign (name :: key) value =>
    if name = tableName then (r.settings.set? key value).map fun settings => ⟨.dotted, settings⟩
    else none
  | .dotted, .assign (name :: key) value =>
    if name = tableName then (r.settings.set? key value).map fun settings => ⟨.dotted, settings⟩
    else none
  | _, _ => none

/-- The settings of a document, with the default for each that it does not make. -/
def ofSettings (settings : Settings) : Config :=
  let default : Config := {}
  { filePrefix := settings.filePrefix.getD default.filePrefix
    increments := settings.increments.getD default.increments
    outputDirectory := settings.outputDirectory <|> default.outputDirectory }

/-- The configuration in a document, unless it is invalid. -/
def read? (text : String) : Option Config :=
  (Toml.statements? text).bind fun statements =>
    (statements.foldlM Reading.read? {}).map fun r => ofSettings r.settings

end Config

end ActionRegex
