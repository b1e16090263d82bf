import ActionRegex.Macros

/-!
# Rule files

A rule file holds one or more patterns, the names they use, and the C code around the lexer that is
generated from them. The patterns are compiled as one: their alternation.
-/

namespace ActionRegex

/-- The content of a rule file. -/
structure RuleFile where
  /-- What the names in the generated code start with. -/
  lexer : String
  /-- Further parameters of the lexer function. -/
  args : Option String := none
  /-- The variable that holds the state of the lexer, if the caller provides it. -/
  state : Option String := none
  /-- Lines of code, copied to the generated files. -/
  header : List String := []
  names : Macros := []
  rules : List String
  deriving DecidableEq

namespace RuleFile

/-- Why a rule file is refused. -/
inductive Error where
  | missingPrefix
  | invalidPrefix (value : String) (line : Nat)
  | duplicateDirective (directive : String) (line : Nat)
  | unknownDirective (directive : String) (line : Nat)
  | invalidName (line : Nat)
  | unterminatedAction (line : Nat)
  | noRules
  deriving DecidableEq

def Error.message : Error → String
  | missingPrefix => "missing `%prefix` directive"
  | invalidPrefix value line => s!"invalid prefix `{value}` at line {line}"
  | duplicateDirective directive line => s!"duplicate `{directive}` directive at line {line}"
  | unknownDirective directive line => s!"unknown directive `{directive}` at line {line}"
  | invalidName line => s!"syntax error in name definition at line {line}"
  | unterminatedAction line => s!"unterminated action block starting at line {line}"
  | noRules => "no rules found"

/-- The pattern that matches any of the rules. -/
def expression (file : RuleFile) : String :=
  "|".intercalate (file.rules.map fun rule => "(" ++ rule ++ ")")

end RuleFile

end ActionRegex
