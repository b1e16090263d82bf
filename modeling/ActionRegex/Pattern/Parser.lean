import ActionRegex.Pattern.Expansion
import ActionRegex.Pattern.Postfix

/-!
# Parsing patterns

`parse` reads the items of a pattern, expands them into tokens, brings these into postfix order and
folds them into a tree. The action blocks it finds are added to a registry, which it returns also
when the pattern is refused.
-/

namespace ActionRegex.Pattern

/-- The tree of a token stream. -/
def treeOfStream (stream : Stream) : Except Error Tree :=
  match toPostfix stream.tokens.reverse with
  | .error e => .error e
  | .ok tokens => treeOfPostfix tokens

/-- Parses a pattern under a macro table. -/
def parse (macros : Macros) (pattern : Bytes) (registry : Registry) :
    Except Error Tree × Registry :=
  match tokenize macros pattern registry with
  | (.error e, registry) => (.error e, registry)
  | (.ok stream, registry) => (treeOfStream stream, registry)

end ActionRegex.Pattern
