import ActionRegex.Pattern.Tree

/-!
# Trees in Polish notation

A tree is written as the words of its nodes in preorder: `cat`, `alt` and `star` before their
operands, `eps` for the empty text, two hexadecimal digits for a byte, `@n` for an action. Since the
number of operands is fixed by the word, no brackets are needed. Reading goes from the last word to
the first and keeps the trees read so far.
-/

namespace ActionRegex.Pattern.Tree

/-- The word of a node. -/
def Label.word : Label → String
  | .symbol (.byte b) => Ascii.hexPair b
  | .symbol (.action n) => "@" ++ toString n
  | .empty => "eps"
  | .concat => "cat"
  | .alternate => "alt"
  | .closure => "star"

/-- The node that a word stands for. -/
def Label.ofWord? (word : String) : Option Label :=
  match word with
  | "eps" => some .empty
  | "cat" => some .concat
  | "alt" => some .alternate
  | "star" => some .closure
  | _ =>
    match word.toList with
    | '@' :: digits => (String.ofList digits).toNat?.map fun n => .symbol (.action n)
    | [hi, lo] => do
      let high ← Ascii.hexValue? (Ascii.ofChar hi)
      let low ← Ascii.hexValue? (Ascii.ofChar lo)
      return .symbol (.byte (16 * high + low))
    | _ => none

/-- The tree in Polish notation, one space between words. -/
def toPolish (t : Tree) : String := " ".intercalate (t.preorder.map Label.word)

/-- Puts a node on top of the trees that follow it in the notation. -/
def push (label : Label) (trees : List Tree) : Option (List Tree) :=
  match label, trees with
  | .symbol s, rest => some (.symbol s :: rest)
  | .empty, rest => some (.empty :: rest)
  | .concat, l :: r :: rest => some (.concat l r :: rest)
  | .alternate, l :: r :: rest => some (.alternate l r :: rest)
  | .closure, t :: rest => some (.closure t :: rest)
  | _, _ => none

/-- The tree whose nodes in preorder have the given labels. -/
def ofPreorder? (labels : List Label) : Option Tree :=
  match labels.foldr (fun label trees => trees.bind (push label)) (some []) with
  | some [t] => some t
  | _ => none

/-- Reads a tree in Polish notation. -/
def ofPolish? (text : String) : Option Tree :=
  ((text.splitOn " ").mapM Label.ofWord?).bind ofPreorder?

end ActionRegex.Pattern.Tree
