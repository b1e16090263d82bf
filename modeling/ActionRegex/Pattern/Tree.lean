import ActionRegex.Symbol

/-!
# Syntax trees

The tree of a pattern, with bounded repetitions already written out. A long pattern gives a tree
that is as deep as it is long, so trees are walked with a list of subtrees still to visit instead of
nested calls: `Tree.preorder` is the only walk of that kind here, and the size of a tree is the
length of what it visits. It ends because the subtrees still to visit lose one node at each step.
-/

namespace ActionRegex.Pattern

/-- The syntax tree of a pattern. -/
inductive Tree where
  /-- One symbol. -/
  | symbol (value : Symbol)
  /-- The empty text. -/
  | empty
  /-- The left side followed by the right side. -/
  | concat (left right : Tree)
  /-- The left side or the right side. -/
  | alternate (left right : Tree)
  /-- Any number of repetitions of the body. -/
  | closure (body : Tree)
  deriving DecidableEq, Inhabited

namespace Tree

/-- The literal of a byte. -/
abbrev byte (value : UInt8) : Tree := symbol (.byte value)

/-- The literal of an action. -/
abbrev action (index : Nat) : Tree := symbol (.action index)

/-- The number of nodes. -/
def nodes : Tree → Nat
  | symbol _ => 1
  | empty => 1
  | concat l r => l.nodes + r.nodes + 1
  | alternate l r => l.nodes + r.nodes + 1
  | closure t => t.nodes + 1

/-- The number of nodes of several trees. -/
def totalNodes : List Tree → Nat
  | [] => 0
  | t :: rest => t.nodes + totalNodes rest

theorem nodes_pos (t : Tree) : 0 < t.nodes := by
  cases t <;> simp [nodes]

/-! ## Preorder -/

/-- A node without its children. -/
inductive Label where
  | symbol (value : Symbol)
  | empty
  | concat
  | alternate
  | closure
  deriving DecidableEq, Inhabited

/-- Visits the subtrees in turn, each before its children. The visited labels come latest first. -/
def visit : List Tree → List Label → List Label
  | [], seen => seen
  | symbol s :: rest, seen => visit rest (.symbol s :: seen)
  | empty :: rest, seen => visit rest (.empty :: seen)
  | concat l r :: rest, seen => visit (l :: r :: rest) (.concat :: seen)
  | alternate l r :: rest, seen => visit (l :: r :: rest) (.alternate :: seen)
  | closure t :: rest, seen => visit (t :: rest) (.closure :: seen)
termination_by trees => totalNodes trees
decreasing_by all_goals simp only [totalNodes, nodes]; omega

/-- The labels of a tree, each node before its children and left before right. -/
def preorder (t : Tree) : List Label := (visit [t] []).reverse

/-- The number of nodes, counted without nested calls. -/
def size (t : Tree) : Nat := (visit [t] []).length

theorem length_visit (trees : List Tree) (seen : List Label) :
    (visit trees seen).length = totalNodes trees + seen.length := by
  fun_induction visit trees seen with
  | case1 => simp [totalNodes]
  | _ => simp_all [totalNodes, nodes]; omega

/-- Counting the visited labels counts the nodes. -/
theorem size_eq_nodes (t : Tree) : t.size = t.nodes := by
  simp [size, length_visit, totalNodes]

/-! ## Written forms -/

/-- The tree as an outline: one line per node, children below their parent. -/
def outlineFrom (lead indent : String) (below : List String) : Tree → List String
  | symbol s => (lead ++ " " ++ s.display) :: below
  | empty => (lead ++ " empty") :: below
  | concat l r =>
    (lead ++ " concat") ::
      outlineFrom (indent ++ " ├─") (indent ++ " │ ")
        (outlineFrom (indent ++ " └─") (indent ++ "   ") below r) l
  | alternate l r =>
    (lead ++ " alternate") ::
      outlineFrom (indent ++ " ├─") (indent ++ " │ ")
        (outlineFrom (indent ++ " └─") (indent ++ "   ") below r) l
  | closure t => (lead ++ " closure") :: outlineFrom (indent ++ " └─") (indent ++ "   ") below t

/-- The outline of a tree, each line ended by a newline. -/
def outline (t : Tree) : String :=
  String.join ((outlineFrom "" "" [] t).map fun line => line ++ "\n")

end Tree

end ActionRegex.Pattern
