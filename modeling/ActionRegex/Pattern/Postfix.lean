import ActionRegex.Pattern.Token
import ActionRegex.Pattern.Tree

/-!
# Postfix order

Operator precedence is resolved by reordering the tokens so that every operator follows its
operands; parentheses disappear on the way. Alternation binds weakest, then concatenation, and both
group to the left. The reordered tokens are folded into a tree with a stack of operands.
-/

namespace ActionRegex.Pattern

/-! ## Reordering -/

/-- Whether an operator waiting on the stack comes before the binary operator that was read. -/
def bindsFirst (waiting read : TokenKind) : Bool :=
  match waiting, read with
  | .opening, _ => false
  | .alternation, .concatenation => false
  | _, _ => true

/-- Moves the operators since the last open parenthesis to the output and drops the parenthesis. -/
def closeGroup (output : List Token) : List Token → Option (List Token × List Token)
  | [] => none
  | top :: waiting =>
    if top.kind = .opening then some (output, waiting) else closeGroup (top :: output) waiting

/-- Moves the operators that bind first to the output. -/
def popOperators (kind : TokenKind) (output : List Token) : List Token → List Token × List Token
  | [] => (output, [])
  | top :: waiting =>
    if bindsFirst top.kind kind then popOperators kind (top :: output) waiting
    else (output, top :: waiting)

/-- Moves all operators to the output; an open parenthesis left among them has no pair. -/
def popAll (output : List Token) : List Token → Except Error (List Token)
  | [] => .ok output
  | top :: waiting =>
    if top.kind = .opening then .error ⟨.unbalancedParens, top.span⟩
    else popAll (top :: output) waiting

/-- Reorders tokens; the output comes latest first, and `waiting` holds the operators and open
parentheses whose place is not yet known. -/
def reorder (output waiting : List Token) : List Token → Except Error (List Token)
  | [] => popAll output waiting
  | token :: rest =>
    match token.kind with
    | .symbol _ | .empty | .closure => reorder (token :: output) waiting rest
    | .opening => reorder output (token :: waiting) rest
    | .closing =>
      match closeGroup output waiting with
      | none => .error ⟨.unbalancedParens, token.span⟩
      | some (output, waiting) => reorder output waiting rest
    | .alternation | .concatenation =>
      let (output, waiting) := popOperators token.kind output waiting
      reorder output (token :: waiting) rest

/-- The tokens in postfix order. -/
def toPostfix (tokens : List Token) : Except Error (List Token) :=
  (reorder [] [] tokens).map List.reverse

/-! ## Folding into a tree -/

/-- Takes the operands of a token from the stack, top first, and puts its tree in their place. A
parenthesis has no place in postfix order and counts as an operator without operands. -/
def applyToken (token : Token) (stack : List (Tree × Span)) :
    Except Error (List (Tree × Span)) :=
  match token.kind, stack with
  | .symbol s, stack => .ok ((.symbol s, token.span) :: stack)
  | .empty, stack => .ok ((.empty, token.span) :: stack)
  | .closure, (t, _) :: stack => .ok ((.closure t, token.span) :: stack)
  | .concatenation, (r, _) :: (l, _) :: stack => .ok ((.concat l r, token.span) :: stack)
  | .alternation, (r, _) :: (l, _) :: stack => .ok ((.alternate l r, token.span) :: stack)
  | _, _ => .error ⟨.malformedExpression, token.span⟩

/-- Folds tokens in postfix order. -/
def foldTokens (stack : List (Tree × Span)) : List Token → Except Error (List (Tree × Span))
  | [] => .ok stack
  | token :: rest =>
    match applyToken token stack with
    | .error e => .error e
    | .ok stack => foldTokens stack rest

/-- The one tree that is left. No operands at all are the empty text; of several operands, the
second from the bottom is where an operator is missing. -/
def takeTree (stack : List (Tree × Span)) : Except Error Tree :=
  match stack.reverse with
  | [] => .ok .empty
  | [(t, _)] => .ok t
  | _ :: (_, span) :: _ => .error ⟨.malformedExpression, span⟩

/-- The tree of tokens in postfix order. -/
def treeOfPostfix (tokens : List Token) : Except Error Tree :=
  match foldTokens [] tokens with
  | .error e => .error e
  | .ok stack => takeTree stack

end ActionRegex.Pattern
