import ActionRegex.Pattern.Error
import ActionRegex.ByteSet
import ActionRegex.Symbol

/-!
# Tokens

Between its items and its tree a pattern is a stream of operands, operators and parentheses in the
order of the text. A stream is kept latest token first, because its end is where tokens are added,
where the last term is found, and where it is replaced by copies of itself. `Stream.emit` adds a
token together with the tokens that the text leaves out.
-/

namespace ActionRegex.Pattern

/-- What a token is. -/
inductive TokenKind where
  | symbol (value : Symbol)
  /-- The empty text. -/
  | empty
  | opening
  | closing
  | alternation
  | concatenation
  /-- Any number of repetitions of the term before it. -/
  | closure
  deriving DecidableEq, Inhabited

namespace TokenKind

/-- Whether a term can start with the token. -/
def startsTerm : TokenKind → Bool
  | symbol _ | empty | opening => true
  | _ => false

/-- Whether a term can end with the token. -/
def endsTerm : TokenKind → Bool
  | symbol _ | empty | closing | closure => true
  | _ => false

end TokenKind

/-- A token and the part of the pattern it came from. -/
structure Token where
  kind : TokenKind
  span : Span
  deriving DecidableEq, Inhabited

/-- A token stream, latest token first, with its number of tokens. -/
structure Stream where
  tokens : List Token := []
  size : Nat := 0
  size_eq : size = tokens.length := by rfl

namespace Stream

/-- The stream without tokens. -/
def empty : Stream := {}

/-- Adds a token as it is. -/
def push (stream : Stream) (token : Token) : Stream :=
  ⟨token :: stream.tokens, stream.size + 1, by simp [stream.size_eq]⟩

/-- Whether the last token satisfies a condition. -/
def endsWith (stream : Stream) (p : TokenKind → Bool) : Bool :=
  stream.tokens.head?.any fun token => p token.kind

/-- Adds a token. A term right after a term is concatenated to it, and parentheses around nothing
get the empty text between them. -/
def emit (stream : Stream) (kind : TokenKind) (span : Span) : Stream :=
  if kind.startsTerm && stream.endsWith TokenKind.endsTerm then
    (stream.push ⟨.concatenation, span⟩).push ⟨kind, span⟩
  else if kind == .closing && stream.endsWith (· == .opening) then
    (stream.push ⟨.empty, span⟩).push ⟨kind, span⟩
  else stream.push ⟨kind, span⟩

/-- Adds tokens one after the other. -/
def emitAll (stream : Stream) (tokens : List Token) : Stream :=
  tokens.foldl (fun s token => s.emit token.kind token.span) stream

/-- Adds a byte. -/
def emitByte (stream : Stream) (span : Span) (b : UInt8) : Stream :=
  stream.emit (.symbol (.byte b)) span

/-- Adds bytes in parentheses, concatenated. No byte is the empty text, and one byte needs no
parentheses. -/
def emitBytes (stream : Stream) (span : Span) : Bytes → Stream
  | [] => stream.emit .empty span
  | [b] => stream.emitByte span b
  | bytes =>
    (bytes.foldl (fun s b => s.emitByte span b) (stream.emit .opening span)).emit .closing span

/-- Adds the members of a set in parentheses, as alternatives in ascending order. One member needs
no parentheses. -/
def emitSet (stream : Stream) (span : Span) (set : ByteSet) : Stream :=
  match set.toList with
  | [] => stream
  | [b] => stream.emitByte span b
  | b :: rest =>
    (rest.foldl (fun s b => (s.emit .alternation span).emitByte span b)
      ((stream.emit .opening span).emitByte span b)).emit .closing span

/-- Adds the tokens of another stream in parentheses, as they are. -/
def emitGroup (stream inner : Stream) (span : Span) : Stream :=
  let opened := stream.emit .opening span
  let filled : Stream :=
    ⟨inner.tokens ++ opened.tokens, inner.size + opened.size,
      by simp [inner.size_eq, opened.size_eq]⟩
  filled.emit .closing span

end Stream

end ActionRegex.Pattern
