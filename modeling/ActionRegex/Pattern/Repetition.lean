import ActionRegex.Pattern.Token

/-!
# Repetitions

A repetition applies to the last complete term of a stream. Any number of repetitions has an
operator of its own; every other repetition is written out as copies of the term. The size that the
copies would add is checked before they are made.
-/

namespace ActionRegex.Pattern.Stream

/-- The largest number of tokens that a written-out repetition may lead to. -/
def maxTokens : Nat := 1048576

/-! ## The last term -/

/-- The number of tokens back to the parenthesis that opens the group, that token included; `depth`
parentheses are closed and not yet opened, and `count` tokens are behind. -/
def groupLength (depth count : Nat) : List Token → Option Nat
  | [] => none
  | token :: rest =>
    match token.kind with
    | .closing => groupLength (depth + 1) (count + 1) rest
    | .opening => if depth ≤ 1 then some (count + 1) else groupLength (depth - 1) (count + 1) rest
    | _ => groupLength depth (count + 1) rest

/-- The number of tokens of the last term, if the stream ends with a complete one. -/
def termLength (tokens : List Token) : Option Nat :=
  let closures := (tokens.takeWhile fun token => token.kind == .closure).length
  let operand := tokens.drop closures
  match operand with
  | [] => none
  | token :: _ =>
    match token.kind with
    | .symbol _ | .empty => some (closures + 1)
    | .closing => (groupLength 0 0 operand).map (closures + ·)
    | _ => none

/-- The stream without its last `n` tokens. -/
def dropLast (stream : Stream) (n : Nat) : Stream :=
  ⟨stream.tokens.drop n, stream.size - n, by simp [stream.size_eq]⟩

/-- The last `n` tokens in the order of the text. -/
def lastTokens (stream : Stream) (n : Nat) : List Token := (stream.tokens.take n).reverse

/-! ## Copies -/

/-- Adds `n` copies of a term. -/
def emitCopies (term : List Token) : Nat → Stream → Stream
  | 0, stream => stream
  | n + 1, stream => emitCopies term n (stream.emitAll term)

/-- Adds `count` copies of a term, the empty text for none. -/
def emitCount (term : List Token) (span : Span) (stream : Stream) (count : Nat) : Stream :=
  emitCopies term count (if count = 0 then stream.emit .empty span else stream)

/-- Adds the counts as alternatives. -/
def emitCounts (term : List Token) (span : Span) (stream : Stream) : List Nat → Stream
  | [] => stream
  | count :: counts =>
    counts.foldl (fun s count => emitCount term span (s.emit .alternation span) count)
      (emitCount term span stream count)

/-- The counts from `min` to `max`. -/
def counts (min max : Nat) : List Nat := List.range' min (max + 1 - min)

/-- The number of copies that a written-out repetition makes. -/
def copies (min : Nat) : Option Nat → Nat
  | none => min + 1
  | some max => (counts min max).foldl (· + ·) 0

/-- The tokens of a written-out repetition, between its parentheses. -/
def emitRepeated (term : List Token) (min : Nat) (max : Option Nat) (span : Span)
    (stream : Stream) : Stream :=
  match max with
  | none => (emitCopies term (min + 1) stream).emit .closure span
  | some max =>
    if max = min then emitCopies term min stream
    else emitCounts term span stream (counts min max)

/-- Repeats the last term, `length` tokens long, within the size limit. -/
def writeOut (stream : Stream) (length min : Nat) (max : Option Nat) (span : Span) :
    Except Error Stream :=
  if length * copies min max > maxTokens - stream.size then .error ⟨.patternTooLarge, span⟩
  else
    let opened := (stream.dropLast length).emit .opening span
    .ok ((emitRepeated (stream.lastTokens length) min max span opened).emit .closing span)

/-- Repeats the last term `min` to `max` times, or at least `min` times without an upper bound. -/
def repeatTerm (stream : Stream) (min : Nat) (max : Option Nat) (span : Span) :
    Except Error Stream :=
  if max.any (· < min) then .error ⟨.invalidRepetition, span⟩
  else if min > maxRepetition || max.any (· > maxRepetition) then
    .error ⟨.tooManyRepetitions, span⟩
  else
    match termLength stream.tokens with
    | none => .error ⟨.nothingToRepeat, span⟩
    | some length =>
      match min, max with
      | 1, some 1 => .ok stream
      | 0, none => .ok (stream.emit .closure span)
      | _, some 0 => .ok ((stream.dropLast length).emit .empty span)
      | min, max => writeOut stream length min max span

end ActionRegex.Pattern.Stream
