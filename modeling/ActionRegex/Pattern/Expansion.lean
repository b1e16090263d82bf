import ActionRegex.Macros
import ActionRegex.Pattern.Lexing
import ActionRegex.Pattern.Repetition
import ActionRegex.Registry

/-!
# From items to tokens

Items become tokens one after the other. An action block is registered and becomes the symbol of its
index; it stays registered when a later item is refused. A name becomes the tokens of its macro's
body in parentheses. All tokens and errors of a body have the span of the outermost reference, so
that they point into the pattern itself.

A macro may not be expanded inside its own expansion, so each nested expansion leaves fewer macros
to expand, and within one body each step leaves fewer items: that pair is the measure by which
`expand` ends.
-/

namespace ActionRegex.Pattern

/-- The tokens of a stretch of pattern, or its fault, with the registry after it. -/
abbrev Expanded := Except Error Stream × Registry

/-- The stream after an item that needs neither macros nor the registry. -/
def addItem (stream : Stream) (span : Span) : Item → Except Error Stream
  | .opening => .ok (stream.emit .opening span)
  | .closing => .ok (stream.emit .closing span)
  | .bar => .ok (stream.emit .alternation span)
  | .repetition min max => stream.repeatTerm min max span
  | .byte b => .ok (stream.emitByte span b)
  | .oneOf set => .ok (stream.emitSet span set)
  | .quoted bytes => .ok (stream.emitBytes span bytes)
  | .action _ | .name _ => .ok stream

/-- Adds items to a stream and then the fault that ended their reading, if any. `expanding` holds
the macros being expanded, innermost first, and `origin` the span of the outermost reference. -/
def expand (macros : Macros) (expanding : List Bytes) (origin : Option Span)
    (items : List (Item × Span)) (fault : Option Error) (stream : Stream) (registry : Registry) :
    Expanded :=
  match items with
  | [] => (match fault with | none => .ok stream | some e => .error e, registry)
  | (item, itemSpan) :: rest =>
    let span := origin.getD itemSpan
    match item with
    | .action text =>
      expand macros expanding origin rest fault
        (stream.emit (.symbol (.action registry.size)) span) (registry.add text)
    | .name name =>
      match _hbody : macros.body? name with
      | none =>
        match name with
        | [b] => expand macros expanding origin rest fault (stream.emitByte span b) registry
        | _ => (.error ⟨.unknownMacro name, span⟩, registry)
      | some body =>
        if _hname : expanding.contains name then (.error ⟨.recursiveMacro name, span⟩, registry)
        else
          let reading := lex body
          match expand macros (name :: expanding) (some span) reading.items reading.error .empty
              registry with
          | (.error e, registry) => (.error ⟨e.fault, span⟩, registry)
          | (.ok inner, registry) =>
            expand macros expanding origin rest fault (stream.emitGroup inner span) registry
    | item =>
      match addItem stream span item with
      | .error e => (.error e, registry)
      | .ok stream => expand macros expanding origin rest fault stream registry
termination_by (macros.countOutside expanding, items.length)
decreasing_by
  · simp [Prod.lex_def]
  · simp [Prod.lex_def]
  · have := Macros.countOutside_cons_lt _hbody _hname
    simp only [Prod.lex_def]; left; exact this
  · simp [Prod.lex_def]
  · simp [Prod.lex_def]

/-- The tokens of a pattern. -/
def tokenize (macros : Macros) (pattern : Bytes) (registry : Registry) : Expanded :=
  let reading := lex pattern
  expand macros [] none reading.items reading.error .empty registry

end ActionRegex.Pattern
