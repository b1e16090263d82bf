import ActionRegex.Text.Ascii

/-!
# Tokens of TOML documents

The words, strings, marks, blanks and line ends of a TOML document. Comments are dropped. The text
is read by a fold over its characters, whose state is the token that is under way; a character that
shows that a token has ended is looked at again as the start of what follows.

Numbers and dates are made of words, marks and blanks.
-/

namespace ActionRegex.Toml

/-- A token. -/
inductive Token where
  /-- Letters, digits, `_` and `-`. -/
  | word (text : String)
  /-- A string on one line. -/
  | string (text : String)
  /-- A string between triple quotes. -/
  | longString (text : String)
  /-- One of `=`, `.`, `,`, `+`, `:`, and brackets and braces. -/
  | mark (value : Char)
  /-- A space or a tab. -/
  | blank (value : Char)
  | newline
  deriving DecidableEq

/-- What encloses a string. In a string between double quotes, a backslash escapes. -/
inductive Quote where
  | single
  | double
  deriving DecidableEq

def Quote.char : Quote → Char
  | single => '\''
  | double => '"'

/-- Where reading stands inside a string. -/
inductive Inside where
  | content
  /-- Right after a triple quote that opens the string: a newline here is dropped. -/
  | opened
  /-- After a carriage return right after the opening quote. -/
  | openedReturn
  /-- After a carriage return. -/
  | carriageReturn
  /-- After a backslash. -/
  | escape
  /-- In the digits of an escaped character. -/
  | digits (missing value : Nat)
  /-- After a backslash and blanks: the line must end. -/
  | lineEscape
  /-- After a backslash, blanks and a carriage return. -/
  | lineEscapeReturn
  /-- In the blanks and line ends after an escaped line end. -/
  | skipped
  /-- After a carriage return among these. -/
  | skippedReturn
  /-- After some quotes in a string between triple quotes. -/
  | quotes (count : Nat)
  deriving DecidableEq

/-- The token that is under way. Characters read so far come latest first. -/
inductive Mode where
  | between
  | word (read : List Char)
  | comment
  /-- After a carriage return, which only a newline may follow. -/
  | carriageReturn
  /-- After one or two quotes that open a string. -/
  | opening (quote : Quote) (second : Bool)
  | string (quote : Quote) (long : Bool) (read : List Char) (inside : Inside)
  deriving DecidableEq

/-- Tokens read, latest first, and the one under way. -/
structure State where
  tokens : List Token := []
  mode : Mode := .between
  deriving DecidableEq

/-! ## Classes of characters -/

/-- A blank within a line. -/
def isBlank (c : Char) : Bool := c == ' ' || c == '\t'

/-- A character of a word. -/
def isWordChar (c : Char) : Bool := c.isAlphanum || c == '_' || c == '-'

def isMark (c : Char) : Bool := ['=', '.', ',', '+', ':', '[', ']', '\x7b', '\x7d'].contains c

/-- A character that comments and strings may hold as it is: no control character but the tab. -/
def isTextChar (c : Char) : Bool := c == '\t' || (0x20 ≤ c.toNat && c.toNat ≠ 0x7f)

/-- The character that a letter after a backslash stands for. -/
def escapedChar? : Char → Option Char
  | 'b' => some '\x08'
  | 't' => some '\t'
  | 'n' => some '\n'
  | 'f' => some '\x0c'
  | 'r' => some '\r'
  | '"' => some '"'
  | '\\' => some '\\'
  | _ => none

/-- The value of a hexadecimal digit. -/
def hexValue? (c : Char) : Option Nat :=
  if c.toNat < 0x80 then (Ascii.hexValue? (Ascii.ofChar c)).map UInt8.toNat else none

/-- The character with a code point. -/
def charOf? (n : Nat) : Option Char := if n.isValidChar then some (Char.ofNat n) else none

/-! ## Steps -/

/-- Ends a token. -/
def State.emit (s : State) (token : Token) : State := ⟨token :: s.tokens, .between⟩

/-- Ends a string. -/
def State.emitString (s : State) (long : Bool) (read : List Char) : State :=
  let text := String.ofList read.reverse
  s.emit (if long then .longString text else .string text)

/-- A character between tokens. -/
def stepBetween (s : State) (c : Char) : Option State :=
  if isBlank c then some (s.emit (.blank c))
  else if isWordChar c then some { s with mode := .word [c] }
  else if isMark c then some (s.emit (.mark c))
  else if c = '\n' then some (s.emit .newline)
  else if c = '\r' then some { s with mode := .carriageReturn }
  else if c = '#' then some { s with mode := .comment }
  else if c = '\'' then some { s with mode := .opening .single false }
  else if c = '"' then some { s with mode := .opening .double false }
  else none

/-- A character of the content of a string. -/
def stepContent (s : State) (quote : Quote) (long : Bool) (read : List Char) (c : Char) :
    Option State :=
  let go (read : List Char) (inside : Inside) : Option State :=
    some { s with mode := .string quote long read inside }
  if c = quote.char then
    if long then go read (.quotes 1) else some (s.emitString long read)
  else if c = '\\' ∧ quote = .double then go read .escape
  else if isTextChar c then go (c :: read) .content
  else if long ∧ c = '\n' then go (c :: read) .content
  else if long ∧ c = '\r' then go read .carriageReturn
  else none

/-- A character after quotes in a string between triple quotes. Three to five of them end it; those
before the last three belong to it. -/
def stepQuotes (s : State) (quote : Quote) (read : List Char) (count : Nat) (c : Char) :
    Option State :=
  if c = quote.char ∧ count < 5 then
    some { s with mode := .string quote true read (.quotes (count + 1)) }
  else if count < 3 then stepContent s quote true (List.replicate count quote.char ++ read) c
  else stepBetween (s.emitString true (List.replicate (count - 3) quote.char ++ read)) c

/-- A character inside a string. -/
def stepString (s : State) (quote : Quote) (long : Bool) (read : List Char) (inside : Inside)
    (c : Char) : Option State :=
  let go (read : List Char) (inside : Inside) : Option State :=
    some { s with mode := .string quote long read inside }
  match inside with
  | .content => stepContent s quote long read c
  | .opened =>
    if c = '\n' then go read .content
    else if c = '\r' then go read .openedReturn
    else stepContent s quote long read c
  | .openedReturn => if c = '\n' then go read .content else none
  | .carriageReturn => if c = '\n' then go (c :: read) .content else none
  | .escape =>
    if c = 'u' then go read (.digits 4 0)
    else if c = 'U' then go read (.digits 8 0)
    else if long ∧ isBlank c then go read .lineEscape
    else if long ∧ c = '\n' then go read .skipped
    else if long ∧ c = '\r' then go read .lineEscapeReturn
    else (escapedChar? c).bind fun escaped => go (escaped :: read) .content
  | .digits missing value =>
    (hexValue? c).bind fun digit =>
      let value := 16 * value + digit
      if missing ≤ 1 then (charOf? value).bind fun escaped => go (escaped :: read) .content
      else go read (.digits (missing - 1) value)
  | .lineEscape =>
    if isBlank c then go read .lineEscape
    else if c = '\n' then go read .skipped
    else if c = '\r' then go read .lineEscapeReturn
    else none
  | .lineEscapeReturn => if c = '\n' then go read .skipped else none
  | .skipped =>
    if isBlank c ∨ c = '\n' then go read .skipped
    else if c = '\r' then go read .skippedReturn
    else stepContent s quote long read c
  | .skippedReturn => if c = '\n' then go read .skipped else none
  | .quotes count => stepQuotes s quote read count c

/-- One character further, unless it has no place there. -/
def step (s : State) (c : Char) : Option State :=
  match s.mode with
  | .between => stepBetween s c
  | .word read =>
    if isWordChar c then some { s with mode := .word (c :: read) }
    else stepBetween (s.emit (.word (String.ofList read.reverse))) c
  | .comment =>
    if isTextChar c then some s else stepBetween { s with mode := .between } c
  | .carriageReturn => if c = '\n' then some (s.emit .newline) else none
  | .opening quote second =>
    if c = quote.char then
      some { s with mode := if second then .string quote true [] .opened else .opening quote true }
    else if second then stepBetween (s.emitString false []) c
    else stepContent s quote false [] c
  | .string quote long read inside => stepString s quote long read inside c

/-- The tokens when the text ends, unless it ends inside a string. -/
def finish (s : State) : Option (List Token) :=
  match s.mode with
  | .between => some s.tokens.reverse
  | .word read => some (s.emit (.word (String.ofList read.reverse))).tokens.reverse
  | .comment => some s.tokens.reverse
  | .opening _ true => some (s.emitString false []).tokens.reverse
  | .string quote true read (.quotes count) =>
    if 3 ≤ count then
      some (s.emitString true (List.replicate (count - 3) quote.char ++ read)).tokens.reverse
    else none
  | _ => none

/-- The tokens of a document. A byte order mark at its start is skipped. -/
def tokens? (text : String) : Option (List Token) :=
  let chars := match text.toList with
    | '\uFEFF' :: rest => rest
    | chars => chars
  (chars.foldlM step {}).bind finish

end ActionRegex.Toml
