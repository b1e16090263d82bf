import ActionRegex.Toml.Literal
import ActionRegex.Toml.Token

/-!
# Values of TOML documents

Keys and values are read from tokens. A reader returns what it has read together with the tokens
that follow, which are fewer than it was given; that is why reading ends.
-/

namespace ActionRegex.Toml

/-- The parts of a dotted key. -/
abbrev Key := List String

/-- A value. -/
inductive Value where
  | text (value : String)
  | flag (value : Bool)
  /-- A number or a date. -/
  | literal
  | array (items : List Value)
  /-- An inline table. -/
  | table (entries : List (Key × Value))

/-! ## Tokens -/

/-- Whether a token is a blank. -/
def Token.isBlank : Token → Bool
  | .blank _ => true
  | _ => false

/-- The tokens from the first that is not a blank. -/
def skipBlanks (tokens : List Token) : List Token := tokens.dropWhile Token.isBlank

/-- The tokens from the first that is neither a blank nor a line end. -/
def skipLines (tokens : List Token) : List Token :=
  tokens.dropWhile fun token => token.isBlank || token == .newline

/-- The tokens without blanks on either side. -/
def trimBlanks (tokens : List Token) : List Token :=
  (skipBlanks (skipBlanks tokens).reverse).reverse

/-- The tokens before the first equals sign. -/
def keyTokens (tokens : List Token) : List Token := tokens.takeWhile (· ≠ .mark '=')

/-- The tokens from the first equals sign on. -/
def skipKey (tokens : List Token) : List Token := tokens.dropWhile (· ≠ .mark '=')

theorem length_skipBlanks_le (tokens : List Token) : (skipBlanks tokens).length ≤ tokens.length :=
  (List.dropWhile_sublist _).length_le

theorem length_lt_of_skipBlanks {tokens rest : List Token} {token : Token}
    (h : skipBlanks tokens = token :: rest) : rest.length < tokens.length := by
  have := length_skipBlanks_le tokens
  rwa [h] at this

theorem length_lt_of_skipLines {tokens rest : List Token} {token : Token}
    (h : skipLines tokens = token :: rest) : rest.length < tokens.length := by
  have : (skipLines tokens).length ≤ tokens.length := (List.dropWhile_sublist _).length_le
  rwa [h] at this

theorem length_lt_of_skipKey {tokens rest : List Token} {token : Token}
    (h : skipKey tokens = token :: rest) : rest.length < tokens.length := by
  have : (skipKey tokens).length ≤ tokens.length := (List.dropWhile_sublist _).length_le
  rwa [h] at this

/-! ## Keys -/

/-- The part of a key that tokens are. -/
def keyPart? (tokens : List Token) : Option String :=
  match trimBlanks tokens with
  | [.word text] => some text
  | [.string text] => some text
  | _ => none

/-- Splits tokens at those that are equal to a mark. -/
def splitAtMark (mark : Token) : List Token → List (List Token)
  | [] => [[]]
  | token :: rest =>
    match splitAtMark mark rest with
    | [] => [[token]]
    | part :: parts => if token = mark then [] :: part :: parts else (token :: part) :: parts

/-- The most parts of a key, and the most arrays and tables around a value. -/
def maxDepth : Nat := 79

/-- A key: its parts with dots between them. -/
def key? (tokens : List Token) : Option Key :=
  let parts := splitAtMark (.mark '.') tokens
  if parts.length ≤ maxDepth then parts.mapM keyPart? else none

/-- Whether the keys can stand in one table: none of them is the start of another. -/
def compatible : List Key → Bool
  | [] => true
  | key :: rest =>
    rest.all (fun other => !key.isPrefixOf other && !other.isPrefixOf key) && compatible rest

/-! ## Simple values -/

/-- The text of a token that numbers and dates can be made of. -/
def Token.plain? : Token → Option String
  | .word text => some text
  | .mark c => some (String.singleton c)
  | .blank c => some (String.singleton c)
  | _ => none

/-- The value that a text without quotes stands for. -/
def unquoted? (text : String) : Option Value :=
  if text = "true" then some (.flag true)
  else if text = "false" then some (.flag false)
  else if isLiteral text.toList then some .literal
  else none

/-- The simple value that tokens are. -/
def scalar? (tokens : List Token) : Option Value :=
  match trimBlanks tokens with
  | [.string text] => some (.text text)
  | [.longString text] => some (.text text)
  | tokens => (tokens.mapM Token.plain?).bind fun texts => unquoted? (String.join texts)

/-- Whether a token ends a simple value. -/
def Token.isDelimiter : Token → Bool
  | .mark c => [',', ']', '\x7d'].contains c
  | .newline => true
  | _ => false

/-! ## Values -/

/-- What is read at the start of tokens, and those that follow. -/
structure Reading (α : Type) (tokens : List Token) where
  value : α
  rest : List Token
  shorter : rest.length < tokens.length

/-- What is read after some tokens is read from all of them, too. -/
def Reading.weaken {α β : Type} {tokens before : List Token} (r : Reading α before)
    (h : before.length ≤ tokens.length) (value : β) : Reading β tokens :=
  ⟨value, r.rest, Nat.lt_of_lt_of_le r.shorter h⟩

mutual

/-- Reads a value, which starts with the first token. There are `depth` arrays and tables around
it. -/
def value? (depth : Nat) (tokens : List Token) : Option (Reading Value tokens) :=
  match tokens with
  | [] => none
  | token :: rest =>
    if token = .mark '[' then
      if maxDepth ≤ depth then none
      else (items? (depth + 1) rest).map fun r => r.weaken (Nat.le_succ _) (.array r.value)
    else if token = .mark '\x7b' then
      if maxDepth ≤ depth then none
      else (table? (depth + 1) rest).map fun r => r.weaken (Nat.le_succ _) (.table r.value)
    else
      (scalar? (token :: rest.takeWhile fun token => !token.isDelimiter)).map fun value =>
        ⟨value, rest.dropWhile fun token => !token.isDelimiter,
          Nat.lt_succ_of_le (List.dropWhile_sublist _).length_le⟩
termination_by (tokens.length, 0)
decreasing_by
  · exact Prod.Lex.left _ _ (Nat.lt_succ_self _)
  · exact Prod.Lex.left _ _ (Nat.lt_succ_self _)

/-- Reads the items of an array after its opening bracket or a comma. -/
def items? (depth : Nat) (tokens : List Token) : Option (Reading (List Value) tokens) :=
  match h : skipLines tokens with
  | [] => none
  | first :: more =>
    have hle : more.length < tokens.length := length_lt_of_skipLines h
    if first = .mark ']' then some ⟨[], more, hle⟩
    else
      match value? depth (first :: more) with
      | none => none
      | some r =>
        match h' : skipLines r.rest with
        | [] => none
        | next :: following =>
          have hlt : following.length < tokens.length :=
            Nat.lt_of_lt_of_le (length_lt_of_skipLines h')
              (Nat.le_trans (Nat.le_of_lt_succ r.shorter) (Nat.le_of_lt hle))
          if next = .mark ',' then
            (items? depth following).map fun s => s.weaken (Nat.le_of_lt hlt) (r.value :: s.value)
          else if next = .mark ']' then some ⟨[r.value], following, hlt⟩
          else none
termination_by (tokens.length, 1)
decreasing_by
  · exact Prod.lex_def.mpr (by rw [List.length_cons]; omega)
  · exact Prod.Lex.left _ _ hlt

/-- Reads an inline table after its opening brace. -/
def table? (depth : Nat) (tokens : List Token) : Option (Reading (List (Key × Value)) tokens) :=
  match h : skipBlanks tokens with
  | [] => none
  | first :: more =>
    if first = .mark '\x7d' then some ⟨[], more, length_lt_of_skipBlanks h⟩
    else
      (entries? depth tokens).bind fun r =>
        if compatible (r.value.map Prod.fst) then some r else none
termination_by (tokens.length, 2)
decreasing_by exact Prod.Lex.right _ (by omega)

/-- Reads the entries of an inline table after its opening brace or a comma. There is at least
one. -/
def entries? (depth : Nat) (tokens : List Token) : Option (Reading (List (Key × Value)) tokens) :=
  match h : skipKey tokens with
  | [] => none
  | _ :: after =>
    have hle : (skipBlanks after).length < tokens.length :=
      Nat.lt_of_le_of_lt (length_skipBlanks_le after) (length_lt_of_skipKey h)
    match key? (keyTokens tokens), value? depth (skipBlanks after) with
    | some key, some r =>
      match h' : skipBlanks r.rest with
      | [] => none
      | next :: following =>
        have hlt : following.length < tokens.length :=
          Nat.lt_trans (Nat.lt_trans (length_lt_of_skipBlanks h') r.shorter) hle
        if next = .mark ',' then
          (entries? depth following).map fun s =>
            s.weaken (Nat.le_of_lt hlt) ((key, r.value) :: s.value)
        else if next = .mark '\x7d' then some ⟨[(key, r.value)], following, hlt⟩
        else none
    | _, _ => none
termination_by (tokens.length, 1)
decreasing_by
  · exact Prod.Lex.left _ _ hle
  · exact Prod.Lex.left _ _ hlt

end

end ActionRegex.Toml
