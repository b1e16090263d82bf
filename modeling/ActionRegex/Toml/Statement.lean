import ActionRegex.Toml.Value

/-!
# Statements of TOML documents

The statements of a document: table headers and assignments, each on lines of its own. Headers of
arrays of tables are not read; no configuration has any, so a document with one is refused.
-/

namespace ActionRegex.Toml

/-- A statement. -/
inductive Statement where
  /-- The assignments that follow are about this table. -/
  | header (key : Key)
  | assign (key : Key) (value : Value)

/-- The key between an opening bracket and a closing one at the end, without the opening one. -/
def headerKey? (tokens : List Token) : Option Key :=
  let tokens := trimBlanks tokens
  if tokens.getLast? = some (.mark ']') then key? tokens.dropLast else none

/-- Reads a statement, which starts with the first token. -/
def statement? (tokens : List Token) : Option (Reading Statement tokens) :=
  match tokens with
  | [] => none
  | token :: rest =>
    if token = .mark '[' then
      (headerKey? (rest.takeWhile (· ≠ .newline))).map fun key =>
        ⟨.header key, rest.dropWhile (· ≠ .newline),
          Nat.lt_succ_of_le (List.dropWhile_sublist _).length_le⟩
    else
      match h : skipKey (token :: rest) with
      | [] => none
      | _ :: after =>
        match key? (keyTokens (token :: rest)), value? 0 (skipBlanks after) with
        | some key, some r =>
          some (r.weaken (Nat.le_trans (length_skipBlanks_le after)
            (Nat.le_of_lt (length_lt_of_skipKey h))) (.assign key r.value))
        | _, _ => none

/-- Reads statements. Nothing but blanks stands between a statement and the end of its line. -/
def statementsOf? (tokens : List Token) : Option (List Statement) :=
  match h : skipLines tokens with
  | [] => some []
  | first :: more =>
    match statement? (first :: more) with
    | none => none
    | some r =>
      match h' : skipBlanks r.rest with
      | [] => some [r.value]
      | next :: following =>
        have _hlt : following.length < tokens.length :=
          Nat.lt_of_lt_of_le (length_lt_of_skipBlanks h')
            (Nat.le_trans (Nat.le_of_lt_succ r.shorter) (Nat.le_of_lt (length_lt_of_skipLines h)))
        if next = .newline then (statementsOf? following).map (r.value :: ·) else none
termination_by tokens.length
decreasing_by exact _hlt

/-- The statements of a document. -/
def statements? (text : String) : Option (List Statement) := (tokens? text).bind statementsOf?

end ActionRegex.Toml
