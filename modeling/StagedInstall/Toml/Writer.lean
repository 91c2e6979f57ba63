import StagedInstall.Toml.Text

/-! # Writing TOML strings

A string is written in one of four forms. A backslash asks for a literal form, in which nothing is
escaped, as long as the text can stand in one; a line end asks for several lines.
-/

namespace StagedInstall.Toml

def isControl (c : Char) : Bool := c.toNat < 0x20 ∨ c.toNat = 0x7F

/-- Whether three quotes stand in a row. -/
def hasTripleQuote : List Char → Bool
  | '\'' :: '\'' :: '\'' :: _ => true
  | _ :: s => hasTripleQuote s
  | [] => false

/-- Whether the text is written in a literal form. -/
def prefersLiteral (s : List Char) : Bool :=
  s.contains '\\' && s.all (fun c => !isControl c || c = '\t' || c = '\n') &&
    !hasTripleQuote s && s.getLast? ≠ some '\''

def hexUpper (n : Nat) : Char := (Nat.digitChar n).toUpper

/-- A character of a basic string. -/
def escapeChar (multiline : Bool) (c : Char) : List Char :=
  if c = '\x08' then ['\\', 'b']
  else if c = '\t' then ['\\', 't']
  else if c = '\n' then if multiline then ['\n'] else ['\\', 'n']
  else if c = '\x0c' then ['\\', 'f']
  else if c = '\r' then ['\\', 'r']
  else if c = '"' then ['\\', '"']
  else if c = '\\' then ['\\', '\\']
  else if isControl c then ['\\', 'u', '0', '0', hexUpper (c.toNat / 16), hexUpper (c.toNat % 16)]
  else [c]

/-- The text as a TOML string. -/
def write (s : List Char) : List Char :=
  let multiline := s.contains '\n'
  let (opening, closing) : String × String :=
    if prefersLiteral s then
      if multiline then ("'''\n", "'''") else if s.contains '\'' then ("'''", "'''") else ("'", "'")
    else if multiline then ("\"\"\"\n", "\"\"\"") else ("\"", "\"")
  let body := if prefersLiteral s then s else s.flatMap (escapeChar multiline)
  opening.toList ++ body ++ closing.toList

end StagedInstall.Toml
