/-! # TOML strings

Readers for the four forms of a string. Each takes the characters after the opening delimiter
and gives the text with what follows the closing one. A reader that meets something longer than
one character says how many of the next characters it has used up, and goes on after those.
-/

namespace StagedInstall.Toml

/-- What a reader gives: a value and the rest of the characters. -/
abbrev Read (α : Type) := Option (α × List Char)

def Read.cons (c : Char) (r : Read (List Char)) : Read (List Char) :=
  r.map fun (s, rest) => (c :: s, rest)

def isBlank (c : Char) : Bool := c = ' ' ∨ c = '\t'

def skipBlank (s : List Char) : List Char := s.dropWhile isBlank

/-- Tabs and what is no control character. -/
def isPlain (c : Char) : Bool := c = '\t' ∨ (0x20 ≤ c.toNat ∧ c.toNat ≠ 0x7F)

/-- The length of the line end that the characters start with; 0 when there is none. -/
def newlineLength : List Char → Nat
  | c :: s => if c = '\n' then 1 else if c = '\r' ∧ s.head? = some '\n' then 2 else 0
  | [] => 0

def hexValue? (c : Char) : Option Nat :=
  if c.isDigit then some (c.toNat - '0'.toNat)
  else if 'a' ≤ c ∧ c ≤ 'f' then some (c.toNat - 'a'.toNat + 10)
  else if 'A' ≤ c ∧ c ≤ 'F' then some (c.toNat - 'A'.toNat + 10)
  else none

def hexNumber? (digits : List Char) : Option Nat :=
  digits.foldlM (fun n c => (hexValue? c).map (16 * n + ·)) 0

/-- The character with the code that the next `n` characters spell in hexadecimal. -/
def codePoint? (n : Nat) (s : List Char) : Option Char := do
  if s.length < n then none
  let code ← hexNumber? (s.take n)
  if code.isValidChar then some (.ofNat code) else none

/-- What an escape stands for, and how many characters after the backslash it takes. -/
def escape? : List Char → Option (Char × Nat)
  | [] => none
  | c :: s =>
    match c with
    | 'b' => some ('\x08', 1)
    | 't' => some ('\t', 1)
    | 'n' => some ('\n', 1)
    | 'f' => some ('\x0c', 1)
    | 'r' => some ('\r', 1)
    | '"' => some ('"', 1)
    | '\\' => some ('\\', 1)
    | 'u' => (codePoint? 4 s).map (·, 5)
    | 'U' => (codePoint? 8 s).map (·, 9)
    | _ => none

def basicAfter : (used : Nat) → List Char → Read (List Char)
  | _, [] => none
  | used + 1, _ :: s => basicAfter used s
  | 0, c :: s =>
    if c = '"' then some ([], s)
    else if c = '\\' then
      match escape? s with
      | some (d, n) => .cons d (basicAfter n s)
      | none => none
    else if isPlain c then .cons c (basicAfter 0 s)
    else none

def literal : List Char → Read (List Char)
  | [] => none
  | c :: s =>
    if c = '\'' then some ([], s)
    else if isPlain c then .cons c (literal s)
    else none

/-- The number of quotes the characters start with. -/
def quoteRun (quote : Char) (s : List Char) : Nat := (s.takeWhile (· = quote)).length

/-- The end of a multi-line string at a run of at least three quotes: up to two of them belong to
the text. -/
def closeRun (quote : Char) (s : List Char) : List Char × List Char :=
  let inside := min (quoteRun quote s - 3) 2
  (List.replicate inside quote, s.drop (inside + 3))

/-- The number of blanks and line ends that the characters start with. -/
def spaceLength : List Char → Nat
  | [] => 0
  | c :: s =>
    if isBlank c ∨ newlineLength (c :: s) ≠ 0 then spaceLength s + 1 else 0

/-- What a backslash at the end of a line leaves out; 0 when it stands elsewhere. -/
def foldedLength (s : List Char) : Nat :=
  if newlineLength (skipBlank s) = 0 then 0 else spaceLength s

def multilineBasicAfter : (used : Nat) → List Char → Read (List Char)
  | _, [] => none
  | used + 1, _ :: s => multilineBasicAfter used s
  | 0, c :: s =>
    if c = '"' then
      if 3 ≤ quoteRun '"' (c :: s) then some (closeRun '"' (c :: s))
      else .cons c (multilineBasicAfter 0 s)
    else if c = '\\' then
      if foldedLength s = 0 then
        match escape? s with
        | some (d, n) => .cons d (multilineBasicAfter n s)
        | none => none
      else multilineBasicAfter (foldedLength s) s
    else if isPlain c then .cons c (multilineBasicAfter 0 s)
    else match newlineLength (c :: s) with
      | 0 => none
      | n + 1 => .cons '\n' (multilineBasicAfter n s)

def multilineLiteralAfter : (used : Nat) → List Char → Read (List Char)
  | _, [] => none
  | used + 1, _ :: s => multilineLiteralAfter used s
  | 0, c :: s =>
    if c = '\'' then
      if 3 ≤ quoteRun '\'' (c :: s) then some (closeRun '\'' (c :: s))
      else .cons c (multilineLiteralAfter 0 s)
    else if isPlain c then .cons c (multilineLiteralAfter 0 s)
    else match newlineLength (c :: s) with
      | 0 => none
      | n + 1 => .cons '\n' (multilineLiteralAfter n s)

/-- Leaves out the line end that may follow the opening of a multi-line string. -/
def dropNewline (s : List Char) : List Char := s.drop (newlineLength s)

/-- A string on one line, as it may also stand as a key. -/
def lineString : List Char → Read (List Char)
  | [] => none
  | c :: s =>
    if c = '"' then basicAfter 0 s else if c = '\'' then literal s else none

/-- A string of any form. -/
def text (s : List Char) : Read (List Char) :=
  if 3 ≤ quoteRun '"' s then multilineBasicAfter 0 (dropNewline (s.drop 3))
  else if 3 ≤ quoteRun '\'' s then multilineLiteralAfter 0 (dropNewline (s.drop 3))
  else lineString s

end StagedInstall.Toml
