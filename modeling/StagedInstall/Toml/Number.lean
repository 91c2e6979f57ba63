import StagedInstall.Toml.Text
import StagedInstall.Toml.Value

/-! # TOML numbers, dates and times

Whole numbers fit into 64 bits with a sign; a date or time is only recognised, since nothing
here uses its value.
-/

namespace StagedInstall.Toml

def isBinaryDigit (c : Char) : Bool := c = '0' ∨ c = '1'

def isOctalDigit (c : Char) : Bool := '0' ≤ c ∧ c ≤ '7'

def isHexDigit (c : Char) : Bool := (hexValue? c).isSome

/-- Digits, with single underscores between them, which are left out. -/
def moreDigits (ok : Char → Bool) : List Char → Read (List Char)
  | [] => some ([], [])
  | c :: s =>
    if c = '_' then
      match s with
      | [] => none
      | d :: s => if ok d then .cons d (moreDigits ok s) else none
    else if ok c then .cons c (moreDigits ok s)
    else some ([], c :: s)

def digits (ok : Char → Bool) : List Char → Read (List Char)
  | [] => none
  | c :: s => if ok c then .cons c (moreDigits ok s) else none

/-- Decimal digits that do not start with a needless zero. -/
def decimalDigits : List Char → Read (List Char)
  | [] => none
  | c :: s => if c = '0' then some ([c], s) else digits Char.isDigit (c :: s)

def ofDigits (base : Nat) (s : List Char) : Nat :=
  s.foldl (fun n c => base * n + (hexValue? c).getD 0) 0

/-- Whether a sign is a minus, and what follows it. -/
def sign : List Char → Bool × List Char
  | [] => (false, [])
  | c :: s => if c = '-' then (true, s) else if c = '+' then (false, s) else (false, c :: s)

def signed (negative : Bool) (n : Nat) : Int := if negative then -(n : Int) else n

/-- Integers have 64 bits, one of them for the sign. -/
def integer64? (n : Int) : Option Int :=
  if -0x8000000000000000 ≤ n ∧ n ≤ 0x7fffffffffffffff then some n else none

def based (base : Nat) (ok : Char → Bool) (s : List Char) : Option (Value × List Char) := do
  let (ds, rest) ← digits ok s
  let n ← integer64? (ofDigits base ds)
  return (.integer n, rest)

def integer : List Char → Option (Value × List Char)
  | '0' :: 'x' :: s => based 16 isHexDigit s
  | '0' :: 'o' :: s => based 8 isOctalDigit s
  | '0' :: 'b' :: s => based 2 isBinaryDigit s
  | s => do
    let (negative, s) := sign s
    let (ds, rest) ← decimalDigits s
    let n ← integer64? (signed negative (ofDigits 10 ds))
    return (.integer n, rest)

/-- The digits after the point of a number, none when there is no point. -/
def fraction? : List Char → Option (Read (List Char))
  | [] => none
  | c :: s => if c = '.' then some (digits Char.isDigit s) else none

/-- The exponent of a number, none when it has none. -/
def exponent? : List Char → Option (Read Int)
  | [] => none
  | c :: s =>
    if c = 'e' ∨ c = 'E' then
      let (negative, s) := sign s
      some ((digits Char.isDigit s).map fun (ds, rest) => (signed negative (ofDigits 10 ds), rest))
    else none

/-- A decimal number with a fraction, an exponent or both. Too large a positive number is
refused. -/
def decimal (s : List Char) : Option (Value × List Char) := do
  let (negative, s) := sign s
  let (whole, s) ← decimalDigits s
  let ((part, exponent), s) ← match fraction? s with
    | some fraction => do
      let (part, s) ← fraction
      match exponent? s with
      | some exponent => exponent.map fun (e, s) => ((part, e), s)
      | none => some ((part, 0), s)
    | none => do
      let (e, s) ← (exponent? s).getD none
      some (([], e), s)
  let x := Binary64.ofDecimal negative (ofDigits 10 (whole ++ part)) (exponent - part.length)
  if x = .infinite false then none else some (.float x, s)

def special (s : List Char) : Read Value :=
  let (negative, s) := sign s
  if "inf".toList.isPrefixOf s then some (.float (.infinite negative), s.drop 3)
  else if "nan".toList.isPrefixOf s then some (.float .nan, s.drop 3)
  else none

/-- A number of exactly `n` digits within bounds. -/
def field (n low high : Nat) (s : List Char) : Option (List Char) :=
  let ds := s.take n
  if ds.length = n ∧ ds.all Char.isDigit ∧ low ≤ ofDigits 10 ds ∧ ofDigits 10 ds ≤ high then
    some (s.drop n)
  else none

def expect (c : Char) (s : List Char) : Option (List Char) :=
  if s.head? = some c then some s.tail else none

def date (s : List Char) : Option (List Char) := do
  field 2 1 31 (← expect '-' (← field 2 1 12 (← expect '-' (← field 4 0 9999 s))))

def time (s : List Char) : Option (List Char) := do
  let s ← field 2 0 60 (← expect ':' (← field 2 0 59 (← expect ':' (← field 2 0 23 s))))
  match s with
  | '.' :: d :: r => if d.isDigit then some (r.dropWhile Char.isDigit) else some s
  | _ => some s

def offset (s : List Char) : Option (List Char) :=
  match s with
  | [] => none
  | c :: s =>
    if c = 'Z' ∨ c = 'z' then some s
    else if c = '+' ∨ c = '-' then do field 2 0 59 (← expect ':' (← field 2 0 23 s))
    else none

/-- The time of day after a date, with its offset, when there is one. -/
def timeAfterDate (s : List Char) : List Char :=
  match s with
  | [] => s
  | c :: r =>
    if c = 'T' ∨ c = 't' ∨ c = ' ' then
      match time r with
      | some r => (offset r).getD r
      | none => s
    else s

def dateTime (s : List Char) : Read Value :=
  match date s with
  | some s => some (.dateTime, timeAfterDate s)
  | none => (time s).map (.dateTime, ·)

/-- Whatever starts with a digit or a sign. -/
def number (s : List Char) : Read Value :=
  (dateTime s).or <| (decimal s).or <| (special s).or <| integer s

end StagedInstall.Toml
