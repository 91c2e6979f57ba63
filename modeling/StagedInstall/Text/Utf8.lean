/-! # UTF-8

Characters as bytes and bytes as characters. The decoder keeps its place in a character as a
state and reads one byte at a time; where the bytes stop being a character it reports one gap
for the whole ill-formed run, so both the strict and the lossy reading come from one pass.
-/

namespace StagedInstall

/-- A sequence of bytes: the content of a file, or the spelling of a path. -/
abbrev Bytes := List UInt8

namespace Utf8

def encodeNat (n : Nat) : Bytes :=
  if n < 0x80 then [.ofNat n]
  else if n < 0x800 then [.ofNat (0xC0 + n / 0x40), .ofNat (0x80 + n % 0x40)]
  else if n < 0x10000 then
    [.ofNat (0xE0 + n / 0x1000), .ofNat (0x80 + n / 0x40 % 0x40), .ofNat (0x80 + n % 0x40)]
  else
    [.ofNat (0xF0 + n / 0x40000), .ofNat (0x80 + n / 0x1000 % 0x40),
      .ofNat (0x80 + n / 0x40 % 0x40), .ofNat (0x80 + n % 0x40)]

def encodeChar (c : Char) : Bytes := encodeNat c.toNat

def encode (cs : List Char) : Bytes := cs.flatMap encodeChar

/-- Where the decoder stands: between characters, or inside one whose next byte lies in
`low … high`, after which `owed` further continuation bytes follow. -/
inductive State
  | start
  | within (low high : UInt8) (owed : Nat) (value : Nat)
  deriving DecidableEq, Repr

/-- What a byte between characters does: it is a character, begins one, or can do neither. -/
inductive Lead
  | whole (c : Char)
  | begins (s : State)
  | invalid

def lead (b : UInt8) : Lead :=
  if b < 0x80 then .whole (.ofNat b.toNat)
  else if b < 0xC2 then .invalid
  else if b < 0xE0 then .begins (.within 0x80 0xBF 0 (b.toNat - 0xC0))
  else if b = 0xE0 then .begins (.within 0xA0 0xBF 1 0)
  else if b = 0xED then .begins (.within 0x80 0x9F 1 0xD)
  else if b < 0xF0 then .begins (.within 0x80 0xBF 1 (b.toNat - 0xE0))
  else if b = 0xF0 then .begins (.within 0x90 0xBF 2 0)
  else if b < 0xF4 then .begins (.within 0x80 0xBF 2 (b.toNat - 0xF0))
  else if b = 0xF4 then .begins (.within 0x80 0x8F 2 4)
  else .invalid

/-- One entry per character, and `none` for each longest run of bytes that starts a character
without finishing it (at least one byte). -/
def decodeFrom : State → Bytes → List (Option Char)
  | .start, [] => []
  | .within .., [] => [none]
  | .start, b :: r =>
    match lead b with
    | .whole c => some c :: decodeFrom .start r
    | .begins s => decodeFrom s r
    | .invalid => none :: decodeFrom .start r
  | .within low high owed value, b :: r =>
    if low ≤ b ∧ b ≤ high then
      let value := value * 0x40 + (b.toNat - 0x80)
      match owed with
      | 0 => some (.ofNat value) :: decodeFrom .start r
      | owed + 1 => decodeFrom (.within 0x80 0xBF owed value) r
    else
      none :: match lead b with
        | .whole c => some c :: decodeFrom .start r
        | .begins s => decodeFrom s r
        | .invalid => none :: decodeFrom .start r

def decode (b : Bytes) : List (Option Char) := decodeFrom .start b

/-- The characters of well-formed bytes. -/
def decode? (b : Bytes) : Option (List Char) := (decode b).mapM id

/-- The characters of any bytes, with U+FFFD for each ill-formed run. -/
def decodeLossy (b : Bytes) : List Char := (decode b).map (·.getD '\uFFFD')

end Utf8

/-- The UTF-8 bytes of a text. -/
def Bytes.ofString (s : String) : Bytes := Utf8.encode s.toList

namespace Bytes

variable (b : Bytes)

def toString? : Option String := (Utf8.decode? b).map String.ofList

def toStringLossy : String := String.ofList (Utf8.decodeLossy b)

end Bytes

end StagedInstall
