/-! # Binary floating point

Double precision numbers as exact values, the nearest one to a decimal, and the shortest decimal
that leads back to a number. All arithmetic is on natural numbers and exact.
-/

namespace StagedInstall

/-- A double: `± significand · 2 ^ exponent`, an infinity, or not a number. -/
inductive Binary64
  | finite (negative : Bool) (significand : Nat) (exponent : Int)
  | infinite (negative : Bool)
  | nan
  deriving DecidableEq, Repr

namespace Binary64

/-- The quotient rounded to the nearest whole number, a half to the even one. -/
def roundDiv (num den : Nat) : Nat :=
  let q := num / den
  let r := num % den
  if 2 * r < den ∨ (2 * r = den ∧ q % 2 = 0) then q else q + 1

/-- The power `base ^ e`, 1 for a negative exponent: dividing by `power b e` and multiplying by
`power b (-e)` divides by `b ^ e` for every `e`. -/
def power (base : Nat) (e : Int) : Nat := base.pow e.toNat

/-- `num / den / 2 ^ e` rounded. -/
def scaled (num den : Nat) (e : Int) : Nat := roundDiv (num * power 2 (-e)) (den * power 2 e)

/-- The nearest double to a positive fraction. -/
def ofFraction (negative : Bool) (num den : Nat) : Binary64 :=
  let guess : Int := (Nat.log2 num : Int) - Nat.log2 den - 53
  let fits (e : Int) : Bool := num * power 2 (-e) / (den * power 2 e) < power 2 53
  let e := max (if fits guess then guess else guess + 1) (-1074)
  let m := scaled num den e
  let (m, e) := if m = power 2 53 then (power 2 52, e + 1) else (m, e)
  if m = 0 then .finite negative 0 0
  else if 971 < e then .infinite negative
  else .finite negative m e

/-- The nearest double to `digits · 10 ^ exponent`. -/
def ofDecimal (negative : Bool) (digits : Nat) (exponent : Int) : Binary64 :=
  let magnitude : Int := (Nat.toDigits 10 digits).length + exponent
  if digits = 0 ∨ magnitude < -330 then .finite negative 0 0
  else if 330 < magnitude then .infinite negative
  else ofFraction negative (digits * power 10 exponent) (power 10 (-exponent))

/-- The two neighbours of `num / den` among the multiples of `10 ^ s`, the nearer one first; halfway
between them that is the upper one. -/
def neighbours (num den : Nat) (s : Int) : List Nat :=
  let num := num * power 10 (-s)
  let den := den * power 10 s
  let q := num / den
  if 2 * (num % den) < den then [q, q + 1] else [q + 1, q]

/-- The first grid, from coarse to fine, on which a neighbour of the value reads back as `x`. -/
def onGrids (x : Binary64) (num den : Nat) : (grids : Nat) → (s : Int) → Nat × Int
  | 0, s => (num / den, s)
  | grids + 1, s =>
    match (neighbours num den s).find? (fun d => ofDecimal false d s = x) with
    | some d => (d, s)
    | none => onGrids x num den grids (s - 1)

/-- The fewest decimal digits that read back as the positive double `m · 2 ^ e`, with the power
of ten they are multiplied by. -/
def shortest (m : Nat) (e : Int) : Nat × Int :=
  let num := m * power 2 e
  let den := power 2 (-e)
  let top : Int := ((Nat.log2 num : Int) - Nat.log2 den) * 30103 / 100000 + 1
  onGrids (.finite false m e) num den 20 top

/-- The digits written out around the decimal point, always with a fractional part. -/
def positional (digits : Nat) (s : Int) : String :=
  let text := Nat.toDigits 10 digits
  if 0 ≤ s then String.ofList (text ++ List.replicate s.toNat '0') ++ ".0"
  else
    let places := (-s).toNat
    let text := List.replicate (places + 1 - text.length) '0' ++ text
    String.ofList (text.take (text.length - places) ++ '.' :: text.drop (text.length - places))

/-- The number as text: the fewest digits that read back, in positional notation. -/
def toText : Binary64 → String
  | finite negative m e =>
    let (digits, s) := if m = 0 then (0, 0) else shortest m e
    (if negative then "-" else "") ++ positional digits s
  | infinite negative => if negative then "-inf" else "inf"
  | nan => "NaN"

end Binary64

end StagedInstall
