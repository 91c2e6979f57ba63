import StagedInstall.Text.Utf8

/-! # SHA-1

The digest of a byte sequence. A message is padded to whole blocks of 64 bytes, and each block
is worked into five words (`digest`). A `Hasher` does the same to bytes as they arrive.
-/

namespace StagedInstall.Sha1

/-- The five chaining words. -/
structure Words where
  a : UInt32
  b : UInt32
  c : UInt32
  d : UInt32
  e : UInt32
  deriving DecidableEq, Repr

def initial : Words := ⟨0x67452301, 0xEFCDAB89, 0x98BADCFE, 0x10325476, 0xC3D2E1F0⟩

def rotate (n x : UInt32) : UInt32 := (x <<< n) ||| (x >>> (32 - n))

/-- The big-endian words of a block. -/
def blockWords : Bytes → List UInt32
  | x :: y :: z :: w :: r =>
    (x.toUInt32 <<< 24 ||| y.toUInt32 <<< 16 ||| z.toUInt32 <<< 8 ||| w.toUInt32) :: blockWords r
  | _ => []

/-- The first word of a window of sixteen and those after it, each new word mixed from four of
the window. -/
def schedule : (more : Nat) → (window : List UInt32) → List UInt32
  | 0, window => window
  | more + 1, window =>
    let word (i : Nat) := window.getD i 0
    window.take 1 ++
      schedule more (window.tail ++ [rotate 1 (word 13 ^^^ word 8 ^^^ word 2 ^^^ word 0)])

def choose (x y z : UInt32) : UInt32 := (x &&& y) ||| (~~~x &&& z)

def parity (x y z : UInt32) : UInt32 := x ^^^ y ^^^ z

def majority (x y z : UInt32) : UInt32 := (x &&& y) ||| (x &&& z) ||| (y &&& z)

/-- The function and the constant of each round. -/
def roundOf (t : Nat) : (UInt32 → UInt32 → UInt32 → UInt32) × UInt32 :=
  if t < 20 then (choose, 0x5A827999)
  else if t < 40 then (parity, 0x6ED9EBA1)
  else if t < 60 then (majority, 0x8F1BBCDC)
  else (parity, 0xCA62C1D6)

def round (v : Words) (t : Nat) (w : UInt32) : Words :=
  let (f, k) := roundOf t
  ⟨rotate 5 v.a + f v.b v.c v.d + v.e + k + w, v.a, rotate 30 v.b, v.c, v.d⟩

def rounds : (t : Nat) → List UInt32 → Words → Words
  | _, [], v => v
  | t, w :: ws, v => rounds (t + 1) ws (round v t w)

/-- Works one block of 64 bytes into the chaining words. -/
def compress (h : Words) (block : Bytes) : Words :=
  let v := rounds 0 (schedule 64 (blockWords block)) h
  ⟨h.a + v.a, h.b + v.b, h.c + v.c, h.d + v.d, h.e + v.e⟩

/-- The `n` bytes of a number, the highest first. -/
def bigEndian : (n : Nat) → Nat → Bytes
  | 0, _ => []
  | n + 1, x => .ofNat (x / 256 ^ n) :: bigEndian n x

/-- What follows a message of `n` bytes: a one bit, zeros up to the last eight bytes of a block,
and the length in bits. -/
def padding (n : Nat) : Bytes :=
  0x80 :: List.replicate ((119 - n % 64) % 64) 0 ++ bigEndian 8 (8 * n)

/-- The first `n` blocks of the bytes. -/
def blocks : (n : Nat) → Bytes → List Bytes
  | 0, _ => []
  | n + 1, b => b.take 64 :: blocks n (b.drop 64)

def Words.bytes (h : Words) : Bytes :=
  [h.a, h.b, h.c, h.d, h.e].flatMap fun w => bigEndian 4 w.toNat

/-- The digest of a whole message. -/
def digest (message : Bytes) : Bytes :=
  let padded := message ++ padding message.length
  ((blocks (padded.length / 64) padded).foldl compress initial).bytes

/-- A digest under way: the words so far, the bytes of the block that is not full yet, and the
number of bytes taken in. -/
structure Hasher where
  words : Words
  pending : Bytes
  count : Nat

namespace Hasher

def new : Hasher := ⟨initial, [], 0⟩

def push (s : Hasher) (b : UInt8) : Hasher :=
  let pending := s.pending ++ [b]
  if pending.length = 64 then ⟨compress s.words pending, [], s.count + 1⟩
  else ⟨s.words, pending, s.count + 1⟩

def update (s : Hasher) (chunk : Bytes) : Hasher := chunk.foldl push s

def finalize (s : Hasher) : Bytes := (s.update (padding s.count)).words.bytes

end Hasher

def hexDigit (n : Nat) : Char := Nat.digitChar n

/-- Two lower-case hexadecimal digits for each byte. -/
def hex (b : Bytes) : String :=
  String.ofList (b.flatMap fun x => [hexDigit (x.toNat / 16), hexDigit (x.toNat % 16)])

end StagedInstall.Sha1
