import StagedInstall.Text.Utf8

/-! # Paths

A path keeps its spelling. What it names is its list of components, in which repeated slashes,
inner `.` and trailing slashes do not count; two paths are taken for the same one when their
components agree.
-/

namespace StagedInstall

structure Path where
  bytes : Bytes
  deriving DecidableEq, Repr

inductive Component
  | root
  | current
  | parent
  | normal (name : Bytes)
  deriving DecidableEq, Repr

def slash : UInt8 := 0x2F

def dot : UInt8 := 0x2E

namespace Path

def ofString (s : String) : Path := ⟨.ofString s⟩

/-- The text shown for a path. -/
def display (p : Path) : String := p.bytes.toStringLossy

instance : EmptyCollection Path := ⟨⟨[]⟩⟩

def root : Path := ⟨[slash]⟩

def isAbsolute (p : Path) : Bool := p.bytes.head? = some slash

/-- What stands between the slashes, empty pieces included. -/
def pieces (p : Path) : List Bytes := p.bytes.splitOn slash

/-- `a / b`: `b` itself when it is absolute, else `b` below `a`. -/
def join (a b : Path) : Path :=
  if b.isAbsolute then b
  else if a.bytes = [] ∨ a.bytes.getLast? = some slash then ⟨a.bytes ++ b.bytes⟩
  else ⟨a.bytes ++ slash :: b.bytes⟩

instance : Div Path := ⟨join⟩

/-- The start of a path that is not itself an ordinary piece: `/`, a leading `.`, or nothing. -/
def anchor (p : Path) : Bytes :=
  match p.pieces with
  | [] :: _ :: _ => [slash]
  | [b] :: _ => if b = dot then [dot] else []
  | _ => []

/-- Pieces that are skipped when a path is read. -/
def Skipped (piece : Bytes) : Prop := piece = [] ∨ piece = [dot]

instance (piece : Bytes) : Decidable (Skipped piece) := inferInstanceAs (Decidable (_ ∨ _))

/-- The list without the skipped pieces at its end. -/
def trim (pieces : List Bytes) : List Bytes :=
  (pieces.reverse.dropWhile (fun s => decide (Skipped s))).reverse

/-- The pieces after the anchor, up to the last that names something. -/
def body (p : Path) : List Bytes :=
  trim (if p.anchor = [] then p.pieces else p.pieces.tail)

def Component.ofPiece (piece : Bytes) : Component :=
  if piece = [dot, dot] then .parent else .normal piece

def components (p : Path) : List Component :=
  (if p.anchor = [slash] then [.root] else if p.anchor = [dot] then [.current] else []) ++
    (p.body.filter (fun s => !decide (Skipped s))).map Component.ofPiece

/-- The last component, when it is a name. -/
def fileName? (p : Path) : Option Path :=
  match p.body.getLast? with
  | some piece => if piece = [dot, dot] then none else some ⟨piece⟩
  | none => none

/-- The path without its last component; none for the root and for the empty path. -/
def parent? (p : Path) : Option Path :=
  if p.body ≠ [] then
    let rest := [slash].intercalate (trim p.body.dropLast)
    some ⟨if p.anchor = [dot] ∧ trim p.body.dropLast ≠ [] then p.anchor ++ slash :: rest
      else p.anchor ++ rest⟩
  else if p.anchor = [dot] then some ∅
  else none

/-- The same path up to spelling. -/
def Same (a b : Path) : Prop := a.components = b.components

instance (a b : Path) : Decidable (Same a b) := inferInstanceAs (Decidable (_ = _))

theorem Same.refl (a : Path) : Same a a := rfl

theorem Same.symm {a b : Path} (h : Same a b) : Same b a := Eq.symm h

theorem Same.trans {a b c : Path} (h : Same a b) (h' : Same b c) : Same a c := Eq.trans h h'

end Path

end StagedInstall
