import StagedInstall.FileSystem.Permissions
import StagedInstall.Path

/-! # Directory entries

The names a directory can hold, the locations they spell out from the root, and what stands at
a location: a regular file, a directory, a symbolic link, or a device that is always empty.
-/

namespace StagedInstall

/-- A name that can stand in a directory: up to 255 bytes, without a slash or a NUL, and neither
`.` nor `..`. -/
structure Name where
  bytes : Bytes
  ne_nil : bytes ≠ []
  length_le : bytes.length ≤ 255
  slash_not_mem : slash ∉ bytes
  nul_not_mem : 0 ∉ bytes
  ne_dot : bytes ≠ [dot]
  ne_dots : bytes ≠ [dot, dot]
  deriving DecidableEq

namespace Name

def ofBytes? (b : Bytes) : Option Name :=
  if h : b ≠ [] ∧ b.length ≤ 255 ∧ slash ∉ b ∧ 0 ∉ b ∧ b ≠ [dot] ∧ b ≠ [dot, dot] then
    some ⟨b, h.1, h.2.1, h.2.2.1, h.2.2.2.1, h.2.2.2.2.1, h.2.2.2.2.2⟩
  else none

theorem ext {a b : Name} (h : a.bytes = b.bytes) : a = b := by
  cases a; cases b; cases h; rfl

/-- Names are ordered byte by byte. -/
instance : LT Name := ⟨fun a b => a.bytes < b.bytes⟩

instance : DecidableLT Name := fun a b => inferInstanceAs (Decidable (a.bytes < b.bytes))

instance : Std.Irrefl (α := Name) (· < ·) := ⟨fun a => List.lt_irrefl a.bytes⟩

instance : Trans (α := Name) (· < ·) (· < ·) (· < ·) :=
  ⟨fun h h' => List.lt_trans (α := UInt8) h h'⟩

instance : Std.Asymm (α := Name) (· < ·) :=
  ⟨fun a _ h h' => List.lt_irrefl a.bytes (List.lt_trans h h')⟩

instance : Std.Trichotomous (α := Name) (· < ·) :=
  ⟨fun a b h h' => ext (Std.Trichotomous.trichotomous (r := (· < ·)) a.bytes b.bytes h h')⟩

/-- The name as a path of one component. -/
def toPath (n : Name) : Path := ⟨n.bytes⟩

/-- The name as text, with U+FFFD where it is no UTF-8. -/
def display (n : Name) : String := n.bytes.toStringLossy

end Name

/-- A place in the tree, innermost name first; the root is `[]`. -/
abbrev Location := List Name

/-- The absolute path that spells out a location. -/
def Location.toPath (l : Location) : Path := l.foldr (fun n p => p / n.toPath) .root

inductive Entry
  | file (permissions : Permissions) (content : Bytes)
  | directory (permissions : Permissions)
  | link (target : Path)
  | device (permissions : Permissions)
  deriving DecidableEq

namespace Entry

def isFile : Entry → Bool
  | file .. => true
  | _ => false

def isDirectory : Entry → Bool
  | directory _ => true
  | _ => false

/-- The length that the system reports; a directory has that of one block. -/
def length : Entry → Nat
  | file _ content => content.length
  | directory _ => 4096
  | link target => target.bytes.length
  | device _ => 0

/-- The entry with other permission bits; a link has none of its own. -/
def withPermissions (p : Permissions) : Entry → Entry
  | file _ content => file p content
  | directory _ => directory p
  | link target => link target
  | device _ => device p

/-- Whether the owner has the access; a link has no bits that could refuse it. -/
def grants (a : Access) : Entry → Bool
  | file p _ | directory p | device p => p.grants a
  | link _ => true

end Entry

end StagedInstall
