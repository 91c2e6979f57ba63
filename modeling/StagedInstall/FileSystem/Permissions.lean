/-! # Permissions

The bits an entry carries, the access they grant, and the users they bind. All that a file system
holds belongs to one owner and one group, so the bits for the group and for others are kept but bind
nobody.
-/

namespace StagedInstall

/-- A permission change as it is asked for. -/
abbrev Mode := UInt32

/-- The permission bits a file carries. -/
abbrev Permissions := Fin 0o10000

/-- The bits of a mode that the file system keeps. -/
def Mode.permissions (m : Mode) : Permissions := Fin.ofNat 0o10000 m.toNat

/-- What a user wants with an entry. A directory is read to list it, written to change the names
in it, and searched to take a step from it. -/
inductive Access
  | read
  | write
  | search
  deriving DecidableEq, Repr

/-- The place of the bit that grants the access to the owner. -/
def Access.bit : Access → Nat
  | read => 8
  | write => 7
  | search => 6

/-- The one who works with a file system: its owner, or the superuser, whom no bit binds. -/
inductive User
  | owner
  | superuser
  deriving DecidableEq, Repr

namespace Permissions

/-- What new directories get. -/
def newDirectory : Permissions := ⟨0o755, by decide⟩

/-- What new files that are not copies get. -/
def newFile : Permissions := ⟨0o644, by decide⟩

/-- Whether the owner has the access. -/
def grants (p : Permissions) (a : Access) : Bool := p.val.testBit a.bit

/-- What the mask 022 leaves of the bits that are asked for a new file. -/
def masked (p : Permissions) : Permissions :=
  ⟨p.val &&& 0o7755, Nat.lt_of_le_of_lt Nat.and_le_left p.isLt⟩

/-- What stays of the bits when an ordinary user writes to the file: it no longer runs as its owner,
nor as its group if the group may execute it. -/
def withoutSetId (p : Permissions) : Permissions :=
  if p.val.testBit 3 then ⟨p.val % 0o2000, Nat.lt_of_le_of_lt (Nat.mod_le ..) p.isLt⟩
  else ⟨p.val % 0o4000, Nat.lt_of_le_of_lt (Nat.mod_le ..) p.isLt⟩

theorem grants_newDirectory (a : Access) : newDirectory.grants a = true := by
  cases a <;> decide

theorem grants_withoutSetId (p : Permissions) (a : Access) :
    p.withoutSetId.grants a = p.grants a := by
  unfold withoutSetId
  split
  · exact (Nat.testBit_mod_two_pow p.val 10 a.bit).trans (by cases a <;> rfl)
  · exact (Nat.testBit_mod_two_pow p.val 11 a.bit).trans (by cases a <;> rfl)

theorem grants_newFile {a : Access} (h : a ≠ .search) : newFile.grants a = true := by
  cases a with
  | read | write => decide
  | search => exact absurd rfl h

end Permissions

end StagedInstall
