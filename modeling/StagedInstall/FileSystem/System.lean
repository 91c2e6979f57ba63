import StagedInstall.FileSystem.Cause
import StagedInstall.FileSystem.Entry

/-! # What stands behind a file system

The user who works with it, the order in which its directories are listed, and what its storage
does not take: permission bits that cannot be changed, and content for which there is no room. No
operation changes any of it.
-/

namespace StagedInstall

/-- The order of listings: it takes the names of a directory in ascending order and arranges them. -/
structure Listing where
  arrange : Location → List Name → List Name
  perm : ∀ d ns, (arrange d ns).Perm ns

def Listing.ascending : Listing := ⟨fun _ ns => ns, fun _ ns => .refl ns⟩

/-- What is refused where. A limit is the number of bytes that can be written to a file and the
cause that is given when there are more. -/
structure Storage where
  refusal? : Location → Option Cause
  limit? : Location → Option (Nat × Cause)

namespace Storage

/-- A storage that takes everything. -/
def boundless : Storage := ⟨fun _ => none, fun _ => none⟩

/-- As much of the content as can be written at a location, and the cause if that is not all. -/
def take (s : Storage) (l : Location) (content : Bytes) : Bytes × Option Cause :=
  match s.limit? l with
  | none => (content, none)
  | some (n, cause) =>
    if content.length ≤ n then (content, none) else (content.take n, some cause)

end Storage

structure System where
  user : User
  listing : Listing
  storage : Storage

/-- An ordinary user, to whom nothing is refused and names are listed in ascending order. -/
def System.plain : System := ⟨.owner, .ascending, .boundless⟩

end StagedInstall
