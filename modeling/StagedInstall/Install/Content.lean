import StagedInstall.Digest.Sha1
import StagedInstall.Error
import StagedInstall.FileSystem.Operations

/-! # Comparing content

Two files hold the same content when they have the same length and the same digest. Files of
different length are never read.
-/

namespace StagedInstall

/-- The most bytes that are read at once. -/
def chunkSize : Nat := 1024 * 1024

/-- The bytes cut into pieces of at most `size`; `fuel` bounds their number. -/
def chunksWithin (size : Nat) : (fuel : Nat) → Bytes → List Bytes
  | 0, _ => []
  | fuel + 1, b => if b = [] then [] else b.take size :: chunksWithin size fuel (b.drop size)

/-- The digest of content that arrives in pieces, in hexadecimal. -/
def hashChunks (chunks : List Bytes) : String :=
  Sha1.hex (chunks.foldl Sha1.Hasher.update .new).finalize

namespace FileSystem

variable (fs : FileSystem)

/-- The digest of a file. -/
def hashFile (p : Path) : Except InstallError String := do
  let content ← (fs.readFile p).mapError (.file .hash p)
  return hashChunks (chunksWithin chunkSize content.length content)

def sameContent (source target : Path) : Except InstallError Bool := do
  let s ← (fs.stat source).mapError (.file .hash source)
  let t ← (fs.stat target).mapError (.file .hash target)
  if s.length ≠ t.length then return false
  return (← fs.hashFile source) = (← fs.hashFile target)

end FileSystem

end StagedInstall
