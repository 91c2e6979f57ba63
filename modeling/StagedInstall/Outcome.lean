import StagedInstall.Error
import StagedInstall.FileSystem.Operations
import StagedInstall.Log

/-! # Outcomes

What an operation on a file system leaves behind, whether it succeeds or not.
-/

namespace StagedInstall

/-- The result of an operation or the error that ended it, the file system afterwards, and what
was said. -/
structure Outcome (α : Type) where
  result : Except InstallError α
  fs : FileSystem
  messages : List Message

/-- Makes the directories that a file stands in. -/
def FileSystem.makeParents (fs : FileSystem) (target : Path) :
    FileSystem × Option InstallError :=
  match target.parent? with
  | none => (fs, none)
  | some dir =>
    match fs.makeDirectories dir with
    | (fs, none) => (fs, none)
    | (fs, some cause) => (fs, some (.file .create dir cause))

end StagedInstall
