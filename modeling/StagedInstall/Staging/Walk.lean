import StagedInstall.FileSystem.Operations
import StagedInstall.Pattern.Fnmatch
import StagedInstall.Staging.Basic

/-! # Staging a directory

Every file of a directory whose name matches a pattern is staged, and on demand those of the
directories below it, in listing order. A directory whose path below the root mentions "test" is
passed over with all that is in it.
-/

namespace StagedInstall

/-- Whether `word` stands somewhere in the bytes. -/
def mentions (word : Bytes) : Bytes → Bool
  | [] => word.isPrefixOf []
  | b :: r => word.isPrefixOf (b :: r) || mentions word r

def Path.isTestTree (p : Path) : Bool := mentions (.ofString "test") p.bytes

/-- A search for files: `root` is where paths start, and never part of what is checked for
"test". -/
structure Search where
  root : Path
  pattern : String
  recursive : Bool

namespace Search

variable (fs : FileSystem) (s : Search) (stage : Path → Path → StagingEvent)

/-- Stages the names of the directory `dir` one after the other, and leaves the directories among
them to `descend`. -/
def visit (descend : Path → Path → Staging) (dir parent basedir : Path) : List Name → Staging
  | [] => .done
  | n :: ns =>
    let path := dir / n.toPath
    match fs.stat path with
    | .error cause => .fail (.traversal path cause)
    | .ok e =>
      if e.isFile && Fnmatch.isMatch s.pattern n.display then
        (Staging.event (stage path basedir)).andThen fun _ => visit descend dir parent basedir ns
      else if e.isDirectory && s.recursive then
        let below : Path := .ofString n.display
        (descend (parent / below) (basedir / below)).andThen fun _ =>
          visit descend dir parent basedir ns
      else visit descend dir parent basedir ns

/-- The walk through directories at most `depth` levels below this one. -/
def walk : (depth : Nat) → (parent basedir : Path) → Staging
  | 0, parent, _ =>
    if parent.isTestTree then .event (.skipped parent)
    else .fail (.traversal (s.root / parent) .nameTooLong)
  | depth + 1, parent, basedir =>
    if parent.isTestTree then .event (.skipped parent)
    else match fs.list (s.root / parent) with
      | .error cause => .fail (.traversal (s.root / parent) cause)
      | .ok names => visit fs s stage (walk depth) (s.root / parent) parent basedir names

/-- Stages all that the search finds below `parent`. Each level makes the path of the directory
longer, so no more levels than a path has bytes can be listed. -/
def run (parent basedir : Path) : Staging := s.walk fs stage FileSystem.maxPath parent basedir

end Search

end StagedInstall
