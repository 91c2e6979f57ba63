import StagedInstall.Error
import StagedInstall.Settings
import StagedInstall.Text.Blank

/-! # Install directories

The directories that files are installed into, resolved from the settings. A relative setting is
taken below a base directory; what is not set follows from the prefix. All of them are absolute.
-/

namespace StagedInstall

/-- What a file is installed as. -/
inductive Category
  | program
  | library
  | header
  | share
  deriving DecidableEq, Repr

namespace Category

def all : List Category := [program, library, header, share]

def name : Category → String
  | program => "program"
  | library => "library"
  | header => "header"
  | share => "share"

/-- The directory of the category below the prefix. -/
def directoryName : Category → String
  | program => "bin"
  | library => "lib"
  | header => "include"
  | share => "share"

def setting (s : Settings) : Category → Option String
  | program => s.binDir
  | library => s.libDir
  | header => s.includeDir
  | share => s.shareDir

end Category

structure InstallDirectories where
  prefixDir : Path
  execPrefixDir : Path
  binDir : Path
  libDir : Path
  includeDir : Path
  shareDir : Path
  deriving DecidableEq, Repr

namespace InstallDirectories

def dir (d : InstallDirectories) : Category → Path
  | .program => d.binDir
  | .library => d.libDir
  | .header => d.includeDir
  | .share => d.shareDir

def defaultPrefix : String := "/usr/local"

/-- A directory setting taken below `base`. -/
def anchored (base : Path) (dir : String) : Except ConfigurationFault Path :=
  let path := base / .ofString dir
  if path.isAbsolute then .ok path else .error (.noAbsoluteDirectory dir)

/-- A directory that may be left unset or empty, and then is `fallback`. -/
def anchoredOr (base fallback : Path) : Option String → Except ConfigurationFault Path
  | none => .ok fallback
  | some dir => if dir = "" then .ok fallback else anchored base dir

def resolve (s : Settings) (base : Path) : Except ConfigurationFault InstallDirectories := do
  let root := s.prefixDir.getD defaultPrefix
  if isBlankText root then throw .blankPrefix
  let root ← anchored base root
  let execRoot ← anchoredOr base root s.execPrefixDir
  let category (c : Category) := anchoredOr base (root / .ofString c.directoryName) (c.setting s)
  let binDir ← category .program
  let libDir ← category .library
  let includeDir ← category .header
  let shareDir ← category .share
  return ⟨root, execRoot, binDir, libDir, includeDir, shareDir⟩

end InstallDirectories

end StagedInstall
