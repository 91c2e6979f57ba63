import StagedInstall.Error
import StagedInstall.FileSystem.Operations
import StagedInstall.Manifest.Schema

/-! # Manifests

What a project wants installed. File paths are taken below the root of the manifest, which is the
directory it stands in; the directories that are searched stay relative to the root.
-/

namespace StagedInstall

inductive Source
  | file (path : Path)
  | directory (parent : Path) (pattern : String) (recursive : Bool)
  deriving DecidableEq, Repr

structure Request where
  source : Source
  basedir : String
  deriving DecidableEq, Repr

structure Manifest where
  path : Path
  root : Path
  settings : Settings
  programs : List Path
  libraries : List Path
  headers : List Request
  shares : List Request
  deriving DecidableEq, Repr

/-- The request that an entry of `table` makes: it names either a file, or a directory with a
pattern. -/
def StageEntry.toRequest (root : Path) (table : String) (e : StageEntry) :
    Except ManifestFault Request :=
  match e.file, e.parent, e.pattern with
  | some file, none, _ => .ok ⟨.file (root / .ofString file), e.basedir⟩
  | none, some parent, some pattern =>
    .ok ⟨.directory (.ofString parent) pattern e.recursive, e.basedir⟩
  | none, some parent, none => .error (.noPattern table parent)
  | _, _, _ => .error (.notOneSource table)

namespace Manifest

def ofDocument (path root : Path) (d : ManifestDocument) : Except ManifestFault Manifest := do
  let headers ← d.headers.mapM (StageEntry.toRequest root "headers")
  let shares ← d.shares.mapM (StageEntry.toRequest root "shares")
  let below (files : List String) := files.map fun file => root / .ofString file
  return ⟨path, root, d.install, below d.programs, below d.libraries, headers, shares⟩

/-- Reads a manifest from its text. -/
def parse (text : String) (path root : Path) : Except InstallError Manifest :=
  Except.mapError (.manifest path) do
    let d ← (ManifestDocument.parse text).mapError .toml
    ofDocument path root d

/-- The directory of the manifest at `path`. -/
def rootOf (path : Path) : Path :=
  match path.parent? with
  | some p => if p = ∅ then .ofString "." else p
  | none => .ofString "."

/-- Reads the manifest at `path`. -/
def ofFile (fs : FileSystem) (path : Path) : Except InstallError Manifest := do
  let text ← (fs.readText path).mapError (.manifest path ∘ .unreadable)
  parse text path (rootOf path)

end Manifest

end StagedInstall
