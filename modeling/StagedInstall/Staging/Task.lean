import StagedInstall.Manifest.Basic
import StagedInstall.Staging.Walk

/-! # Staging tasks

A task stages one file or one directory. A manifest is a list of tasks, carried out in order up
to the first that fails.
-/

namespace StagedInstall

inductive Task
  | file (category : Category) (source basedir : Path) (mode : Option Mode)
  | directory (category : Category) (search : Search) (parent basedir : Path)

/-- The mode of installed programs. -/
def programMode : Mode := 0o755

namespace Task

def program (source : Path) : Task := file .program source ∅ (some programMode)

def library (source : Path) : Task := file .library source ∅ none

def staging (fs : FileSystem) (dirs : InstallDirectories) : Task → Staging
  | file category source basedir mode => .event (dirs.stageFile category source basedir mode)
  | directory category search parent basedir =>
    search.run fs (fun source basedir => dirs.stageFile category source basedir none) parent basedir

def ofRequest (root : Path) (category : Category) (r : Request) : Task :=
  match r.source with
  | .file path => file category path (.ofString r.basedir) none
  | .directory parent pattern recursive =>
    directory category ⟨root, pattern, recursive⟩ parent (.ofString r.basedir)

end Task

/-- Carries out tasks up to the first that fails. -/
def Staging.ofTasks (fs : FileSystem) (dirs : InstallDirectories) : List Task → Staging
  | [] => .done
  | t :: ts => (t.staging fs dirs).andThen fun _ => ofTasks fs dirs ts

def Manifest.tasks (m : Manifest) : List Task :=
  m.programs.map Task.program ++ m.libraries.map Task.library ++
    m.headers.map (Task.ofRequest m.root .header) ++ m.shares.map (Task.ofRequest m.root .share)

end StagedInstall
