import StagedInstall.Directories
import StagedInstall.Graph

/-! # Staging

What staging does is a list of events, each of which registers actions and says so, and perhaps
the error that ended it. Events before an error count.
-/

namespace StagedInstall

inductive StagingEvent
  | staged (category : Category) (copy : Copy) (mode : Option Mode)
  | skipped (parent : Path)
  deriving DecidableEq, Repr

namespace StagingEvent

/-- The copy of a staged file, followed by its permission change if it has one. -/
def actions : StagingEvent → List Action
  | staged _ c mode => .copy c :: (mode.map fun m => .chmod ⟨c.target, m⟩).toList
  | skipped _ => []

def message : StagingEvent → Message
  | staged category c _ =>
    ⟨.debug, "Staged " ++ category.name ++ " " ++ c.source.display ++ " -> " ++ c.target.display⟩
  | skipped parent => ⟨.info, "Skipping test directory: " ++ parent.display⟩

end StagingEvent

structure Staging where
  events : List StagingEvent := []
  failure : Option InstallError := none

namespace Staging

def done : Staging := {}

def event (e : StagingEvent) : Staging := { events := [e] }

def fail (error : InstallError) : Staging := { failure := some error }

/-- Goes on with more staging, unless this one failed. -/
def andThen (a : Staging) (b : Unit → Staging) : Staging :=
  match a.failure with
  | some _ => a
  | none =>
    let r := b ()
    ⟨a.events ++ r.events, r.failure⟩

def actions (s : Staging) : List Action := s.events.flatMap StagingEvent.actions

def messages (s : Staging) : List Message := s.events.map StagingEvent.message

end Staging

/-- The staging of a single file below the directory of its category. -/
def InstallDirectories.stageFile (dirs : InstallDirectories) (category : Category)
    (source basedir : Path) (mode : Option Mode) : StagingEvent :=
  .staged category ⟨source, ActionGraph.targetIn (dirs.dir category / basedir) source⟩ mode

/-- The aggregate target of the install directories. -/
def installAlias : String := "install"

/-- Install directories with the graph that files are staged into. -/
structure Installer where
  dirs : InstallDirectories
  graph : ActionGraph
  deriving DecidableEq, Repr

namespace Installer

/-- Resolves the directories and registers those of the categories in the graph. -/
def new (s : Settings) (base : Path) (g : ActionGraph) : Except InstallError Installer := do
  let dirs ← (InstallDirectories.resolve s base).mapError .configuration
  return ⟨dirs, Category.all.foldl (fun g c => g.addAlias installAlias (dirs.dir c)) g⟩

/-- The installer after some staging. -/
def record (i : Installer) (s : Staging) : Installer := { i with graph := i.graph.append s.actions }

end Installer

end StagedInstall
