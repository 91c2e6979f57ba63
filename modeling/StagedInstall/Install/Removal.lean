import StagedInstall.Install.Basic

/-! # Removing what was installed

Every registered target that exists is removed, in the order of the registrations. Sources play no
part in it.
-/

namespace StagedInstall

/-- What became of a target: it was not there, or it was removed. -/
inductive RemovalOutcome
  | missing
  | removed
  deriving DecidableEq, Repr

/-- A removal phase: the targets that were dealt with, the file system after it, and the error if
one ended it. -/
structure RemovalRun where
  targets : List (Path × RemovalOutcome)
  fs : FileSystem
  failure : Option InstallError

namespace RemovalRun

/-- Removes what exists of the targets; in a dry run nothing is taken away. -/
def ofTargets (dryRun : Bool) (fs : FileSystem) : List Path → RemovalRun
  | [] => ⟨[], fs, none⟩
  | t :: ts =>
    if fs.exists? t then
      match if dryRun then .ok fs else fs.removeFile t with
      | .error cause => ⟨[], fs, some (.file .remove t cause)⟩
      | .ok fs =>
        let r := ofTargets dryRun fs ts
        { r with targets := (t, .removed) :: r.targets }
    else
      let r := ofTargets dryRun fs ts
      { r with targets := (t, .missing) :: r.targets }

def count (r : RemovalRun) : Nat := r.targets.countP (·.2 = .removed)

def result (r : RemovalRun) : Except InstallError Nat :=
  match r.failure with
  | some e => .error e
  | none => .ok r.count

end RemovalRun

def RemovalOutcome.message (dryRun : Bool) (target : Path) : RemovalOutcome → Message
  | missing => ⟨.debug, "Not installed: " ++ target.display⟩
  | removed =>
    if dryRun then ⟨.log, "Would remove " ++ target.display⟩
    else ⟨.info, "Removed: " ++ target.display⟩

namespace ActionGraph

variable (g : ActionGraph)

/-- The targets of the copies, each in the spelling that was registered first. -/
def targets : List Path := uniqueBy Path.components (g.copies.map Copy.target)

/-- Removes the installed files and gives their number. -/
def uninstall (fs : FileSystem) (dryRun : Bool) : Outcome Nat :=
  let r := RemovalRun.ofTargets dryRun fs g.targets
  ⟨r.result, r.fs, r.targets.map fun (t, o) => o.message dryRun t⟩

end ActionGraph

end StagedInstall
