import StagedInstall.Graph
import StagedInstall.Install.Content
import StagedInstall.Outcome

/-! # The install phase

The distinct copies of a graph are made one after the other, and the permission changes after all
of them. The first error ends the phase; what was done before it stays.
-/

namespace StagedInstall

inductive CopyOutcome
  | copied
  | upToDate
  deriving DecidableEq, Repr

/-- What was done in an install phase. -/
structure Report where
  copied : Nat := 0
  upToDate : Nat := 0
  chmodded : Nat := 0
  deriving DecidableEq, Repr

/-- Whether the target holds the content of the source already. -/
def Copy.isUpToDate (c : Copy) (fs : FileSystem) : Except InstallError Bool :=
  if fs.isFile c.target then fs.sameContent c.source c.target else .ok false

/-- Carries out one copy, unless its target is up to date. -/
def Copy.perform (c : Copy) (fs : FileSystem) : FileSystem × Except InstallError CopyOutcome :=
  match c.isUpToDate fs with
  | .error e => (fs, .error e)
  | .ok true => (fs, .ok .upToDate)
  | .ok false =>
    match fs.makeParents c.target with
    | (fs, some e) => (fs, .error e)
    | (fs, none) =>
      match fs.copyFile c.source c.target with
      | (fs, some cause) => (fs, .error (.file .copy c.source cause))
      | (fs, none) => (fs, .ok .copied)

def Chmod.perform (c : Chmod) (fs : FileSystem) : Except InstallError FileSystem :=
  (fs.setMode c.target c.mode).mapError (.file .chmod c.target)

/-- An install phase: the copies and the permission changes that were carried out, the file
system after them, and the error if one ended the phase. -/
structure InstallRun where
  copies : List (Copy × CopyOutcome)
  chmods : List Chmod
  fs : FileSystem
  failure : Option InstallError

namespace InstallRun

def runChmods (fs : FileSystem) : List Chmod → InstallRun
  | [] => ⟨[], [], fs, none⟩
  | c :: cs =>
    match c.perform fs with
    | .error e => ⟨[], [], fs, some e⟩
    | .ok fs =>
      let r := runChmods fs cs
      { r with chmods := c :: r.chmods }

def runCopies (fs : FileSystem) (chmods : List Chmod) : List Copy → InstallRun
  | [] => runChmods fs chmods
  | c :: cs =>
    match c.perform fs with
    | (fs, .error e) => ⟨[], [], fs, some e⟩
    | (fs, .ok o) =>
      let r := runCopies fs chmods cs
      { r with copies := (c, o) :: r.copies }

variable (r : InstallRun)

def report : Report where
  copied := r.copies.countP (·.2 = .copied)
  upToDate := r.copies.countP (·.2 = .upToDate)
  chmodded := r.chmods.length

def result : Except InstallError Report :=
  match r.failure with
  | some e => .error e
  | none => .ok r.report

end InstallRun

/-- A mode in octal digits. -/
def Mode.octal (m : Mode) : String := String.ofList (Nat.toDigits 8 m.toNat)

def CopyOutcome.message (c : Copy) : CopyOutcome → Message
  | copied => ⟨.info, "Installed " ++ c.source.display ++ " -> " ++ c.target.display⟩
  | upToDate => ⟨.info, "Up to date: " ++ c.target.display⟩

def Chmod.message (c : Chmod) : Message :=
  ⟨.debug, "Changed mode of " ++ c.target.display ++ " to " ++ c.mode.octal⟩

namespace ActionGraph

variable (g : ActionGraph) (fs : FileSystem)

/-- The install phase on a file system. -/
def run : InstallRun := .runCopies fs g.distinctChmods g.distinctCopies

/-- What the install phase would do. -/
def intentions : List Message :=
  (g.distinctCopies.map fun c =>
    ⟨.log, "Would install " ++ c.source.display ++ " -> " ++ c.target.display⟩) ++
  g.distinctChmods.map fun c => ⟨.log, "Would chmod " ++ c.mode.octal ++ " " ++ c.target.display⟩

/-- The install phase; in a dry run it only says what it would do. -/
def execute (dryRun : Bool) : Outcome Report :=
  if dryRun then ⟨.ok {}, fs, g.conflicts ++ g.intentions⟩
  else
    let r := g.run fs
    ⟨r.result, r.fs, g.conflicts ++ r.copies.map (fun (c, o) => o.message c) ++
      r.chmods.map Chmod.message⟩

end ActionGraph

end StagedInstall
