import StagedInstall.FileSystem.Basic
import StagedInstall.FileSystem.Cause

/-! # Looking paths up

A path is read from left to right as a list of steps. Every step is taken from a directory that
the user may search, and a symbolic link puts the steps of its target in front of those that are
left. At most 40 links are followed on the way, which bounds the walk.
-/

namespace StagedInstall

/-- One step of a path. A slash at the end asks that what stands before it is a directory. -/
inductive Step
  | stay
  | up
  | name (n : Name)
  | overlong
  | slash
  deriving DecidableEq

namespace Step

def ofPiece (piece : Bytes) : Step :=
  if piece = [dot] then stay
  else if piece = [dot, dot] then up
  else match Name.ofBytes? piece with
    | some n => name n
    | none => overlong

end Step

/-- The steps of a path without NUL bytes. -/
def Path.steps (p : Path) : List Step :=
  (p.pieces.filter (· ≠ [])).map Step.ofPiece ++
    if p.bytes.getLast? = some StagedInstall.slash then [.slash] else []

/-- What a path is looked up for. A file that is about to be created may be missing, but its
name may not be followed by a slash. -/
inductive Purpose
  | existing
  | creating
  deriving DecidableEq

/-- Where a path leads: to an entry that is no link, or to a free name in a directory. -/
inductive Place
  | taken (l : Location)
  | free (d : Location) (n : Name)
  deriving DecidableEq

namespace FileSystem

variable (fs : FileSystem) (purpose : Purpose)

/-- Where the path `p` starts. -/
def start (cwd : Location) (p : Path) : Location := if p.isAbsolute then [] else cwd

/-- Takes the steps one by one from `d`, and hands a link over to `follow`. -/
def stepwise (follow : Location → List Step → Except Cause Place) :
    Location → List Step → Except Cause Place
  | l, [] => .ok (.taken l)
  | l, s :: rest =>
    if ¬ fs.IsDirectory l then .error .notDirectory
    else if s ≠ .slash ∧ ¬ fs.permits .search l then .error .permissionDenied
    else match s with
      | .stay | .slash => stepwise follow l rest
      | .up => stepwise follow l.tail rest
      | .overlong =>
        if purpose = .creating ∧ rest = [.slash] then .error .isDirectory
        else .error .nameTooLong
      | .name n =>
        if purpose = .creating ∧ rest = [.slash] then .error .isDirectory
        else match fs.get? (n :: l) with
          | none => if rest = [] then .ok (.free l n) else .error .notFound
          | some (.link target) => follow (start l target) (target.steps ++ rest)
          | some _ => stepwise follow (n :: l) rest

/-- The walk with at most `links` links to follow. -/
def resolve : (links : Nat) → Location → List Step → Except Cause Place
  | 0 => fs.stepwise purpose fun _ _ => .error .tooManyLinks
  | links + 1 => fs.stepwise purpose (resolve links)

/-- The most links that one look-up follows. -/
def maxLinks : Nat := 40

/-- A path has to fit into this many bytes, one of them for the end mark. -/
def maxPath : Nat := 4096

/-- The path itself is refused before the tree is looked at. -/
def refusal? (p : Path) : Option Cause :=
  if 0 ∈ p.bytes then some .nulByte
  else if p.bytes = [] then some .notFound
  else if maxPath ≤ p.bytes.length then some .nameTooLong
  else none

/-- Where `p` leads, links followed to the end. -/
def place (p : Path) : Except Cause Place :=
  match refusal? p with
  | some cause => .error cause
  | none => fs.resolve purpose maxLinks (start fs.cwd p) p.steps

/-- The location of the existing entry that `p` leads to. -/
def locate (p : Path) : Except Cause Location := do
  match ← fs.place .existing p with
  | .taken l => .ok l
  | .free .. => .error .notFound

/-- The last step of a path, for an operation on the entry of that name itself. -/
inductive LastStep
  | name (n : Name) (slashed : Bool)
  | overlong
  | unnamed

/-- Splits a path into the steps to its directory and the last one. -/
def splitLast (p : Path) : List Step × LastStep :=
  let steps := p.steps.filter (· ≠ .slash)
  match steps.getLast? with
  | some (.name n) => (steps.dropLast, .name n (p.bytes.getLast? = some slash))
  | some .overlong => (steps.dropLast, .overlong)
  | _ => (steps.dropLast, .unnamed)

/-- The directory that holds the last name of `p`, links on the way followed, and that name. The
user has to be allowed to search the directory. -/
def locateEntry (p : Path) : Except Cause (Location × LastStep) := do
  if let some cause := refusal? p then throw cause
  let (steps, last) := splitLast p
  match ← fs.resolve .existing maxLinks (start fs.cwd p) steps with
  | .taken d =>
    if ¬ fs.IsDirectory d then throw .notDirectory
    if ¬ fs.permits .search d then throw .permissionDenied
    return (d, last)
  | .free .. => throw .notFound

end FileSystem

end StagedInstall
