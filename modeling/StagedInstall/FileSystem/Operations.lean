import StagedInstall.FileSystem.Lookup

/-! # Operations on files

What a program does with paths: ask, read, list, enter, create, write, copy, change permissions
and remove. An operation that is refused gives its cause. Those that can stop half-way give the file
system in which they leave things as well. Permissions may be asked, and changed unless the storage
refuses it, wherever the path can be looked up.
-/

namespace StagedInstall

namespace FileSystem

variable (fs : FileSystem)

/-- The entry a path leads to, links followed. -/
def stat (p : Path) : Except Cause Entry := do
  match fs.get? (← fs.locate p) with
  | some e => .ok e
  | none => .error .notFound

def exists? (p : Path) : Bool := (fs.stat p).toOption.isSome

def isFile (p : Path) : Bool := (fs.stat p).toOption.any Entry.isFile

def isDirectory (p : Path) : Bool := (fs.stat p).toOption.any Entry.isDirectory

/-- Opens what a path leads to for reading: its location. -/
def openForReading (p : Path) : Except Cause Location := do
  let l ← fs.locate p
  if fs.permits .read l then .ok l else .error .permissionDenied

def readFile (p : Path) : Except Cause Bytes := do
  match fs.get? (← fs.openForReading p) with
  | some (.file _ content) => .ok content
  | some (.device _) => .ok []
  | _ => .error .isDirectory

def readText (p : Path) : Except Cause String := do
  match (← fs.readFile p).toString? with
  | some s => .ok s
  | none => .error .notText

/-- The names in the directory at `p`, in the order of its listing. -/
def list (p : Path) : Except Cause (List Name) := do
  let l ← fs.locate p
  if ¬ fs.IsDirectory l then .error .notDirectory
  else if fs.permits .read l then .ok (fs.names l)
  else .error .permissionDenied

/-- Makes the directory at `p` the current one; the user has to be allowed to search it. -/
def enter (p : Path) : Except Cause FileSystem := do
  let l ← fs.locate p
  if ¬ fs.IsDirectory l then .error .notDirectory
  else if fs.permits .search l then .ok (fs.withCwd l)
  else .error .permissionDenied

/-- Makes one directory in an existing one. -/
def makeDirectory (p : Path) : Except Cause FileSystem := do
  match ← fs.locateEntry p with
  | (_, .unnamed) => .error .alreadyExists
  | (_, .overlong) => .error .nameTooLong
  | (d, .name n _) =>
    if fs.get? (n :: d) ≠ none then .error .alreadyExists
    else if fs.permitsChange d then .ok (fs.put (n :: d) (.directory .newDirectory))
    else .error .permissionDenied

/-- The path and the paths above it, longest first, at most `k` of them. -/
def lineage : (k : Nat) → Path → List Path
  | 0, _ => []
  | k + 1, p => p :: match p.parent? with
    | some q => lineage k q
    | none => []

/-- Makes the first directory of the list; where one above it is missing, the rest of the list
first. -/
def makeAlong (fs : FileSystem) : List Path → FileSystem × Option Cause
  | [] => (fs, some .notFound)
  | p :: above =>
    let settled (fs : FileSystem) (cause : Cause) :=
      (fs, if fs.isDirectory p then none else some cause)
    if p = ∅ then (fs, none)
    else match fs.makeDirectory p with
      | .ok fs => (fs, none)
      | .error .notFound =>
        match makeAlong fs above with
        | (fs, some cause) => (fs, some cause)
        | (fs, none) =>
          match fs.makeDirectory p with
          | .ok fs => (fs, none)
          | .error cause => settled fs cause
      | .error cause => settled fs cause

/-- Makes a directory and those above it that are missing. What was made before a failure
stays. -/
def makeDirectories (p : Path) : FileSystem × Option Cause :=
  fs.makeAlong (lineage (p.bytes.length + 1) p)

/-- Opens a file for writing: the location of one that exists or can be created. -/
def openForWriting (p : Path) : Except Cause Location := do
  match ← fs.place .creating p with
  | .free d n => if fs.permitsChange d then .ok (n :: d) else .error .permissionDenied
  | .taken l =>
    if fs.IsDirectory l then .error .isDirectory
    else if fs.permits .write l then .ok l
    else .error .permissionDenied

/-- Writes to an opened location; what a device is given is gone. -/
def fill (l : Location) (e : Entry) : FileSystem :=
  match fs.get? l with
  | some (.device _) => fs
  | _ => fs.put l e

/-- What stays of the bits of a file when the user writes to it. -/
def rewritten (p : Permissions) : Permissions :=
  match fs.user with
  | .superuser => p
  | .owner => p.withoutSetId

/-- The bits of an opened file once it is emptied; a new one gets `created`. -/
def emptied (l : Location) (created : Permissions) : Permissions :=
  match fs.get? l with
  | some (.file p _) => fs.rewritten p
  | _ => created

/-- The bits of a file with the bits `p` once `content` has been written to it. -/
def written (p : Permissions) (content : Bytes) : Permissions :=
  if content = [] then p else fs.rewritten p

/-- Replaces the content of a file, or creates it. The file is emptied before anything is
written. -/
def writeFile (p : Path) (content : Bytes) : FileSystem × Option Cause :=
  match fs.openForWriting p with
  | .error cause => (fs, some cause)
  | .ok l =>
    let (taken, cause) := fs.storage.take l content
    (fs.fill l (.file (fs.emptied l .newFile) taken), cause)

/-- The cause for which a file cannot be given other permission bits. A copy does not try that with
a device. -/
def copyRefusal? (l : Location) : Option Cause :=
  match fs.get? l with
  | some (.device _) => none
  | _ => fs.storage.refusal? l

/-- Copies content and permissions of a regular file: the target is emptied, then it gets the bits
of the source, and last the content. A file copied onto itself ends empty, because the target is
emptied before the source is read. -/
def copyFile (source target : Path) : FileSystem × Option Cause :=
  match fs.openForReading source with
  | .error cause => (fs, some cause)
  | .ok origin =>
    match fs.get? origin with
    | some (.file p content) =>
      match fs.openForWriting target with
      | .error cause => (fs, some cause)
      | .ok l =>
        match fs.copyRefusal? l with
        | some cause => (fs.fill l (.file (fs.emptied l p.masked) []), some cause)
        | none =>
          let content := if l = origin then [] else content
          let (taken, cause) := fs.storage.take l content
          (fs.fill l (.file (fs.written p content) taken), cause)
    | _ => (fs, some .notRegular)

/-- Changes the permissions of what a path leads to. -/
def setMode (p : Path) (mode : Mode) : Except Cause FileSystem := do
  let l ← fs.locate p
  match fs.storage.refusal? l, fs.get? l with
  | some cause, _ => .error cause
  | none, some e => .ok (fs.put l (e.withPermissions mode.permissions))
  | none, none => .error .notFound

/-- Removes the entry of a file or link itself. Whether the user may change the directory is
asked before what kind of entry it is, but after a slash that stands behind the name. -/
def removeFile (p : Path) : Except Cause FileSystem := do
  match ← fs.locateEntry p with
  | (_, .unnamed) => .error .isDirectory
  | (_, .overlong) => .error .nameTooLong
  | (d, .name n slashed) =>
    match fs.get? (n :: d) with
    | none => .error .notFound
    | some e =>
      if slashed then .error (if e.isDirectory then .isDirectory else .notDirectory)
      else if ¬ fs.permitsChange d then .error .permissionDenied
      else if e.isDirectory then .error .isDirectory
      else .ok (fs.erase (n :: d))

end FileSystem

end StagedInstall
