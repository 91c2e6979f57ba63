import StagedInstall.CommandLine.Run

/-! # The program

Takes the part of the disk that a command line can concern into a file system, carries the command
line out on that, and writes back what has changed. Links are read as what they lead to, and files
with the permissions of new ones, since the runtime tells neither.
-/

namespace StagedInstall.Main

def onDisk (p : Path) := System.mkFilePath [p.display]

/-- What stands on the disk at a path; for a directory also what is below it. -/
partial def load (fs : FileSystem) (p : Path) : IO FileSystem := do
  if !(← (onDisk p).pathExists) then return fs
  if ← (onDisk p).isDir then
    let mut fs := (fs.makeDirectories p).1
    for e in ← (onDisk p).readDir do
      fs ← load fs (p / .ofString e.fileName)
    return fs
  let content ← IO.FS.readBinFile (onDisk p)
  return ((fs.makeParents p).1.writeFile p content.toList).1

/-- The paths that an invocation reads or writes, as far as `fs` tells them. -/
def concerned (i : CommandLine.Invocation) (e : CommandLine.Environment) (fs : FileSystem) :
    List Path :=
  let path := Path.ofString i.manifest
  let defaults := (Defaults.ofFile fs e.defaultsPath).toOption.getD {}
  let staged := stageManifest fs path i.settings defaults.prefixDir fs.cwdPath
  let searched := match Manifest.ofFile fs path with
    | .error _ => []
    | .ok m => m.tasks.filterMap fun
      | .directory _ search parent _ => some (search.root / parent)
      | .file .. => none
  let copied := match staged.result with
    | .error _ => []
    | .ok i => i.graph.copies.flatMap fun c => [c.source, c.target]
  [e.defaultsPath, path] ++ searched ++ copied

/-- Loads what is concerned, until what has been loaded names nothing more. -/
def loadConcerned (i : CommandLine.Invocation) (e : CommandLine.Environment) (fs : FileSystem) :
    (rounds : Nat) → IO FileSystem
  | 0 => return fs
  | rounds + 1 => do
    let fs ← (concerned i e fs).foldlM (fun fs p => load fs (fs.cwdPath / p)) fs
    loadConcerned i e fs rounds

def right (bits : Nat) : IO.AccessRight := ⟨bits / 4 % 2 = 1, bits / 2 % 2 = 1, bits % 2 = 1⟩

def setPermissions (p : Path) (permissions : Permissions) : IO Unit :=
  let n := permissions.val
  IO.setAccessRights (onDisk p) ⟨right (n / 64 % 8), right (n / 8 % 8), right (n % 8)⟩

/-- Brings the disk from one file system to another. -/
def store (before after : FileSystem) : IO Unit := do
  for (l, e) in after.entries.toList do
    if before.get? l ≠ some e then
      match e with
      | .directory _ => IO.FS.createDirAll (onDisk l.toPath)
      | .file permissions content =>
        IO.FS.createDirAll (onDisk (Location.toPath l.tail))
        IO.FS.writeBinFile (onDisk l.toPath) ⟨content.toArray⟩
        setPermissions l.toPath permissions
      | .link _ | .device _ => pure ()
  for (l, _) in before.entries.toList do
    if after.get? l = none then IO.FS.removeFile (onDisk l.toPath)

def environment : IO CommandLine.Environment := do
  let configHome ← IO.getEnv "XDG_CONFIG_HOME"
  return ⟨.ofString ((← IO.getEnv "HOME").getD ""), configHome.map Path.ofString⟩

/-- A file system that holds only the way to the current directory. -/
def hereOnly : IO FileSystem := do
  let cwd := Path.ofString (← IO.currentDir).toString
  let fs := (FileSystem.empty.makeDirectories cwd).1
  return (fs.enter cwd).toOption.getD fs

end StagedInstall.Main

open StagedInstall StagedInstall.Main in
def main (args : List String) : IO UInt32 := do
  let e ← environment
  let here ← hereOnly
  let fs ← match CommandLine.parse args with
    | .ok i => loadConcerned i e here 3
    | .error _ => pure here
  let c := CommandLine.run args e fs
  store fs c.fs
  let threshold := Level.threshold (← IO.getEnv "INSTALLER_CPP_LOG_LEVEL")
  let stdout ← IO.getStdout
  let coloured ← stdout.isTty
  stdout.putStr (Message.printed threshold coloured false c.messages)
  (← IO.getStderr).putStr (Message.printed threshold coloured true c.messages)
  if c.code = 2 then (← IO.getStderr).putStr CommandLine.usage
  else if CommandLine.parse args matches .error .help then stdout.putStr CommandLine.usage
  return c.code.toUInt32
