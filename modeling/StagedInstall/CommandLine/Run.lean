import StagedInstall.CommandLine.Arguments
import StagedInstall.Defaults
import StagedInstall.Install.Removal
import StagedInstall.Staging.Task
import StagedInstall.Text.Quoted

/-! # Running commands

The subcommands over a file system and an environment: a plan is shown, what the manifest asks for
is installed or removed, or a default is set.
-/

namespace StagedInstall

/-- The directory settings laid out one field a line. -/
def Settings.layout (s : Settings) : String :=
  let field (name : String) (value : Option String) : String :=
    "    " ++ name ++ ": " ++ (match value with
      | none => "None"
      | some v => "Some(\n        " ++ quotedText v ++ ",\n    )") ++ ",\n"
  "InstallConfig \x7b\n" ++ field "prefix" s.prefixDir ++ field "eprefix" s.execPrefixDir ++
    field "bindir" s.binDir ++ field "libdir" s.libDir ++ field "includedir" s.includeDir ++
    field "sharedir" s.shareDir ++ "\x7d"

/-- What staging a manifest gives, and what it says even when it fails. -/
structure StagedManifest where
  result : Except InstallError Installer
  messages : List Message

/-- Reads the manifest at `path` and stages all its tasks with the layered settings. -/
def stageManifest (fs : FileSystem) (path : Path) (commandLine : Settings)
    (defaultPrefix : Option String) (base : Path) : StagedManifest :=
  match Manifest.ofFile fs path with
  | .error e => ⟨.error e, []⟩
  | .ok m =>
    let settings := Settings.layered defaultPrefix m.settings commandLine
    let shown : Message := ⟨.debug, "Install config: " ++ settings.layout⟩
    match Installer.new settings base .empty with
    | .error e => ⟨.error e, [shown]⟩
    | .ok installer =>
      let s := Staging.ofTasks fs installer.dirs m.tasks
      match s.failure with
      | some e => ⟨.error e, shown :: s.messages⟩
      | none =>
        let installer := installer.record s
        ⟨.ok installer, shown :: s.messages ++ [⟨.info, "Staged " ++
          Nat.repr installer.graph.copies.length ++ " files from " ++ path.display⟩]⟩

namespace Installer

variable (i : Installer)

/-- The directories and all registered actions. -/
def plan : List Message :=
  [⟨.log, "prefix   " ++ i.dirs.prefixDir.display⟩,
    ⟨.log, "eprefix  " ++ i.dirs.execPrefixDir.display⟩] ++
  Category.all.map (fun c => ⟨.log, c.name ++ " " ++ (i.dirs.dir c).display⟩) ++
  [⟨.info, installAlias ++ " depends on: " ++
    ", ".intercalate ((i.graph.aliasDirs installAlias).map Path.display)⟩] ++
  if i.graph.actions = [] then [⟨.warn, "Nothing to install"⟩]
  else i.graph.actions.map fun
    | .copy c => ⟨.log, "copy  " ++ c.source.display ++ " -> " ++ c.target.display⟩
    | .chmod c => ⟨.log, "chmod " ++ c.mode.octal ++ " " ++ c.target.display⟩

/-- Says how an operation ended, unless it failed or was a dry run. -/
def summed {α : Type} (dryRun : Bool) (summary : α → String) (o : Outcome α) : Outcome Unit :=
  match o.result with
  | .error e => ⟨.error e, o.fs, o.messages⟩
  | .ok a => ⟨.ok (), o.fs, o.messages ++ if dryRun then [] else [⟨.log, summary a⟩]⟩

def install (fs : FileSystem) (dryRun : Bool) : Outcome Unit :=
  summed dryRun (fun r => "Installed " ++ Nat.repr r.copied ++ " files (" ++ Nat.repr r.upToDate ++
    " up to date, " ++ Nat.repr r.chmodded ++ " permission changes)") (i.graph.execute fs dryRun)

def uninstall (fs : FileSystem) (dryRun : Bool) : Outcome Unit :=
  summed dryRun (fun n => "Removed " ++ Nat.repr n ++ " files") (i.graph.uninstall fs dryRun)

end Installer

namespace CommandLine

/-- The home directory and the place of configuration files, as the environment gives them. -/
structure Environment where
  home : Path
  configHome : Option Path

/-- The file that holds the user's defaults. -/
def Environment.defaultsPath (e : Environment) : Path :=
  let dir := match e.configHome with
    | some p => if p.isAbsolute then p else e.home / .ofString ".config"
    | none => e.home / .ofString ".config"
  dir / .ofString "installer_cpp" / .ofString "config.toml"

/-- Carries out an invocation. -/
def Invocation.run (i : Invocation) (e : Environment) (fs : FileSystem) : Outcome Unit :=
  match i.command with
  | .config parameter value => Defaults.store fs e.defaultsPath parameter value
  | command =>
    match Defaults.ofFile fs e.defaultsPath with
    | .error error => ⟨.error error, fs, []⟩
    | .ok defaults =>
      let staged := stageManifest fs (.ofString i.manifest) i.settings defaults.prefixDir
        fs.cwdPath
      match staged.result with
      | .error error => ⟨.error error, fs, staged.messages⟩
      | .ok installer =>
        let o := match command with
          | .install dryRun => installer.install fs dryRun
          | .uninstall dryRun => installer.uninstall fs dryRun
          | _ => ⟨.ok (), fs, installer.plan⟩
        { o with messages := staged.messages ++ o.messages }

/-- How the program ends: its exit code, the file system, and what it said. -/
structure Completion where
  code : Nat
  fs : FileSystem
  messages : List Message

/-- The whole program: a failure is said as an error and ends it with 1, wrong arguments with 2. -/
def run (args : List String) (e : Environment) (fs : FileSystem) : Completion :=
  match parse args with
  | .error .help => ⟨0, fs, []⟩
  | .error .usage => ⟨2, fs, []⟩
  | .ok i =>
    let o := i.run e fs
    match o.result with
    | .ok () => ⟨0, o.fs, o.messages⟩
    | .error error => ⟨1, o.fs, o.messages ++ [⟨.error, error.message⟩]⟩

end CommandLine

end StagedInstall
