import StagedInstall.Outcome
import StagedInstall.Toml.Writer

/-! # A user's defaults

The prefix that is used when nothing else names one, kept in a file of its own. A missing file
stands for no defaults; other keys in it are ignored, and dropped when it is written.
-/

namespace StagedInstall

structure Defaults where
  prefixDir : Option String := none
  deriving DecidableEq, Repr

namespace Defaults

open Toml

def prefixKey : String := "default_prefix"

def ofEntries (es : List (String × Value)) : Except Misfit Defaults :=
  match es.lookup prefixKey with
  | none => .ok {}
  | some v => v.asString.map fun s => { prefixDir := some s }

def parse (text : String) : Except Fault Defaults :=
  match Toml.parse text with
  | none => .error .malformed
  | some es => (ofEntries es).mapError .misfit

/-- The text of the file, one line for the prefix. -/
def render (d : Defaults) : String :=
  match d.prefixDir with
  | none => ""
  | some s => prefixKey ++ " = " ++ String.ofList (write s.toList) ++ "\n"

def ofFile (fs : FileSystem) (path : Path) : Except InstallError Defaults := do
  if !fs.exists? path then return {}
  let text ← (fs.readText path).mapError (.file .read path)
  (parse text).mapError fun fault => .configuration (.invalidDefaults path fault)

/-- The defaults with a parameter set: only the prefix can be, and only to an absolute path. -/
def set (d : Defaults) (parameter value : String) : Except ConfigurationFault Defaults :=
  if parameter = prefixKey then
    if (Path.ofString value).isAbsolute then .ok { d with prefixDir := some value }
    else .error (.relativeDefault value)
  else .error (.unknownParameter parameter)

/-- Writes the file, and the directories it stands in where they are missing. -/
def save (d : Defaults) (fs : FileSystem) (path : Path) : FileSystem × Option InstallError :=
  match fs.makeParents path with
  | (fs, some e) => (fs, some e)
  | (fs, none) =>
    match fs.writeFile path (.ofString d.render) with
    | (fs, some cause) => (fs, some (.file .write path cause))
    | (fs, none) => (fs, none)

/-- Sets a parameter in the file at `path`. -/
def store (fs : FileSystem) (path : Path) (parameter value : String) : Outcome Unit :=
  let updated : Except InstallError Defaults := do
    let d ← ofFile fs path
    (d.set parameter value).mapError .configuration
  match updated with
  | .error e => ⟨.error e, fs, []⟩
  | .ok d =>
    match d.save fs path with
    | (fs, some e) => ⟨.error e, fs, []⟩
    | (fs, none) =>
      ⟨.ok (), fs, [⟨.log, "Set " ++ parameter ++ " = " ++ value ++ " in " ++ path.display⟩]⟩

end Defaults

end StagedInstall
