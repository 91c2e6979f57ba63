import StagedInstall.Path
import StagedInstall.FileSystem.Cause
import StagedInstall.Toml.Misfit

/-! # Errors

Everything that can stop an installation, as causes, and the text in which each is reported.
-/

namespace StagedInstall

inductive ConfigurationFault
  | blankPrefix
  | noAbsoluteDirectory (dir : String)
  | invalidDefaults (path : Path) (fault : Toml.Fault)
  | relativeDefault (value : String)
  | unknownParameter (name : String)
  deriving DecidableEq, Repr

inductive ManifestFault
  | unreadable (cause : Cause)
  | toml (fault : Toml.Fault)
  | noPattern (table parent : String)
  | notOneSource (table : String)
  deriving DecidableEq, Repr

inductive FileAction
  | hash
  | copy
  | create
  | chmod
  | remove
  | read
  | write
  deriving DecidableEq, Repr

inductive InstallError
  | configuration (fault : ConfigurationFault)
  | traversal (path : Path) (cause : Cause)
  | manifest (path : Path) (fault : ManifestFault)
  | file (action : FileAction) (path : Path) (cause : Cause)
  deriving DecidableEq, Repr

namespace ConfigurationFault

def message : ConfigurationFault → String
  | blankPrefix => "installation prefix is empty"
  | noAbsoluteDirectory dir => "cannot resolve `" ++ dir ++ "` to an absolute directory"
  | invalidDefaults path fault => "invalid global config " ++ path.display ++ ": " ++ fault.message
  | relativeDefault value => "default_prefix must be an absolute path, got `" ++ value ++ "`"
  | unknownParameter name =>
    "invalid parameter `" ++ name ++ "`. See `installer_cpp config --help` for more info"

end ConfigurationFault

namespace ManifestFault

def message : ManifestFault → String
  | unreadable cause => "could not read: " ++ cause.message
  | toml fault => fault.message
  | noPattern table parent => table ++ " entry for `" ++ parent ++ "` has no pattern"
  | notOneSource table => table ++ " entries need exactly one of `file` or `parent`"

end ManifestFault

def FileAction.name : FileAction → String
  | hash => "hash"
  | copy => "copy"
  | create => "create"
  | chmod => "chmod"
  | remove => "remove"
  | read => "read"
  | write => "write"

namespace InstallError

def message : InstallError → String
  | configuration fault => "configuration error: " ++ fault.message
  | traversal path cause => "could not read " ++ path.display ++ ": " ++ cause.message
  | manifest path fault => "manifest " ++ path.display ++ ": " ++ fault.message
  | file action path cause =>
    action.name ++ " " ++ path.display ++ ": " ++ cause.message

end InstallError

end StagedInstall
