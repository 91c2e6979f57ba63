/-! # Causes of failure

What the system answers when it refuses an operation, with the text in which it is reported.
-/

namespace StagedInstall

inductive Cause
  | notPermitted
  | notFound
  | ioError
  | permissionDenied
  | alreadyExists
  | notDirectory
  | isDirectory
  | fileTooLarge
  | storageFull
  | nameTooLong
  | tooManyLinks
  | nulByte
  | notText
  | notRegular
  deriving DecidableEq, Repr

def Cause.message : Cause → String
  | notPermitted => "Operation not permitted (os error 1)"
  | notFound => "No such file or directory (os error 2)"
  | ioError => "Input/output error (os error 5)"
  | permissionDenied => "Permission denied (os error 13)"
  | alreadyExists => "File exists (os error 17)"
  | notDirectory => "Not a directory (os error 20)"
  | isDirectory => "Is a directory (os error 21)"
  | fileTooLarge => "File too large (os error 27)"
  | storageFull => "No space left on device (os error 28)"
  | nameTooLong => "File name too long (os error 36)"
  | tooManyLinks => "Too many levels of symbolic links (os error 40)"
  | nulByte => "file name contained an unexpected NUL byte"
  | notText => "stream did not contain valid UTF-8"
  | notRegular => "the source path is neither a regular file nor a symlink to a regular file"

end StagedInstall
