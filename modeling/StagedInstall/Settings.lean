/-! # Directory settings

The six directories as a user may set them. Settings come in layers; a layer put on top of
another wins wherever it sets a directory, even to the empty text.
-/

namespace StagedInstall

structure Settings where
  prefixDir : Option String := none
  execPrefixDir : Option String := none
  binDir : Option String := none
  libDir : Option String := none
  includeDir : Option String := none
  shareDir : Option String := none
  deriving DecidableEq, Repr

namespace Settings

def unset : Settings := {}

/-- The settings with `upper` put on top. -/
def overriddenBy (lower upper : Settings) : Settings where
  prefixDir := upper.prefixDir <|> lower.prefixDir
  execPrefixDir := upper.execPrefixDir <|> lower.execPrefixDir
  binDir := upper.binDir <|> lower.binDir
  libDir := upper.libDir <|> lower.libDir
  includeDir := upper.includeDir <|> lower.includeDir
  shareDir := upper.shareDir <|> lower.shareDir

/-- All layers put on top of each other, the first one at the bottom. -/
def ofLayers (layers : List Settings) : Settings := layers.foldl overriddenBy unset

/-- The user's default prefix at the bottom, then the manifest, then the command line. -/
def layered (defaultPrefix : Option String) (manifest commandLine : Settings) : Settings :=
  ofLayers [{ prefixDir := defaultPrefix }, manifest, commandLine]

end Settings

end StagedInstall
