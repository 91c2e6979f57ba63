import StagedInstall.Settings
import StagedInstall.Toml.Misfit

/-! # The shape of a manifest

A manifest as it stands in its document: the directory settings, and the entries for what is to be
installed with all their fields optional.
-/

namespace StagedInstall

/-- An entry of the tables `headers` and `shares`. -/
structure StageEntry where
  file : Option String := none
  parent : Option String := none
  pattern : Option String := none
  basedir : String := ""
  recursive : Bool := false
  deriving DecidableEq, Repr

structure ManifestDocument where
  install : Settings := {}
  programs : List String := []
  libraries : List String := []
  headers : List StageEntry := []
  shares : List StageEntry := []
  deriving DecidableEq, Repr

open Toml

/-- The item at position `i` of a record of `size` fields given as a sequence. -/
def requiredItem (record : String) (size : Nat) (vs : List Value) (i : Nat) :
    Except Misfit String :=
  match vs[i]? with
  | some v => v.asString
  | none => .error (.invalidLength i record size)

namespace Settings

def recordName : String := "InstallConfig"

def fields : List String :=
  ["prefix", "eprefix", "exec_prefix", "bindir", "libdir", "includedir", "sharedir"]

/-- Sets a directory by its name; the exec prefix goes by two names, but is set once. -/
def setField (s : Settings) (name : String) (v : Value) : Except Misfit Settings := do
  match name with
  | "prefix" => return { s with prefixDir := some (← v.asString) }
  | "eprefix" | "exec_prefix" =>
    if s.execPrefixDir.isSome then throw (.duplicateField "eprefix")
    return { s with execPrefixDir := some (← v.asString) }
  | "bindir" => return { s with binDir := some (← v.asString) }
  | "libdir" => return { s with libDir := some (← v.asString) }
  | "includedir" => return { s with includeDir := some (← v.asString) }
  | "sharedir" => return { s with shareDir := some (← v.asString) }
  | _ => throw (.unknownField name fields)

def ofItems (vs : List Value) : Except Misfit Settings := do
  let item := requiredItem recordName 6 vs
  return {
    prefixDir := some (← item 0)
    execPrefixDir := some (← item 1)
    binDir := some (← item 2)
    libDir := some (← item 3)
    includeDir := some (← item 4)
    shareDir := some (← item 5) }

def ofValue (v : Value) : Except Misfit Settings := v.asRecord recordName unset setField ofItems

end Settings

namespace StageEntry

def recordName : String := "StageEntry"

def fields : List String := ["file", "parent", "pattern", "basedir", "recursive"]

def setField (e : StageEntry) (name : String) (v : Value) : Except Misfit StageEntry := do
  match name with
  | "file" => return { e with file := some (← v.asString) }
  | "parent" => return { e with parent := some (← v.asString) }
  | "pattern" => return { e with pattern := some (← v.asString) }
  | "basedir" => return { e with basedir := ← v.asString }
  | "recursive" => return { e with recursive := ← v.asBoolean }
  | _ => throw (.unknownField name fields)

def ofItems (vs : List Value) : Except Misfit StageEntry := do
  let item := requiredItem recordName 5 vs
  return {
    file := some (← item 0)
    parent := some (← item 1)
    pattern := some (← item 2)
    basedir := ← (vs[3]?).elim (.ok "") Value.asString
    recursive := ← (vs[4]?).elim (.ok false) Value.asBoolean }

def ofValue (v : Value) : Except Misfit StageEntry := v.asRecord recordName {} setField ofItems

end StageEntry

namespace ManifestDocument

def fields : List String := ["install", "programs", "libraries", "headers", "shares"]

def setField (d : ManifestDocument) (name : String) (v : Value) :
    Except Misfit ManifestDocument := do
  match name with
  | "install" => return { d with install := ← Settings.ofValue v }
  | "programs" => return { d with programs := ← v.asList Value.asString }
  | "libraries" => return { d with libraries := ← v.asList Value.asString }
  | "headers" => return { d with headers := ← v.asList StageEntry.ofValue }
  | "shares" => return { d with shares := ← v.asList StageEntry.ofValue }
  | _ => throw (.unknownField name fields)

def ofEntries (es : List (String × Value)) : Except Misfit ManifestDocument :=
  es.foldlM (fun d (k, v) => d.setField k v) {}

/-- Reads the text of a manifest. -/
def parse (text : String) : Except Fault ManifestDocument :=
  match Toml.parse text with
  | none => .error .malformed
  | some es => (ofEntries es).mapError .misfit

end ManifestDocument

end StagedInstall
