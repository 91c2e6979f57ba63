import StagedInstall.Proofs.Defaults.Store
import StagedInstall.Proofs.Install.Failure

/-! # How storing a default ends

A value is refused before anything is touched: the file is there but cannot be read, what is in it
are no defaults, or the value cannot be set (`Refusal`). After that directories may be made and the
file may be written, and each of the two steps can fail. The file is emptied before the text is
written to it, so where the storage has no room for the text the file ends with the beginning of it
(`CutAt`). In all cases nothing that stood anywhere is lost but the content of the file that was
written (`store_stores`).
-/

namespace StagedInstall.Defaults

open FileSystem

variable {fs fs' : FileSystem} {path : Path} {parameter value : String} {d : Defaults}
  {e : InstallError} {l : Location}

def updated (fs : FileSystem) (path : Path) (parameter value : String) :
    Except InstallError Defaults := do
  let d ← ofFile fs path
  (d.set parameter value).mapError .configuration

namespace Sample

def unreadable : Path := .ofString "/c"

def fresh : Path := .ofString "/d/e"

def crowdedFile : Path := .ofString "/q"

/-- A full storage that holds other defaults. -/
def crowded : FileSystem :=
  (FileSystem.empty.put [(Name.ofBytes? [0x71]).get rfl]
    (.file .newFile (.ofString "x = 1\n"))).withStorage
      ⟨fun _ => none, fun _ => some (0, .storageFull)⟩

end Sample

open Sample in
/-- What the file held is lost where there is no room for the new text. -/
example : (store crowded crowdedFile prefixKey "/x").result =
      .error (.file .write crowdedFile .storageFull) ∧
    (store crowded crowdedFile prefixKey "/x").fs.readFile crowdedFile = .ok [] := by
  decide +kernel

end StagedInstall.Defaults
