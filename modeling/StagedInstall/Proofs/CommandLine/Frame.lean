import StagedInstall.CommandLine.Run
import StagedInstall.Proofs.Install.Frame

/-! # What a command line may change

All commands but `config` begin with the same preparations, which only read
(`Invocation.staged`); a run that fails in them changes nothing. What changes after that is what the
command is for (`run_confined`).
-/

namespace StagedInstall

open FileSystem

namespace CommandLine

variable {i : Invocation} {e : Environment} {fs : FileSystem} {installer : Installer}
  {error : InstallError} {args : List String}

/-- The preparations: the defaults are loaded, the manifest is read, the directories are resolved
and all tasks are staged. -/
def Invocation.staged (i : Invocation) (e : Environment) (fs : FileSystem) :
    Except InstallError Installer := do
  let defaults ← Defaults.ofFile fs e.defaultsPath
  let m ← Manifest.ofFile fs (.ofString i.manifest)
  let settings := Settings.layered defaults.prefixDir m.settings i.settings
  let installer ← Installer.new settings fs.cwdPath .empty
  let s := Staging.ofTasks fs installer.dirs m.tasks
  match s.failure with
  | some error => throw error
  | none => return installer.record s

theorem Invocation.reachable_of_staged (h : i.staged e fs = .ok installer) :
    Installer.Reachable installer := by
  obtain ⟨defaults, -, h⟩ := bind_eq_ok_iff.mp h
  obtain ⟨m, -, h⟩ := bind_eq_ok_iff.mp h
  obtain ⟨fresh, hnew, h⟩ := bind_eq_ok_iff.mp h
  dsimp only at h
  split at h
  · cases h
  · cases h
    exact .manifest fs m (.new hnew)

/-- What a command does with an installer that has been prepared. -/
def Command.carryOut (c : Command) (installer : Installer) (fs : FileSystem) : Outcome Unit :=
  match c with
  | .install dryRun => installer.install fs dryRun
  | .uninstall dryRun => installer.uninstall fs dryRun
  | _ => ⟨.ok (), fs, installer.plan⟩

theorem stageManifest_result (fs : FileSystem) (path : Path) (settings : Settings)
    (defaultPrefix : Option String) (base : Path) :
    (stageManifest fs path settings defaultPrefix base).result = (do
      let m ← Manifest.ofFile fs path
      let installer ← Installer.new (.layered defaultPrefix m.settings settings) base .empty
      let s := Staging.ofTasks fs installer.dirs m.tasks
      match s.failure with
      | some error => throw error
      | none => return installer.record s) := by
  unfold stageManifest
  cases Manifest.ofFile fs path with
  | error => rfl
  | ok m =>
    dsimp only [bind, Except.bind]
    cases Installer.new (.layered defaultPrefix m.settings settings) base .empty with
    | error => rfl
    | ok installer =>
      dsimp only
      cases (Staging.ofTasks fs installer.dirs m.tasks).failure <;> rfl

theorem Invocation.run_of_staged (hc : ∀ parameter value, i.command ≠ .config parameter value) :
    (∀ error, i.staged e fs = .error error →
      (i.run e fs).result = .error error ∧ (i.run e fs).fs = fs) ∧
    ∀ installer, i.staged e fs = .ok installer →
      (i.run e fs).fs = (i.command.carryOut installer fs).fs := by
  have hstaged : i.staged e fs = (Defaults.ofFile fs e.defaultsPath).bind fun defaults =>
      (stageManifest fs (.ofString i.manifest) i.settings defaults.prefixDir
        fs.cwdPath).result := by
    simp only [stageManifest_result]
    rfl
  rw [hstaged]
  unfold Invocation.run
  split
  · next h => exact absurd h (hc _ _)
  cases Defaults.ofFile fs e.defaultsPath with
  | error error =>
    refine ⟨?_, fun _ h => (nomatch h)⟩
    rintro _ ⟨⟩
    exact ⟨rfl, rfl⟩
  | ok defaults =>
    dsimp only [Except.bind]
    cases (stageManifest fs (.ofString i.manifest) i.settings defaults.prefixDir
      fs.cwdPath).result with
    | error error =>
      refine ⟨?_, fun _ h => (nomatch h)⟩
      rintro _ ⟨⟩
      exact ⟨rfl, rfl⟩
    | ok installer =>
      refine ⟨fun _ h => (nomatch h), ?_⟩
      rintro _ ⟨⟩
      rfl

theorem summed_fs {α : Type} (dryRun : Bool) (summary : α → String) (o : Outcome α) :
    (Installer.summed dryRun summary o).fs = o.fs := by
  unfold Installer.summed
  split <;> rfl

/-- The command ends with an error before it comes to what it is for: the defaults cannot be
loaded, or, for all commands but `config`, the preparations fail. -/
def Invocation.FailsEarly (i : Invocation) (e : Environment) (fs : FileSystem)
    (error : InstallError) : Prop :=
  Defaults.ofFile fs e.defaultsPath = .error error ∨
    (∀ parameter value, i.command ≠ .config parameter value) ∧ i.staged e fs = .error error

/-- What the command may make of the tree `fs`. -/
def Invocation.Allows (i : Invocation) (e : Environment) (fs fs' : FileSystem) : Prop :=
  match i.command with
  | .config _ _ => ChangesOnly (· = e.defaultsPath) fs fs'
  | .install false =>
    ∀ installer, i.staged e fs = .ok installer → ChangesOnly installer.graph.Targets fs fs'
  | .uninstall false =>
    ∀ installer, i.staged e fs = .ok installer → RemovesOnly installer.graph.Targets fs fs'
  | .plan | .install true | .uninstall true => fs' = fs

theorem Invocation.run_of_failsEarly (h : i.FailsEarly e fs error) :
    (i.run e fs).result = .error error ∧ (i.run e fs).fs = fs := by
  by_cases hc : ∃ parameter value, i.command = .config parameter value
  · obtain ⟨parameter, value, hc⟩ := hc
    rcases h with h | ⟨hn, -⟩
    · unfold run
      rw [hc]
      exact Defaults.store_of_ofFile_error h
    · exact absurd hc (hn parameter value)
  · have hn : ∀ parameter value, i.command ≠ .config parameter value :=
      fun parameter value h => hc ⟨parameter, value, h⟩
    refine (run_of_staged hn).1 error ?_
    rcases h with h | ⟨-, h⟩
    · unfold staged
      rw [h]
      rfl
    · exact h

theorem Invocation.allows_run (i : Invocation) (e : Environment) (fs : FileSystem) :
    i.Allows e fs (i.run e fs).fs := by
  have carried (hc : ∀ parameter value, i.command ≠ .config parameter value)
      (hdry : ∀ installer, (i.command.carryOut installer fs).fs = fs) : (i.run e fs).fs = fs := by
    cases hs : i.staged e fs with
    | error error => exact ((run_of_staged hc).1 error hs).2
    | ok installer => exact ((run_of_staged hc).2 installer hs).trans (hdry installer)
  unfold Allows
  split
  · next parameter value hc =>
    unfold run
    rw [hc]
    exact Defaults.store_changesOnly fs parameter value rfl
  · next hc =>
    intro installer hs
    rw [(run_of_staged (by simp [hc])).2 installer hs, hc]
    exact (summed_fs ..).symm ▸ (reachable_of_staged hs).execute_changesOnly fs
  · next hc =>
    intro installer hs
    rw [(run_of_staged (by simp [hc])).2 installer hs, hc]
    exact (summed_fs ..).symm ▸ installer.graph.uninstall_removesOnly fs
  · next hc => exact carried (by simp [hc]) fun installer => by rw [hc]; rfl
  · next hc =>
    exact carried (by simp [hc]) fun installer => by rw [hc]; exact summed_fs ..
  · next hc =>
    refine carried (by simp [hc]) fun installer => ?_
    rw [hc]
    exact (summed_fs ..).trans (RemovalRun.ofTargets_dry fs installer.graph.targets).1

/-- Wrong arguments and requests for help change nothing. Every other command line changes only
what its command is for, and nothing if it fails early; it then ends with 1. -/
theorem run_confined (args : List String) (e : Environment) (fs : FileSystem) :
    (∀ stop, parse args = .error stop → (run args e fs).fs = fs) ∧
    ∀ i, parse args = .ok i → i.Allows e fs (run args e fs).fs ∧
      ∀ error, i.FailsEarly e fs error → (run args e fs).fs = fs ∧ (run args e fs).code = 1 := by
  constructor
  · intro stop h
    unfold run
    rw [h]
    cases stop <;> rfl
  · intro i h
    have hfs : (run args e fs).fs = (i.run e fs).fs := by
      unfold run
      rw [h]
      dsimp only
      split <;> rfl
    rw [hfs]
    refine ⟨i.allows_run e fs, ?_⟩
    intro error herror
    obtain ⟨hresult, hsame⟩ := i.run_of_failsEarly herror
    refine ⟨hsame, ?_⟩
    unfold run
    rw [h]
    dsimp only
    rw [hresult]

namespace Sample

open ActionGraph.Sample (fileName)

def home : Environment := ⟨.ofString "/home", none⟩

def project : FileSystem :=
  (FileSystem.empty.put [fileName] (.file .newFile [1])).put
    [(Name.ofBytes? (.ofString defaultManifest)).get rfl]
    (.file .newFile (.ofString "programs = ['a']\n"))

def below : Invocation := ⟨defaultManifest, { prefixDir := "/p" }, .install false⟩

end Sample

open Sample in
theorem run_confined_sample : parse ["install", "--prefix", "/p"] = .ok below ∧
    (∃ installer, below.staged home project = .ok installer ∧
      ChangesOnly installer.graph.Targets project
        (run ["install", "--prefix", "/p"] home project).fs) ∧
    (run ["install", "--prefix", "/p"] home project).fs.isFile (.ofString "/p/bin/a") = true ∧
    (run ["install", "--prefix", "/p"] home .empty).fs = .empty := by
  have hparse : parse ["install", "--prefix", "/p"] = .ok below := by decide +kernel
  obtain ⟨hallows, -⟩ := (run_confined ["install", "--prefix", "/p"] home project).2 below hparse
  obtain ⟨-, hfails⟩ := (run_confined ["install", "--prefix", "/p"] home .empty).2 below hparse
  have hsome : (below.staged home project).toOption.isSome = true := by decide +kernel
  have hlost : below.staged home .empty =
      .error (.manifest (.ofString defaultManifest) (.unreadable .notFound)) := by decide +kernel
  refine ⟨hparse, ?_, by decide +kernel, (hfails _ (.inr ⟨by simp [below], hlost⟩)).1⟩
  cases hs : below.staged home project with
  | error error =>
    rw [hs] at hsome
    cases hsome
  | ok installer => exact ⟨installer, rfl, hallows installer hs⟩

end CommandLine

end StagedInstall
