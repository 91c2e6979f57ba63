import StagedInstall.Proofs.Path.Components
import StagedInstall.Proofs.Staging.Selection

/-! # Tasks one after the other

A list of tasks stages what each of them stages alone, one after the other, up to the first that
fails (`Staging.ofTasks_stops`). Those for the files of a manifest cannot fail, so a manifest is
staged in the order in which it is written, up to the first directory that cannot be searched
(`Installer.record_manifest`).
-/

namespace StagedInstall

variable {fs : FileSystem} {dirs : InstallDirectories} {t : Task} {ts : List Task}
  {error : InstallError}

namespace Path

/-- A path that is joined to the empty one is spelled with a slash at its end. -/
theorem same_div_empty (p : Path) : (p / ∅).Same p := by
  by_cases hp : p.bytes = []
  · obtain rfl : p = ∅ := ext hp
    rw [empty_div]
    exact .refl ∅
  · have hpieces : (∅ : Path).pieces = [[]] := List.splitOn_nil ..
    have h := components_div (b := ∅) (by decide) hp
    rw [hpieces, spelled_cons_of_skipped (.inl rfl)] at h
    exact h.trans (List.append_nil _)

end Path

theorem ActionGraph.targetIn_div_empty (dir source : Path) :
    targetIn (dir / ∅) source = dir / source.fileName?.getD ∅ := by
  unfold targetIn
  cases source.fileName? with
  | none => rfl
  | some name => exact (Path.div_assoc ..).trans (congrArg (dir / ·) (Path.empty_div name))

namespace Staging

theorem ofTasks_append (h : ∀ t ∈ ts, (t.staging fs dirs).failure = none) (us : List Task) :
    (ofTasks fs dirs (ts ++ us)).failure = (ofTasks fs dirs us).failure ∧
      (ofTasks fs dirs (ts ++ us)).actions =
        ts.flatMap (fun t => (t.staging fs dirs).actions) ++ (ofTasks fs dirs us).actions := by
  induction ts with
  | nil => exact ⟨rfl, rfl⟩
  | cons t ts ih =>
    obtain ⟨ht, hts⟩ := List.forall_mem_cons.mp h
    obtain ⟨hfailure, hactions⟩ := ih hts
    rw [List.cons_append, ofTasks, actions_andThen ht, andThen_of_done ht, hactions,
      List.flatMap_cons, List.append_assoc]
    exact ⟨hfailure, rfl⟩

theorem failure_ofTasks_eq_none_iff :
    (ofTasks fs dirs ts).failure = none ↔ ∀ t ∈ ts, (t.staging fs dirs).failure = none := by
  induction ts with
  | nil => exact iff_of_true rfl fun _ h => absurd h List.not_mem_nil
  | cons t ts ih => rw [ofTasks, andThen_failure_eq_none, ih, List.forall_mem_cons]

theorem actions_ofTasks (h : (ofTasks fs dirs ts).failure = none) :
    (ofTasks fs dirs ts).actions = ts.flatMap fun t => (t.staging fs dirs).actions := by
  have hts := (ofTasks_append (failure_ofTasks_eq_none_iff.mp h) []).2
  rw [List.append_nil] at hts
  exact hts.trans (List.append_nil _)

theorem ofTasks_stops (h : (ofTasks fs dirs ts).failure = some error) : ∃ before t after,
    ts = before ++ t :: after ∧ (∀ u ∈ before, (u.staging fs dirs).failure = none) ∧
      (t.staging fs dirs).failure = some error ∧
      (ofTasks fs dirs ts).actions =
        before.flatMap (fun u => (u.staging fs dirs).actions) ++ (t.staging fs dirs).actions := by
  induction ts with
  | nil => cases h
  | cons t ts ih =>
    rw [ofTasks] at h ⊢
    cases ht : (t.staging fs dirs).failure with
    | some error' =>
      rw [andThen_of_failure ht] at h ⊢
      exact ⟨[], t, ts, rfl, fun _ h => absurd h List.not_mem_nil, h, rfl⟩
    | none =>
      rw [andThen_of_done ht] at h
      obtain ⟨before, u, after, rfl, hbefore, hu, hactions⟩ := ih h
      refine ⟨t :: before, u, after, rfl, List.forall_mem_cons.mpr ⟨ht, hbefore⟩, hu, ?_⟩
      rw [actions_andThen ht, hactions, List.flatMap_cons, List.append_assoc]

end Staging

namespace Task

theorem actions_program (fs : FileSystem) (dirs : InstallDirectories) (p : Path) :
    ((program p).staging fs dirs).actions =
      [.copy ⟨p, dirs.binDir / p.fileName?.getD ∅⟩,
        .chmod ⟨dirs.binDir / p.fileName?.getD ∅, programMode⟩] := by
  rw [← ActionGraph.targetIn_div_empty]
  rfl

theorem actions_library (fs : FileSystem) (dirs : InstallDirectories) (p : Path) :
    ((library p).staging fs dirs).actions = [.copy ⟨p, dirs.libDir / p.fileName?.getD ∅⟩] := by
  rw [← ActionGraph.targetIn_div_empty]
  rfl

theorem failure_ofRequest_of_file {r : Request} {path : Path} (h : r.source = .file path)
    (root : Path) (category : Category) :
    ((ofRequest root category r).staging fs dirs).failure = none ∧
      ((ofRequest root category r).staging fs dirs).actions =
        [.copy ⟨path, ActionGraph.targetIn (dirs.dir category / .ofString r.basedir) path⟩] := by
  rw [ofRequest, h]
  exact ⟨rfl, rfl⟩

theorem exists_directory_of_failure {r : Request} {root : Path} {category : Category}
    (h : ((ofRequest root category r).staging fs dirs).failure = some error) :
    ∃ parent pattern recursive, r.source = .directory parent pattern recursive := by
  cases hs : r.source with
  | directory parent pattern recursive => exact ⟨parent, pattern, recursive, rfl⟩
  | file path => cases (failure_ofRequest_of_file hs root category).1.symm.trans h

end Task

namespace Manifest

def requests (m : Manifest) : List (Category × Request) :=
  m.headers.map (.header, ·) ++ m.shares.map (.share, ·)

theorem tasks_eq (m : Manifest) : m.tasks =
    (m.programs.map Task.program ++ m.libraries.map Task.library) ++
      m.requests.map fun r => Task.ofRequest m.root r.1 r.2 := by
  rw [tasks, requests, List.map_append, List.map_map, List.map_map, List.append_assoc]
  rfl

/-- The programs and libraries of a manifest are staged without a failure, and then its requests. -/
theorem ofTasks_tasks (m : Manifest) (fs : FileSystem) (dirs : InstallDirectories) :
    let rest := Staging.ofTasks fs dirs (m.requests.map fun r => Task.ofRequest m.root r.1 r.2)
    (Staging.ofTasks fs dirs m.tasks).failure = rest.failure ∧
      (Staging.ofTasks fs dirs m.tasks).actions =
        m.programs.flatMap (fun p => [.copy ⟨p, dirs.binDir / p.fileName?.getD ∅⟩,
          .chmod ⟨dirs.binDir / p.fileName?.getD ∅, programMode⟩]) ++
        m.libraries.map (fun p => .copy ⟨p, dirs.libDir / p.fileName?.getD ∅⟩) ++
        rest.actions := by
  intro rest
  have hfiles : ∀ t ∈ m.programs.map Task.program ++ m.libraries.map Task.library,
      (t.staging fs dirs).failure = none := by
    intro t ht
    rcases List.mem_append.mp ht with ht | ht
    · obtain ⟨p, -, rfl⟩ := List.mem_map.mp ht
      rfl
    · obtain ⟨p, -, rfl⟩ := List.mem_map.mp ht
      rfl
  obtain ⟨hfailure, hactions⟩ := Staging.ofTasks_append hfiles
    (m.requests.map fun r => Task.ofRequest m.root r.1 r.2)
  rw [m.tasks_eq]
  refine ⟨hfailure, hactions.trans ?_⟩
  rw [List.flatMap_append, List.flatMap_map, List.flatMap_map]
  simp only [Task.actions_program, Task.actions_library]
  rw [← List.map_eq_flatMap]

end Manifest

namespace Installer

/-- A manifest is staged in its order: a copy and a permission change for each program, a copy for
each library, and then for each header and each share what its request stages alone. If one of
these requests fails, so does the manifest, with the error of the first that does and what was
registered up to then. What the graph had before stays in front. -/
theorem record_manifest (i : Installer) (fs : FileSystem) (m : Manifest) :
    let staging := Staging.ofTasks fs i.dirs m.tasks
    let alone (r : Category × Request) := (Task.ofRequest m.root r.1 r.2).staging fs i.dirs
    let files : List Action :=
      m.programs.flatMap (fun p => [.copy ⟨p, i.dirs.binDir / p.fileName?.getD ∅⟩,
        .chmod ⟨i.dirs.binDir / p.fileName?.getD ∅, 0o755⟩]) ++
      m.libraries.map fun p => .copy ⟨p, i.dirs.libDir / p.fileName?.getD ∅⟩
    (∀ (p : Path) (c : Category), p.fileName? = none →
      (i.dirs.dir c / p.fileName?.getD ∅).Same (i.dirs.dir c)) ∧
    (∀ r ∈ m.requests, match r.2.source with
      | .file path => (alone r).failure = none ∧ (alone r).actions =
          [.copy ⟨path, ActionGraph.targetIn (i.dirs.dir r.1 / .ofString r.2.basedir) path⟩]
      | .directory parent pattern recursive => alone r =
          (Task.directory r.1 ⟨m.root, pattern, recursive⟩ parent (.ofString r.2.basedir)).staging
            fs i.dirs) ∧
    (staging.failure = none ↔ ∀ r ∈ m.requests, (alone r).failure = none) ∧
    (staging.failure = none → (i.record staging).graph =
      i.graph.append (files ++ m.requests.flatMap fun r => (alone r).actions)) ∧
    ∀ error, staging.failure = some error → ∃ before r after,
      m.requests = before ++ r :: after ∧ (∀ q ∈ before, (alone q).failure = none) ∧
      (∃ parent pattern recursive, r.2.source = .directory parent pattern recursive) ∧
      (alone r).failure = some error ∧
      (i.record staging).graph = i.graph.append
        (files ++ before.flatMap (fun q => (alone q).actions) ++ (alone r).actions) := by
  intro staging alone files
  obtain ⟨hfailure, hactions⟩ := m.ofTasks_tasks fs i.dirs
  have hgraph : (i.record staging).graph = i.graph.append (files ++ (Staging.ofTasks fs i.dirs
      (m.requests.map fun r => Task.ofRequest m.root r.1 r.2)).actions) :=
    congrArg i.graph.append hactions
  have hdone : staging.failure = none ↔ ∀ r ∈ m.requests, (alone r).failure = none := by
    rw [hfailure, Staging.failure_ofTasks_eq_none_iff, List.forall_mem_map]
  refine ⟨?_, ?_, hdone, ?_, ?_⟩
  · intro p c hp
    rw [hp]
    exact Path.same_div_empty _
  · rintro ⟨category, source, basedir⟩ -
    cases source with
    | file path => exact Task.failure_ofRequest_of_file rfl m.root category
    | directory => rfl
  · intro h
    rw [hgraph, Staging.actions_ofTasks (hfailure.symm.trans h), List.flatMap_map]
  · intro error h
    obtain ⟨before, t, after, hts, hbefore, ht, hstopped⟩ :=
      Staging.ofTasks_stops (hfailure.symm.trans h)
    obtain ⟨before, rest, hr, rfl, hrest⟩ := List.map_eq_append_iff.mp hts
    obtain ⟨r, after, rfl, rfl, -⟩ := List.map_eq_cons_iff.mp hrest
    refine ⟨before, r, after, hr, List.forall_mem_map.mp hbefore,
      Task.exists_directory_of_failure ht, ht, ?_⟩
    rw [hgraph, hstopped, List.flatMap_map]
    exact congrArg i.graph.append (List.append_assoc files ..).symm

end Installer

namespace Manifest.Sample

def torn : Manifest where
  path := ∅
  root := .root
  settings := {}
  programs := [.ofString "/a"]
  libraries := [.ofString "/a.so"]
  headers := [⟨.directory ∅ "[!b]" true, ""⟩, ⟨.directory (.ofString "lost") "*" false, ""⟩]
  shares := [⟨.file (.ofString "/f"), "x"⟩]

def whole : Manifest := { torn with headers := torn.headers.take 1 }

end Manifest.Sample

open Search.Sample (tree installer) in
open Manifest.Sample (torn whole) in
theorem Installer.record_manifest_sample :
    let alone (r : Category × Request) := (Task.ofRequest .root r.1 r.2).staging tree installer.dirs
    (∃ files, (installer.record (Staging.ofTasks tree installer.dirs whole.tasks)).graph =
      installer.graph.append (files ++ whole.requests.flatMap fun r => (alone r).actions)) ∧
    ∃ error before r after files,
      (Staging.ofTasks tree installer.dirs torn.tasks).failure = some error ∧
      torn.requests = before ++ r :: after ∧ (alone r).failure = some error ∧
      (installer.record (Staging.ofTasks tree installer.dirs torn.tasks)).graph =
        installer.graph.append
          (files ++ before.flatMap (fun q => (alone q).actions) ++ (alone r).actions) := by
  obtain ⟨-, -, -, hwhole, -⟩ := Installer.record_manifest installer tree whole
  obtain ⟨-, -, -, -, htorn⟩ := Installer.record_manifest installer tree torn
  have hf : (Staging.ofTasks tree installer.dirs torn.tasks).failure ≠ none := by decide +kernel
  obtain ⟨error, he⟩ := Option.ne_none_iff_exists'.mp hf
  obtain ⟨before, r, after, hr, -, -, hfail, hgraph⟩ := htorn error he
  exact ⟨⟨_, hwhole (by decide +kernel)⟩, error, before, r, after, _, he, hr, hfail, hgraph⟩

end StagedInstall
