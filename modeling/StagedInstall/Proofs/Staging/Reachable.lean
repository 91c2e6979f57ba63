import StagedInstall.Proofs.Staging.Walk

/-! # Installers that can be reached

Staging registers a permission change only behind the copy of the same file, whether it ends with
an error or not. So in the graph of an installer that starts with an empty one
(`Installer.Reachable`), each permission change has the target of a copy
(`Installer.Reachable.exists_copy`).
-/

namespace StagedInstall

variable {fs : FileSystem} {dirs : InstallDirectories} {e : StagingEvent} {t : Task}
  {ts : List Task} {g : ActionGraph} {a : Action} {c : Copy} {d : Chmod} {i : Installer}

/-- What staging into the directories can do: it stages a file, or passes a test tree over. -/
inductive InstallDirectories.Stages (dirs : InstallDirectories) : StagingEvent → Prop
  | file (category : Category) (source basedir : Path) (mode : Option Mode) :
      Stages dirs (dirs.stageFile category source basedir mode)
  | skipped (parent : Path) : Stages dirs (.skipped parent)

theorem Task.stages (h : e ∈ (t.staging fs dirs).events) : dirs.Stages e := by
  cases t with
  | file category source basedir mode =>
    obtain rfl := List.mem_singleton.mp h
    exact .file category source basedir mode
  | directory category s parent basedir =>
    rcases Search.walk_staged h with ⟨p, rfl⟩ | ⟨q, b, n, -, -, rfl⟩
    · exact .skipped p
    · exact .file category _ b none

theorem Staging.stages_ofTasks (h : e ∈ (ofTasks fs dirs ts).events) : dirs.Stages e := by
  obtain ⟨t, -, h⟩ := mem_ofTasks h
  exact t.stages h

theorem StagingEvent.mem_actions_stageFile {category : Category} {source basedir : Path}
    {mode : Option Mode} : a ∈ (dirs.stageFile category source basedir mode).actions ↔
      a = .copy ⟨source, ActionGraph.targetIn (dirs.dir category / basedir) source⟩ ∨
      ∃ m, mode = some m ∧
        a = .chmod ⟨ActionGraph.targetIn (dirs.dir category / basedir) source, m⟩ := by
  cases mode <;> simp [InstallDirectories.stageFile, actions]

namespace ActionGraph

theorem mem_copies_iff : c ∈ g.copies ↔ .copy c ∈ g.actions := by
  rw [copies, List.mem_filterMap]
  constructor
  · rintro ⟨a, ha, h⟩
    cases a with
    | copy => exact Option.some.inj h ▸ ha
    | chmod => cases h
  · exact fun h => ⟨_, h, rfl⟩

theorem mem_chmods_iff : d ∈ g.chmods ↔ .chmod d ∈ g.actions := by
  rw [chmods, List.mem_filterMap]
  constructor
  · rintro ⟨a, ha, h⟩
    cases a with
    | copy => cases h
    | chmod => exact Option.some.inj h ▸ ha
  · exact fun h => ⟨_, h, rfl⟩

theorem actions_addAlias (g : ActionGraph) (name : String) (dir : Path) :
    (g.addAlias name dir).actions = g.actions := by
  unfold addAlias
  split
  · rfl
  · split <;> rfl

theorem actions_foldl_addAlias (g : ActionGraph) (name : String) (f : Category → Path)
    (l : List Category) : (l.foldl (fun g c => g.addAlias name (f c)) g).actions = g.actions := by
  induction l generalizing g with
  | nil => rfl
  | cons c l ih => rw [List.foldl_cons, ih, actions_addAlias]

end ActionGraph

namespace Installer

/-- The installers that staging makes of one that has an empty graph. The tree may change between
one call and the next, and what a call registers before it fails counts. -/
inductive Reachable : Installer → Prop
  | new {s : Settings} {base : Path} {i : Installer} : new s base .empty = .ok i → Reachable i
  | task {i : Installer} (fs : FileSystem) (t : Task) : Reachable i →
      Reachable (i.record (t.staging fs i.dirs))
  | manifest {i : Installer} (fs : FileSystem) (m : Manifest) : Reachable i →
      Reachable (i.record (.ofTasks fs i.dirs m.tasks))

theorem actions_new {s : Settings} {base : Path} (h : new s base g = .ok i) :
    i.graph.actions = g.actions := by
  unfold new at h
  cases hd : (InstallDirectories.resolve s base).mapError InstallError.configuration with
  | error => rw [hd] at h; cases h
  | ok dirs =>
    rw [hd] at h
    cases h
    exact g.actions_foldl_addAlias installAlias dirs.dir Category.all

namespace Reachable

theorem exists_events (h : Reachable i) : ∃ es : List StagingEvent,
    i.graph.actions = es.flatMap StagingEvent.actions ∧ ∀ e ∈ es, i.dirs.Stages e := by
  have record {i : Installer} {s : Staging} (hs : ∀ e ∈ s.events, i.dirs.Stages e)
      (ih : ∃ es : List StagingEvent, i.graph.actions = es.flatMap StagingEvent.actions ∧
        ∀ e ∈ es, i.dirs.Stages e) : ∃ es : List StagingEvent,
      (i.record s).graph.actions = es.flatMap StagingEvent.actions ∧
        ∀ e ∈ es, (i.record s).dirs.Stages e := by
    obtain ⟨es, ha, he⟩ := ih
    refine ⟨es ++ s.events, ?_, fun e hm => (List.mem_append.mp hm).elim (he e) (hs e)⟩
    rw [List.flatMap_append, ← ha]
    rfl
  induction h with
  | new h => exact ⟨[], actions_new h, fun _ h => absurd h List.not_mem_nil⟩
  | task fs t _ ih => exact record (fun e => t.stages) ih
  | manifest fs m _ ih => exact record (fun e => Staging.stages_ofTasks) ih

theorem exists_stageFile (h : Reachable i) (ha : a ∈ i.graph.actions) :
    ∃ (category : Category) (source basedir : Path) (mode : Option Mode),
      a ∈ (i.dirs.stageFile category source basedir mode).actions ∧
      ∀ b ∈ (i.dirs.stageFile category source basedir mode).actions, b ∈ i.graph.actions := by
  obtain ⟨es, hes, he⟩ := h.exists_events
  rw [hes, List.mem_flatMap] at ha
  obtain ⟨e, hm, ha⟩ := ha
  cases he e hm with
  | file category source basedir mode =>
    refine ⟨category, source, basedir, mode, ha, ?_⟩
    intro b hb
    rw [hes]
    exact List.mem_flatMap.mpr ⟨_, hm, hb⟩
  | skipped => cases ha

/-- The target of a copy is in a directory of the installer, under the name of its source. -/
theorem exists_targetIn (h : Reachable i) (hc : c ∈ i.graph.copies) :
    ∃ (category : Category) (basedir : Path),
      c.target = ActionGraph.targetIn (i.dirs.dir category / basedir) c.source := by
  obtain ⟨category, source, basedir, mode, ha, -⟩ :=
    h.exists_stageFile (ActionGraph.mem_copies_iff.mp hc)
  refine ⟨category, basedir, ?_⟩
  rcases StagingEvent.mem_actions_stageFile.mp ha with ha | ⟨m, -, ha⟩
  · cases ha
    rfl
  · cases ha

/-- No permission change is registered without a copy to its target. -/
theorem exists_copy (h : Reachable i) (hd : d ∈ i.graph.chmods) :
    ∃ c ∈ i.graph.copies, c.target = d.target := by
  obtain ⟨category, source, basedir, mode, ha, hb⟩ :=
    h.exists_stageFile (ActionGraph.mem_chmods_iff.mp hd)
  refine ⟨_, ActionGraph.mem_copies_iff.mpr (hb _ List.mem_cons_self), ?_⟩
  rcases StagingEvent.mem_actions_stageFile.mp ha with ha | ⟨m, -, ha⟩
  · cases ha
  · cases ha
    rfl

end Reachable

end Installer

end StagedInstall
