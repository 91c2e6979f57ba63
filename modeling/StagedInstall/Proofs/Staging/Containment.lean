import StagedInstall.Proofs.Directories.Resolution
import StagedInstall.Proofs.FileSystem.Spelling
import StagedInstall.Proofs.Staging.Reachable
import StagedInstall.Proofs.Staging.Selection

/-! # Where staged files go

The components of a target are those of the directory of its category, followed by what the
subdirectory of the request, the directories that were descended into and the name of the file
add (`Installer.Reachable.components_target`). An absolute subdirectory takes the place of the
directory, so that the target is outside of it (`Installer.Reachable.escapes`).
-/

namespace StagedInstall

namespace Path

variable {a b p : Path}

/-- The components that a path has behind the root, or behind a leading `.`. -/
def inner (p : Path) : List Component := p.components.filter fun c => c ≠ .root ∧ c ≠ .current

theorem components_of_isAbsolute (h : p.isAbsolute = true) : p.components = .root :: p.inner := by
  obtain ⟨s, l, hl⟩ := isAbsolute_iff.mp h
  rw [inner, filter_components, components_eq, hl]
  rfl

theorem inner_div (h : b.isAbsolute = false) : (a / b).inner = a.inner ++ b.inner := by
  by_cases ha : a.bytes = []
  · obtain rfl : a = ∅ := ext ha
    rw [div_of_bytes_eq_nil ha h]
    rfl
  · have hb : (spelled b.pieces).filter (fun c => c ≠ .root ∧ c ≠ .current) = b.inner := by
      rw [inner, ← filter_components, List.filter_filter]
      simp only [Bool.and_self]
    rw [inner, components_div h ha, List.filter_append, hb]
    rfl

theorem components_div_of_isAbsolute (h : a.isAbsolute = true) : (a / b).components =
    (if b.isAbsolute then [.root] else a.components) ++ b.inner := by
  split
  · next hb => rw [div_of_isAbsolute a hb, components_of_isAbsolute hb]; rfl
  · next hb =>
    rw [Bool.not_eq_true] at hb
    rw [components_of_isAbsolute ((isAbsolute_div a hb).trans h), inner_div hb,
      components_of_isAbsolute h]
    rfl

theorem IsName.inner_eq (h : p.IsName) : p.inner = [.normal p.bytes] := by
  rw [inner, filter_components, h.spelled_pieces]

theorem isAbsolute_descend (p : Path) (ds : List Name) : (p.descend ds).isAbsolute = p.isAbsolute := by
  induction ds generalizing p with
  | nil => rfl
  | cons d ds ih => exact (ih (p / d.shown)).trans (isAbsolute_div p d.isAbsolute_shown)

theorem inner_descend (p : Path) (ds : List Name) :
    (p.descend ds).inner = p.inner ++ ds.map fun d => .normal d.shown.bytes := by
  induction ds generalizing p with
  | nil => exact (List.append_nil _).symm
  | cons d ds ih =>
    have h : (p / d.shown).inner = p.inner ++ [.normal d.shown.bytes] := by
      rw [inner_div d.isAbsolute_shown, d.isName_shown.inner_eq]
    exact (ih (p / d.shown)).trans (by rw [h, List.append_assoc]; rfl)

end Path

namespace Task

variable {fs : FileSystem} {dirs : InstallDirectories} {t : Task} {a : Action} {c : Copy}

def category : Task → Category
  | file category .. | directory category .. => category

def basedir : Task → Path
  | file _ _ basedir _ | directory _ _ _ basedir => basedir

/-- The task takes the file at `p`: the one that it names, or one of the directory that its search
enters by way of `ds`. -/
def Takes (fs : FileSystem) (ds : List Name) (p : Path) : Task → Prop
  | file _ source _ _ => ds = [] ∧ p = source
  | directory _ s parent _ =>
    s.Enters fs parent (parent.descend ds) ∧ ∃ n : Name, p = s.root / parent.descend ds / n.toPath

/-- A copy goes by way of the same directories below the subdirectory of its task. -/
theorem exists_takes (h : .copy c ∈ (t.staging fs dirs).actions) : ∃ ds, t.Takes fs ds c.source ∧
    c.target = ActionGraph.targetIn (dirs.dir t.category / t.basedir.descend ds) c.source := by
  obtain ⟨e, he, hc⟩ := List.mem_flatMap.mp h
  have copied {source basedir : Path} {mode : Option Mode}
      (hc : .copy c ∈ (dirs.stageFile t.category source basedir mode).actions) :
      c = ⟨source, ActionGraph.targetIn (dirs.dir t.category / basedir) source⟩ := by
    rcases StagingEvent.mem_actions_stageFile.mp hc with hc | ⟨m, -, hc⟩
    · exact Action.copy.inj hc
    · cases hc
  cases t with
  | file category source basedir mode =>
    obtain rfl := List.mem_singleton.mp he
    obtain rfl := copied hc
    exact ⟨[], ⟨rfl, rfl⟩, rfl⟩
  | directory category s parent basedir =>
    rcases Search.walk_staged_descend he with ⟨p, rfl⟩ | ⟨ds, n, hds, -, rfl⟩
    · cases hc
    · obtain rfl := copied hc
      exact ⟨ds, ⟨hds, n, rfl⟩, rfl⟩

end Task

theorem Staging.mem_actions_ofTasks {fs : FileSystem} {dirs : InstallDirectories} {ts : List Task}
    {a : Action} (h : a ∈ (ofTasks fs dirs ts).actions) :
    ∃ t ∈ ts, a ∈ (t.staging fs dirs).actions := by
  obtain ⟨e, he, ha⟩ := List.mem_flatMap.mp h
  obtain ⟨t, ht, he⟩ := mem_ofTasks he
  exact ⟨t, ht, List.mem_flatMap.mpr ⟨e, he, ha⟩⟩

/-- The components of a file of that name in `dir`, by way of a subdirectory and of the directories
below it. -/
def containedComponents (dir basedir : Path) (ds : List Name) (name : Path) : List Component :=
  dir.components ++ basedir.inner ++ ds.map (fun d => .normal d.shown.bytes) ++ [.normal name.bytes]

/-- A target is its directory, or what an absolute subdirectory puts in place of it, and what is
added to that. -/
theorem ActionGraph.components_targetIn {dir basedir source name : Path} (ds : List Name)
    (hd : dir.isAbsolute = true) (hn : source.fileName? = some name) :
    (targetIn (dir / basedir.descend ds) source).components =
      containedComponents (if basedir.isAbsolute then .root else dir) basedir ds name := by
  have hdir : (dir / basedir.descend ds).isAbsolute = true := by
    cases hb : basedir.isAbsolute with
    | false => rw [Path.isAbsolute_div _ ((basedir.isAbsolute_descend ds).trans hb), hd]
    | true =>
      have hb : (basedir.descend ds).isAbsolute = true := (basedir.isAbsolute_descend ds).trans hb
      rw [Path.div_of_isAbsolute _ hb, hb]
  rw [targetIn, hn]
  dsimp only
  rw [Path.components_div_of_isAbsolute hdir, (Path.fileName?_fileName? hn).2,
    Path.components_div_of_isAbsolute hd, (Path.isName_of_fileName? hn).inner_eq, Path.isAbsolute_descend,
    Path.inner_descend, containedComponents, ← List.append_assoc]
  cases basedir.isAbsolute <;> rfl

namespace Installer.Reachable

variable {i : Installer}

theorem exists_resolve (h : Reachable i) :
    ∃ s base, InstallDirectories.resolve s base = .ok i.dirs := by
  induction h with
  | @new s base i h =>
    refine ⟨s, base, ?_⟩
    unfold Installer.new at h
    obtain ⟨dirs, hd, h⟩ := bind_eq_ok_iff.mp h
    cases h
    exact mapError_eq_ok_iff.mp hd
  | task _ _ _ ih | manifest _ _ _ ih => exact ih

/-- In every installer that can be reached, a request registers copies to the directory of its
category as it was resolved, if the subdirectory is relative: the components of the target are then
those of that directory, of the subdirectory, of the directories that the search went through and
of the name of the file. With an absolute subdirectory they start from the root, and so they do not
continue those of the directory unless that is the root itself. -/
theorem components_target (h : Reachable i) :
    (∃ s base, InstallDirectories.resolve s base = .ok i.dirs) ∧
    (∀ (fs : FileSystem) (m : Manifest), ∀ a ∈ (Staging.ofTasks fs i.dirs m.tasks).actions,
      ∃ t ∈ m.tasks, a ∈ (t.staging fs i.dirs).actions) ∧
    ∀ (fs : FileSystem) (t : Task) (c : Copy), .copy c ∈ (t.staging fs i.dirs).actions →
      ∃ ds, t.Takes fs ds c.source ∧ ∀ name, c.source.fileName? = some name →
        c.target.components = containedComponents
          (if t.basedir.isAbsolute then .root else i.dirs.dir t.category) t.basedir ds name ∧
        (c.target.components =
            containedComponents (i.dirs.dir t.category) t.basedir ds name ↔
          t.basedir.isAbsolute = false ∨ (i.dirs.dir t.category).components = [.root]) := by
  obtain ⟨s, base, hs⟩ := h.exists_resolve
  refine ⟨⟨s, base, hs⟩, fun fs m a => Staging.mem_actions_ofTasks, ?_⟩
  intro fs t c hc
  obtain ⟨ds, htakes, htarget⟩ := t.exists_takes hc
  refine ⟨ds, htakes, ?_⟩
  intro name hn
  rw [htarget, ActionGraph.components_targetIn ds (InstallDirectories.isAbsolute_dir hs _) hn]
  refine ⟨rfl, ?_⟩
  cases t.basedir.isAbsolute with
  | false => simp
  | true =>
    have hroot : Path.root.components = [.root] := by decide
    unfold containedComponents
    rw [if_pos rfl, List.append_cancel_right_eq, List.append_cancel_right_eq,
      List.append_cancel_right_eq, hroot]
    simp [eq_comm]

namespace Sample

open Search.Sample (fileName)

def prefixed : Installer where
  dirs := ⟨.ofString "/p", .ofString "/p", .ofString "/p/bin", .ofString "/p/lib",
    .ofString "/p/include", .ofString "/p/share"⟩
  graph := ⟨[], [(installAlias,
    [.ofString "/p/bin", .ofString "/p/lib", .ofString "/p/include", .ofString "/p/share"])]⟩

theorem new_prefixed : Installer.new { prefixDir := "/p" } .root .empty = .ok prefixed := by
  decide +kernel

def headers : Task := .directory .header Search.Sample.search ∅ (.ofString "x")

def stray : Task := .file .header (.root / fileName.toPath) (.ofString "/x") none

end Sample

open Search.Sample (tree fileName) in
open Sample (prefixed headers new_prefixed) in
theorem components_target_sample :
    Reachable prefixed ∧ ∃ c ds, .copy c ∈ (headers.staging tree prefixed.dirs).actions ∧
      c.target = .ofString "/p/include/x/d/f" ∧ headers.Takes tree ds c.source ∧
      c.target.components =
        containedComponents (prefixed.dirs.dir .header) (.ofString "x") ds fileName.toPath := by
  have hc : .copy ⟨.ofString "/d/f", .ofString "/p/include/x/d/f"⟩ ∈
      (headers.staging tree prefixed.dirs).actions := by decide +kernel
  obtain ⟨ds, htakes, h⟩ := (components_target (.new new_prefixed)).2.2 tree headers _ hc
  have hn : (Path.ofString "/d/f").fileName? = some fileName.toPath := by decide +kernel
  exact ⟨.new new_prefixed, _, ds, hc, rfl, htakes, (h _ hn).2.mpr (.inl (by decide +kernel))⟩

/-- A file whose subdirectory is absolute is registered outside of the directory of its category. -/
theorem escapes : ∃ (i : Installer) (fs : FileSystem) (t : Task) (c : Copy) (name : Path),
    Reachable i ∧ .copy c ∈ (t.staging fs i.dirs).actions ∧ c.source.fileName? = some name ∧
      ¬ (i.dirs.dir t.category).components <+: c.target.components := by
  refine ⟨Sample.prefixed, .empty, Sample.stray, ⟨.root / Search.Sample.fileName.toPath,
    .ofString "/x/f"⟩, Search.Sample.fileName.toPath,
    .new Sample.new_prefixed, ?_, ?_, ?_⟩
  · decide +kernel
  · decide +kernel
  · decide +kernel

end Installer.Reachable

end StagedInstall
