import StagedInstall.Proofs.Staging.Footprint

/-! # Moving a manifest

The root of a manifest is written before the paths of the files it names, and is where its searches
start; nothing else depends on it (`parse_eq`, `tasks_under`). So the same manifest at another root
stages the same files below that root to the same targets, when the directories that it searches
look the same there (`staging_relocated`).
-/

namespace StagedInstall

def Source.under (root : Path) : Source → Source
  | file path => file (root / path)
  | directory parent pattern recursive => directory parent pattern recursive

def Request.under (root : Path) (r : Request) : Request := { r with source := r.source.under root }

def Manifest.under (root : Path) (m : Manifest) : Manifest :=
  { m with
    root := root
    programs := m.programs.map (root / ·)
    libraries := m.libraries.map (root / ·)
    headers := m.headers.map (Request.under root)
    shares := m.shares.map (Request.under root) }

def Task.under (root : Path) : Task → Task
  | file category source basedir mode => file category (root / source) basedir mode
  | directory category search parent basedir =>
    directory category (search.under root) parent basedir

theorem mapM_map {ε α β γ : Type} (f : α → Except ε β) (g : β → γ) (as : List α) :
    as.mapM (fun a => (f a).map g) = (as.mapM f).map (List.map g) := by
  induction as with
  | nil => rfl
  | cons a as ih =>
    rw [List.mapM_cons, List.mapM_cons, ih]
    cases f a with
    | error => rfl
    | ok b => cases as.mapM f <;> rfl

theorem StageEntry.toRequest_eq (root : Path) (table : String) (e : StageEntry) :
    e.toRequest root table = (e.toRequest ∅ table).map (Request.under root) := by
  obtain ⟨file, parent, pattern, basedir, recursive⟩ := e
  cases file <;> cases parent <;> cases pattern <;>
    simp [toRequest, Except.map, Request.under, Source.under, Path.empty_div]

namespace Manifest

variable {text : String} {path : Path} {m : Manifest}

theorem ofDocument_eq (path root : Path) (d : ManifestDocument) :
    ofDocument path root d = (ofDocument path ∅ d).map (under root) := by
  have hrequest (table : String) : StageEntry.toRequest root table =
      fun e => (StageEntry.toRequest ∅ table e).map (Request.under root) :=
    funext (StageEntry.toRequest_eq root table)
  unfold ofDocument
  rw [hrequest, hrequest, mapM_map, mapM_map]
  cases d.headers.mapM (StageEntry.toRequest ∅ "headers") with
  | error => rfl
  | ok headers =>
    cases d.shares.mapM (StageEntry.toRequest ∅ "shares") with
    | error => rfl
    | ok shares =>
      simp [bind, Except.bind, pure, Except.pure, Except.map, under, Path.empty_div]

theorem parse_eq (text : String) (path root : Path) :
    parse text path root = (parse text path ∅).map (under root) := by
  unfold parse
  cases ManifestDocument.parse text with
  | error => rfl
  | ok d =>
    change (ofDocument path root d).mapError (InstallError.manifest path) =
      ((ofDocument path ∅ d).mapError (InstallError.manifest path)).map (under root)
    rw [ofDocument_eq]
    cases ofDocument path ∅ d <;> rfl

theorem tasks_under (root : Path) (m : Manifest) :
    (m.under root).tasks = m.tasks.map (Task.under root) := by
  have hrequest (category : Category) (r : Request) :
      Task.ofRequest root category (r.under root) =
        (Task.ofRequest m.root category r).under root := by
    obtain ⟨source, basedir⟩ := r
    cases source <;> rfl
  have hrequests (category : Category) (rs : List Request) :
      (rs.map (Request.under root)).map (Task.ofRequest root category) =
        (rs.map (Task.ofRequest m.root category)).map (Task.under root) := by
    rw [List.map_map, List.map_map]
    exact List.map_congr_left fun r _ => hrequest category r
  unfold tasks
  rw [List.map_append, List.map_append, List.map_append, ← hrequests, ← hrequests]
  simp only [under, List.map_map]
  rfl

end Manifest

variable {R R' : Path} {fs fs' : FileSystem} {dirs : InstallDirectories}
  {F : InstallError → InstallError → Prop}

/-- Copies to the same target of what is the same path below `R` and below `R'`, or the same
permission change. -/
inductive Action.Moved (R R' : Path) : Action → Action → Prop
  | copy {q : Path} (target : Path) : q.isAbsolute = false →
      Moved R R' (.copy ⟨R / q, target⟩) (.copy ⟨R' / q, target⟩)
  | chmod (c : Chmod) : Moved R R' (.chmod c) (.chmod c)

inductive StagingEvent.Moved (R R' : Path) : StagingEvent → StagingEvent → Prop
  | staged {q : Path} (category : Category) (target : Path) (mode : Option Mode) :
      q.isAbsolute = false →
      Moved R R' (.staged category ⟨R / q, target⟩ mode) (.staged category ⟨R' / q, target⟩ mode)
  | skipped (p : Path) : Moved R R' (.skipped p) (.skipped p)

/-- The same failure of a search at the same path below `R` and below `R'`. -/
inductive InstallError.Moved (R R' : Path) : InstallError → InstallError → Prop
  | traversal {q : Path} (cause : Cause) : q.isAbsolute = false →
      Moved R R' (.traversal (R / q) cause) (.traversal (R' / q) cause)

theorem StagingEvent.Moved.actions {e e' : StagingEvent} (h : e.Moved R R' e') :
    List.Forall₂ (Action.Moved R R') e.actions e'.actions := by
  cases h with
  | staged category target mode hq =>
    refine .cons (.copy target hq) ?_
    cases mode with
    | none => exact .nil
    | some m => exact .cons (.chmod ⟨target, m⟩) .nil
  | skipped p => exact .nil

theorem Staging.Related.actions {a b : Staging}
    (h : a.Related (StagingEvent.Moved R R') F b) :
    List.Forall₂ (Action.Moved R R') a.actions b.actions := by
  exact List.rel_flatMap h.events fun _ _ he => he.actions

theorem InstallDirectories.stageFile_moved {q : Path} (hq : q.isAbsolute = false)
    (hn : q.fileName? ≠ none) (category : Category) (basedir : Path) (mode : Option Mode) :
    (dirs.stageFile category (R / q) basedir mode).Moved R R'
      (dirs.stageFile category (R' / q) basedir mode) := by
  have htarget (R : Path) : ActionGraph.targetIn (dirs.dir category / basedir) (R / q) =
      ActionGraph.targetIn (dirs.dir category / basedir) q := by
    rw [ActionGraph.targetIn, ActionGraph.targetIn, Path.fileName?_div R hq hn]
  rw [stageFile, stageFile, htarget, htarget]
  exact .staged category _ mode hq

namespace Task

/-- The file is relative and has a name; the directory that is searched is relative. -/
def Relative : Task → Prop
  | file _ source _ _ => source.isAbsolute = false ∧ source.fileName? ≠ none
  | directory _ _ parent _ => parent.isAbsolute = false

/-- The directories that the search enters below `R` look the same below `R'`. -/
def AlikeUnder (R R' : Path) (fs fs' : FileSystem) : Task → Prop
  | file .. => True
  | directory _ search parent _ =>
    ∀ q, (search.under R).Enters fs parent q → fs.AlikeAt (R / q) fs' (R' / q)

theorem alikeUnder_of_forall {t : Task} (hr : t.Relative)
    (h : ∀ q : Path, q.isAbsolute = false →
      fs'.list (R' / q) = fs.list (R / q) ∧ fs'.kind (R' / q) = fs.kind (R / q)) :
    t.AlikeUnder R R' fs fs' := by
  cases t with
  | file => trivial
  | directory category search parent basedir =>
    intro q hq
    have hrel : q.isAbsolute = false := hq.isAbsolute_eq.trans hr
    refine ⟨(h q hrel).1, fun ns _ n _ => ?_⟩
    rw [Path.div_assoc, Path.div_assoc]
    exact (h (q / n.toPath) ((Path.isAbsolute_div q (Path.isAbsolute_toPath n)).trans hrel)).2

theorem staging_related {t : Task} (hr : t.Relative) (ha : t.AlikeUnder R R' fs fs') :
    Staging.Related (StagingEvent.Moved R R') (InstallError.Moved R R')
      ((t.under R).staging fs dirs) ((t.under R').staging fs' dirs) := by
  cases t with
  | file category source basedir mode =>
    exact .event (InstallDirectories.stageFile_moved hr.1 hr.2 category basedir mode)
  | directory category search parent basedir =>
    have hrel {q : Path} (hq : (search.under R).Enters fs parent q) : q.isAbsolute = false :=
      hq.isAbsolute_eq.trans hr
    have hname {q : Path} (hq : (search.under R).Enters fs parent q) (n : Name) :
        (q / n.toPath).isAbsolute = false :=
      (Path.isAbsolute_div q (Path.isAbsolute_toPath n)).trans (hrel hq)
    refine Search.walk_related .skipped ?_ (fun q cause hq => .traversal cause (hrel hq)) ?_ ha
    · intro q b n hq
      rw [Path.div_assoc, Path.div_assoc]
      refine InstallDirectories.stageFile_moved (hname hq n) ?_ category b none
      rw [Path.fileName?_div_name]
      simp
    · intro q n cause hq
      rw [Path.div_assoc, Path.div_assoc]
      exact .traversal cause (hname hq n)

end Task

theorem Staging.ofTasks_related {ts : List Task}
    (h : ∀ t ∈ ts, t.Relative ∧ t.AlikeUnder R R' fs fs') :
    Staging.Related (StagingEvent.Moved R R') (InstallError.Moved R R')
      (ofTasks fs dirs (ts.map (Task.under R))) (ofTasks fs' dirs (ts.map (Task.under R'))) := by
  induction ts with
  | nil => exact .done
  | cons t ts ih =>
    obtain ⟨⟨hr, ha⟩, hts⟩ := List.forall_mem_cons.mp h
    exact (Task.staging_related hr ha).andThen fun _ => ih hts

/-- A manifest stages the same files below two roots to the same targets, if the directories that
its searches enter look the same there: both times to the end, or up to the same failure. -/
theorem Manifest.staging_relocated {text : String} {path : Path} {m : Manifest}
    (hm : parse text path ∅ = .ok m) (hr : ∀ t ∈ m.tasks, t.Relative)
    (ha : ∀ t ∈ m.tasks, t.AlikeUnder R R' fs fs') (i : Installer) :
    ∃ m₁ m₂, parse text path R = .ok m₁ ∧ parse text path R' = .ok m₂ ∧
      List.Forall₂ (Action.Moved R R') (Staging.ofTasks fs i.dirs m₁.tasks).actions
        (Staging.ofTasks fs' i.dirs m₂.tasks).actions ∧
      Option.Rel (InstallError.Moved R R') (Staging.ofTasks fs i.dirs m₁.tasks).failure
        (Staging.ofTasks fs' i.dirs m₂.tasks).failure := by
  have hrel : Staging.Related (StagingEvent.Moved R R') (InstallError.Moved R R')
      (.ofTasks fs i.dirs (m.tasks.map (Task.under R)))
      (.ofTasks fs' i.dirs (m.tasks.map (Task.under R'))) :=
    Staging.ofTasks_related fun t ht => ⟨hr t ht, ha t ht⟩
  rw [← tasks_under, ← tasks_under] at hrel
  refine ⟨m.under R, m.under R', ?_, ?_, hrel.actions, hrel.failure⟩
  · rw [parse_eq, hm]
    rfl
  · rw [parse_eq, hm]
    rfl

namespace Manifest.Sample

open Search.Sample (fileName dirName testName)

def text : String :=
  "programs = [\"a\"]\n[[headers]]\nparent = \"\"\npattern = \"[!b]\"\nrecursive = true\n"

def manifest : Manifest :=
  ⟨∅, ∅, {}, [⟨[0x61]⟩], [], [⟨.directory ∅ "[!b]" true, ""⟩], []⟩

theorem parse_text : parse text ∅ ∅ = .ok manifest := by decide +kernel

def tree : FileSystem :=
  (((FileSystem.empty.put [dirName] (.directory .newDirectory)).put [fileName, dirName]
    (.file .newFile [1])).put [testName] (.directory .newDirectory)).put [fileName, testName]
    (.file .newFile [2])

def plainRoot : Path := ⟨[slash, 0x64]⟩

def testRoot : Path := ⟨[slash, 0x74, 0x65, 0x73, 0x74]⟩

theorem relative_tasks : ∀ t ∈ manifest.tasks, t.Relative :=
  List.forall_mem_cons.mpr ⟨⟨rfl, by decide⟩, List.forall_mem_singleton.mpr rfl⟩

theorem alikeUnder_tasks : ∀ t ∈ manifest.tasks, t.AlikeUnder plainRoot testRoot tree tree := by
  refine List.forall_mem_cons.mpr ⟨trivial, List.forall_mem_singleton.mpr ?_⟩
  intro q hq
  have hl : tree.list (plainRoot / ∅) = .ok [fileName] := rfl
  obtain rfl := hq.eq_start hl (by decide)
  refine ⟨rfl, ?_⟩
  intro ns hns n hn
  cases hns.symm.trans hl
  obtain rfl := List.mem_singleton.mp hn
  rfl

end Manifest.Sample

open Manifest.Sample in
theorem Manifest.staging_relocated_sample :
    parse text ∅ ∅ = .ok manifest ∧ (∀ t ∈ manifest.tasks, t.Relative) ∧
      (∀ t ∈ manifest.tasks, t.AlikeUnder plainRoot testRoot tree tree) ∧
      ∃ m₁ m₂, parse text ∅ plainRoot = .ok m₁ ∧ parse text ∅ testRoot = .ok m₂ ∧
        List.Forall₂ (Action.Moved plainRoot testRoot)
          (Staging.ofTasks tree Search.Sample.installer.dirs m₁.tasks).actions
          (Staging.ofTasks tree Search.Sample.installer.dirs m₂.tasks).actions := by
  obtain ⟨m₁, m₂, h₁, h₂, hactions, -⟩ :=
    staging_relocated parse_text relative_tasks alikeUnder_tasks Search.Sample.installer
  exact ⟨parse_text, relative_tasks, alikeUnder_tasks, m₁, m₂, h₁, h₂, hactions⟩

end StagedInstall
