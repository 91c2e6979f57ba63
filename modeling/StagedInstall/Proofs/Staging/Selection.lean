import StagedInstall.Proofs.Pattern.Language
import StagedInstall.Proofs.Staging.Walk

/-! # Which files are selected

A file of the staged directory is selected exactly when its name is in the language of the
pattern, whatever stands beside it and below it.
-/

namespace StagedInstall

variable {fs : FileSystem} {s : Search} {dirs : InstallDirectories} {category : Category}
  {parent basedir : Path} {n : Name}

theorem Staging.exists_event {st : Staging} {a : Action} (h : a ∈ st.actions) :
    ∃ e ∈ st.events, a ∈ e.actions :=
  List.mem_flatMap.mp h

namespace Task

theorem isMatch_of_mem {c : Copy}
    (h : .copy c ∈ ((directory category s parent basedir).staging fs dirs).actions)
    (hc : c.source = s.root / parent / n.toPath) :
    Fnmatch.isMatch s.pattern n.display = true := by
  obtain ⟨e, he, hce⟩ := Staging.exists_event h
  rcases Search.walk_staged he with ⟨p, rfl⟩ | ⟨q, b, m, hq, hm, rfl⟩
  · cases hce
  have hsource : c.source = s.root / q / m.toPath := by
    rw [InstallDirectories.stageFile, StagingEvent.actions, Option.map_none, Option.toList_none,
      List.mem_singleton, Action.copy.injEq] at hce
    rw [hce]
  rw [hc] at hsource
  rcases hq.eq_or_exists_div with rfl | ⟨r, hr, hrn, rfl⟩
  · rwa [Path.div_name_inj hsource]
  · -- from a directory below, the path would be longer
    rw [← Path.div_assoc] at hsource
    exact absurd hsource.symm (Path.div_div_name_ne hr hrn)

theorem exists_mem_of_isMatch
    (h : ((directory category s parent basedir).staging fs dirs).failure = none)
    (hp : parent.isTestTree = false) (hf : fs.isFile (s.root / parent / n.toPath) = true)
    (hm : Fnmatch.isMatch s.pattern n.display = true) :
    ∃ c, .copy c ∈ ((directory category s parent basedir).staging fs dirs).actions ∧
      c.source = s.root / parent / n.toPath := by
  rw [staging, Search.run] at h ⊢
  obtain ⟨d, ns, -, hlist, hwalk⟩ := Search.walk_eq_visit h hp
  rw [hwalk] at h ⊢
  obtain ⟨m, t, hs⟩ := FileSystem.isFile_eq_true_iff.mp hf
  rw [Search.actions_visit h]
  refine ⟨⟨s.root / parent / n.toPath,
    ActionGraph.targetIn (dirs.dir category / basedir) (s.root / parent / n.toPath)⟩,
    List.mem_flatMap.mpr ⟨n, FileSystem.mem_of_list hlist hs, ?_⟩, rfl⟩
  rw [Search.visitName_of_isFile hf hm]
  exact List.mem_cons_self

end Task

namespace Search

open Fnmatch

/-- Every pattern has one reading and compiles, and it selects the names that its items split. -/
theorem selects_iff_splits (s : Search) :
    ∃ items, Reading s.pattern.toList items ∧
      (∀ other, Reading s.pattern.toList other → other = items) ∧
      (Glob.compile (toGlob s.pattern.toList)).isSome = true ∧
      (∀ name, isMatch s.pattern name = true ↔ Splits items name.toList) ∧
      ∀ fs dirs category parent basedir, ∀ n : Name,
        fs.isFile (s.root / parent / n.toPath) = true →
        ((∃ c, .copy c ∈ ((Task.directory category s parent basedir).staging fs dirs).actions ∧
            c.source = s.root / parent / n.toPath) → Splits items n.display.toList) ∧
        (((Task.directory category s parent basedir).staging fs dirs).failure = none →
          parent.isTestTree = false → Splits items n.display.toList →
          ∃ c, .copy c ∈ ((Task.directory category s parent basedir).staging fs dirs).actions ∧
            c.source = s.root / parent / n.toPath) := by
  obtain ⟨items, h⟩ := exists_reading s.pattern.toList
  obtain ⟨ts, hts, -⟩ := h.exists_compile
  refine ⟨items, h, ?_, ?_, ?_, ?_⟩
  · intro other ho
    exact ho.unique h
  · rw [hts]
    rfl
  · intro name
    exact h.isMatch_iff
  · intro fs dirs category parent basedir n hf
    constructor
    · rintro ⟨c, hc, hsource⟩
      exact h.isMatch_iff.mp (Task.isMatch_of_mem hc hsource)
    · intro hd hp hs
      exact Task.exists_mem_of_isMatch hd hp hf (h.isMatch_iff.mpr hs)

namespace Sample

def fileName : Name := (Name.ofBytes? [0x66]).get rfl

def dirName : Name := (Name.ofBytes? [0x64]).get rfl

def tree : FileSystem :=
  ((FileSystem.empty.put [fileName] (.file .newFile [1])).put [dirName]
    (.directory .newDirectory)).put [fileName, dirName] (.file .newFile [2])

def search : Search := ⟨.root, "[!b]", true⟩

def installer : Installer := ⟨⟨.root, .root, .root, .root, .root, .root⟩, .empty⟩

def task : Task := .directory .share search ∅ ∅

end Sample

theorem selects_sample :
    ∃ items, Reading Sample.search.pattern.toList items ∧
      ∃ c, .copy c ∈ (Sample.task.staging Sample.tree Sample.installer.dirs).actions ∧
        c.source = Sample.search.root / ∅ / Sample.fileName.toPath := by
  obtain ⟨items, hr, -, -, hm, hs⟩ := selects_iff_splits Sample.search
  have hsplits : Splits items Sample.fileName.display.toList := (hm _).mp (by decide)
  exact ⟨items, hr, (hs Sample.tree Sample.installer.dirs .share ∅ ∅ Sample.fileName
    (by decide)).2 (by decide) (by decide) hsplits⟩

end Search

end StagedInstall
