import StagedInstall.Proofs.FileSystem.Persistence
import StagedInstall.Proofs.FileSystem.Respelling
import StagedInstall.Proofs.Install.Failure
import StagedInstall.Proofs.Staging.Reachable
import StagedInstall.Proofs.Staging.Selection

/-! # Permission changes that were staged

Copies that succeed leave a file or a device where each of their targets leads, which no later copy
takes away (`runCopies_reaches`). Permission changes of such targets succeed
(`runChmods_reaches`). A graph that was staged asks for no others, so its install phase only ever
fails at a copy (`Installer.Reachable.execute_after_copies`).
-/

namespace StagedInstall

variable {fs fs' : FileSystem} {c : Copy} {cs : List Copy} {ds : List Chmod} {o : CopyOutcome}

theorem Copy.perform_reaches (h : c.perform fs = (fs', .ok o)) :
    fs.Persists fs' ∧ fs'.Reaches c.target := by
  rcases perform_cases h with ⟨-, hu, rfl⟩ | ⟨-, -, fs₁, hm, hc⟩
  · exact ⟨.refl fs', FileSystem.reaches_of_isFile (isFile_of_isUpToDate hu)⟩
  · obtain ⟨hp, ht⟩ := FileSystem.copyFile_reaches hc
    exact ⟨(FileSystem.makeParents_preparedFor hm).extend.persists.trans hp, ht⟩

namespace InstallRun

theorem runCopies_reaches (h : (runCopies fs [] cs).failure = none) :
    fs.Persists (runCopies fs [] cs).fs ∧ ∀ c ∈ cs, (runCopies fs [] cs).fs.Reaches c.target := by
  induction cs generalizing fs with
  | nil => exact ⟨.refl fs, fun _ h => absurd h List.not_mem_nil⟩
  | cons c cs ih =>
    obtain ⟨fs₁, o, hc, h⟩ := exists_of_runCopies_cons h
    obtain ⟨hp, ht⟩ := Copy.perform_reaches hc
    obtain ⟨hps, hts⟩ := ih h
    rw [runCopies_cons_ok hc]
    exact ⟨hp.trans hps, List.forall_mem_cons.mpr ⟨ht.persist hps, hts⟩⟩

theorem runChmods_reaches (hr : ∀ l, fs.storage.refusal? l = none)
    (h : ∀ d ∈ ds, fs.Reaches d.target) : (runChmods fs ds).failure = none := by
  induction ds generalizing fs with
  | nil => rfl
  | cons d ds ih =>
    obtain ⟨hd, hds⟩ := List.forall_mem_cons.mp h
    obtain ⟨fs₁, hm, hp⟩ := hd.setMode hr d.mode
    obtain ⟨-, -, -, -, -, -, hsys, -⟩ := FileSystem.setMode_effect hm
    rw [runChmods_cons_ok (perform_eq_ok_iff.mpr hm)]
    exact ih (FileSystem.storage_eq hsys ▸ hr) fun d' hd' => (hds d' hd').persist hp

end InstallRun

namespace ActionGraph

variable {source name : Path}

theorem targetIn_eq (dir : Path) (h : source.fileName? = some name) :
    targetIn dir source = dir / name := by
  rw [targetIn, h]

theorem fileName?_targetIn (dir : Path) (h : source.fileName? = some name) :
    (targetIn dir source).fileName? = some name := by
  obtain ⟨hname, hrel⟩ := Path.fileName?_fileName? h
  rw [targetIn_eq dir h, Path.fileName?_div dir hrel (by simp [hname]), hname]

end ActionGraph

open ActionGraph in
/-- A target that is reached is reached in each spelling that staging can give it. -/
theorem FileSystem.Reaches.of_same {a b p q : Path} (h : fs.Reaches (targetIn a p))
    (hp : p.fileName? ≠ none) (hq : q.fileName? ≠ none) (hs : (targetIn a p).Same (targetIn b q))
    (hlen : (targetIn b q).bytes.length < maxPath) : fs.Reaches (targetIn b q) := by
  obtain ⟨m, hm⟩ := Option.ne_none_iff_exists'.mp hp
  obtain ⟨m', hm'⟩ := Option.ne_none_iff_exists'.mp hq
  obtain rfl : m = m' := by
    have he := Path.fileName?_of_same hs
    rw [fileName?_targetIn a hm, fileName?_targetIn b hm'] at he
    exact Option.some.inj he
  obtain ⟨l, hl, hleaf⟩ := h
  obtain ⟨n, rfl⟩ := (locate_leads hl).1.exists_fileName (fileName?_targetIn a hm)
  rw [targetIn_eq a hm] at hl hs
  rw [targetIn_eq b hm'] at hs hlen ⊢
  exact ⟨l, locate_of_same hl hs hlen, hleaf⟩

namespace Installer.Reachable

open InstallRun

variable {i : Installer}

/-- When the copies of a staged graph have been made, the permission changes find their targets. -/
theorem chmods_reach (h : Reachable i) (hn : ∀ c ∈ i.graph.copies, c.source.fileName? ≠ none)
    (hlen : ∀ d ∈ i.graph.chmods, d.target.bytes.length < FileSystem.maxPath)
    (hc : (runCopies fs [] i.graph.distinctCopies).failure = none) :
    ∀ d ∈ i.graph.distinctChmods, (runCopies fs [] i.graph.distinctCopies).fs.Reaches d.target := by
  intro d hd
  have hd : d ∈ i.graph.chmods := mem_of_mem_uniqueBy hd
  obtain ⟨c, hmem, hct⟩ := h.exists_copy hd
  -- the copy that stays may be of another source, and spell the target in another way
  obtain ⟨c', hc', hs⟩ := ActionGraph.exists_distinctCopy_same hmem
  have hreach := (runCopies_reaches hc).2 c' hc'
  have hmem' : c' ∈ i.graph.copies := mem_of_mem_uniqueBy hc'
  obtain ⟨category, basedir, ht⟩ := h.exists_targetIn hmem
  obtain ⟨category', basedir', ht'⟩ := h.exists_targetIn hmem'
  have hl := hlen d hd
  rw [← hct, ht] at hl ⊢
  rw [ht'] at hreach hs
  rw [ht] at hs
  exact hreach.of_same (hn c' hmem') (hn c hmem) hs hl

/-- The install phase of a staged graph does not fail at a permission change: when its copies
succeed, each different permission change is made once. It takes a user to whom no permission change
is refused. -/
theorem execute_after_copies (h : Reachable i)
    (hn : ∀ c ∈ i.graph.copies, c.source.fileName? ≠ none)
    (hlen : ∀ d ∈ i.graph.chmods, d.target.bytes.length < FileSystem.maxPath)
    (fs : FileSystem) (hr : ∀ l, fs.storage.refusal? l = none) :
    ((runCopies fs [] i.graph.distinctCopies).failure = none →
      (i.graph.run fs).chmods = i.graph.distinctChmods ∧
      ∃ report, (i.graph.execute fs false).result = .ok report ∧
        report.chmodded =
          (i.graph.chmods.map fun d => (d.target.components, d.mode)).toFinset.card) ∧
      ∀ p cause, (i.graph.execute fs false).result ≠ .error (.file .chmod p cause) := by
  have made (hc : (runCopies fs [] i.graph.distinctCopies).failure = none) :=
    runChmods_reaches (FileSystem.storage_eq (runCopies_system fs _) ▸ hr)
      (h.chmods_reach hn hlen hc)
  constructor
  · intro hc
    refine ⟨?_, _, ActionGraph.execute_eq_ok_iff.mpr ⟨hc, made hc, rfl⟩, length_uniqueBy⟩
    rw [ActionGraph.run_of_copies hc]
    exact (runChmods_chmodded (made hc)).2
  · intro p cause he
    rcases ActionGraph.run_stops (result_eq_error_iff.mp he) with ⟨pre, c, post, hstop⟩ | ⟨pre, d, post, hstop⟩
    · cases hstop.error
    · have hok := ActionGraph.execute_eq_ok_iff.mpr ⟨hstop.copies, made hstop.copies, rfl⟩
      cases hok.symm.trans he

end Installer.Reachable

namespace Installer.Reachable.Sample

open ActionGraph.Sample (file fileName deviceName)
open Search.Sample (dirName)

/-- A file and a directory at the root, with a link to the directory. -/
def tree : FileSystem :=
  ((FileSystem.empty.put [fileName] (.file .newFile [1])).put [dirName]
    (.directory .newDirectory)).put [deviceName] (.link dirName.toPath)

def linkPath : Path := .root / deviceName.toPath

def fresh : Installer :=
  ⟨⟨linkPath, linkPath, linkPath, linkPath, linkPath, linkPath⟩, ⟨[], [(installAlias, [linkPath])]⟩⟩

theorem new_fresh : Installer.new ⟨"/n", none, "/n", "/n", "/n", "/n"⟩ .root .empty = .ok fresh := by
  decide

def staged : Installer :=
  (fresh.record ((Task.program file).staging tree fresh.dirs)).record
    ((Task.file .program file ⟨[dot]⟩ (some 0o640)).staging tree fresh.dirs)

theorem reachable_staged : Reachable staged := .task tree _ (.task tree _ (.new new_fresh))

end Installer.Reachable.Sample

open Installer.Reachable.Sample in
theorem Installer.Reachable.execute_after_copies_sample :
    Installer.Reachable staged ∧ (∀ c ∈ staged.graph.copies, c.source.fileName? ≠ none) ∧
      (∀ d ∈ staged.graph.chmods, d.target.bytes.length < FileSystem.maxPath) ∧
      (InstallRun.runCopies tree [] staged.graph.distinctCopies).failure = none ∧
      ∃ report, (staged.graph.execute tree false).result = .ok report ∧ report.chmodded = 2 := by
  have hn : ∀ c ∈ staged.graph.copies, c.source.fileName? ≠ none := by decide
  have hlen : ∀ d ∈ staged.graph.chmods, d.target.bytes.length < FileSystem.maxPath := by decide
  have hc : (InstallRun.runCopies tree [] staged.graph.distinctCopies).failure = none := rfl
  obtain ⟨-, report, hr, hcount⟩ := (execute_after_copies reachable_staged hn hlen tree fun _ => rfl).1 hc
  exact ⟨reachable_staged, hn, hlen, hc, report, hr, hcount.trans (by decide)⟩

end StagedInstall
