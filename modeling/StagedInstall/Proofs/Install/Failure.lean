import StagedInstall.Proofs.Install.Phase
import StagedInstall.Proofs.Install.Runs

/-! # Phases that fail

A copy that fails has made directories for its target at most, unless it fails when its files are
open; then its target holds the beginning of the source (`Copy.perform_error`). So a phase that
fails has carried out all that stands before the copy or the permission change at which it stopped,
and nothing that stands behind it (`execute_stops`). Whatever stood at the target of a copy that was
not cut short still does; where nothing stood, the directories can show through a `..` in its path.
-/

namespace StagedInstall

section Error

variable {ε ε' α β : Type} {x : Except ε α}

theorem bind_eq_error_iff {f : α → Except ε β} {e : ε} :
    (x >>= f) = .error e ↔ x = .error e ∨ ∃ a, x = .ok a ∧ f a = .error e := by
  cases x <;> simp [bind, Except.bind]

theorem mapError_eq_error_iff {f : ε → ε'} {e : ε'} :
    x.mapError f = .error e ↔ ∃ e', x = .error e' ∧ f e' = e := by
  cases x with
  | error e' =>
    have hf : (Except.error e' : Except ε α).mapError f = .error (f e') := rfl
    simp [hf]
  | ok a =>
    have hf : (Except.ok a : Except ε α).mapError f = .ok a := rfl
    simp [hf]

end Error

variable {fs fs' : FileSystem} {p q : Path} {c : Copy} {e : InstallError} {g : ActionGraph}

namespace FileSystem

theorem hashFile_error (h : fs.hashFile p = .error e) : ∃ cause, e = .file .hash p cause := by
  rcases bind_eq_error_iff.mp h with h | ⟨s, -, h⟩
  · obtain ⟨cause, -, rfl⟩ := mapError_eq_error_iff.mp h
    exact ⟨cause, rfl⟩
  · cases h

theorem sameContent_error (h : fs.sameContent p q = .error e) :
    ∃ r cause, (r = p ∨ r = q) ∧ e = .file .hash r cause := by
  rcases bind_eq_error_iff.mp h with h | ⟨s, -, h⟩
  · obtain ⟨cause, -, rfl⟩ := mapError_eq_error_iff.mp h
    exact ⟨p, cause, .inl rfl, rfl⟩
  rcases bind_eq_error_iff.mp h with h | ⟨t, -, h⟩
  · obtain ⟨cause, -, rfl⟩ := mapError_eq_error_iff.mp h
    exact ⟨q, cause, .inr rfl, rfl⟩
  split at h
  · cases h
  rcases bind_eq_error_iff.mp h with h | ⟨ds, -, h⟩
  · obtain ⟨cause, rfl⟩ := hashFile_error h
    exact ⟨p, cause, .inl rfl, rfl⟩
  rcases bind_eq_error_iff.mp h with h | ⟨dt, -, h⟩
  · obtain ⟨cause, rfl⟩ := hashFile_error h
    exact ⟨q, cause, .inr rfl, rfl⟩
  · cases h

theorem makeParents_error (h : fs.makeParents p = (fs', some e)) :
    ∃ dir cause, p.parent? = some dir ∧ e = .file .create dir cause := by
  unfold makeParents at h
  split at h
  · cases h
  next dir hdir =>
  split at h
  · cases h
  · next cause _ =>
    cases h
    exact ⟨dir, cause, hdir, rfl⟩

end FileSystem

namespace Copy

/-- The errors of a copy: its files could not be compared, the directory of its target could not
be made, or its source could not be copied. -/
inductive FailsWith (c : Copy) : InstallError → Prop
  | hash {p cause} : p = c.source ∨ p = c.target → FailsWith c (.file .hash p cause)
  | create {dir cause} : c.target.parent? = some dir → FailsWith c (.file .create dir cause)
  | copy {cause} : FailsWith c (.file .copy c.source cause)

/-- Nothing was written. Where nothing stood at the target, the directories that were made can show
through a `..` in its path. -/
structure Spared (c : Copy) (fs fs' : FileSystem) : Prop where
  prepared : fs.PreparedFor c.target fs'
  kept : ∀ l, fs.LeadsTo c.target l → fs'.LeadsTo c.target l ∧ fs'.get? l = fs.get? l
  absent : .parent ∉ c.target.components → ∀ l, fs'.LeadsTo c.target l → fs.LeadsTo c.target l

/-- The files were open when the copy failed, after the directories had been made. -/
structure Cut (c : Copy) (fs : FileSystem) (e : InstallError) (fs₁ fs' : FileSystem) : Prop where
  upToDate : c.isUpToDate fs = .ok false
  parents : fs.makeParents c.target = (fs₁, none)
  prepared : fs.PreparedFor c.target fs₁
  cutShort : ∃ l m s cause, fs₁.OpensBoth c.source c.target l m s ∧ fs₁.CutShort l m s fs' cause ∧
    e = .file .copy c.source cause

theorem Spared.of_preparedFor (h : fs.PreparedFor c.target fs') : c.Spared fs fs' :=
  ⟨h, fun _ hl => ⟨hl.extend h.extend, h.get?_of_leadsTo hl⟩, fun hn _ => h.leadsTo hn⟩

theorem perform_error (h : c.perform fs = (fs', .error e)) :
    c.FailsWith e ∧ (c.Spared fs fs' ∨ ∃ fs₁, c.Cut fs e fs₁ fs') := by
  unfold perform at h
  split at h
  · next hu =>
    cases h
    unfold isUpToDate at hu
    split at hu
    · obtain ⟨r, cause, hr, rfl⟩ := FileSystem.sameContent_error hu
      exact ⟨.hash hr, .inl (.of_preparedFor (.refl fs c.target))⟩
    · cases hu
  · cases h
  next hu =>
  split at h
  · next hm =>
    cases h
    obtain ⟨dir, cause, hdir, rfl⟩ := FileSystem.makeParents_error hm
    exact ⟨.create hdir, .inl (.of_preparedFor (FileSystem.makeParents_preparedFor hm))⟩
  next fs₁ hm =>
  have hp := FileSystem.makeParents_preparedFor hm
  split at h
  · next cause hc =>
    cases h
    rcases FileSystem.copyFile_failed hc with rfl | ⟨l, m, s, ho, hcut⟩
    · exact ⟨.copy, .inl (.of_preparedFor hp)⟩
    · exact ⟨.copy, .inr ⟨fs₁, hu, hm, hp, l, m, s, cause, ho, hcut, rfl⟩⟩
  · cases h

end Copy

namespace ActionGraph

open InstallRun

/-- The phase stopped at the copy `c`: those before it are made, of `c` itself there may be
directories for its target and the beginning of a file, and nothing else was attempted. -/
structure StoppedAtCopy (g : ActionGraph) (fs : FileSystem) (e : InstallError) (pre : List Copy)
    (c : Copy) (post : List Copy) : Prop where
  copies : g.distinctCopies = pre ++ c :: post
  before : (runCopies fs [] pre).failure = none
  failed : c.perform (runCopies fs [] pre).fs = ((g.execute fs false).fs, .error e)
  error : c.FailsWith e
  made : (g.run fs).copies = (runCopies fs [] pre).copies ∧ (g.run fs).copies.map Prod.fst = pre
  chmods : (g.run fs).chmods = []
  left : c.Spared (runCopies fs [] pre).fs (g.execute fs false).fs ∨
    ∃ F, c.Cut (runCopies fs [] pre).fs e F (g.execute fs false).fs

/-- The phase stopped at the permission change `d`: all copies are made, and of the permission
changes those before it. -/
structure StoppedAtChmod (g : ActionGraph) (fs : FileSystem) (e : InstallError)
    (pre : List Chmod) (d : Chmod) (post : List Chmod) : Prop where
  chmods : g.distinctChmods = pre ++ d :: post
  copies : (runCopies fs [] g.distinctCopies).failure = none
  failed : d.perform (g.execute fs false).fs = .error e
  error : ∃ cause, e = .file .chmod d.target cause
  made : (g.run fs).copies = (runCopies fs [] g.distinctCopies).copies ∧
    (g.run fs).copies.map Prod.fst = g.distinctCopies ∧ (g.run fs).chmods = pre
  inOrder : runChmods (runCopies fs [] g.distinctCopies).fs pre =
    ⟨[], pre, (g.execute fs false).fs, none⟩
  applied : Chmodded pre (runCopies fs [] g.distinctCopies).fs (g.execute fs false).fs

theorem stoppedAtCopy {pre post : List Copy} (hcs : g.distinctCopies = pre ++ c :: post)
    (hpre : (runCopies fs [] pre).failure = none)
    (hc : c.perform (runCopies fs [] pre).fs = ((g.run fs).fs, .error e))
    (hcopies : (g.run fs).copies = (runCopies fs [] pre).copies)
    (hchmods : (g.run fs).chmods = []) : g.StoppedAtCopy fs e pre c post := by
  obtain ⟨he, hleft⟩ := Copy.perform_error hc
  refine ⟨hcs, hpre, hc, he, ⟨hcopies, ?_⟩, hchmods, hleft⟩
  rw [hcopies, runCopies_map_fst hpre]

theorem stoppedAtChmod (hf : (runCopies fs [] g.distinctCopies).failure = none)
    (h : (g.run fs).failure = some e) :
    ∃ pre d post, g.StoppedAtChmod fs e pre d post := by
  have hrun := run_of_copies hf
  rw [hrun] at h
  obtain ⟨pre, d, post, hds, hpre, hd, hchmods⟩ := runChmods_stops h
  have hfs := execute_fs hf
  refine ⟨pre, d, post, hds, hf, hfs ▸ hd, ?_, ⟨?_, ?_, ?_⟩, hfs ▸ hpre, ?_⟩
  · obtain ⟨cause, -, he⟩ := mapError_eq_error_iff.mp hd
    exact ⟨cause, he.symm⟩
  · rw [hrun]
  · rw [hrun]
    exact runCopies_map_fst hf
  · rw [hrun]
    exact hchmods
  · have hnone : (runChmods (runCopies fs [] g.distinctCopies).fs pre).failure = none := by
      rw [hpre]
    have := (runChmods_chmodded hnone).1
    rwa [hpre, ← hfs] at this

theorem run_stops (h : (g.run fs).failure = some e) :
    (∃ pre c post, g.StoppedAtCopy fs e pre c post) ∨
      ∃ pre d post, g.StoppedAtChmod fs e pre d post := by
  by_cases hcopies : (runCopies fs [] g.distinctCopies).failure = none
  · exact .inr (stoppedAtChmod hcopies h)
  · obtain ⟨pre, c, post, hcs, hpre, hc, hmade, hchmods⟩ := runCopies_stops h hcopies
    exact .inl ⟨pre, c, post, stoppedAtCopy hcs hpre hc hmade hchmods⟩

/-- A phase that fails has stopped at a copy or at a permission change. -/
theorem execute_stops (h : (g.execute fs false).result = .error e) :
    (∃ pre c post, g.StoppedAtCopy fs e pre c post) ∨
      ∃ pre d post, g.StoppedAtChmod fs e pre d post :=
  run_stops (result_eq_error_iff.mp h)

namespace Sample

/-- The path `/u`, where nothing stands. -/
def missing : Path := ⟨[slash, 0x75]⟩

/-- A copy, one whose source is missing, and a permission change that is not reached. -/
def stopping : ActionGraph :=
  ⟨[.copy ⟨file, target⟩, .copy ⟨missing, ⟨[slash, 0x65, slash, 0x75]⟩⟩, .chmod ⟨target, 0o640⟩], []⟩

def directoryName : Name := (Name.ofBytes? [0x65]).get rfl

/-- The path `/e/../e`. -/
def returning : Path := ⟨[slash, 0x65, slash, dot, dot, slash, 0x65]⟩

def crowded : FileSystem :=
  (tree.put [directoryName] (.file .newFile [2, 3])).withStorage
    ⟨fun _ => none, fun _ => some (0, .storageFull)⟩

def replacing : Copy := ⟨file, ⟨[slash, 0x65]⟩⟩

theorem execute_replacing :
    (ActionGraph.execute ⟨[.copy replacing], []⟩ crowded false).result =
      .error (.file .copy file .storageFull) ∧
    replacing.perform crowded = ((ActionGraph.execute ⟨[.copy replacing], []⟩ crowded false).fs,
      .error (.file .copy file .storageFull)) := by
  have hr : (replacing.perform crowded).2 = .error (.file .copy file .storageFull) := by
    decide +kernel
  have hc : replacing.perform crowded =
      ((replacing.perform crowded).1, .error (.file .copy file .storageFull)) := by rw [← hr]
  have hrun : runCopies crowded [] [replacing] =
      ⟨[], [], (replacing.perform crowded).1, some (.file .copy file .storageFull)⟩ :=
    runCopies_cons_error hc
  refine ⟨by decide +kernel, hc.trans (Prod.ext ?_ rfl)⟩
  exact (congrArg InstallRun.fs hrun).symm

end Sample

theorem execute_stops_sample :
    (Sample.stopping.execute Sample.tree false).result =
        .error (.file .copy Sample.missing .notFound) ∧
      ((∃ pre c post, Sample.stopping.StoppedAtCopy Sample.tree
          (.file .copy Sample.missing .notFound) pre c post) ∨
        ∃ pre d post, Sample.stopping.StoppedAtChmod Sample.tree
          (.file .copy Sample.missing .notFound) pre d post) :=
  ⟨rfl, execute_stops rfl⟩

/-- The target of the copy that failed need not be as it was just before: where nothing stood, a
directory may stand, and a file may have been emptied. -/
theorem target_not_kept :
    (¬ ∀ (g : ActionGraph) (fs : FileSystem) (e : InstallError) (pre : List Copy) (c : Copy)
      (post : List Copy), (g.execute fs false).result = .error e →
      g.distinctCopies = pre ++ c :: post → (runCopies fs [] pre).failure = none →
      c.perform (runCopies fs [] pre).fs = ((g.execute fs false).fs, .error e) →
      ∀ l, (g.execute fs false).fs.LeadsTo c.target l →
        (runCopies fs [] pre).fs.LeadsTo c.target l) ∧
    ¬ ∀ (g : ActionGraph) (fs : FileSystem) (e : InstallError) (pre : List Copy) (c : Copy)
      (post : List Copy), (g.execute fs false).result = .error e →
      g.distinctCopies = pre ++ c :: post → (runCopies fs [] pre).failure = none →
      c.perform (runCopies fs [] pre).fs = ((g.execute fs false).fs, .error e) →
      ∀ l, (runCopies fs [] pre).fs.LeadsTo c.target l →
        (g.execute fs false).fs.get? l = (runCopies fs [] pre).fs.get? l := by
  constructor
  · intro h
    let g : ActionGraph := ⟨[.copy ⟨Sample.file, Sample.returning⟩], []⟩
    have hl : (g.execute Sample.tree false).fs.LeadsTo Sample.returning
        [Sample.directoryName] := (FileSystem.locate_leads rfl).1
    have hbefore := h g Sample.tree (.file .copy Sample.file .isDirectory) []
      ⟨Sample.file, Sample.returning⟩ [] rfl rfl rfl rfl _ hl
    rcases hbefore.name_cases with ⟨-, hs, -⟩ | ⟨target, ht, -⟩ | ⟨e, he, -⟩
    · cases hs
    · cases ht
    · cases he
  · intro h
    have hl : Sample.crowded.locate Sample.replacing.target = .ok [Sample.directoryName] := by
      decide +kernel
    have hkept := h ⟨[.copy Sample.replacing], []⟩ Sample.crowded _ [] Sample.replacing []
      Sample.execute_replacing.1 rfl rfl Sample.execute_replacing.2 _ (FileSystem.locate_leads hl).1
    exact absurd hkept (by decide +kernel)

end ActionGraph

end StagedInstall
