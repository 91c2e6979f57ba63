import StagedInstall.Defaults
import StagedInstall.Proofs.FileSystem.Frame
import StagedInstall.Proofs.Install.StagedChmods
import StagedInstall.Proofs.Install.Unlink

/-! # What installing and storing may change

A copy changes its target only, and makes the directories above it. So does a run of copies, also
when it fails (`InstallRun.runCopies_changesOnly`). In a graph that was staged the permission
changes are those of targets, so the whole phase changes nothing else
(`Installer.Reachable.execute_changesOnly`), and removing takes away nothing but entries that
targets are names of (`ActionGraph.uninstall_removesOnly`). Storing a default changes the file that
it is stored in (`Defaults.store_changesOnly`).
-/

namespace StagedInstall

open FileSystem

variable {T : Path → Prop} {fs fs' : FileSystem} {c : Copy} {cs : List Copy} {ds : List Chmod}

theorem Copy.perform_changesOnly {r : Except InstallError CopyOutcome}
    (h : c.perform fs = (fs', r)) (hc : T c.target) : ChangesOnly T fs fs' := by
  obtain ⟨fs₁, hp, rfl | ⟨l, m, s, hl, rfl⟩⟩ := perform_fills h
  · exact hp.changesOnly hc
  · exact (hp.changesOnly hc).trans (changesOnly_of_fill hl hc)

namespace InstallRun

theorem runCopies_changesOnly (h : ∀ c ∈ cs, T c.target) :
    ChangesOnly T fs (runCopies fs [] cs).fs := by
  induction cs generalizing fs with
  | nil => exact .refl T fs
  | cons c cs ih =>
    obtain ⟨hc, hcs⟩ := List.forall_mem_cons.mp h
    rcases c.perform_ok_or_error fs with ⟨fs₁, o, hp⟩ | ⟨fs₁, e, hp⟩
    · rw [runCopies_cons_ok hp]
      exact (Copy.perform_changesOnly hp hc).trans (ih hcs)
    · rw [runCopies_cons_error hp]
      exact Copy.perform_changesOnly hp hc

theorem runChmods_changesOnly
    (h : ∀ d ∈ ds, T d.target ∧ ∃ q, q.Same d.target ∧ fs.Reaches q) :
    ChangesOnly T fs (runChmods fs ds).fs := by
  induction ds generalizing fs with
  | nil => exact .refl T fs
  | cons d ds ih =>
    obtain ⟨⟨hT, q, hs, hq⟩, hds⟩ := List.forall_mem_cons.mp h
    cases hd : d.perform fs with
    | error e =>
      rw [runChmods_cons_error hd]
      exact .refl T fs
    | ok fs₁ =>
      rw [runChmods_cons_ok hd]
      have hfirst := changesOnly_of_setMode (perform_eq_ok_iff.mp hd) hq hs hT
      refine hfirst.trans (ih ?_)
      intro d' hd'
      obtain ⟨hT', q', hs', hq'⟩ := hds d' hd'
      exact ⟨hT', q', hs', hq'.persist hfirst.persists⟩

end InstallRun

def ActionGraph.Targets (g : ActionGraph) (p : Path) : Prop := ∃ c ∈ g.copies, c.target = p

open InstallRun in
/-- Installing what was staged changes the targets of the copies only, whether it succeeds or
not. -/
theorem Installer.Reachable.execute_changesOnly {i : Installer} (h : Reachable i)
    (fs : FileSystem) : ChangesOnly i.graph.Targets fs (i.graph.execute fs false).fs := by
  have hcopies : ChangesOnly i.graph.Targets fs (runCopies fs [] i.graph.distinctCopies).fs :=
    runCopies_changesOnly fun c hc => ⟨c, mem_of_mem_uniqueBy hc, rfl⟩
  cases hf : (runCopies fs [] i.graph.distinctCopies).failure with
  | some e =>
    have hrun : i.graph.run fs = runCopies fs [] i.graph.distinctCopies := by
      rw [ActionGraph.run, runCopies_eq, hf]
    change ChangesOnly i.graph.Targets fs (i.graph.run fs).fs
    exact hrun ▸ hcopies
  | none =>
    rw [ActionGraph.execute_fs hf]
    refine hcopies.trans (runChmods_changesOnly ?_)
    intro d hd
    obtain ⟨c, hc, hct⟩ := h.exists_copy (mem_of_mem_uniqueBy hd)
    obtain ⟨c', hc', hs⟩ := ActionGraph.exists_distinctCopy_same hc
    exact ⟨⟨c, hc, hct⟩, c'.target, hct ▸ hs, (runCopies_reaches hf).2 c' hc'⟩

/-- Nothing changes but that some entries are gone, none of them a directory, which were named by
paths of `T`. -/
structure RemovesOnly (T : Path → Prop) (fs fs' : FileSystem) : Prop where
  cwd : fs'.cwd = fs.cwd
  user : fs'.user = fs.user
  get? : ∀ x, fs'.get? x = fs.get? x ∨ fs'.get? x = none ∧ ∃ p, T p ∧ fs.Unlinkable p x

theorem Removes.removesOnly {ts : List Path} {F : FileSystem} {xs : List Location}
    (h : Removes ts fs F xs) (hT : ∀ t ∈ ts, T t) : RemovesOnly T fs F := by
  refine ⟨h.extend.cwd.symm, h.extend.user.symm, ?_⟩
  intro x
  rw [h.get?_eq x]
  split
  · next hx =>
    obtain ⟨t, ht, hu⟩ := h.exists_unlinkable hx
    exact .inr ⟨rfl, t, hT t ht, hu⟩
  · exact .inl rfl

theorem ActionGraph.uninstall_removesOnly (g : ActionGraph) (fs : FileSystem) :
    RemovesOnly g.Targets fs (g.uninstall fs false).fs := by
  have hT : ∀ t ∈ g.targets, g.Targets t := fun t ht =>
    List.mem_map.mp (mem_of_mem_uniqueBy ht)
  cases RemovalRun.ofTargets_ends fs g.targets with
  | done _ h => exact h.removesOnly hT
  | failed _ hts h =>
    exact h.removesOnly fun t ht => hT t (hts ▸ List.mem_append_left _ ht)

namespace Defaults

variable {path : Path} {d : Defaults} {parameter value : String}

theorem save_changesOnly (d : Defaults) (fs : FileSystem) (hp : T path) :
    ChangesOnly T fs (d.save fs path).1 := by
  unfold save
  rcases hm : fs.makeParents path with ⟨fs₁, _ | e⟩
  · have hprep := (makeParents_preparedFor hm).changesOnly hp
    dsimp only
    split <;> next hw =>
      rcases writeFile_fills hw with rfl | ⟨l, m, s, hl, rfl⟩
      · exact hprep
      · exact hprep.trans (changesOnly_of_fill hl hp)
  · exact (makeParents_preparedFor hm).changesOnly hp

theorem store_changesOnly (fs : FileSystem) (parameter value : String) (hp : T path) :
    ChangesOnly T fs (store fs path parameter value).fs := by
  unfold store
  dsimp only
  split
  · exact .refl T fs
  · next d _ =>
    have hsave := save_changesOnly d fs hp
    split <;> next hs => rwa [hs] at hsave

theorem store_of_ofFile_error {e : InstallError} (h : ofFile fs path = .error e) :
    (store fs path parameter value).result = .error e ∧
      (store fs path parameter value).fs = fs := by
  unfold store
  rw [h]
  exact ⟨rfl, rfl⟩

end Defaults

end StagedInstall
