import StagedInstall.Proofs.Install.Order
import StagedInstall.Proofs.Install.Removal
import StagedInstall.Proofs.Install.Schedules

/-! # Uninstalling

Installing and uninstalling keep the same registration of each target (`targets_eq`), so what is
removed is what was installed. An installation is undone where the user may remove the targets as
it leaves them (`uninstall_execute`): nothing remains of it but the directories that were missing
above the targets, and permission changes elsewhere.
-/

namespace StagedInstall

variable {g : ActionGraph} {fs fs' F G : FileSystem} {report : Report} {x l : Location} {c : Copy}

namespace ActionGraph

open InstallRun

def PermitsRemoval (g : ActionGraph) (fs : FileSystem) : Prop :=
  ∀ c ∈ g.copies, ∀ l, c.target.location? fs.cwd = some l → fs.PermitsRemoval l

/-- What copies leave at a location that is no target: the entry that stood there, or a new
directory where one was missing above a target. -/
inductive Remains (g : ActionGraph) (fs : FileSystem) (x : Location) : Option Entry → Prop
  | kept : (fs.get? x = none → ¬ g.Above fs x) → Remains g fs x (fs.get? x)
  | made : fs.get? x = none → g.Above fs x → Remains g fs x (some (.directory .newDirectory))

structure Uninstalled (g : ActionGraph) (fs fs' : FileSystem) : Prop where
  cwd : fs'.cwd = fs.cwd
  user : fs'.user = fs.user
  gone : ∀ c ∈ g.copies, fs'.exists? c.target = false ∧
    ∀ l, c.target.location? fs.cwd = some l → fs'.get? l = none
  others : ∀ x, ¬ TargetOf g.copies fs.cwd x →
    (∀ d ∈ g.chmods, d.target.location? fs.cwd ≠ some x) → g.Remains fs x (fs'.get? x)
  chmods : ∀ x, ¬ TargetOf g.copies fs.cwd x →
    ∀ d, IsLast (fun d => d.target.location? fs.cwd = some x) g.distinctChmods d →
      ∃ e, g.Remains fs x (some e) ∧ fs'.get? x = some (e.withPermissions d.mode.permissions)
  again : (g.uninstall fs' false).result = .ok 0 ∧ (g.uninstall fs' false).fs = fs'

theorem targets_eq (g : ActionGraph) : g.targets = g.distinctCopies.map Copy.target :=
  uniqueBy_map Copy.target g.copies

theorem exists_mem_targets (hc : c ∈ g.copies) : ∃ t ∈ g.targets, t.Same c.target :=
  exists_mem_uniqueBy (List.mem_map_of_mem hc)

theorem exists_copy_of_mem_targets {t : Path} (ht : t ∈ g.targets) :
    ∃ c ∈ g.copies, c.target = t :=
  List.mem_map.mp (mem_of_mem_uniqueBy ht)

theorem forall_targets_iff {cwd : Location} {p : Location → Prop} :
    (∀ t ∈ g.targets, ∀ l, t.location? cwd = some l → p l) ↔
      ∀ c ∈ g.copies, ∀ l, c.target.location? cwd = some l → p l := by
  constructor
  · intro h c hc l hl
    obtain ⟨t, ht, hs⟩ := exists_mem_targets hc
    exact h t ht l ((Path.location?_of_same hs cwd).trans hl)
  · intro h t ht l hl
    obtain ⟨c, hc, rfl⟩ := exists_copy_of_mem_targets ht
    exact h c hc l hl

theorem targetOf_distinctCopies {cwd : Location} :
    TargetOf g.distinctCopies cwd x ↔ TargetOf g.copies cwd x := by
  constructor
  · rintro ⟨c, hc, hx⟩
    exact ⟨c, mem_of_mem_uniqueBy hc, hx⟩
  · rintro ⟨c, hc, hx⟩
    obtain ⟨d, hd, hs⟩ := exists_distinctCopy_same hc
    exact ⟨d, hd, (Path.location?_of_same hs cwd).trans hx⟩

/-- Copies leave at each location what remains there, unless it is a target. -/
theorem remains_of_installs (h : Installs g.distinctCopies fs F)
    (hx : ¬ TargetOf g.copies fs.cwd x) : g.Remains fs x (F.get? x) := by
  rw [← targetOf_distinctCopies] at hx
  by_cases hn : fs.get? x = none
  · by_cases ho : OnWay g.distinctCopies fs.cwd x
    · rw [h.get?_of_onWay hx hn ho]
      obtain ⟨c, hc, l, hl, hxl⟩ := ho
      exact .made hn ⟨c, mem_of_mem_uniqueBy hc, l, hl, hxl, fun he => hx ⟨c, hc, he ▸ hl⟩⟩
    · rw [h.get?_of_not_onWay ho]
      refine .kept fun _ => ?_
      rintro ⟨c, hc, l, hl, hxl, -⟩
      obtain ⟨d, hd, hs⟩ := exists_distinctCopy_same hc
      exact ho ⟨d, hd, l, (Path.location?_of_same hs fs.cwd).trans hl, hxl⟩
  · rw [h.get?_of_ne_none hx hn]
    exact .kept fun hn' => absurd hn' hn

theorem removable_of_execute (h : g.Upright fs) (hr : (g.execute fs false).result = .ok report) :
    Removable g.targets (g.execute fs false).fs := by
  obtain ⟨hf, hch, -⟩ := execute_eq_ok hr
  have hi := (runCopies_installs hf h.linkFree h.apart).1
  have hcwd := hch.sameShape.cwd.trans hi.cwd
  obtain ⟨hs, -⟩ := (runCopies_succeeds_iff h.linkFree (fun c => h.copy_upright) h.apart).mp hf
  refine ⟨hch.sameShape.linkFree (hi.linkFree h.linkFree), ?_, ?_⟩
  · rw [targets_eq]
    intro t ht
    obtain ⟨c, hc, rfl⟩ := List.mem_map.mp ht
    obtain ⟨l, hsp, hn, -, -⟩ := (hs c hc).ready.target h.linkFree (h.copy_upright hc)
    obtain ⟨hne, hd⟩ := hi.not_isDirectory ⟨c, hc, hsp.location? fs.cwd⟩
    exact ⟨l, hsp, hn, fun he => hne (hch.sameShape.symm.get?_eq_none he),
      fun he => hd (hch.sameShape.symm.isDirectory he)⟩
  · rw [targets_eq, hcwd]
    exact List.pairwise_map.mpr h.apart.targets

theorem length_targets (h : g.Upright fs) (hr : (g.execute fs false).result = .ok report) :
    g.targets.length = report.copied + report.upToDate := by
  have he := executes_execute g fs
  rw [hr] at he
  rw [h.toPlain.total he, targets_eq, List.length_map]

theorem uninstall_of_missing (hl : G.LinkFree)
    (h : ∀ c ∈ g.copies, ∀ l, c.target.location? G.cwd = some l → G.get? l = none) :
    (∀ c ∈ g.copies, G.exists? c.target = false) ∧
      (g.uninstall G false).result = .ok 0 ∧ (g.uninstall G false).fs = G := by
  have hmissing : ∀ c ∈ g.copies, G.exists? c.target = false := fun c hc =>
    FileSystem.exists?_eq_false_of_missing hl (h c hc)
  have htargets : ∀ t ∈ g.targets, G.exists? t = false := by
    intro t ht
    obtain ⟨c, hc, rfl⟩ := exists_copy_of_mem_targets ht
    exact hmissing c hc
  have hrun : RemovalRun.ofTargets false G g.targets =
      ⟨g.targets.map fun t => (t, .missing), G, none⟩ := RemovalRun.ofTargets_of_missing htargets
  refine ⟨hmissing, ?_, ?_⟩
  · change (RemovalRun.ofTargets false G g.targets).result = .ok 0
    rw [hrun, RemovalRun.result_eq_ok_iff]
    simp [RemovalRun.count]
  · change (RemovalRun.ofTargets false G g.targets).fs = G
    rw [hrun]

theorem uninstalled_of_cleared (h : g.Upright fs)
    (hr : (g.execute fs false).result = .ok report)
    (hc : Cleared g.targets (g.execute fs false).fs G) : g.Uninstalled fs G := by
  obtain ⟨hf, hch, -⟩ := execute_eq_ok hr
  have hi := (runCopies_installs hf h.linkFree h.apart).1
  have hl := hi.linkFree h.linkFree
  have hcwd := hch.sameShape.cwd.trans hi.cwd
  have hgone := forall_targets_iff.mp hc.gone
  have hget : ∀ x, ¬ TargetOf g.copies fs.cwd x →
      G.get? x = (g.execute fs false).fs.get? x := by
    intro x hx
    apply hc.others
    intro t ht htx
    obtain ⟨c, hc, rfl⟩ := exists_copy_of_mem_targets ht
    exact hx ⟨c, hc, hcwd ▸ htx⟩
  have hlG : G.LinkFree := by
    intro x target hx
    by_cases ht : TargetOf g.copies fs.cwd x
    · obtain ⟨c, hc, hcx⟩ := ht
      cases (hgone c hc x (hcwd ▸ hcx)).symm.trans hx
    · exact hch.sameShape.linkFree hl x target ((hget x ht).symm.trans hx)
  obtain ⟨hmissing, hagain⟩ := uninstall_of_missing hlG (hc.cwd ▸ hgone)
  constructor
  case cwd => exact hc.cwd.trans hcwd
  case user => exact hc.user.trans (hch.user.trans hi.user)
  case gone => exact fun c hcc => ⟨hmissing c hcc, hcwd ▸ hgone c hcc⟩
  case others =>
    intro x hx hno
    rw [hget x hx, get?_of_no_chmod hch hl (hi.cwd ▸ hno)]
    exact remains_of_installs hi hx
  case chmods =>
    intro x hx d hd
    have hlast : FileSystem.LastChmod _ x g.distinctChmods d :=
      hd.congr fun b hb => hi.cwd ▸ (hch.leadsTo_iff hl hb).symm
    obtain ⟨k, e, hk, he, -⟩ := hch.reached d hd.mem
    obtain rfl := hk.unique hlast.holds
    refine ⟨e, he ▸ remains_of_installs hi hx, ?_⟩
    rw [hget k hx, hch.last k d hlast, he]
    rfl
  case again => exact hagain

/-- An installation is undone where the user may remove the targets as it leaves them, which the
superuser always may. The number of its targets is not reported in any other case. -/
theorem uninstall_execute (h : g.Upright fs) (hr : (g.execute fs false).result = .ok report) :
    ((g.uninstall (g.execute fs false).fs false).result = .ok (report.copied + report.upToDate) ↔
      g.PermitsRemoval (g.execute fs false).fs) ∧
    (fs.user = .superuser → g.PermitsRemoval (g.execute fs false).fs) ∧
    (g.PermitsRemoval (g.execute fs false).fs →
      g.Uninstalled fs (g.uninstall (g.execute fs false).fs false).fs) := by
  have hrem := removable_of_execute h hr
  refine ⟨?_, ?_, ?_⟩
  · rw [← length_targets h hr]
    exact (RemovalRun.ofTargets_result_iff hrem).trans forall_targets_iff
  · intro hu c _ l _
    obtain ⟨hf, hch, -⟩ := execute_eq_ok hr
    have hi := (runCopies_installs hf h.linkFree h.apart).1
    exact FileSystem.permitsRemoval_of_superuser (hch.user.trans (hi.user.trans hu)) l
  · intro hp
    exact uninstalled_of_cleared h hr (RemovalRun.ofTargets_cleared hrem (forall_targets_iff.mpr hp))

namespace Sample

def closing : ActionGraph := ⟨[.copy ⟨file, target⟩, .chmod ⟨⟨[slash, 0x64]⟩, 0o500⟩], []⟩

theorem upright_closing : closing.Upright tree :=
  .of_forall linkFree_tree (by decide) (by decide) (by decide)

end Sample

theorem uninstall_execute_sample :
    Sample.closing.Upright (Sample.tree.withUser .superuser) ∧
      (Sample.closing.execute (Sample.tree.withUser .superuser) false).result = .ok ⟨1, 0, 1⟩ ∧
      (Sample.closing.uninstall
        (Sample.closing.execute (Sample.tree.withUser .superuser) false).fs false).result = .ok 1 ∧
      Sample.closing.Uninstalled (Sample.tree.withUser .superuser)
        (Sample.closing.uninstall
          (Sample.closing.execute (Sample.tree.withUser .superuser) false).fs false).fs := by
  have hu : Sample.closing.Upright (Sample.tree.withUser .superuser) :=
    .of_forall Sample.linkFree_tree (by decide) (by decide) (by decide)
  have h : (Sample.closing.execute (Sample.tree.withUser .superuser) false).result =
    .ok ⟨1, 0, 1⟩ := rfl
  obtain ⟨hiff, hp, hun⟩ := uninstall_execute hu h
  exact ⟨hu, h, hiff.mpr (hp rfl), hun (hp rfl)⟩

/-- An ordinary user may not remove a file from a directory that the installation closed. -/
theorem uninstall_refused :
    ¬ ∀ (g : ActionGraph) (fs : FileSystem) (report : Report), g.Upright fs →
      (g.execute fs false).result = .ok report →
        (g.uninstall (g.execute fs false).fs false).result =
          .ok (report.copied + report.upToDate) := by
  intro h
  have hr := h Sample.closing Sample.tree ⟨1, 0, 1⟩ Sample.upright_closing rfl
  cases hr

end ActionGraph

end StagedInstall
