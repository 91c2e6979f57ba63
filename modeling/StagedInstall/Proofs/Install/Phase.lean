import StagedInstall.Install.Schedule
import StagedInstall.Proofs.Graph
import StagedInstall.Proofs.Install.Chmods
import StagedInstall.Proofs.Install.Copies

/-! # The install phase in a tree without links

When an install phase succeeds, each target holds the content of the source that was registered
first for it, the report counts targets and not registrations, and nothing but the targets and the
directories above them is touched (`Installed`). Two things set a target apart from its source
(`target_unlike_source`): what is copied onto a device is gone, and a copy loses the bits that an
ordinary user's write takes from a file.
-/

namespace StagedInstall

variable {g : ActionGraph} {fs fs' : FileSystem} {report : Report} {c : Copy} {x : Location}

namespace Copy

/-- The digest tells the content of the source from that of the target. -/
def Distinguished (c : Copy) (fs : FileSystem) : Prop :=
  ∀ t s, fs.content? c.target = some t → fs.content? c.source = some s →
    t.length = s.length → digest t = digest s → t = s

/-- `m` are the bits that the copy leaves on the content `s`: those that a current target has, and
otherwise those of the source, as far as they stay when an ordinary user writes the content. -/
def Permits (c : Copy) (fs : FileSystem) (s : Bytes) (m : Permissions) : Prop :=
  if c.isCurrent fs then (fs.entryAt? c.target).bind Entry.permissions? = some m
  else ((fs.entryAt? c.source).bind Entry.permissions?).map (fs.written · s) = some m

end Copy

theorem Chmodded.leadsTo_iff {F : FileSystem} {ds : List Chmod} {d : Chmod}
    (h : Chmodded ds F fs') (hl : F.LinkFree) (hd : d ∈ ds) :
    F.LeadsTo d.target x ↔ d.target.location? F.cwd = some x := by
  constructor
  · exact fun hx => hx.location? hl
  · intro hx
    obtain ⟨k, e, hk, -, -⟩ := h.reached d hd
    cases hx.symm.trans (hk.location? hl)
    exact hk

namespace ActionGraph

/-- The tree has no links, the registered targets are absolute and without `..`, and no target of
a copy spells out the location of a source. -/
structure Plain (g : ActionGraph) (fs : FileSystem) : Prop where
  linkFree : fs.LinkFree
  copies : ∀ c ∈ g.copies, c.target.isAbsolute = true ∧ .parent ∉ c.target.components
  chmods : ∀ c ∈ g.chmods, c.target.isAbsolute = true ∧ .parent ∉ c.target.components
  sources : ∀ c ∈ g.copies, ∀ d ∈ g.copies,
    ∀ l, c.target.location? fs.cwd = some l → d.source.location? fs.cwd ≠ some l

def Spares (g : ActionGraph) (fs : FileSystem) (x : Location) : Prop :=
  ∀ c ∈ g.copies, c.target.location? fs.cwd = some x → ∃ m, fs.get? x = some (.device m)

/-- A target stands somewhere below `x`. -/
def Above (g : ActionGraph) (fs : FileSystem) (x : Location) : Prop :=
  ∃ c ∈ g.copies, ∃ l, c.target.location? fs.cwd = some l ∧ x <:+ l ∧ x ≠ l

structure Installed (g : ActionGraph) (fs fs' : FileSystem) (report : Report) : Prop where
  regular : ∀ c, g.first? c.target = some c → ¬ c.ToDevice fs →
    ∃ m s, fs'.entryAt? c.target = some (.file m s) ∧
      (c.Distinguished fs → fs.content? c.source = some s) ∧
      ((∀ d ∈ g.chmods, ¬ d.target.Same c.target) → c.Permits fs s m)
  total : report.copied + report.upToDate =
    (g.copies.map fun c => c.target.components).toFinset.card
  upToDate : report.upToDate =
    ((g.copies.filter fun c => g.first? c.target = some c ∧ c.isCurrent fs).map
      fun c => c.target.components).toFinset.card
  chmodded : report.chmodded =
    (g.chmods.map fun c => (c.target.components, c.mode)).toFinset.card
  contents : ∀ x, g.Spares fs x → (fs'.get? x).map Entry.bare = (fs.get? x).map Entry.bare ∨
    fs.get? x = none ∧ fs'.IsDirectory x ∧ g.Above fs x
  permissions : ∀ x, g.Spares fs x → (∀ d ∈ g.chmods, d.target.location? fs.cwd ≠ some x) →
    fs'.get? x = fs.get? x ∨
      fs.get? x = none ∧ fs'.get? x = some (.directory .newDirectory) ∧ g.Above fs x
  cwd : fs'.cwd = fs.cwd
  system : fs'.system = fs.system

open InstallRun

theorem Plain.apart (h : g.Plain fs) : Apart fs.cwd g.distinctCopies := by
  constructor
  case noParent =>
    intro c hc
    exact (h.copies c (mem_of_mem_uniqueBy hc)).2
  case targets =>
    apply (List.pairwise_map.mp nodup_uniqueBy).imp_of_mem
    intro c c' hc hc' hne l hl hl'
    obtain ⟨ha, hp⟩ := h.copies c (mem_of_mem_uniqueBy hc)
    obtain ⟨ha', hp'⟩ := h.copies c' (mem_of_mem_uniqueBy hc')
    exact hne (Path.same_of_location? ha hp ha' hp' hl hl')
  case sources =>
    intro c hc c' hc'
    exact h.sources c (mem_of_mem_uniqueBy hc) c' (mem_of_mem_uniqueBy hc')

theorem execute_eq_ok (h : (g.execute fs false).result = .ok report) :
    (runCopies fs [] g.distinctCopies).failure = none ∧
      Chmodded g.distinctChmods (runCopies fs [] g.distinctCopies).fs (g.execute fs false).fs ∧
      report = ⟨(runCopies fs [] g.distinctCopies).copies.countP (·.2 = .copied),
        (runCopies fs [] g.distinctCopies).copies.countP (·.2 = .upToDate),
        g.distinctChmods.length⟩ :=
  runCopies_eq_ok h

/-- An install phase that succeeds makes the copies in some order, and after them the permission
changes. -/
theorem Executes.eq_ok (h : g.Executes fs (.ok report) fs') :
    ∃ order : List Copy, order.Perm g.distinctCopies ∧
      (runCopies fs [] order).failure = none ∧
      Chmodded g.distinctChmods (runCopies fs [] order).fs fs' ∧
      report = ⟨(runCopies fs [] order).copies.countP (·.2 = .copied),
        (runCopies fs [] order).copies.countP (·.2 = .upToDate), g.distinctChmods.length⟩ := by
  generalize hr : Except.ok report = r at h
  cases h with
  | @copied order hp =>
    obtain ⟨hc, hch, hrep⟩ := runCopies_eq_ok hr.symm
    exact ⟨order, hp, hc, hch, hrep⟩
  | failed => cases hr

variable {F : FileSystem}

theorem get?_of_spares (h : Installs g.distinctCopies fs F) (hx : g.Spares fs x) :
    F.get? x = fs.get? x ∨
      fs.get? x = none ∧ F.get? x = some (.directory .newDirectory) ∧ g.Above fs x := by
  by_cases ht : ∃ c ∈ g.distinctCopies, c.target.location? fs.cwd = some x
  · obtain ⟨c, hc, hcx⟩ := ht
    obtain ⟨m, hm⟩ := hx c (mem_of_mem_uniqueBy hc) hcx
    obtain ⟨e, he, hte⟩ := h.written c hc
    rw [FileSystem.entryAt?_of_location? (h.cwd ▸ hcx)] at hte
    have hd := FileSystem.entryAt?_of_location? hcx
    cases he with
    | upToDate _ ht => cases ht.symm.trans (hd.trans hm)
    | copied _ hn => exact absurd ⟨m, hd.trans hm⟩ hn
    | device ht => exact .inl (hte.trans (ht.symm.trans hd))
  · rcases h.others x (fun c hc hcx => ht ⟨c, hc, hcx⟩) with h | ⟨hn, hd, c, hc, l, hl, hs⟩
    · exact .inl h
    · exact .inr ⟨hn, hd, c, mem_of_mem_uniqueBy hc, l, hl, hs, fun hxl => ht ⟨c, hc, hxl ▸ hl⟩⟩

theorem get?_of_no_chmod (h : Chmodded g.distinctChmods F fs') (hl : F.LinkFree)
    (hx : ∀ d ∈ g.chmods, d.target.location? F.cwd ≠ some x) : fs'.get? x = F.get? x :=
  h.others x fun d hd hdx => hx d (mem_of_mem_uniqueBy hd) (hdx.location? hl)

theorem exists_file (h : Installs g.distinctCopies fs F) (hc : g.first? c.target = some c)
    (hd : ¬ c.ToDevice fs) :
    ∃ m s, F.entryAt? c.target = some (.file m s) ∧
      (c.Distinguished fs → fs.content? c.source = some s) ∧ c.Permits fs s m := by
  obtain ⟨e, he, hte⟩ := h.written c (mem_distinctCopies_iff.mpr hc)
  cases he with
  | @upToDate m t hcur ht =>
    refine ⟨m, t, hte, ?_, ?_⟩
    · intro hdist
      obtain ⟨m', t', s, ht', hs, hlen, hdig⟩ := Copy.isCurrent_iff.mp hcur
      cases ht.symm.trans ht'
      have htc : fs.content? c.target = some t := by
        rw [FileSystem.content?, ht]
        rfl
      rw [hs, hdist t s htc hs hlen hdig]
    · rw [Copy.Permits, if_pos hcur, ht]
      rfl
  | @copied m s hcur _ hs =>
    refine ⟨fs.written m s, s, hte, ?_, ?_⟩
    · intro _
      rw [FileSystem.content?, hs]
      rfl
    · rw [Copy.Permits, hcur, if_neg (by simp), hs]
      rfl
  | device ht => exact absurd ⟨_, ht⟩ hd

theorem countP_upToDate (cs : List Copy) (fs : FileSystem) :
    (cs.map fun c => (c, c.outcome fs)).countP (·.2 = .upToDate) =
      cs.countP (Copy.isCurrent · fs) := by
  rw [List.countP_map]
  apply List.countP_congr
  intro c _
  cases hc : c.isCurrent fs <;> simp [Copy.outcome, hc]

theorem countP_copied (cs : List Copy) (fs : FileSystem) :
    (cs.map fun c => (c, c.outcome fs)).countP (·.2 = .copied) =
      cs.countP (fun c => ¬ c.isCurrent fs) := by
  rw [List.countP_map]
  apply List.countP_congr
  intro c _
  cases hc : c.isCurrent fs <;> simp [Copy.outcome, hc]

/-- Permission changes leave that file its content, and its permissions when none is for it. -/
theorem exists_file_of_chmodded (hp : g.Plain fs) (hi : Installs g.distinctCopies fs F)
    (hch : Chmodded g.distinctChmods F fs') (hc : g.first? c.target = some c)
    (hd : ¬ c.ToDevice fs) :
    ∃ m s, fs'.entryAt? c.target = some (.file m s) ∧
      (c.Distinguished fs → fs.content? c.source = some s) ∧
      ((∀ d ∈ g.chmods, ¬ d.target.Same c.target) → c.Permits fs s m) := by
  obtain ⟨m, s, hte, hs, hm⟩ := exists_file hi hc hd
  obtain ⟨l, hl, hls⟩ := FileSystem.entryAt?_eq_some_iff.mp hte
  obtain ⟨m', hm'⟩ := hch.sameShape.get?_eq_file hls
  have hl' : c.target.location? fs'.cwd = some l := hch.sameShape.cwd ▸ hl
  refine ⟨m', s, (FileSystem.entryAt?_of_location? hl').trans hm', hs, ?_⟩
  intro hno
  have hget : fs'.get? l = F.get? l := by
    apply get?_of_no_chmod hch (hi.linkFree hp.linkFree)
    intro d hd hdl
    obtain ⟨ha, hpar⟩ := hp.chmods d hd
    obtain ⟨ha', hpar'⟩ := hp.copies c (mem_of_mem_uniqueBy (mem_distinctCopies_iff.mpr hc))
    exact hno d hd (Path.same_of_location? ha hpar ha' hpar' hdl hl)
  cases hm'.symm.trans (hget.trans hls)
  exact hm

theorem Plain.installs (hp : g.Plain fs) (h : g.Executes fs (.ok report) fs') :
    ∃ F, Installs g.distinctCopies fs F ∧ Chmodded g.distinctChmods F fs' ∧
      report = ⟨g.distinctCopies.countP (fun c => ¬ c.isCurrent fs),
        g.distinctCopies.countP (Copy.isCurrent · fs), g.distinctChmods.length⟩ := by
  obtain ⟨order, hperm, hr, hch, rfl⟩ := h.eq_ok
  obtain ⟨hi, hout⟩ := runCopies_installs hr hp.linkFree (hp.apart.perm hperm.symm)
  refine ⟨_, hi.of_mem_iff fun c => hperm.mem_iff, hch, ?_⟩
  rw [hout, countP_copied, countP_upToDate, hperm.countP_eq, hperm.countP_eq]

theorem Plain.total (hp : g.Plain fs) (h : g.Executes fs (.ok report) fs') :
    report.copied + report.upToDate = g.distinctCopies.length := by
  obtain ⟨F, -, -, rfl⟩ := hp.installs h
  dsimp only
  rw [Nat.add_comm, ← List.length_eq_countP_add_countP]

/-- An install phase that succeeds installs what was registered, in whatever order the copies are
made. -/
theorem execute_installed (hp : g.Plain fs) (h : g.Executes fs (.ok report) fs') :
    g.Installed fs fs' report := by
  have htotal := hp.total h
  obtain ⟨F, hi, hch, rfl⟩ := hp.installs h
  have hF := hi.linkFree hp.linkFree
  constructor
  case regular =>
    intro c hc hd
    exact exists_file_of_chmodded hp hi hch hc hd
  case total => exact htotal.trans length_uniqueBy
  case upToDate => exact countP_uniqueBy _
  case chmodded => exact length_uniqueBy
  case contents =>
    intro x hx
    rcases get?_of_spares hi hx with hF' | ⟨hn, hd, ha⟩
    · exact .inl (by rw [hch.sameShape.bare, hF'])
    · exact .inr ⟨hn, hch.sameShape.isDirectory ⟨_, hd⟩, ha⟩
  case permissions =>
    intro x hx hno
    rw [get?_of_no_chmod hch hF (hi.cwd ▸ hno)]
    exact get?_of_spares hi hx
  case cwd => exact hch.sameShape.cwd.trans hi.cwd
  case system => exact hch.system.trans hi.system

namespace Sample

def fileName : Name := (Name.ofBytes? [0x61]).get rfl

def deviceName : Name := (Name.ofBytes? [0x6E]).get rfl

def tree : FileSystem :=
  (FileSystem.empty.put [fileName] (.file .newFile [1])).put [deviceName] (.device .newFile)

theorem linkFree_tree : tree.LinkFree :=
  (FileSystem.linkFree_empty.put _ (by simp)).put _ (by simp)

def file : Path := ⟨[slash, 0x61]⟩

def device : Path := ⟨[slash, 0x6E]⟩

/-- The path `/d/t`, of which nothing exists. -/
def target : Path := ⟨[slash, 0x64, slash, 0x74]⟩

/-- The same tree, where the file runs as its owner. -/
def privileged : FileSystem := tree.put [fileName] (.file ⟨0o4755, by decide⟩ [1])

def graph : ActionGraph :=
  ⟨[.copy ⟨file, target⟩, .copy ⟨device, target⟩, .chmod ⟨target, 0o640⟩], []⟩

theorem plain_graph : graph.Plain tree where
  linkFree := linkFree_tree
  copies := by decide
  chmods := by decide
  sources c hc d hd l hl := by
    have ht : ∀ c ∈ graph.copies, c.target = target := by decide
    have hs : ∀ d ∈ graph.copies, d.source.location? tree.cwd ≠ target.location? tree.cwd := by
      decide
    rw [← hl, ht c hc]
    exact hs d hd

theorem plain_single (hl : fs.LinkFree)
    (ht : c.target.isAbsolute = true ∧ .parent ∉ c.target.components)
    (hs : c.source.location? fs.cwd ≠ c.target.location? fs.cwd) :
    ActionGraph.Plain ⟨[.copy c], []⟩ fs := by
  refine ⟨hl, ?_, fun _ hd => absurd hd List.not_mem_nil, ?_⟩
  · intro d hd
    rw [List.mem_singleton.mp hd]
    exact ht
  · intro a ha b hb l hl hbl
    rw [List.mem_singleton.mp ha] at hl
    rw [List.mem_singleton.mp hb] at hbl
    exact hs (hbl.trans hl.symm)

end Sample

theorem execute_installed_sample :
    Sample.graph.Plain Sample.tree ∧
      Sample.graph.Executes Sample.tree (.ok ⟨1, 0, 1⟩)
        (Sample.graph.execute Sample.tree false).fs ∧
      Sample.graph.Installed Sample.tree (Sample.graph.execute Sample.tree false).fs ⟨1, 0, 1⟩ :=
  ⟨Sample.plain_graph, .copied (.refl _) rfl,
    execute_installed Sample.plain_graph (.copied (.refl _) rfl)⟩

/-- A copy onto a device succeeds, but leaves no file, and a copy of a file that runs as its owner
does not keep that bit. -/
theorem target_unlike_source :
    (¬ ∀ (g : ActionGraph) (fs : FileSystem) (report : Report), g.Plain fs →
      (g.execute fs false).result = .ok report → ∀ c, g.first? c.target = some c →
        ∃ m s, (g.execute fs false).fs.entryAt? c.target = some (.file m s)) ∧
    ¬ ∀ (g : ActionGraph) (fs : FileSystem) (report : Report), g.Plain fs →
      (g.execute fs false).result = .ok report → ∀ c, g.first? c.target = some c →
        c.isCurrent fs = false → (∀ d ∈ g.chmods, ¬ d.target.Same c.target) →
        ∀ m s, (g.execute fs false).fs.entryAt? c.target = some (.file m s) →
          (fs.entryAt? c.source).bind Entry.permissions? = some m := by
  constructor
  · intro h
    have hp : ActionGraph.Plain ⟨[.copy ⟨Sample.file, Sample.device⟩], []⟩ Sample.tree :=
      Sample.plain_single Sample.linkFree_tree (by decide) (by decide)
    obtain ⟨m, s, hms⟩ := h _ _ ⟨1, 0, 0⟩ hp rfl ⟨Sample.file, Sample.device⟩ rfl
    cases hms
  · intro h
    have hl : Sample.privileged.LinkFree := Sample.linkFree_tree.put _ (by simp)
    have hp : ActionGraph.Plain ⟨[.copy ⟨Sample.file, Sample.target⟩], []⟩ Sample.privileged :=
      Sample.plain_single hl (by decide) (by decide)
    have hm := h _ _ ⟨1, 0, 0⟩ hp (by decide +kernel) ⟨Sample.file, Sample.target⟩ rfl
      (by decide +kernel) (fun _ hd => absurd hd List.not_mem_nil) ⟨0o755, by decide⟩ [1]
      (by decide +kernel)
    exact absurd hm (by decide +kernel)

end ActionGraph

end StagedInstall
