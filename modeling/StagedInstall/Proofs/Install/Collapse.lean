import StagedInstall.Proofs.FileSystem.Spelling
import StagedInstall.Proofs.Install.Phase

/-! # Repeated permission changes

A permission change that is registered again is dropped, and the one that stays is the first. An
entry therefore ends with the mode whose first registration came last. The mode that was registered
last is kept exactly when it asks for the same bits.
-/

namespace StagedInstall

variable {g : ActionGraph} {fs fs' F : FileSystem} {report : Report} {l : Location} {t : Path}
  {c d : Chmod}

namespace ActionGraph

open InstallRun

def runEvery (g : ActionGraph) (fs : FileSystem) : InstallRun :=
  .runCopies fs g.chmods g.distinctCopies

/-- Wherever permission changes lead in `F`, the last one that is registered and the last one that
is made ask for the same bits. -/
def LastSurvives (g : ActionGraph) (F : FileSystem) : Prop :=
  ∀ l c d, F.LastChmod l g.chmods c → F.LastChmod l g.distinctChmods d →
    c.mode.permissions = d.mode.permissions

theorem runEvery_chmodded (h : (g.runEvery fs).failure = none) :
    Chmodded g.chmods (runCopies fs [] g.distinctCopies).fs (g.runEvery fs).fs :=
  (runCopies_chmodded h).2.1

theorem mem_chmods_of_mem_distinctChmods (h : c ∈ g.distinctChmods) : c ∈ g.chmods :=
  mem_of_mem_uniqueBy h

theorem exists_distinctChmod_same (h : c ∈ g.chmods) :
    ∃ d ∈ g.distinctChmods, d.target.Same c.target := by
  obtain ⟨d, hd, he⟩ : ∃ d ∈ g.distinctChmods,
    (d.target.components, d.mode) = (c.target.components, c.mode) := exists_mem_uniqueBy h
  exact ⟨d, hd, (Prod.ext_iff.mp he).1⟩

theorem exists_distinctChmod (h : Chmodded g.distinctChmods F fs') (hc : c ∈ g.chmods)
    (hl : F.LeadsTo c.target l) : ∃ d ∈ g.distinctChmods, F.LeadsTo d.target l := by
  obtain ⟨d, hd, hs⟩ := exists_distinctChmod_same hc
  obtain ⟨k, e, hk, -, -⟩ := h.reached d hd
  exact ⟨d, hd, hk.eq_of_same hl hs ▸ hk⟩

/-- Permission changes, repeated ones or not, end alike when the last of them survive. -/
theorem permissions?_eq_iff (h : Chmodded g.distinctChmods F fs') {fs'' : FileSystem}
    (h' : Chmodded g.chmods F fs'') :
    (∀ l, fs'.permissions? l = fs''.permissions? l) ↔ g.LastSurvives F := by
  constructor
  · intro hl l c d hc hd
    have := hl l
    rw [h.permissions?_last hd, h'.permissions?_last hc] at this
    exact (Option.some.inj this).symm
  · intro hs l
    by_cases hc : ∃ c ∈ g.chmods, F.LeadsTo c.target l
    · obtain ⟨c, hlast⟩ := exists_isLast hc
      obtain ⟨d, hd⟩ := exists_isLast (exists_distinctChmod h hlast.mem hlast.holds)
      rw [h.permissions?_last hd, h'.permissions?_last hlast, hs l c d hlast hd]
    · have hn : ∀ c ∈ g.chmods, ¬ F.LeadsTo c.target l := by
        intro c hc' hcl
        exact hc ⟨c, hc', hcl⟩
      have hn' : ∀ c ∈ g.distinctChmods, ¬ F.LeadsTo c.target l := by
        intro c hc'
        exact hn c (mem_chmods_of_mem_distinctChmods hc')
      rw [FileSystem.permissions?, FileSystem.permissions?, h'.others l hn, h.others l hn']

theorem permissions_of_isLast (h : Chmodded g.distinctChmods F fs') (hF : F.LinkFree)
    (hp : ∀ c ∈ g.chmods, c.target.isAbsolute = true ∧ .parent ∉ c.target.components)
    (hd : IsLast (·.target.Same t) g.distinctChmods d) :
    (fs'.entryAt? t).bind Entry.permissions? = some d.mode.permissions := by
  obtain ⟨l, -, hl, -, -⟩ := h.reached d hd.mem
  have hdl := hl.location? hF
  have hlt : t.location? F.cwd = some l := Path.location?_of_same hd.holds F.cwd ▸ hdl
  obtain ⟨ha, hn⟩ := hp d (mem_chmods_of_mem_distinctChmods hd.mem)
  have hlast : F.LastChmod l g.distinctChmods d := by
    refine hd.congr fun c hc => ?_
    obtain ⟨ha', hn'⟩ := hp c (mem_chmods_of_mem_distinctChmods hc)
    rw [h.leadsTo_iff hF hc]
    constructor
    · exact fun hs => (Path.location?_of_same hs F.cwd).trans hlt
    · exact fun hcl => (Path.same_of_location? ha' hn' ha hn hcl hdl).trans hd.holds
  rw [FileSystem.entryAt?_of_location? (h.sameShape.cwd ▸ hlt)]
  exact h.permissions?_last hlast

theorem exists_isLast_distinctChmods (hc : IsLast (·.target.Same t) g.chmods c) :
    ∃ d, IsLast (·.target.Same t) g.distinctChmods d := by
  obtain ⟨d, hd, hs⟩ := exists_distinctChmod_same hc.mem
  exact exists_isLast ⟨d, hd, hs.trans hc.holds⟩

/-- Making each permission change once leaves the modes of making all of them exactly when the
last change of every entry survives. Without links, a target ends with the mode of the last change
that is made, which is that of the last one registered exactly when they ask for the same bits. -/
theorem execute_permissions_iff (h : (g.execute fs false).result = .ok report) :
    ((g.runEvery fs).failure = none ∧
        (∀ l, (g.execute fs false).fs.permissions? l = (g.runEvery fs).fs.permissions? l) ↔
      (g.runEvery fs).failure = none ∧
        g.LastSurvives (runCopies fs [] g.distinctCopies).fs) ∧
    (fs.LinkFree →
      (∀ c ∈ g.chmods, c.target.isAbsolute = true ∧ .parent ∉ c.target.components) →
      ∀ t c, IsLast (·.target.Same t) g.chmods c →
        ∃ d, IsLast (·.target.Same t) g.distinctChmods d ∧
          ((g.execute fs false).fs.entryAt? t).bind Entry.permissions? = some d.mode.permissions ∧
          (((g.execute fs false).fs.entryAt? t).bind Entry.permissions? = some c.mode.permissions ↔
            d.mode.permissions = c.mode.permissions)) := by
  obtain ⟨hr, hch, -⟩ := execute_eq_ok h
  constructor
  · apply and_congr_right
    intro he
    exact permissions?_eq_iff hch (runEvery_chmodded he)
  · intro hl hp t c hc
    obtain ⟨d, hd⟩ := exists_isLast_distinctChmods hc
    have ht := permissions_of_isLast hch (runCopies_linkFree g.distinctCopies hl) hp hd
    exact ⟨d, hd, ht, by rw [ht, Option.some.injEq]⟩

def Sample.repeated : ActionGraph :=
  ⟨[.copy ⟨Sample.file, Sample.target⟩, .chmod ⟨Sample.target, 0o600⟩,
    .chmod ⟨Sample.target, 0o755⟩, .chmod ⟨Sample.target, 0o600⟩], []⟩

theorem execute_permissions_sample :
    (Sample.repeated.execute Sample.tree false).result = .ok ⟨1, 0, 2⟩ ∧
      ((Sample.repeated.runEvery Sample.tree).failure = none ∧
          (∀ l, (Sample.repeated.execute Sample.tree false).fs.permissions? l =
            (Sample.repeated.runEvery Sample.tree).fs.permissions? l) ↔
        (Sample.repeated.runEvery Sample.tree).failure = none ∧ Sample.repeated.LastSurvives
          (runCopies Sample.tree [] Sample.repeated.distinctCopies).fs) ∧
      ∃ d, IsLast (·.target.Same Sample.target) Sample.repeated.distinctChmods d ∧
        ((Sample.repeated.execute Sample.tree false).fs.entryAt? Sample.target).bind
          Entry.permissions? = some d.mode.permissions := by
  have h : (Sample.repeated.execute Sample.tree false).result = .ok ⟨1, 0, 2⟩ := rfl
  have hlast : IsLast (·.target.Same Sample.target) Sample.repeated.chmods
      ⟨Sample.target, 0o600⟩ :=
    ⟨Sample.repeated.chmods.take 2, [], rfl, rfl, by simp⟩
  obtain ⟨hiff, htarget⟩ := execute_permissions_iff h
  obtain ⟨d, hd, hm, -⟩ := htarget Sample.linkFree_tree (by decide) Sample.target _ hlast
  exact ⟨h, hiff, d, hd, hm⟩

/-- A mode that is registered again after another one is lost. -/
theorem repeated_mode_lost :
    ¬ ∀ (g : ActionGraph) (fs : FileSystem) (report : Report),
      (g.execute fs false).result = .ok report → (g.runEvery fs).failure = none →
        ∀ l, (g.execute fs false).fs.permissions? l = (g.runEvery fs).fs.permissions? l := by
  intro h
  have hl := h Sample.repeated Sample.tree ⟨1, 0, 2⟩ rfl rfl
    [(Name.ofBytes? [0x74]).get rfl, (Name.ofBytes? [0x64]).get rfl]
  exact absurd hl (by decide +kernel)

end ActionGraph

end StagedInstall
