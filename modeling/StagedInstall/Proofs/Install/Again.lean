import StagedInstall.Proofs.Install.Settled

/-! # Running the install phase again

A second run finds every target up to date and makes the same permission changes, which lead back to
the modes that the first one left (`runChmods_again`). So it changes nothing (`execute_again`). It
needs the rights to open the files and to reach the targets once more, which permission changes can
take from an ordinary user; and it copies again onto devices, since nothing stays there.
-/

namespace StagedInstall

variable {fs N M F G : FileSystem} {p : Path} {k l x : Location} {s : List Step} {c : Copy}
  {cs : List Copy} {ds : List Chmod} {e e' : Entry} {g : ActionGraph} {report : Report}

theorem Entry.withPermissions_of_bare (h : e'.bare = e.bare) (m : Permissions) :
    e'.withPermissions m = e.withPermissions m := by
  cases e <;> cases e' <;> simp_all [bare, withPermissions]

namespace FileSystem

/-- A walk that two trees of the same shape allow is allowed by a third one that grants what both of
them grant. -/
theorem Passable.of_both (hN : N.Passable l s) (hF : F.Passable l s) (h : N.SameShape M)
    (hs : ∀ y, N.permits .search y = true → F.permits .search y = true →
      M.permits .search y = true) : M.Passable l s := by
  induction s generalizing l with
  | nil => trivial
  | cons a s ih =>
    obtain ⟨hd, hp, hnext⟩ := hN
    obtain ⟨-, hp', hnext'⟩ := hF
    exact ⟨h.isDirectory hd, fun ha => hs l (hp ha) (hp' ha),
      fun k hk => ih (hnext k hk) (hnext' k hk)⟩

theorem locate_of_both (hN : N.locate p = .ok l) (hF : F.locate p = .ok k) (hl : N.LinkFree)
    (h : N.SameShape M) (h' : N.SameShape F)
    (hs : ∀ y, N.permits .search y = true → F.permits .search y = true →
      M.permits .search y = true) : M.locate p = .ok l := by
  obtain ⟨hr, hp, hpl, he⟩ := (locate_eq_ok_iff hl).mp hN
  obtain ⟨-, hp', -, -⟩ := (locate_eq_ok_iff (h'.linkFree hl)).mp hF
  refine (locate_eq_ok_iff (h.linkFree hl)).mpr ⟨hr, ?_, h.cwd ▸ hpl, ?_⟩
  · rw [h.cwd]
    rw [h'.cwd] at hp'
    exact hp.of_both hp' h hs
  · exact fun hn => he (h.symm.get?_eq_none hn)

theorem locate_of_superuser (hN : N.locate p = .ok l) (hl : N.LinkFree) (h : N.SameShape M)
    (hu : M.user = .superuser) : M.locate p = .ok l :=
  locate_of_both hN hN hl h (.refl N) fun y _ _ => permits_superuser hu .search y

theorem openForWriting_of_locate (hl : fs.LinkFree) (hp : p.Named) (h : fs.locate p = .ok l)
    (hd : ¬ fs.IsDirectory l) (hw : fs.permits .write l = true) :
    fs.openForWriting p = .ok l := by
  obtain ⟨hr, hpass, hpl, he⟩ := (locate_eq_ok_iff hl).mp h
  have hplace : fs.place .creating p = .ok (.taken l) := by
    obtain ⟨t, n, ht⟩ := hp
    refine (place_eq_ok_iff hl (.inr (by simp [ht]))).mpr ⟨hr, hpass, ?_⟩
    rw [hpl, Option.map_some, placeAt_of_ne_none he]
  exact openForWriting_eq_ok_iff.mpr (.inl ⟨hplace, hd, hw⟩)

end FileSystem

namespace Copy

/-- The files of the copy can be opened as it is made again. -/
structure Opens (c : Copy) (fs : FileSystem) : Prop where
  source : ∃ k, fs.openForReading c.source = .ok k
  target : ¬ c.ToDevice fs → ∃ l, fs.openForReading c.target = .ok l
  device : c.ToDevice fs → ∃ l, fs.openForWriting c.target = .ok l

theorem Settled.of_sameShape (h : c.Settled G) (hl : G.LinkFree) (hs : G.SameShape F)
    (hst : F.storage = G.storage) (ho : c.Opens F) : c.Settled F := by
  have hlF := hs.linkFree hl
  have hto : c.ToDevice F ↔ c.ToDevice G := toDevice_iff_of_sameShape hs
  obtain ⟨k', hk'⟩ := ho.source
  cases h with
  | @matching k l e s t m hk he hes ht hm hlen hd =>
    have hdev : ¬ c.ToDevice F := hto.not.mpr (not_toDevice_of_file hl ht hm)
    obtain ⟨l', hl'⟩ := ho.target hdev
    cases (hs.leadsTo (FileSystem.openForReading_leads hk)).unique
      (FileSystem.openForReading_leads hk')
    cases (hs.leadsTo (FileSystem.openForReading_leads ht)).unique
      (FileSystem.openForReading_leads hl')
    obtain ⟨e', he', hb⟩ := hs.get?_eq_some he
    obtain ⟨m', hm'⟩ := hs.get?_eq_file hm
    exact .matching hk' he' ((Entry.content?_of_bare hb).trans hes) hl' hm' hlen hd
  | @device k l s m m' hk he ht hm hfit =>
    have htl := FileSystem.location?_of_openForWriting ht hl
    obtain ⟨m₁, hm₁⟩ := hto.mpr ⟨m', (FileSystem.entryAt?_of_location? htl).trans hm⟩
    obtain ⟨l', hl'⟩ := ho.device ⟨m₁, hm₁⟩
    cases (hs.leadsTo (FileSystem.openForReading_leads hk)).unique
      (FileSystem.openForReading_leads hk')
    cases (hs.cwd ▸ htl).symm.trans (FileSystem.location?_of_openForWriting hl' hlF)
    obtain ⟨q, hq⟩ := hs.get?_eq_file he
    rw [FileSystem.entryAt?_of_location? (hs.cwd ▸ htl)] at hm₁
    exact .device hk' hq hl' hm₁ (hst ▸ hfit)

theorem Settled.opens_of_superuser (h : c.Settled G) (hl : G.LinkFree) (hc : c.Upright)
    (hs : G.SameShape F) (hu : F.user = .superuser) : c.Opens F := by
  have hlF := hs.linkFree hl
  have hto : c.ToDevice F ↔ c.ToDevice G := toDevice_iff_of_sameShape hs
  have opens {p : Path} {l : Location} (hp : G.openForReading p = .ok l) :
      F.openForReading p = .ok l :=
    FileSystem.openForReading_eq_ok_iff.mpr ⟨FileSystem.locate_of_superuser
      (FileSystem.openForReading_eq_ok_iff.mp hp).1 hl hs hu, FileSystem.permits_superuser hu _ _⟩
  cases h with
  | matching hk _ _ ht hm =>
    have hdev : ¬ c.ToDevice F := hto.not.mpr (not_toDevice_of_file hl ht hm)
    exact ⟨⟨_, opens hk⟩, fun _ => ⟨_, opens ht⟩, fun h => absurd h hdev⟩
  | @device k l s m m' hk _ ht hm =>
    have htl := FileSystem.location?_of_openForWriting ht hl
    have hdev : c.ToDevice F := hto.mpr ⟨m', (FileSystem.entryAt?_of_location? htl).trans hm⟩
    refine ⟨⟨_, opens hk⟩, fun h => absurd hdev h, fun _ => ⟨l, ?_⟩⟩
    obtain ⟨hsp, hpass, hd, -⟩ := FileSystem.openForWriting_spells ht hl hc.absolute hc.target
    have hlocate := FileSystem.locate_of_openForWriting ht (by simp [hm])
    refine FileSystem.openForWriting_of_locate hlF (FileSystem.named_of_passable hsp hpass hd).1
      (FileSystem.locate_of_superuser hlocate hl hs hu) ?_ (FileSystem.permits_superuser hu _ _)
    exact fun h => hd (hs.symm.isDirectory h)

end Copy

namespace InstallRun

/-- Permission changes are made again in a tree that has the permissions of the first time or those
that were left: each of them finds its target, and what is left is the same. -/
theorem runChmods_again (h : (runChmods N ds).failure = none) (hl : N.LinkFree)
    (hs : N.SameShape M) (hsys : M.system = N.system)
    (hb : ∀ x, M.get? x = N.get? x ∨ M.get? x = (runChmods N ds).fs.get? x)
    (ha : ∀ d ∈ ds, ∃ l, (runChmods N ds).fs.locate d.target = .ok l) :
    (runChmods M ds).failure = none ∧ (runChmods M ds).fs = (runChmods N ds).fs := by
  induction ds generalizing N M with
  | nil =>
    refine ⟨rfl, FileSystem.ext (fun x => ?_) hs.cwd hsys⟩
    exact (hb x).elim id id
  | cons d ds ih =>
    have hch := (runChmods_chmodded h).1
    rcases hd : d.perform N with e | N₁
    · rw [runChmods_cons_error hd] at h
      cases h
    obtain ⟨l, e, hlN, hr, he, rfl⟩ := FileSystem.setMode_eq_ok_iff.mp (perform_eq_ok_iff.mp hd)
    have hu := FileSystem.user_eq hsys
    obtain ⟨k, hk⟩ := ha d List.mem_cons_self
    have hlM : M.locate d.target = .ok l := by
      refine FileSystem.locate_of_both hlN hk hl hs hch.sameShape ?_
      intro y hN hF
      rcases hb y with hy | hy
      · rw [FileSystem.permits_congr hu hy, hN]
      · rw [FileSystem.permits_congr (hu.trans hch.user.symm) hy, hF]
    obtain ⟨e', he', hbare⟩ := hs.get?_eq_some he
    have hrM : M.storage.refusal? l = none := FileSystem.storage_eq hsys ▸ hr
    have hdM := perform_eq_ok_iff.mpr (FileSystem.setMode_of_locate hlM hrM he')
    have hsN := FileSystem.setMode_sameShape (perform_eq_ok_iff.mp hd)
    have hsM := FileSystem.setMode_sameShape (perform_eq_ok_iff.mp hdM)
    rw [runChmods_cons_ok hd] at h hb ha ⊢
    rw [runChmods_cons_ok hdM]
    refine ih h (hsN.linkFree hl) (hsN.symm.trans (hs.trans hsM)) ?_ ?_
      fun d' hd' => ha d' (List.mem_cons_of_mem d hd')
    · rw [FileSystem.put_system, FileSystem.put_system, hsys]
    · intro x
      rw [FileSystem.get?_put _ (FileSystem.admits_withPermissions he' _),
        FileSystem.get?_put _ (FileSystem.admits_withPermissions he _)]
      split
      · rw [Entry.withPermissions_of_bare hbare]
        exact .inl rfl
      · exact hb x

theorem exists_locate_of_superuser (h : (runChmods N ds).failure = none) (hl : N.LinkFree)
    (hu : N.user = .superuser) :
    ∀ d ∈ ds, ∃ l, (runChmods N ds).fs.locate d.target = .ok l := by
  induction ds generalizing N with
  | nil => exact fun d hd => absurd hd List.not_mem_nil
  | cons d ds ih =>
    have hch := (runChmods_chmodded h).1
    rcases hd : d.perform N with e | N₁
    · rw [runChmods_cons_error hd] at h
      cases h
    obtain ⟨l, e, hlN, -, -, hN₁⟩ := FileSystem.setMode_eq_ok_iff.mp (perform_eq_ok_iff.mp hd)
    have hs := FileSystem.setMode_sameShape (perform_eq_ok_iff.mp hd)
    have hu₁ : N₁.user = N.user := hN₁ ▸ FileSystem.user_eq (N.put_system ..)
    intro d' hd'
    rcases List.mem_cons.mp hd' with rfl | hd'
    · exact ⟨l, FileSystem.locate_of_superuser hlN hl hch.sameShape (hch.user.trans hu)⟩
    · rw [runChmods_cons_ok hd] at h ⊢
      exact ih h (hs.linkFree hl) (hu₁.trans hu) d' hd'

theorem countP_copied_add_upToDate (l : List (Copy × CopyOutcome)) :
    l.countP (·.2 = .copied) + l.countP (·.2 = .upToDate) = l.length := by
  induction l with
  | nil => rfl
  | cons c l ih =>
    obtain ⟨c, o⟩ := c
    cases o <;> simp <;> omega

end InstallRun

namespace ActionGraph

open InstallRun

/-- The files of the copies can be opened, and the targets of the permission changes be reached. -/
structure Accessible (g : ActionGraph) (fs : FileSystem) : Prop where
  copies : ∀ c ∈ g.distinctCopies, c.Opens fs
  chmods : ∀ d ∈ g.distinctChmods, ∃ l, fs.locate d.target = .ok l

/-- The number of copies onto devices. -/
def deviceCopies (g : ActionGraph) (fs : FileSystem) : Nat :=
  g.distinctCopies.countP (Copy.ToDevice · fs)

theorem settled_of_execute (hg : g.Upright fs) (h : (g.execute fs false).result = .ok report)
    (ha : fs.user = .superuser ∨ g.Accessible (g.execute fs false).fs) :
    g.Accessible (g.execute fs false).fs ∧
      ∀ c ∈ g.distinctCopies, c.Settled (g.execute fs false).fs := by
  obtain ⟨hf, hr, -⟩ := execute_eq_ok_iff.mp h
  have hi := (runCopies_installs hf hg.linkFree hg.apart).1
  have hl := hi.linkFree hg.linkFree
  have hset := settled_of_runCopies hf hg.linkFree (fun c => hg.copy_upright) hg.apart
  rw [execute_fs hf] at ha ⊢
  have hch := (runChmods_chmodded hr).1
  have hacc : g.Accessible
      (runChmods (runCopies fs [] g.distinctCopies).fs g.distinctChmods).fs := by
    rcases ha with hu | ha
    · have huG := hi.user.trans hu
      exact ⟨fun c hc => (hset c hc).opens_of_superuser hl (hg.copy_upright hc) hch.sameShape
        (hch.user.trans huG), exists_locate_of_superuser hr hl huG⟩
    · exact ha
  exact ⟨hacc, fun c hc => (hset c hc).of_sameShape hl hch.sameShape
    (FileSystem.storage_eq hch.system) (hacc.copies c hc)⟩

/-- A second run that succeeds has found everything done, but for what is copied onto devices, and
has changed nothing. -/
theorem execute_again_of_ok {report' : Report} (hg : g.Upright fs)
    (h : (g.execute fs false).result = .ok report)
    (h' : (g.execute (g.execute fs false).fs false).result = .ok report') :
    report' = ⟨g.deviceCopies fs, report.copied + report.upToDate - g.deviceCopies fs,
        report.chmodded⟩ ∧
      (g.execute (g.execute fs false).fs false).fs = (g.execute fs false).fs := by
  obtain ⟨hf, hr, rfl⟩ := execute_eq_ok_iff.mp h
  obtain ⟨hf', hr', rfl⟩ := execute_eq_ok_iff.mp h'
  have hi := (runCopies_installs hf hg.linkFree hg.apart).1
  have hch := (runChmods_chmodded hr).1
  rw [← execute_fs hf] at hch
  generalize (g.execute fs false).fs = F at *
  have hcwd : F.cwd = fs.cwd := hch.sameShape.cwd.trans hi.cwd
  obtain ⟨hi', hcs'⟩ := runCopies_installs hf' (hch.sameShape.linkFree (hi.linkFree hg.linkFree))
    (hcwd ▸ hg.apart)
  have hmade : ∀ c ∈ g.distinctCopies, c.Made F := fun c hc =>
    (hi.made hg.apart hc).of_sameShape hch.sameShape
  have hF := hi'.eq_of_made hmade
  constructor
  · have hcopied : (runCopies F [] g.distinctCopies).copies.countP (·.2 = .copied) =
        g.deviceCopies fs := by
      rw [hcs', countP_copied, deviceCopies]
      apply List.countP_congr
      intro c hc
      have hto : c.ToDevice F ↔ c.ToDevice fs :=
        (Copy.toDevice_iff_of_sameShape hch.sameShape).trans (hi.toDevice_iff hc)
      rw [decide_eq_true_iff, decide_eq_true_iff, ← hto]
      exact ⟨(hmade c hc).resolve_left, fun hd => by simp [hd.isCurrent_eq]⟩
    have hlen := congrArg List.length ((runCopies_map_fst hf).trans (runCopies_map_fst hf').symm)
    rw [List.length_map, List.length_map, ← countP_copied_add_upToDate,
      ← countP_copied_add_upToDate] at hlen
    rw [hcopied] at hlen ⊢
    congr 1
    dsimp only
    omega
  · rw [hF] at hr'
    rw [execute_fs hf', hF]
    exact hch.again (runChmods_chmodded hr').1

/-- A second run succeeds where the files may be opened once more. Then it finds everything done, but
for what is copied onto devices, and changes nothing. -/
theorem execute_again (hg : g.Upright fs) (h : (g.execute fs false).result = .ok report) :
    (fs.user = .superuser ∨ g.Accessible (g.execute fs false).fs →
      ∃ report', (g.execute (g.execute fs false).fs false).result = .ok report') ∧
    ∀ report', (g.execute (g.execute fs false).fs false).result = .ok report' →
      report' = ⟨g.deviceCopies fs, report.copied + report.upToDate - g.deviceCopies fs,
        report.chmodded⟩ ∧
      (g.execute (g.execute fs false).fs false).fs = (g.execute fs false).fs := by
  refine ⟨fun ha => ?_, fun report' => execute_again_of_ok hg h⟩
  obtain ⟨hacc, hset⟩ := settled_of_execute hg h ha
  obtain ⟨hf, hr, -⟩ := execute_eq_ok_iff.mp h
  have hl := (runCopies_installs hf hg.linkFree hg.apart).1.linkFree hg.linkFree
  have hch := (runChmods_chmodded hr).1
  rw [execute_fs hf] at hacc hset ⊢
  obtain ⟨hf', hfs⟩ := runCopies_of_settled hset (hch.sameShape.linkFree hl)
    fun c => hg.copy_upright
  obtain ⟨hr', -⟩ := runChmods_again hr hl hch.sameShape hch.system (fun x => .inr rfl) hacc.chmods
  exact ⟨_, execute_eq_ok_iff.mpr ⟨hf', by rwa [hfs], rfl⟩⟩

namespace Sample

theorem upright_graph : graph.Upright tree :=
  .of_forall linkFree_tree (by decide) (by decide) (by decide)

theorem accessible_graph : graph.Accessible (graph.execute tree false).fs := by
  constructor
  · intro c hc
    obtain rfl : c = ⟨file, target⟩ := List.mem_singleton.mp hc
    refine ⟨⟨_, rfl⟩, fun _ => ⟨_, rfl⟩, ?_⟩
    rintro ⟨m, hm⟩
    cases hm
  · intro d hd
    obtain rfl : d = ⟨target, 0o640⟩ := List.mem_singleton.mp hd
    exact ⟨_, rfl⟩

def sealing : ActionGraph := ⟨[.copy ⟨file, target⟩, .chmod ⟨target, 0⟩], []⟩

def discarding : ActionGraph := ⟨[.copy ⟨file, device⟩], []⟩

end Sample

theorem execute_again_sample :
    (Sample.graph.execute Sample.tree false).result = .ok ⟨1, 0, 1⟩ ∧
      (Sample.graph.execute (Sample.graph.execute Sample.tree false).fs false).result =
        .ok ⟨0, 1, 1⟩ ∧
      (Sample.graph.execute (Sample.graph.execute Sample.tree false).fs false).fs =
        (Sample.graph.execute Sample.tree false).fs := by
  have h : (Sample.graph.execute Sample.tree false).result = .ok ⟨1, 0, 1⟩ := rfl
  obtain ⟨hok, hagain⟩ := execute_again Sample.upright_graph h
  obtain ⟨report', h'⟩ := hok (.inr Sample.accessible_graph)
  obtain ⟨rfl, hfs⟩ := hagain report' h'
  exact ⟨h, h', hfs⟩

/-- A second run does not always find everything done: an ordinary user may not be allowed to look,
even where no device is written to, and onto a device even the superuser copies again. -/
theorem second_run_differs :
    (¬ ∀ (g : ActionGraph) (fs : FileSystem) (report : Report), g.Upright fs →
      g.deviceCopies fs = 0 → (g.execute fs false).result = .ok report →
        (g.execute (g.execute fs false).fs false).result =
          .ok ⟨0, report.copied + report.upToDate, report.chmodded⟩) ∧
    ¬ ∀ (g : ActionGraph) (fs : FileSystem) (report : Report), g.Upright fs →
      fs.user = .superuser → (g.execute fs false).result = .ok report →
        (g.execute (g.execute fs false).fs false).result =
          .ok ⟨0, report.copied + report.upToDate, report.chmodded⟩ := by
  constructor
  · intro h
    have hu : Sample.sealing.Upright Sample.tree :=
      .of_forall Sample.linkFree_tree (by decide) (by decide) (by decide)
    have hsecond := h Sample.sealing Sample.tree ⟨1, 0, 1⟩ hu rfl rfl
    cases hsecond
  · intro h
    have hu : Sample.discarding.Upright (Sample.tree.withUser .superuser) :=
      .of_forall Sample.linkFree_tree (by decide) (by decide) (by decide)
    have hsecond := h Sample.discarding (Sample.tree.withUser .superuser) ⟨1, 0, 0⟩ hu rfl rfl
    cases hsecond

end ActionGraph

end StagedInstall
