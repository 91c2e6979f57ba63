import StagedInstall.Proofs.Install.Made

/-! # Copies that have been made

Once a copy has been made, its target is up to date, or a device that takes all that is written
(`settled_of_perform`). Making it again changes nothing (`Settled.perform`). The copies that follow
leave it so (`settled_of_runCopies`), and permission changes do when the files can still be opened
(`Settled.of_sameShape`).
-/

namespace StagedInstall

variable {fs fs' fs₁ : FileSystem} {p : Path} {k l : Location} {c : Copy} {cs : List Copy}
  {o : CopyOutcome} {e : Entry} {s t : Bytes} {m : Permissions}

namespace FileSystem

theorem get?_put_of_open (hw : fs.openForWriting p = .ok l) (e : Entry) (x : Location) :
    (fs.put l e).get? x = if x = l then some e else fs.get? x := by
  apply get?_put
  rcases openForWriting_leads hw with ⟨-, he, hd⟩ | ⟨d, n, rfl, -, hd, hn⟩
  · exact admits_of_not_isDirectory (isDirectory_tail he) hd e
  · exact admits_of_not_isDirectory (fun _ => hd) (not_isDirectory_of_none hn) e

theorem locate_put_of_open (hl : fs.LinkFree) (ha : p.isAbsolute = true)
    (hp : .parent ∉ p.components) (hw : fs.openForWriting p = .ok l) (e : Entry)
    (he : ∀ target, e ≠ .link target) : (fs.put l e).locate p = .ok l := by
  obtain ⟨hsp, hpass, hdir, -⟩ := openForWriting_spells hw hl ha hp
  obtain ⟨hn, hsearch⟩ := named_of_passable hsp hpass hdir
  have hput := get?_put_of_open hw e
  refine (locate_eq_ok_iff (hl.put l he)).mpr
    ⟨hsp.accepted, ?_, hsp.location? _, by simp [hput]⟩
  obtain ⟨t, n, d, ht, hup, hd, rfl⟩ := hsp.exists_steps hn
  rw [start, if_pos ha, ht]
  refine (passable_concat_iff hup hd n).mpr ?_
  intro y _ hy
  have hget : (fs.put (n :: d) e).get? y = fs.get? y := by
    rw [hput, if_neg]
    rintro rfl
    exact absurd hy.length_le (by simp)
  obtain ⟨m, hm⟩ := exists_cons_suffix_cons hy n
  obtain ⟨hdy, hsy⟩ := hsearch m y hm
  exact ⟨(isDirectory_congr hget).mpr hdy, (permits_congr (user_eq (fs.put_system ..)) hget _).trans hsy⟩

end FileSystem

namespace Copy

/-- Making the copy would find its target up to date, or write to a device. -/
inductive Settled (c : Copy) (fs : FileSystem) : Prop
  | matching {k l : Location} {e : Entry} {s t : Bytes} {m : Permissions} :
      fs.openForReading c.source = .ok k → fs.get? k = some e → e.content? = some s →
      fs.openForReading c.target = .ok l → fs.get? l = some (.file m t) →
      s.length = t.length → digest s = digest t → Settled c fs
  | device {k l : Location} {s : Bytes} {m m' : Permissions} :
      fs.openForReading c.source = .ok k → fs.get? k = some (.file m s) →
      fs.openForWriting c.target = .ok l → fs.get? l = some (.device m') →
      fs.storage.take l s = (s, none) → Settled c fs

theorem isUpToDate_of_matching (hk : fs.openForReading c.source = .ok k) (he : fs.get? k = some e)
    (hs : e.content? = some s) (hl : fs.openForReading c.target = .ok l)
    (ht : fs.get? l = some (.file m t)) (hlen : s.length = t.length)
    (hd : digest s = digest t) : c.isUpToDate fs = .ok true := by
  have hstat := FileSystem.stat_of_locate (FileSystem.openForReading_eq_ok_iff.mp hk).1 he
  have htstat := FileSystem.stat_of_locate (FileSystem.openForReading_eq_ok_iff.mp hl).1 ht
  have hhash := FileSystem.hashFile_eq_ok_iff.mpr ⟨s, FileSystem.readFile_of_open hk he hs, rfl⟩
  have hthash := FileSystem.hashFile_eq_ok_iff.mpr ⟨t, FileSystem.readFile_of_open hl ht rfl, rfl⟩
  have hlen' : e.length = (Entry.file m t).length := (Entry.length_of_content? hs).trans hlen
  rw [isUpToDate, if_pos (FileSystem.isFile_eq_true_iff.mpr ⟨m, t, htstat⟩),
    FileSystem.sameContent, hstat, htstat, hhash, hthash, hd]
  simp [Except.mapError, bind, Except.bind, pure, Except.pure, hlen']

theorem settled_of_isUpToDate (h : c.isUpToDate fs = .ok true) : c.Settled fs := by
  unfold isUpToDate at h
  split at h
  case isFalse => cases h
  next hf =>
  obtain ⟨m, t, ht⟩ := FileSystem.isFile_eq_true_iff.mp hf
  obtain ⟨e, he, h⟩ := bind_eq_ok_iff.mp h
  obtain ⟨e', he', h⟩ := bind_eq_ok_iff.mp h
  cases (mapError_eq_ok_iff.mp he').symm.trans ht
  split at h
  · cases h
  next hlen =>
  obtain ⟨ds, hds, h⟩ := bind_eq_ok_iff.mp h
  obtain ⟨dt, hdt, h⟩ := bind_eq_ok_iff.mp h
  obtain ⟨s, hs, rfl⟩ := FileSystem.hashFile_eq_ok_iff.mp hds
  obtain ⟨t', ht', rfl⟩ := FileSystem.hashFile_eq_ok_iff.mp hdt
  obtain ⟨k, f, hk, hf, hfs⟩ := FileSystem.exists_of_readFile hs
  obtain ⟨l, f', hl, hf', hft⟩ := FileSystem.exists_of_readFile ht'
  have hke := FileSystem.stat_of_locate (FileSystem.openForReading_eq_ok_iff.mp hk).1 hf
  have hlt := FileSystem.stat_of_locate (FileSystem.openForReading_eq_ok_iff.mp hl).1 hf'
  cases hke.symm.trans (mapError_eq_ok_iff.mp he)
  cases hlt.symm.trans ht
  cases hft
  refine .matching hk hf hfs hl hf' ?_ ?_
  · exact (Entry.length_of_content? hfs).symm.trans (Decidable.not_not.mp hlen)
  · exact of_decide_eq_true (Except.ok.inj h)

instance (c : Copy) (fs : FileSystem) : Decidable (c.ToDevice fs) :=
  match h : fs.entryAt? c.target with
  | some (.device m) => .isTrue ⟨m, h⟩
  | none | some (.file ..) | some (.directory _) | some (.link _) => .isFalse (by
    rintro ⟨m, hm⟩
    cases h.symm.trans hm)

theorem not_toDevice_of_file (hl : fs.LinkFree) (ht : fs.openForReading c.target = .ok l)
    (hm : fs.get? l = some (.file m t)) : ¬ c.ToDevice fs := by
  rintro ⟨m', hm'⟩
  rw [FileSystem.entryAt?_of_location? ((FileSystem.openForReading_leads ht).location? hl),
    hm] at hm'
  cases hm'

theorem Settled.perform (h : c.Settled fs) (hl : fs.LinkFree) (hu : c.Upright) :
    ∃ o, c.perform fs = (fs, .ok o) := by
  cases h with
  | matching hk he hs ht hm hlen hd =>
    exact ⟨.upToDate, by rw [Copy.perform, isUpToDate_of_matching hk he hs ht hm hlen hd]⟩
  | @device k l s m m' hk hks ht hd hfit =>
    have hlt := FileSystem.location?_of_openForWriting ht hl
    have hup : c.isUpToDate fs = .ok false := by
      rw [isUpToDate, if_neg]
      intro hf
      obtain ⟨q, t, hq⟩ := FileSystem.isFile_eq_true_iff.mp hf
      cases (FileSystem.stat_of_openForWriting ht hd).symm.trans hq
    have hm : fs.makeParents c.target = (fs, none) := by
      obtain ⟨hsp, hpass, hdir, -⟩ := FileSystem.openForWriting_spells ht hl hu.absolute hu.target
      obtain ⟨hn, hs⟩ := FileSystem.named_of_passable hsp hpass hdir
      obtain ⟨-, n, d, -, -, -, rfl⟩ := hsp.exists_steps hn
      have ha : fs.Approachable (n :: d) := by
        refine ⟨fun n y hy _ => hs n y hy, ?_⟩
        intro n' y hy _ hny
        exact absurd hny (FileSystem.get?_suffix_ne_none (by simp [hd]) hy)
      obtain ⟨fs₁, hm, -⟩ := FileSystem.makeParents_filled hl hsp ha
      have hg := FileSystem.makeParents_grownFor hm hl hu.target
      obtain rfl := hg.eq_of_taken hlt (by simp [hd])
      exact hm
    have hlk : l ≠ k := by
      rintro rfl
      cases hks.symm.trans hd
    have hc : fs.copyFile c.source c.target = (fs, none) := by
      have hr : fs.copyRefusal? l = none := by rw [FileSystem.copyRefusal?, hd]
      rw [FileSystem.copyFile_of_accepts ⟨⟨k, s, hk, hks, (if_neg hlk).symm⟩, ht⟩ ⟨hr, hfit⟩,
        FileSystem.fill, hd]
    refine ⟨.copied, ?_⟩
    rw [Copy.perform, hup]
    simp only [hm, hc]

theorem Settled.congr (h : c.Settled fs) (hst : fs'.storage = fs.storage)
    (hs : fs.Agree fs' c.source) (ht : fs.Agree fs' c.target) : c.Settled fs' := by
  have source {k : Location} (hk : fs.openForReading c.source = .ok k) :
      fs'.openForReading c.source = .ok k ∧ fs'.get? k = fs.get? k :=
    ⟨hs.openForReading_eq.trans hk,
      hs.get?_eq ((FileSystem.openForReading_leads hk).location? hs.linkFree)⟩
  cases h with
  | matching hk he hes hl hm hlen hd =>
    obtain ⟨hk', hke⟩ := source hk
    have hle := ht.get?_eq ((FileSystem.openForReading_leads hl).location? ht.linkFree)
    exact .matching hk' (hke.trans he) hes (ht.openForReading_eq.trans hl) (hle.trans hm) hlen hd
  | device hk he hl hm hfit =>
    obtain ⟨hk', hke⟩ := source hk
    have hle := ht.get?_eq (FileSystem.location?_of_openForWriting hl ht.linkFree)
    exact .device hk' (hke.trans he) (ht.openForWriting_eq.trans hl) (hle.trans hm) (hst ▸ hfit)

theorem Settled.exists_locations (h : c.Settled fs) (hl : fs.LinkFree) :
    ∃ k l, c.source.location? fs.cwd = some k ∧ fs.get? k ≠ none ∧
      c.target.location? fs.cwd = some l ∧ fs.get? l ≠ none := by
  cases h with
  | @matching k l _ _ _ _ hk he _ ht hm =>
    exact ⟨k, l, (FileSystem.openForReading_leads hk).location? hl, by simp [he],
      (FileSystem.openForReading_leads ht).location? hl, by simp [hm]⟩
  | @device k l _ _ _ hk he ht hm =>
    exact ⟨k, l, (FileSystem.openForReading_leads hk).location? hl, by simp [he],
      FileSystem.location?_of_openForWriting ht hl, by simp [hm]⟩

/-- The file that a copy has written can be read, since its source could. -/
theorem settled_of_put (hl : fs.LinkFree) (hu : c.Upright)
    (hk : fs.openForReading c.source = .ok k) (hs : fs.get? k = some (.file m s))
    (hw : fs.openForWriting c.target = .ok l) (hlk : l ≠ k) :
    c.Settled (fs.put l (.file (fs.written m s) s)) := by
  generalize hF : fs.put l (.file (fs.written m s) s) = F
  have hput := FileSystem.get?_put_of_open hw (.file (fs.written m s) s)
  have hcwd := fs.put_cwd l (.file (fs.written m s) s)
  have huser := FileSystem.user_eq (fs.put_system l (.file (fs.written m s) s))
  have hl' := hl.put l (e := .file (fs.written m s) s) (by simp)
  have htarget := FileSystem.locate_put_of_open hl hu.absolute hu.target hw
    (.file (fs.written m s) s) (by simp)
  rw [hF] at hput hcwd huser hl' htarget
  have hFl : F.get? l = some (.file (fs.written m s) s) := by rw [hput, if_pos rfl]
  have hsource : fs.Agree F c.source := by
    refine ⟨hl, hl', hcwd, huser, hu.source, k,
      (FileSystem.openForReading_leads hk).location? hl, ?_⟩
    intro y hy
    rw [hput, if_neg]
    rintro rfl
    obtain ⟨-, -, hd, -⟩ := FileSystem.openForWriting_spells hw hl hu.absolute hu.target
    exact hd (FileSystem.isDirectory_of_suffix (by simp [hs]) hy hlk)
  have hread : F.permits .read l = true := by
    rw [FileSystem.permits_of_grants huser hFl hs (fs.grants_written ..)]
    exact (FileSystem.openForReading_eq_ok_iff.mp hk).2
  exact .matching (hsource.openForReading_eq.trans hk)
    (by rw [hput, if_neg (Ne.symm hlk), hs]) rfl
    (FileSystem.openForReading_eq_ok_iff.mpr ⟨htarget, hread⟩) hFl rfl rfl

theorem settled_of_perform (h : c.perform fs = (fs', .ok o)) (hl : fs.LinkFree) (hu : c.Upright)
    (hne : ∀ l, c.target.location? fs.cwd = some l → c.source.location? fs.cwd ≠ some l) :
    c.Settled fs' := by
  rcases perform_cases h with ⟨-, hup, rfl⟩ | ⟨-, -, fs₁, hm, hc⟩
  · exact settled_of_isUpToDate hup
  have hp := FileSystem.makeParents_preparedFor hm
  have hl₁ := hp.linkFree hl
  obtain ⟨l, m, s, ⟨⟨k, s', hk, hs, hcontent⟩, hw⟩, ⟨-, hfit⟩, rfl⟩ := FileSystem.copyFile_effect hc
  have hlk : l ≠ k := by
    rintro rfl
    have ht := FileSystem.location?_of_openForWriting hw hl₁
    have hs := (FileSystem.openForReading_leads hk).location? hl₁
    rw [hp.cwd] at ht hs
    exact hne l ht hs
  obtain rfl : s = s' := hcontent.trans (if_neg hlk)
  unfold FileSystem.fill
  split
  · next m' hd => exact .device hk hs hw hd hfit
  · exact settled_of_put hl₁ hu hk hs hw hlk

end Copy

open InstallRun

theorem settled_of_runCopies (h : (runCopies fs [] cs).failure = none) (hl : fs.LinkFree)
    (hu : ∀ c ∈ cs, c.Upright) (ha : Apart fs.cwd cs) :
    ∀ c ∈ cs, c.Settled (runCopies fs [] cs).fs := by
  induction cs generalizing fs with
  | nil => exact fun c hc => absurd hc List.not_mem_nil
  | cons c cs ih =>
    have huc := hu c List.mem_cons_self
    have hucs : ∀ c' ∈ cs, c'.Upright := fun c' hc' => hu c' (List.mem_cons_of_mem c hc')
    have hsc := ha.sources c List.mem_cons_self c List.mem_cons_self
    obtain ⟨fs₁, o, hc, h⟩ := exists_of_runCopies_cons h
    rw [runCopies_cons_ok hc]
    obtain ⟨h₁, -⟩ := Copy.perform_installs hc hl huc.target hsc
    have hl₁ := h₁.linkFree hl
    have ha₁ : Apart fs₁.cwd cs := h₁.cwd ▸ ha.tail
    obtain ⟨h₂, -⟩ := runCopies_installs h hl₁ ha₁
    have hg := h₂.grownBut hl₁ fun c' hc' =>
      ⟨hucs c' hc', (((runCopies_succeeds_iff hl₁ hucs ha₁).mp h).1 c' hc').ready⟩
    intro c' hc'
    rcases List.mem_cons.mp hc' with rfl | hc'
    · -- the others neither write its target nor its source
      have hset := Copy.settled_of_perform hc hl huc hsc
      obtain ⟨k, l, hk, hke, ht, hte⟩ := hset.exists_locations hl₁
      refine hset.congr (FileSystem.storage_eq h₂.system) (hg.agree huc.source hk hke ?_) (hg.agree huc.target ht hte ?_)
      · rintro ⟨d, hd, hdk⟩
        rw [h₁.cwd] at hk hdk
        exact ha.sources d (List.mem_cons_of_mem _ hd) c' List.mem_cons_self k hdk hk
      · rintro ⟨d, hd, hdl⟩
        rw [h₁.cwd] at ht hdl
        exact (List.pairwise_cons.mp ha.targets).1 d hd l ht hdl
    · exact ih h hl₁ hucs ha₁ c' hc'

theorem runCopies_of_settled (hs : ∀ c ∈ cs, c.Settled fs) (hl : fs.LinkFree)
    (hu : ∀ c ∈ cs, c.Upright) :
    (runCopies fs [] cs).failure = none ∧ (runCopies fs [] cs).fs = fs := by
  induction cs with
  | nil => exact ⟨rfl, rfl⟩
  | cons c cs ih =>
    obtain ⟨o, ho⟩ := (hs c List.mem_cons_self).perform hl (hu c List.mem_cons_self)
    rw [runCopies_cons_ok ho]
    exact ih (fun c' hc' => hs c' (List.mem_cons_of_mem c hc'))
      fun c' hc' => hu c' (List.mem_cons_of_mem c hc')

end StagedInstall
