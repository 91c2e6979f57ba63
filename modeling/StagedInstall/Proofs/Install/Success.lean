import StagedInstall.Proofs.FileSystem.Directories
import StagedInstall.Proofs.Install.Copies

/-! # When a copy succeeds

A copy succeeds when it gets as far as opening its files and the storage takes what it writes
(`Copy.succeeds_iff`). In a tree without links the former depends on the way to its source, and on
the way to its target as far as that exists. So the copy still succeeds in a tree that has new
directories on these ways (`Copy.Succeeds.extend`), and it would have succeeded without them if the
user may make them (`Copy.Succeeds.retract`).
-/

namespace StagedInstall

variable {fs fs' fs₁ : FileSystem} {p q : Path} {l x : Location} {c : Copy}

namespace FileSystem

theorem Extends.agree (h : fs.Extends fs') (hl : fs.LinkFree) (hl' : fs'.LinkFree)
    (hp : .parent ∉ p.components) (hpl : p.location? fs.cwd = some l) (hx : fs.get? l ≠ none) :
    fs.Agree fs' p :=
  ⟨hl, hl', h.cwd, h.user, hp, l, hpl, fun _ hy => h.get?_eq (get?_suffix_ne_none hx hy)⟩

theorem Filled.extend (h : fs.Filled l fs') : fs.Extends fs' := by
  refine ⟨h.cwd, user_eq h.system, ?_⟩
  intro x e hx
  rw [h.get?_of_ne_none (by simp [hx]), hx]

theorem Approachable.congr (h : fs.Approachable l) (hu : fs'.user = fs.user)
    (hl : ∀ y, y <:+ l → fs'.get? y = fs.get? y) : fs'.Approachable l := by
  constructor
  · intro n y hy hget
    have he := hl y ((List.suffix_cons n y).trans hy)
    obtain ⟨hd, hs⟩ := h.search n y hy (he ▸ hget)
    exact ⟨(isDirectory_congr he).mpr hd, (permits_congr hu he _).trans hs⟩
  · intro n y hy hget hn
    have he := hl y ((List.suffix_cons n y).trans hy)
    rw [permitsChange_congr hu he]
    exact h.change n y hy (he ▸ hget) (hl (n :: y) hy ▸ hn)

theorem openForWriting_spells (h : fs.openForWriting p = .ok l) (hl : fs.LinkFree)
    (ha : p.isAbsolute = true) (hp : .parent ∉ p.components) :
    p.Spells l ∧ fs.Passable [] p.steps ∧ ¬ fs.IsDirectory l ∧
      ∀ n d, l = n :: d → fs.get? l = none → fs.permitsChange d = true := by
  have hspells {x : Place} (hx : fs.place .creating p = .ok x) :
      p.Spells l ∧ fs.Passable [] p.steps := by
    obtain ⟨hr, hpass, -⟩ := (place_eq_ok_iff hl (.inl rfl)).mp (place_existing hx)
    rw [start, if_pos ha] at hpass
    exact ⟨Path.spells_of_location? ha hp hr (location?_of_openForWriting h hl), hpass⟩
  rcases openForWriting_eq_ok_iff.mp h with ⟨hx, hd, -⟩ | ⟨d, n, rfl, hx, hc⟩
  · obtain ⟨hsp, hpass⟩ := hspells hx
    refine ⟨hsp, hpass, hd, ?_⟩
    intro _ _ _ hn
    obtain ⟨-, e, he, -⟩ := place_leads hx
    cases hn.symm.trans he
  · obtain ⟨hsp, hpass⟩ := hspells hx
    refine ⟨hsp, hpass, not_isDirectory_of_none (place_leads hx).2.2, ?_⟩
    intro n' d' he _
    cases he
    exact hc

end FileSystem

namespace Copy

/-- The copy is carried out, or its target is up to date. -/
def Succeeds (c : Copy) (fs : FileSystem) : Prop := ∃ fs' o, c.perform fs = (fs', .ok o)

/-- The target is absolute, and neither path has `..` in it. -/
structure Upright (c : Copy) : Prop where
  absolute : c.target.isAbsolute = true
  target : .parent ∉ c.target.components
  source : .parent ∉ c.source.components

def Ready (c : Copy) (fs : FileSystem) : Prop :=
  c.isUpToDate fs = .ok true ∨ ∃ fs₁ l m s, c.isUpToDate fs = .ok false ∧
    fs.makeParents c.target = (fs₁, none) ∧ fs₁.OpensBoth c.source c.target l m s

def Fits (c : Copy) (fs : FileSystem) : Prop :=
  c.isCurrent fs = false → ∀ l m s, c.target.location? fs.cwd = some l →
    fs.entryAt? c.source = some (.file m s) → fs.Accepts l s

theorem Succeeds.ready (h : c.Succeeds fs) : c.Ready fs := by
  obtain ⟨fs', o, h⟩ := h
  rcases perform_cases h with ⟨-, hu, -⟩ | ⟨-, hu, fs₁, hm, hc⟩
  · exact .inl hu
  · obtain ⟨l, m, s, ho, -, -⟩ := FileSystem.copyFile_effect hc
    exact .inr ⟨fs₁, l, m, s, hu, hm, ho⟩

theorem succeeds_iff (hl : fs.LinkFree) (hu : c.Upright)
    (hne : ∀ l, c.target.location? fs.cwd = some l → c.source.location? fs.cwd ≠ some l) :
    c.Succeeds fs ↔ c.Ready fs ∧ c.Fits fs := by
  constructor
  · intro h
    refine ⟨h.ready, ?_⟩
    intro hcur l m s htl hse
    obtain ⟨fs', o, h⟩ := h
    rcases perform_cases h with ⟨-, hup, -⟩ | ⟨-, hup, fs₁, hm, hc⟩
    · cases hcur.symm.trans (isCurrent_eq (isFile_of_isUpToDate hup) hup hl)
    · have hg := FileSystem.makeParents_grownFor hm hl hu.target
      obtain ⟨l', m', s', ho, ha, -⟩ := FileSystem.copyFile_effect hc
      obtain ⟨htl', hse'⟩ := opens_of_grownFor hg hl ho hne
      cases htl.symm.trans htl'
      cases hse.symm.trans hse'
      exact ha.eased (.of_eq (FileSystem.storage_eq hg.system).symm) fun _ => hg.device_iff.symm
  · rintro ⟨hup | ⟨fs₁, l, m, s, hup, hm, ho⟩, hf⟩
    · exact ⟨fs, .upToDate, by rw [perform, hup]⟩
    · have hg := FileSystem.makeParents_grownFor hm hl hu.target
      obtain ⟨htl, hse⟩ := opens_of_grownFor hg hl ho hne
      have ha := hf (isCurrent_eq_false hup hl hg ho.target) l m s htl hse
      have ha₁ := ha.eased (.of_eq (FileSystem.storage_eq hg.system)) fun _ => hg.device_iff
      refine ⟨fs₁.fill l (.file (fs₁.written m s) s), .copied, ?_⟩
      rw [perform, hup]
      simp only [hm, FileSystem.copyFile_of_accepts ho ha₁]

theorem Fits.congr (h : c.Fits fs) (hst : fs.storage.Eases fs'.storage) (hcwd : fs'.cwd = fs.cwd)
    (hc : c.isCurrent fs' = c.isCurrent fs)
    (hs : ∀ m s, fs'.entryAt? c.source = some (.file m s) ↔
      fs.entryAt? c.source = some (.file m s))
    (ht : ∀ m, fs'.entryAt? c.target = some (.device m) ↔
      fs.entryAt? c.target = some (.device m)) : c.Fits fs' := by
  intro hcur l m s htl hse
  have htl' : c.target.location? fs.cwd = some l := hcwd ▸ htl
  refine (h (hc ▸ hcur) l m s htl' ((hs m s).mp hse)).eased hst fun m' => ?_
  rw [← FileSystem.entryAt?_of_location? htl', ← FileSystem.entryAt?_of_location? htl]
  exact ht m'

theorem Fits.extend (h : c.Fits fs) (hst : fs.storage.Eases fs'.storage) (hcwd : fs'.cwd = fs.cwd)
    (hs : fs.Keeps fs' c.source) (ht : fs.Keeps fs' c.target) : c.Fits fs' :=
  h.congr hst hcwd (isCurrent_congr ht hs) (fun _ _ => hs.entryAt?_iff (by simp))
    fun _ => ht.entryAt?_iff (by simp)

theorem Fits.retract (h : c.Fits fs') (hst : fs'.storage.Eases fs.storage) (hcwd : fs'.cwd = fs.cwd)
    (hs : fs.Keeps fs' c.source) (ht : fs.Keeps fs' c.target) : c.Fits fs :=
  h.congr hst hcwd.symm (isCurrent_congr ht hs).symm
    (fun _ _ => (hs.entryAt?_iff (by simp)).symm) fun _ => (ht.entryAt?_iff (by simp)).symm

/-- Where the target of a copy that is ready is: at no directory, and all that exists on the way to
it are directories where the user may go on. -/
theorem Ready.target (h : c.Ready fs) (hl : fs.LinkFree) (hu : c.Upright) :
    ∃ l, c.target.Spells l ∧ c.target.Named ∧ ¬ fs.IsDirectory l ∧ fs.Approachable l := by
  rcases h with hup | ⟨fs₁, l, m, s, -, hm, ho⟩
  · obtain ⟨m, t, ht⟩ := FileSystem.isFile_eq_true_iff.mp (isFile_of_isUpToDate hup)
    obtain ⟨hr, hpass, l, hl', hlt⟩ := (FileSystem.stat_eq_ok_iff hl).mp ht
    rw [FileSystem.start, if_pos hu.absolute] at hpass
    have hsp := Path.spells_of_location? hu.absolute hu.target hr hl'
    have hd := FileSystem.not_isDirectory hlt rfl
    obtain ⟨hn, hs⟩ := FileSystem.named_of_passable hsp hpass hd
    refine ⟨l, hsp, hn, hd, fun n y hy _ => hs n y hy, ?_⟩
    intro n y hy _ hny
    exact absurd hny (FileSystem.get?_suffix_ne_none (by simp [hlt]) hy)
  · have hp := FileSystem.makeParents_preparedFor hm
    obtain ⟨hsp, hpass, hd, hchange⟩ :=
      FileSystem.openForWriting_spells ho.target (hp.linkFree hl) hu.absolute hu.target
    obtain ⟨hn, hs⟩ := FileSystem.named_of_passable hsp hpass hd
    refine ⟨l, hsp, hn, fun h => hd (hp.extend.isDirectory h), ?_, ?_⟩
    · intro n y hy hget
      have he := hp.extend.get?_eq hget
      obtain ⟨hdir, hsearch⟩ := hs n y hy
      exact ⟨(FileSystem.isDirectory_congr he).mp hdir,
        (FileSystem.permits_congr hp.user he _).symm.trans hsearch⟩
    · intro n y hy hget hny
      have he := hp.extend.get?_eq hget
      rcases hp.get? (n :: y) with hx | ⟨-, -, hc, -⟩
      · -- nothing was made there, so it is the file itself that is missing
        obtain rfl : n :: y = l := by
          by_contra hne
          obtain ⟨m', hm'⟩ := FileSystem.exists_cons_suffix hy hne
          obtain ⟨q, hq⟩ := (hs m' (n :: y) hm').1
          cases (hx.symm.trans hq).symm.trans hny
        rw [← FileSystem.permitsChange_congr hp.user he]
        exact hchange n y rfl (hx.trans hny)
      · exact hc ((FileSystem.isDirectory_congr he).mp (hs n y hy).1)

theorem Ready.not_isDirectory (h : c.Ready fs) (hl : fs.LinkFree) (hu : c.Upright)
    (hx : c.target.location? fs.cwd = some x) : ¬ fs.IsDirectory x := by
  obtain ⟨l, hsp, -, hd, -⟩ := h.target hl hu
  cases hx.symm.trans (hsp.location? fs.cwd)
  exact hd

theorem Ready.approachable (h : c.Ready fs) (hl : fs.LinkFree) (hu : c.Upright)
    (hx : c.target.location? fs.cwd = some x) : fs.Approachable x := by
  obtain ⟨l, hsp, -, -, ha⟩ := h.target hl hu
  cases hx.symm.trans (hsp.location? fs.cwd)
  exact ha

theorem Ready.source (h : c.Ready fs) (hl : fs.LinkFree) :
    ∃ k, c.source.location? fs.cwd = some k ∧ fs.get? k ≠ none ∧ ¬ fs.IsDirectory k := by
  rcases h with hu | ⟨fs₁, l, m, s, -, hm, ⟨o, s', hr, hs, -⟩, -⟩
  · obtain ⟨l, m, t, k, e, -, -, hk, he, hb⟩ := isUpToDate_of_isFile (isFile_of_isUpToDate hu) hu
    obtain ⟨s, hs, -⟩ := hb.mp rfl
    refine ⟨k, hk.location? hl, by simp [he], ?_⟩
    rintro ⟨q, hq⟩
    cases he.symm.trans hq
    cases hs
  · have hp := FileSystem.makeParents_preparedFor hm
    have ho : fs.get? o = some (.file m s') := by
      rcases hp.get? o with he | ⟨-, he, -⟩
      · exact he.symm.trans hs
      · cases hs.symm.trans he
    have hko := (FileSystem.openForReading_leads hr).location? (hp.linkFree hl)
    rw [hp.cwd] at hko
    exact ⟨o, hko, by simp [ho], FileSystem.not_isDirectory ho rfl⟩

theorem isUpToDate_eq (hs : fs.Agree fs' c.source) (ht : fs.Agree fs' c.target) :
    c.isUpToDate fs' = c.isUpToDate fs := by
  simp only [isUpToDate, FileSystem.sameContent, FileSystem.hashFile, ht.isFile_eq, ht.stat_eq,
    ht.readFile_eq, hs.stat_eq, hs.readFile_eq]

/-- Where a target that exists is found again, and the source, the copy is ready again. -/
theorem Ready.of_agree (h : c.Ready fs) (hu : c.Upright) (hs : fs.Agree fs' c.source)
    (ht : fs.Agree fs' c.target) (htl : c.target.location? fs.cwd = some l)
    (hx : fs.get? l ≠ none) : c.Ready fs' := by
  have hl := hs.linkFree
  obtain ⟨k, hsp, hn, -, ha⟩ := h.target hl hu
  obtain ⟨-, n, d, -, -, -, rfl⟩ := hsp.exists_steps hn
  cases htl.symm.trans (hsp.location? fs.cwd)
  rcases h with hup | ⟨fs₁, l, m, s, hup, hm, ⟨o, s', hr, hos, hso⟩, hw⟩
  · exact .inl ((isUpToDate_eq hs ht).trans hup)
  · -- no directory is made in either tree
    have hg := FileSystem.makeParents_grownFor hm hl hu.target
    obtain rfl := hg.eq_of_taken htl hx
    obtain ⟨k, hk, hget⟩ := ht.entries
    cases htl.symm.trans hk
    have hx' : fs'.get? (n :: d) ≠ none := hget _ List.suffix_rfl ▸ hx
    obtain ⟨fs₂, hm₂, -⟩ :=
      FileSystem.makeParents_filled hs.linkFree' hsp (ha.congr hs.user hget)
    have hg₂ := FileSystem.makeParents_grownFor hm₂ hs.linkFree' hu.target
    obtain rfl := hg₂.eq_of_taken (hsp.location? _) hx'
    have hos₂ : fs₂.get? o = some (.file m s') :=
      (hs.get?_eq ((FileSystem.openForReading_leads hr).location? hl)).trans hos
    exact .inr ⟨fs₂, l, m, s, (isUpToDate_eq hs ht).trans hup, hm₂,
      ⟨o, s', hs.openForReading_eq.trans hr, hos₂, hso⟩, ht.openForWriting_eq.trans hw⟩

theorem isUpToDate_of_missing (hl : fs.LinkFree) (ht : c.target.location? fs.cwd = some l)
    (hx : fs.get? l = none) : c.isUpToDate fs = .ok false := by
  have hf : ¬ fs.isFile c.target = true := by
    intro hf
    obtain ⟨m, t, hs⟩ := FileSystem.isFile_eq_true_iff.mp hf
    obtain ⟨-, -, k, hk, he⟩ := (FileSystem.stat_eq_ok_iff hl).mp hs
    cases ht.symm.trans hk
    cases hx.symm.trans he
  rw [isUpToDate, if_neg hf]

/-- Where the target is missing and its location can be approached, the copy is ready when the source
is found again. -/
theorem Ready.of_approachable (h : c.Ready fs) (hu : c.Upright)
    (hs : fs.Agree fs' c.source) (htl : c.target.location? fs.cwd = some l)
    (hx : fs.get? l = none) (hx' : fs'.get? l = none) (ha : fs'.Approachable l) :
    c.Ready fs' := by
  have hl := hs.linkFree
  have hl' := hs.linkFree'
  obtain ⟨k, hsp, hn, -, -⟩ := h.target hl hu
  obtain ⟨-, n, d, -, -, -, rfl⟩ := hsp.exists_steps hn
  cases htl.symm.trans (hsp.location? fs.cwd)
  obtain ⟨k, hk, hke, -⟩ := h.source hl
  rcases h with hup | ⟨fs₁, l, m, s, -, hm, ⟨o, s', hr, hos, -⟩, -⟩
  · cases hup.symm.trans (isUpToDate_of_missing hl htl hx)
  have hp := FileSystem.makeParents_preparedFor hm
  have hs₁ := hp.extend.agree hl (hp.linkFree hl) hu.source hk hke
  obtain ⟨fs₂, hm₂, hf⟩ := FileSystem.makeParents_filled hl' hsp ha
  have hke' : fs'.get? k ≠ none := hs.get?_eq hk ▸ hke
  have hs₂ := hf.extend.agree hl' (hf.linkFree hl') hu.source (hs.cwd ▸ hk) hke'
  have hr₂ : fs₂.openForReading c.source = .ok o := by
    rw [hs₂.openForReading_eq, hs.openForReading_eq, ← hs₁.openForReading_eq, hr]
  have hok : c.source.location? fs₁.cwd = some o :=
    (FileSystem.openForReading_leads hr).location? (hp.linkFree hl)
  rw [hp.cwd] at hok
  have hos₂ : fs₂.get? o = some (.file m s') := by
    rw [hs₂.get?_eq (hs.cwd ▸ hok), hs.get?_eq hok, ← hs₁.get?_eq hok, hos]
  have hx₂ : fs₂.get? (n :: d) = none := by
    rw [hf.get?_of_not_suffix, hx']
    intro hnd
    exact absurd hnd.length_le (by simp)
  have hw₂ := FileSystem.openForWriting_of_free (hf.linkFree hl') hsp hn
    (fun y hy => hf.searchable ha hy) hx₂ (hf.permitsChange ha hx')
  exact .inr ⟨fs₂, _, m, _, isUpToDate_of_missing hl' (hs.cwd ▸ htl) hx', hm₂,
    ⟨o, s', hr₂, hos₂, rfl⟩, hw₂⟩

end Copy

namespace FileSystem

/-- Outside `W` nothing differs but for new directories, and no directory was at `W`. -/
structure GrownBut (W : Location → Prop) (fs fs' : FileSystem) : Prop where
  linkFree : fs.LinkFree
  linkFree' : fs'.LinkFree
  cwd : fs'.cwd = fs.cwd
  user : fs'.user = fs.user
  written : ∀ x, W x → ¬ fs.IsDirectory x
  get? : ∀ x, ¬ W x → fs'.get? x = fs.get? x ∨
    fs.get? x = none ∧ fs'.get? x = some (.directory .newDirectory)

namespace GrownBut

variable {W : Location → Prop}

theorem get?_of_isDirectory (h : fs.GrownBut W fs') (hx : fs.IsDirectory x) :
    fs'.get? x = fs.get? x := by
  rcases h.get? x fun hw => h.written x hw hx with he | ⟨hn, -⟩
  · exact he
  · obtain ⟨m, hm⟩ := hx
    cases hn.symm.trans hm

theorem agree (h : fs.GrownBut W fs') (hp : .parent ∉ p.components)
    (hpl : p.location? fs.cwd = some l) (hx : fs.get? l ≠ none) (hw : ¬ W l) : fs.Agree fs' p := by
  refine ⟨h.linkFree, h.linkFree', h.cwd, h.user, hp, l, hpl, ?_⟩
  intro y hy
  by_cases hyl : y = l
  · subst hyl
    rcases h.get? y hw with he | ⟨hn, -⟩
    · exact he
    · exact absurd hn hx
  · exact h.get?_of_isDirectory (isDirectory_of_suffix hx hy hyl)

theorem keeps (h : fs.GrownBut W fs') (hw : ∀ l, p.location? fs.cwd = some l → ¬ W l) :
    fs.Keeps fs' p :=
  keeps_of_get? h.cwd fun l hl => h.get? l (hw l hl)

theorem approachable (h : fs.GrownBut W fs') (ha : fs.Approachable l)
    (hw : ∀ y, y <:+ l → ¬ W y) : fs'.Approachable l := by
  constructor
  · intro n y hy hget
    rcases h.get? y (hw y ((List.suffix_cons n y).trans hy)) with he | ⟨-, he⟩
    · obtain ⟨hd, hs⟩ := ha.search n y hy (he ▸ hget)
      exact ⟨(isDirectory_congr he).mpr hd, (permits_congr h.user he _).trans hs⟩
    · exact searchable_of_newDirectory he
  · intro n y hy hget hn
    rcases h.get? y (hw y ((List.suffix_cons n y).trans hy)) with he | ⟨-, he⟩
    · rw [permitsChange_congr h.user he]
      apply ha.change n y hy (he ▸ hget)
      rcases h.get? (n :: y) (hw _ hy) with he' | ⟨hn', -⟩
      · exact he'.symm.trans hn
      · exact hn'
    · exact permitsChange_of_newDirectory he

/-- What can be approached through new directories could be before, if the user may make them. -/
theorem approachable_of (h : fs.GrownBut W fs') (ha : fs'.Approachable l)
    (hw : ∀ y, y <:+ l → ¬ W y)
    (hc : ∀ n y, fs.get? (n :: y) = none → fs'.get? (n :: y) = some (.directory .newDirectory) →
      fs.IsDirectory y → fs.permitsChange y = true) : fs.Approachable l := by
  have same {n : Name} {y : Location} (hy : n :: y <:+ l) (hget : fs.get? y ≠ none) :
      fs'.get? y = fs.get? y := by
    rcases h.get? y (hw y ((List.suffix_cons n y).trans hy)) with he | ⟨hn, -⟩
    · exact he
    · exact absurd hn hget
  have search {n : Name} {y : Location} (hy : n :: y <:+ l) (hget : fs.get? y ≠ none) :
      fs.Searchable y := by
    have he := same hy hget
    obtain ⟨hd, hs⟩ := ha.search n y hy (he ▸ hget)
    exact ⟨(isDirectory_congr he).mp hd, (permits_congr h.user he _).symm.trans hs⟩
  refine ⟨fun n y => search, ?_⟩
  intro n y hy hget hn
  rcases h.get? (n :: y) (hw _ hy) with he | ⟨-, hd⟩
  · rw [← permitsChange_congr h.user (same hy hget)]
    exact ha.change n y hy (same hy hget ▸ hget) (he.trans hn)
  · exact hc n y hn hd (search hy hget).1

end GrownBut

end FileSystem

namespace Copy

variable {W : Location → Prop}

theorem Ready.extend (h : c.Ready fs) (hu : c.Upright) (hg : fs.GrownBut W fs')
    (hs : ∀ k, c.source.location? fs.cwd = some k → ¬ W k)
    (ht : ∀ l, c.target.location? fs.cwd = some l →
      (∀ y, y <:+ l → ¬ W y) ∧ ¬ fs'.IsDirectory l) : c.Ready fs' := by
  obtain ⟨k, hk, hke, -⟩ := h.source hg.linkFree
  obtain ⟨l, hsp, -, -, ha⟩ := h.target hg.linkFree hu
  have hl := hsp.location? fs.cwd
  obtain ⟨hw, hd⟩ := ht l hl
  have hsource := hg.agree hu.source hk hke (hs k hk)
  by_cases hx : fs.get? l = none
  · have hx' : fs'.get? l = none := by
      rcases hg.get? l (hw l List.suffix_rfl) with he | ⟨-, he⟩
      · exact he.trans hx
      · exact absurd ⟨_, he⟩ hd
    exact h.of_approachable hu hsource hl hx hx' (hg.approachable ha hw)
  · exact h.of_agree hu hsource (hg.agree hu.target hl hx (hw l List.suffix_rfl)) hl hx

theorem Ready.retract (h : c.Ready fs') (hu : c.Upright) (hg : fs.GrownBut W fs')
    (hs : ∀ k, c.source.location? fs.cwd = some k → ¬ W k)
    (ht : ∀ l, c.target.location? fs.cwd = some l → ∀ y, y <:+ l → ¬ W y)
    (hc : ∀ n y, fs.get? (n :: y) = none → fs'.get? (n :: y) = some (.directory .newDirectory) →
      fs.IsDirectory y → fs.permitsChange y = true) : c.Ready fs := by
  have same {k : Location} (hk : ¬ W k) (hd : ¬ fs'.IsDirectory k) :
      fs'.get? k = fs.get? k := by
    rcases hg.get? k hk with he | ⟨-, he⟩
    · exact he
    · exact absurd ⟨_, he⟩ hd
  obtain ⟨k, hk, hke, hkd⟩ := h.source hg.linkFree'
  rw [hg.cwd] at hk
  obtain ⟨l, hsp, -, hd, ha⟩ := h.target hg.linkFree' hu
  have hl := hsp.location? fs.cwd
  have hw := ht l hl
  have hsource := hg.agree hu.source hk (same (hs k hk) hkd ▸ hke) (hs k hk)
  have hsame := same (hw l List.suffix_rfl) hd
  have hl' := hsp.location? fs'.cwd
  by_cases hx : fs.get? l = none
  · exact h.of_approachable hu hsource.symm hl' (hsame.trans hx) hx
      (hg.approachable_of ha hw hc)
  · exact h.of_agree hu hsource.symm (hg.agree hu.target hl hx (hw l List.suffix_rfl)).symm hl'
      (hsame ▸ hx)

section Succeeds

variable (hu : c.Upright) (hg : fs.GrownBut W fs')
  (hne : ∀ l, c.target.location? fs.cwd = some l → c.source.location? fs.cwd ≠ some l)
  (hs : ∀ k, c.source.location? fs.cwd = some k → ¬ W k)

include hu hg hne hs

/-- A copy that succeeds still does when the tree has grown, but not at what it reads and not on the
way to its target, and the storage has not shrunk. -/
theorem Succeeds.extend (h : c.Succeeds fs) (hst : fs.storage.Eases fs'.storage)
    (ht : ∀ l, c.target.location? fs.cwd = some l →
      (∀ y, y <:+ l → ¬ W y) ∧ ¬ fs'.IsDirectory l) : c.Succeeds fs' := by
  obtain ⟨hr, hf⟩ := (succeeds_iff hg.linkFree hu hne).mp h
  refine (succeeds_iff hg.linkFree' hu (hg.cwd ▸ hne)).mpr ⟨hr.extend hu hg hs ht, ?_⟩
  exact hf.extend hst hg.cwd (hg.keeps hs) (hg.keeps fun l hl => (ht l hl).1 l List.suffix_rfl)

/-- A copy that succeeds in a tree that has grown would have succeeded before, if the user may make
the new directories. -/
theorem Succeeds.retract (h : c.Succeeds fs') (hst : fs'.storage.Eases fs.storage)
    (ht : ∀ l, c.target.location? fs.cwd = some l → ∀ y, y <:+ l → ¬ W y)
    (hc : ∀ n y, fs.get? (n :: y) = none → fs'.get? (n :: y) = some (.directory .newDirectory) →
      fs.IsDirectory y → fs.permitsChange y = true) : c.Succeeds fs := by
  obtain ⟨hr, hf⟩ := (succeeds_iff hg.linkFree' hu (hg.cwd ▸ hne)).mp h
  refine (succeeds_iff hg.linkFree hu hne).mpr ⟨hr.retract hu hg hs ht hc, ?_⟩
  exact hf.retract hst hg.cwd (hg.keeps hs) (hg.keeps fun l hl => ht l hl l List.suffix_rfl)

end Succeeds

end Copy

end StagedInstall
