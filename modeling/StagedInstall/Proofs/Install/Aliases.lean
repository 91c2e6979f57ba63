import StagedInstall.Proofs.FileSystem.Respelling
import StagedInstall.Proofs.Install.Made
import StagedInstall.Proofs.Install.Schedules
import StagedInstall.Proofs.Install.StagedChmods

/-! # Targets that meet in one file

A copy writes the one file to which its target leads (`Copy.exists_places`), and a file to which no
other target leads stays as that copy left it (`InstallRun.runCopies_supplies`). Where all targets
that denote a file are spelled alike, only one copy is made to it, that of the first registration,
so the first registration wins in whatever order the copies are made
(`ActionGraph.execute_aliases`). Where they are not, it need not (`ActionGraph.later_spelling_wins`).
-/

namespace StagedInstall

/-- `a` is the first element of the list that satisfies `p`. -/
def IsFirst {α : Type} (p : α → Prop) (l : List α) (a : α) : Prop :=
  ∃ pre post, l = pre ++ a :: post ∧ p a ∧ ∀ b ∈ pre, ¬ p b

variable {fs fs' fs₁ F : FileSystem} {c d : Copy} {cs : List Copy} {o : CopyOutcome}
  {l k x : Location} {s t : Bytes} {m : Permissions} {e : Entry}

namespace FileSystem

def contentAt? (fs : FileSystem) (l : Location) : Option Bytes := (fs.get? l).bind Entry.content?

theorem contentAt?_of_get? (h : fs.get? l = some e) : fs.contentAt? l = e.content? := by
  rw [contentAt?, h, Option.bind_some]

/-- What stood at a location still stands there; where nothing stood, there may be a directory. -/
def KeptAt (fs fs' : FileSystem) (x : Location) : Prop :=
  fs'.get? x = fs.get? x ∨ fs.get? x = none ∧ fs'.IsDirectory x

namespace KeptAt

theorem trans (h : fs.KeptAt fs₁ x) (h' : fs₁.KeptAt fs' x) : fs.KeptAt fs' x := by
  rcases h' with he' | ⟨hn', hd'⟩
  · rcases h with he | ⟨hn, hd⟩
    · exact .inl (he'.trans he)
    · exact .inr ⟨hn, (isDirectory_congr he').mpr hd⟩
  · rcases h with he | ⟨-, hd⟩
    · exact .inr ⟨he.symm.trans hn', hd'⟩
    · exact absurd hd (not_isDirectory_of_none hn')

theorem get?_eq (h : fs.KeptAt fs' x) (he : fs.get? x = some e) : fs'.get? x = some e := by
  rcases h with h | ⟨hn, -⟩
  · exact h.trans he
  · cases hn.symm.trans he

theorem contentAt?_iff (h : fs.KeptAt fs' x) :
    fs'.contentAt? x = some s ↔ fs.contentAt? x = some s := by
  rcases h with he | ⟨hn, m, hm⟩
  · rw [FileSystem.contentAt?, he, FileSystem.contentAt?]
  · rw [FileSystem.contentAt?, hm, FileSystem.contentAt?, hn]
    simp [Entry.content?]

end KeptAt

theorem PreparedFor.keptAt {p : Path} (h : fs.PreparedFor p fs') (x : Location) :
    fs.KeptAt fs' x :=
  (h.get? x).imp_right fun ⟨hn, hd, _⟩ => ⟨hn, _, hd⟩

end FileSystem

namespace Copy

/-- A copy that succeeds has written at most at `l`, where its target leads. It leaves the bytes
that stood at `k`, where its source leads, or others of the same length and digest that it found
there; a device stays. -/
structure Places (c : Copy) (fs fs' : FileSystem) (l k : Location) : Prop where
  persists : fs.Persists fs'
  target : fs'.LeadsTo c.target l
  source : fs'.LeadsTo c.source k
  others : ∀ x, x ≠ l → fs.KeptAt fs' x
  written : (∃ m, fs'.get? l = some (.device m)) ∨ ∃ m t, fs'.get? l = some (.file m t) ∧
    (k ≠ l → ∃ s, fs.contentAt? k = some s ∧
      (t = s ∨ fs.contentAt? l = some t ∧ t.length = s.length ∧ digest t = digest s))

theorem places_of_upToDate (h : c.isUpToDate fs = .ok true) : ∃ l k, c.Places fs fs l k := by
  obtain ⟨l, m, t, k, e, hl, hm, hk, he, hiff⟩ := isUpToDate_of_isFile (isFile_of_isUpToDate h) h
  obtain ⟨s, hs, hlen, hd⟩ := hiff.mp rfl
  refine ⟨l, k, .refl fs, hl, hk, fun x _ => .inl rfl, .inr ⟨m, t, hm, fun _ => ?_⟩⟩
  exact ⟨s, (FileSystem.contentAt?_of_get? he).trans hs,
    .inr ⟨FileSystem.contentAt?_of_get? hm, hlen, hd⟩⟩

theorem places_of_copied (hm : fs.makeParents c.target = (fs₁, none))
    (hc : fs₁.copyFile c.source c.target = (fs', none)) : ∃ l k, c.Places fs fs' l k := by
  have hprep := FileSystem.makeParents_preparedFor hm
  obtain ⟨l, m, content, hopen, -, rfl⟩ := FileSystem.copyFile_effect hc
  obtain ⟨⟨k, s, hk, hfile, hcontent⟩, hl⟩ := hopen
  obtain ⟨hp, hleaf⟩ := FileSystem.persists_of_fill (m := fs₁.written m content)
    (s := content) hl
  have htarget := (FileSystem.locate_leads (FileSystem.locate_of_written hl hp hleaf)).1
  have hget := FileSystem.get?_fill_of_opened hl (.file (fs₁.written m content) content)
  have hsource := hp.leadsTo (FileSystem.openForReading_leads hk)
  refine ⟨l, k, hprep.extend.persists.trans hp, htarget, hsource, ?_, ?_⟩
  · exact fun x hx => (hprep.keptAt x).trans (.inl ((hget x).trans (if_neg fun h => hx h.1)))
  · by_cases hd : ∃ m, fs₁.get? l = some (.device m)
    · obtain ⟨m', hm'⟩ := hd
      exact .inl ⟨m', (hget l).trans ((if_neg fun h => h.2 ⟨m', hm'⟩).trans hm')⟩
    · refine .inr ⟨_, content, (hget l).trans (if_pos ⟨rfl, hd⟩), fun hne => ⟨s, ?_, .inl ?_⟩⟩
      · exact (hprep.keptAt k).contentAt?_iff.mp (FileSystem.contentAt?_of_get? hfile)
      · exact hcontent.trans (if_neg (Ne.symm hne))

theorem exists_places (h : c.perform fs = (fs', .ok o)) : ∃ l k, c.Places fs fs' l k := by
  rcases perform_cases h with ⟨-, hu, rfl⟩ | ⟨-, -, fs₁, hm, hc⟩
  · exact places_of_upToDate hu
  · exact places_of_copied hm hc

/-- At `l` stands a file with the bytes of the source, unless it held others before, of the same
length and digest. What a device was given is gone. -/
def Supplies (c : Copy) (fs F : FileSystem) (l : Location) : Prop :=
  (∃ m, F.get? l = some (.device m)) ∨ ∃ k m t s, F.LeadsTo c.source k ∧
    fs.contentAt? k = some s ∧ F.contentAt? k = some s ∧ F.get? l = some (.file m t) ∧
    (t = s ∨ fs.contentAt? l = some t ∧ t.length = s.length ∧ digest t = digest s)

/-- Where the files of a copy are left alone before its turn and after it, it supplies its target. -/
theorem Places.supplies {fs₂ : FileSystem} (h : c.Places fs₁ fs₂ l k) (hne : k ≠ l)
    (hk : F.LeadsTo c.source k) (hl₁ : fs.KeptAt fs₁ l) (hk₁ : fs.KeptAt fs₁ k)
    (hl₂ : fs₂.KeptAt F l) (hk₂ : fs₂.KeptAt F k) : c.Supplies fs F l := by
  rcases h.written with ⟨m, hm⟩ | ⟨m, t, ht, hwritten⟩
  · exact .inl ⟨m, hl₂.get?_eq hm⟩
  · obtain ⟨s, hs, hts⟩ := hwritten hne
    refine .inr ⟨k, m, t, s, hk, hk₁.contentAt?_iff.mp hs, ?_, hl₂.get?_eq ht, ?_⟩
    · exact hk₂.contentAt?_iff.mpr ((h.others k hne).contentAt?_iff.mpr hs)
    · exact hts.imp_right fun ⟨htl, hsame⟩ => ⟨hl₁.contentAt?_iff.mp htl, hsame⟩

end Copy

namespace FileSystem.SameShape

variable {G : FileSystem} {p : Path}

theorem contentAt?_eq (h : F.SameShape G) (x : Location) : G.contentAt? x = F.contentAt? x := by
  cases hx : F.get? x with
  | none => rw [contentAt?, contentAt?, hx, h.get?_eq_none hx]
  | some e =>
    obtain ⟨e', he', hb⟩ := h.get?_eq_some hx
    rw [contentAt?_of_get? he', contentAt?_of_get? hx, Entry.content?_of_bare hb]

theorem get?_eq_device (h : F.SameShape G) (hl : F.get? l = some (.device m)) :
    ∃ m', G.get? l = some (.device m') := by
  obtain ⟨e, he, hb⟩ := h.get?_eq_some hl
  cases e with
  | device m' => exact ⟨m', he⟩
  | file | directory | link => cases hb

theorem hasLeaf (h : F.SameShape G) (hl : F.HasLeaf l) : G.HasLeaf l := by
  obtain ⟨e, he, hleaf⟩ := hl
  obtain ⟨e', he', hb⟩ := h.get?_eq_some he
  refine ⟨e', he', ?_⟩
  have hbare := congrArg Entry.isLeaf hb
  rwa [Entry.bare, Entry.bare, Entry.isLeaf_withPermissions, Entry.isLeaf_withPermissions,
    hleaf] at hbare

theorem denotes_iff (h : F.SameShape G) : G.Denotes p l ↔ F.Denotes p l := by
  simp only [Denotes, h.leadsTo_iff]

end FileSystem.SameShape

def Separate (cs : List Copy) (F : FileSystem) : Prop :=
  ∀ c ∈ cs, ∀ d ∈ cs, ∀ x, F.LeadsTo c.target x → ¬ F.LeadsTo d.source x

theorem separate_of_locate (ht : ∀ c ∈ cs, F.locate c.target = .ok l)
    (hs : ∀ c ∈ cs, (F.locate c.source).toOption.any (· ≠ l) = true) : Separate cs F := by
  intro c hc d hd x hx hdx
  obtain rfl := (FileSystem.locate_leads (ht c hc)).1.unique hx
  have hd := hs d hd
  cases hl : F.locate d.source with
  | error => simp [hl, Except.toOption] at hd
  | ok k =>
    have hk : k ≠ l := by simpa [hl, Except.toOption] using hd
    exact hk ((FileSystem.locate_leads hl).1.unique hdx)

namespace InstallRun

theorem runCopies_keptAt (h : (runCopies fs [] cs).failure = none)
    (hx : ∀ c ∈ cs, ¬ (runCopies fs [] cs).fs.LeadsTo c.target x) :
    fs.KeptAt (runCopies fs [] cs).fs x := by
  induction cs generalizing fs with
  | nil => exact .inl rfl
  | cons c cs ih =>
    obtain ⟨fs₁, o, hc, h⟩ := exists_of_runCopies_cons h
    obtain ⟨l, k, hplaces⟩ := Copy.exists_places hc
    rw [runCopies_cons_ok hc] at hx ⊢
    obtain ⟨hhead, htail⟩ := List.forall_mem_cons.mp hx
    refine (hplaces.others x ?_).trans (ih h htail)
    rintro rfl
    exact hhead ((runCopies_reaches h).1.leadsTo hplaces.target)

/-- A file to which the target of one copy leads is as that copy left it. -/
theorem runCopies_supplies {pre post : List Copy}
    (h : (runCopies fs [] (pre ++ c :: post)).failure = none)
    (hs : Separate (pre ++ c :: post) (runCopies fs [] (pre ++ c :: post)).fs)
    (hl : (runCopies fs [] (pre ++ c :: post)).fs.LeadsTo c.target l)
    (hsole : ∀ d ∈ pre ++ post, ¬ (runCopies fs [] (pre ++ c :: post)).fs.LeadsTo d.target l) :
    c.Supplies fs (runCopies fs [] (pre ++ c :: post)).fs l := by
  obtain ⟨fs₂, o, hpre, hc, hrest, hF⟩ := runCopies_of_append_cons h
  rw [hF] at hs hl hsole ⊢
  obtain ⟨l', k, hplaces⟩ := Copy.exists_places hc
  have hpost := (runCopies_reaches hrest).1
  obtain rfl : l = l' := hl.unique (hpost.leadsTo hplaces.target)
  have hk := hpost.leadsTo hplaces.source
  have hbefore {x : Location} (hx : ∀ d ∈ pre, ¬ (runCopies fs₂ [] post).fs.LeadsTo d.target x) :
      fs.KeptAt (runCopies fs [] pre).fs x :=
    runCopies_keptAt hpre fun d hd hdx =>
      hx d hd (hpost.leadsTo (hplaces.persists.leadsTo hdx))
  have hsource (d : Copy) (hd : d ∈ pre ++ c :: post) :
      ¬ (runCopies fs₂ [] post).fs.LeadsTo d.target k :=
    fun hdk => hs d hd c (by simp) k hdk hk
  have hne : k ≠ l := by
    rintro rfl
    exact hsource c (by simp) hl
  refine hplaces.supplies hne hk ?_ ?_ ?_ ?_
  · exact hbefore fun d hd => hsole d (List.mem_append_left post hd)
  · exact hbefore fun d hd => hsource d (List.mem_append_left _ hd)
  · exact runCopies_keptAt hrest fun d hd => hsole d (List.mem_append_right pre hd)
  · exact runCopies_keptAt hrest fun d hd =>
      hsource d (List.mem_append_right pre (List.mem_cons_of_mem c hd))

end InstallRun

namespace ActionGraph

open InstallRun

variable {g : ActionGraph} {report : Report} {order : List Copy}

/-- All registered targets that denote what stands at `l` are spelled alike. -/
def SpelledAlike (g : ActionGraph) (F : FileSystem) (l : Location) : Prop :=
  ∀ c ∈ g.copies, ∀ d ∈ g.copies, F.Denotes c.target l → F.Denotes d.target l →
    c.target.Same d.target

/-- The copy writes the file at `l` when its turn comes, in an order of the copies that ends in `F`
but for permissions. -/
def WritesFile (g : ActionGraph) (fs F : FileSystem) (l : Location) (c : Copy) : Prop :=
  ∃ pre post, (pre ++ c :: post).Perm g.distinctCopies ∧
    (runCopies fs [] (pre ++ c :: post)).failure = none ∧
    (runCopies fs [] (pre ++ c :: post)).fs.SameShape F ∧ ∃ m s,
      (c.perform (runCopies fs [] pre).fs).1.get? l = some (.file m s) ∧
        (runCopies fs [] pre).fs.get? l ≠ some (.file m s)

/-- Each registered target denotes a file or a device. Where its targets are spelled alike, it is
the first copy registered for it that supplies it, and no other writes it. -/
structure FirstWins (g : ActionGraph) (fs F : FileSystem) : Prop where
  targets : ∀ c ∈ g.copies, ∃ l, F.Denotes c.target l ∧ (c.target.Named → F.LeadsTo c.target l) ∧
    F.HasLeaf l
  first : ∀ l d, g.SpelledAlike F l → IsFirst (fun c => F.Denotes c.target l) g.copies d →
    d.Supplies fs F l
  single : ∀ l c d, g.SpelledAlike F l → g.WritesFile fs F l c → g.WritesFile fs F l d → c = d

theorem eq_of_same (hc : c ∈ g.distinctCopies) (hd : d ∈ g.distinctCopies)
    (hs : c.target.Same d.target) : c = d :=
  List.inj_on_of_nodup_map nodup_uniqueBy hc hd hs

theorem mem_distinctCopies_of_isFirst (h : IsFirst (fun c => F.Denotes c.target l) g.copies d) :
    d ∈ g.distinctCopies := by
  obtain ⟨pre, post, hcs, hd, hpre⟩ := h
  refine mem_distinctCopies_iff.mpr ?_
  rw [first?, hcs, List.find?_eq_some_iff_append]
  refine ⟨decide_eq_true (Path.Same.refl _), pre, post, rfl, ?_⟩
  intro b hb
  have hsame : ¬ b.target.Same d.target := fun hsame => hpre b hb (hd.of_same hsame.symm)
  simp [hsame]

theorem leadsTo_of_writesFile (h : g.WritesFile fs F l c) :
    c ∈ g.distinctCopies ∧ F.LeadsTo c.target l := by
  obtain ⟨pre, post, hperm, hr, hshape, m, s, hafter, hbefore⟩ := h
  refine ⟨hperm.mem_iff.mp (by simp), hshape.leadsTo ?_⟩
  obtain ⟨fs₁, o, -, hc, hpost, hF⟩ := runCopies_of_append_cons hr
  rw [hF]
  rw [hc] at hafter
  obtain ⟨l', k, hplaces⟩ := Copy.exists_places hc
  have hl : l = l' := by
    by_contra hne
    rcases hplaces.others l hne with he | ⟨-, m', hm'⟩
    · exact hbefore (he.symm.trans hafter)
    · cases hm'.symm.trans hafter
  exact (runCopies_reaches hpost).1.leadsTo (hl ▸ hplaces.target)

theorem eq_of_spelledAlike (h : g.SpelledAlike F l) (hc : c ∈ g.distinctCopies)
    (hd : d ∈ g.distinctCopies) (hcl : F.Denotes c.target l) (hdl : F.Denotes d.target l) : c = d :=
  eq_of_same hc hd (h c (mem_of_mem_uniqueBy hc) d (mem_of_mem_uniqueBy hd) hcl hdl)

theorem firstWins_of_runCopies (hperm : order.Perm g.distinctCopies)
    (hr : (runCopies fs [] order).failure = none) (hs : Separate order (runCopies fs [] order).fs)
    (h : (runCopies fs [] order).fs.SameShape F) : g.FirstWins fs F := by
  obtain ⟨-, hreaches⟩ := runCopies_reaches hr
  constructor
  case targets =>
    intro c hc
    obtain ⟨d, hd, hsame⟩ := exists_distinctCopy_same hc
    obtain ⟨l, hl, hleaf⟩ := hreaches d (hperm.mem_iff.mpr hd)
    have hden := (h.denotes_iff.mpr (FileSystem.locate_leads hl).1.denotes).of_same hsame
    exact ⟨l, hden, hden.leadsTo, h.hasLeaf hleaf⟩
  case first =>
    intro l d halike hfirst
    have hd := mem_distinctCopies_of_isFirst hfirst
    obtain ⟨_, _, _, hden, -⟩ := hfirst
    obtain ⟨l', hl', -⟩ := hreaches d (hperm.mem_iff.mpr hd)
    have hlead := (FileSystem.locate_leads hl').1
    obtain rfl : l' = l := (h.denotes_iff.mpr hlead.denotes).unique hden
    obtain ⟨pre, post, rfl⟩ := List.append_of_mem (hperm.mem_iff.mpr hd)
    have hsole : ∀ b ∈ pre ++ post,
        ¬ (runCopies fs [] (pre ++ d :: post)).fs.LeadsTo b.target l' := by
      intro b hb hbl
      have hmem : b ∈ pre ++ d :: post :=
        List.mem_append.mpr ((List.mem_append.mp hb).imp_right (List.mem_cons_of_mem d))
      obtain rfl : b = d := eq_of_spelledAlike halike (hperm.mem_iff.mp hmem) hd
        (h.denotes_iff.mpr hbl.denotes) hden
      exact (List.nodup_middle.mp (hperm.nodup_iff.mpr g.nodup_distinctCopies)).notMem hb
    rcases runCopies_supplies hr hs hlead hsole with ⟨m, hm⟩ | ⟨k, m, t, s, hk, hsk, hF, ht, hts⟩
    · exact .inl (h.get?_eq_device hm)
    · obtain ⟨m', hm'⟩ := h.get?_eq_file ht
      exact .inr ⟨k, m', t, s, h.leadsTo hk, hsk, (h.contentAt?_eq k).trans hF, hm', hts⟩
  case single =>
    intro l c d halike hc hd
    obtain ⟨hcm, hcl⟩ := leadsTo_of_writesFile hc
    obtain ⟨hdm, hdl⟩ := leadsTo_of_writesFile hd
    exact eq_of_spelledAlike halike hcm hdm hcl.denotes hdl.denotes

theorem spelledAlike_of_linkFree (hl : F.LinkFree)
    (h : ∀ c ∈ g.copies, c.target.isAbsolute = true ∧ .parent ∉ c.target.components)
    (l : Location) : g.SpelledAlike F l := by
  have location (c : Copy) (hc : F.Denotes c.target l) : c.target.location? F.cwd = some l := by
    obtain ⟨q, hq, hql⟩ := hc
    exact (Path.location?_of_same hq F.cwd).symm.trans (hql.location? hl)
  intro c hc d hd hcl hdl
  obtain ⟨ha, hp⟩ := h c hc
  obtain ⟨ha', hp'⟩ := h d hd
  exact Path.same_of_location? ha hp ha' hp' (location c hcl) (location d hdl)

/-- When an install phase succeeds whose targets are no sources, the first registration wins for
each file whose targets are spelled alike, in whatever order the copies are made. In a tree without
links, targets that are absolute and without `..` all are. -/
theorem execute_aliases (h : g.Executes fs (.ok report) F) (hs : Separate g.copies F) :
    g.FirstWins fs F ∧
      (fs.LinkFree →
        (∀ c ∈ g.copies, c.target.isAbsolute = true ∧ .parent ∉ c.target.components) →
        ∀ l, g.SpelledAlike F l) := by
  obtain ⟨order, hperm, hr, hch, -⟩ := h.eq_ok
  have hshape := hch.sameShape
  have hs' : Separate order (runCopies fs [] order).fs := by
    intro c hc d hd x hcx hdx
    exact hs c (mem_of_mem_uniqueBy (hperm.mem_iff.mp hc)) d
      (mem_of_mem_uniqueBy (hperm.mem_iff.mp hd)) x (hshape.leadsTo hcx) (hshape.leadsTo hdx)
  refine ⟨firstWins_of_runCopies hperm hr hs' hshape, ?_⟩
  intro hl
  exact spelledAlike_of_linkFree (hshape.linkFree (runCopies_linkFree order hl))

namespace Sample

def otherName : Name := (Name.ofBytes? [0x62]).get rfl

def targetName : Name := (Name.ofBytes? [0x74]).get rfl

def files : FileSystem :=
  (FileSystem.empty.put [fileName] (.file .newFile [1])).put [otherName] (.file .newFile [1, 2])

def first : Copy := ⟨.ofString "/a", .ofString "/t"⟩

def second : Copy := ⟨.ofString "/b", .ofString "/d/../t"⟩

def meeting : ActionGraph := ⟨[.copy first, .copy second], []⟩

def respelled : ActionGraph := ⟨[.copy first, .copy ⟨.ofString "/b", .ofString "//./t"⟩], []⟩

end Sample

open Sample

theorem execute_aliases_sample :
    respelled.Executes files (.ok ⟨1, 0, 0⟩) (respelled.execute files false).fs ∧
      Separate respelled.copies (respelled.execute files false).fs ∧
      respelled.FirstWins files (respelled.execute files false).fs := by
  have hr : (respelled.execute files false).result = .ok ⟨1, 0, 0⟩ := by decide +kernel
  have h : respelled.Executes files (.ok ⟨1, 0, 0⟩) (respelled.execute files false).fs :=
    hr ▸ executes_execute respelled files
  have hs : Separate respelled.copies (respelled.execute files false).fs :=
    separate_of_locate (l := [targetName]) (by decide +kernel) (by decide +kernel)
  exact ⟨h, hs, (execute_aliases h hs).1⟩

/-- A file whose targets are spelled in different ways need not end with the first source that was
registered for it. -/
theorem later_spelling_wins :
    ¬ ∀ (g : ActionGraph) (fs F : FileSystem) (report : Report),
      g.Executes fs (.ok report) F → Separate g.copies F →
      ∀ c ∈ g.copies, ∃ l d, F.LeadsTo c.target l ∧
        IsFirst (fun c => F.LeadsTo c.target l) g.copies d ∧ d.Supplies fs F l := by
  intro h
  have hr : (meeting.execute files false).result = .ok ⟨2, 0, 0⟩ := by decide +kernel
  have hs : Separate meeting.copies (meeting.execute files false).fs :=
    separate_of_locate (l := [targetName]) (by decide +kernel) (by decide +kernel)
  obtain ⟨l, d, hl, ⟨pre, post, hcs, -, hpre⟩, hsupplies⟩ :=
    h meeting files _ ⟨2, 0, 0⟩ (hr ▸ executes_execute meeting files) hs first (by decide +kernel)
  have hfirst : pre = [] ∧ d = first := by
    cases pre with
    | nil => exact ⟨rfl, (List.cons.inj hcs).1.symm⟩
    | cons b pre => exact absurd ((List.cons.inj hcs).1 ▸ hl) (hpre b List.mem_cons_self)
  obtain ⟨-, rfl⟩ := hfirst
  have ht : (meeting.execute files false).fs.locate first.target = .ok [targetName] := by
    decide +kernel
  have ha : (meeting.execute files false).fs.locate first.source = .ok [fileName] := by
    decide +kernel
  cases (FileSystem.locate_leads ht).1.unique hl
  have hfile : (meeting.execute files false).fs.get? [targetName] =
      some (.file .newFile [1, 2]) := by decide +kernel
  rcases hsupplies with ⟨m, hm⟩ | ⟨k, m, t, s, hk, hsk, -, hft, hts⟩
  · cases hfile.symm.trans hm
  cases hfile.symm.trans hft
  cases (FileSystem.locate_leads ha).1.unique hk
  have hone : files.contentAt? [fileName] = some [1] := by decide +kernel
  cases hone.symm.trans hsk
  rcases hts with h | ⟨-, h, -⟩ <;> cases h

end ActionGraph

end StagedInstall
