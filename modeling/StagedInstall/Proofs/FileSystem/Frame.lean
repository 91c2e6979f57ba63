import StagedInstall.Proofs.FileSystem.Persistence

/-! # What may change

Making the directories above some files, writing those files and changing their permissions
changes nothing else (`ChangesOnly`). Such changes can follow each other, since none of them leads
a path elsewhere (`ChangesOnly.trans`).
-/

namespace StagedInstall.FileSystem

variable {T : Path → Prop} {fs fs' : FileSystem} {p q : Path} {l x : Location}

/-- What can become of a location: it is as it was, a missing directory above one of the files was
made there, or one of the files was written there or had its permissions changed. -/
inductive ChangeAt (T : Path → Prop) (fs fs' : FileSystem) (x : Location) : Prop
  | kept : fs'.get? x = fs.get? x → ChangeAt T fs fs' x
  | made {p q : Path} : T p → q.Above p → fs'.LeadsTo q x → fs.get? x = none →
      fs'.get? x = some (.directory .newDirectory) → ChangeAt T fs fs' x
  | written {p : Path} : T p → fs'.LeadsTo p x → fs.get? x = none ∨ fs.HasLeaf x →
      fs'.HasLeaf x → ChangeAt T fs fs' x

/-- Nothing changes but for the files that the paths of `T` lead to, and the directories that are
missing above them. -/
structure ChangesOnly (T : Path → Prop) (fs fs' : FileSystem) : Prop where
  cwd : fs'.cwd = fs.cwd
  system : fs'.system = fs.system
  changes : ∀ x, ChangeAt T fs fs' x

theorem HasLeaf.ne_none (h : fs.HasLeaf l) : fs.get? l ≠ none := by
  obtain ⟨e, he, -⟩ := h
  simp [he]

theorem HasLeaf.not_isDirectory (h : fs.HasLeaf l) : ¬ fs.IsDirectory l := by
  obtain ⟨e, he, hl⟩ := h
  rintro ⟨m, hm⟩
  cases he.symm.trans hm
  cases hl

theorem HasLeaf.congr (h : fs.HasLeaf l) (he : fs'.get? l = fs.get? l) : fs'.HasLeaf l := by
  obtain ⟨e, hl, hleaf⟩ := h
  exact ⟨e, he.trans hl, hleaf⟩

theorem ChangeAt.trans {fs'' : FileSystem} (h : ChangeAt T fs fs' x) (h' : ChangeAt T fs' fs'' x)
    (hp : fs'.Persists fs'') : ChangeAt T fs fs'' x := by
  cases h with
  | kept he =>
    cases h' with
    | kept he' => exact .kept (he'.trans he)
    | made hT hq hl hn hd => exact .made hT hq hl (he ▸ hn) hd
    | written hT hl hfs hfs' => exact .written hT hl (he ▸ hfs.imp_right (·.congr he.symm)) hfs'
  | made hT hq hl hn hd =>
    have hdir : fs'.IsDirectory x := ⟨_, hd⟩
    cases h' with
    | kept he' => exact .made hT hq (hp.leadsTo hl) hn (he'.trans hd)
    | made _ _ _ hn' => cases hd.symm.trans hn'
    | written _ _ hfs' _ =>
      rcases hfs' with hn' | hleaf
      · cases hd.symm.trans hn'
      · exact absurd hdir hleaf.not_isDirectory
  | written hT hl hfs hfs' =>
    cases h' with
    | kept he' => exact .written hT (hp.leadsTo hl) hfs (hfs'.congr he')
    | made _ _ _ hn' => exact absurd hn' hfs'.ne_none
    | written hT' hl' _ hfs'' => exact .written hT' hl' hfs hfs''

namespace ChangesOnly

theorem refl (T : Path → Prop) (fs : FileSystem) : ChangesOnly T fs fs :=
  ⟨rfl, rfl, fun _ => .kept rfl⟩

theorem persists (h : ChangesOnly T fs fs') : fs.Persists fs' := by
  refine ⟨h.cwd, user_eq h.system, ?_⟩
  intro x e he
  cases h.changes x with
  | kept hx => exact .inl (hx.trans he)
  | made _ _ _ hn => cases he.symm.trans hn
  | written _ _ hfs hfs' =>
    rcases hfs with hn | ⟨e', he', hleaf⟩
    · cases he.symm.trans hn
    · cases he.symm.trans he'
      exact .inr ⟨hleaf, hfs'⟩

theorem trans {fs'' : FileSystem} (h : ChangesOnly T fs fs') (h' : ChangesOnly T fs' fs'') :
    ChangesOnly T fs fs'' :=
  ⟨h'.cwd.trans h.cwd, h'.system.trans h.system,
    fun x => (h.changes x).trans (h'.changes x) h'.persists⟩

end ChangesOnly

theorem PreparedFor.changesOnly (h : fs.PreparedFor p fs') (hp : T p) :
    ChangesOnly T fs fs' := by
  refine ⟨h.cwd, h.system, ?_⟩
  intro x
  rcases h.get? x with he | ⟨hn, hd, -, q, hq, hl⟩
  · exact .kept he
  · exact .made hp hq hl hn hd

theorem changesOnly_of_fill {m : Permissions} {content : Bytes}
    (h : fs.openForWriting p = .ok l) (hp : T p) :
    ChangesOnly T fs (fs.fill l (.file m content)) := by
  obtain ⟨hpersist, hleaf⟩ := persists_of_fill (m := m) (s := content) h
  refine ⟨fill_cwd .., fill_system .., ?_⟩
  intro x
  by_cases hx : x = l
  · subst hx
    refine .written hp (locate_leads (locate_of_written h hpersist hleaf)).1 ?_ hleaf
    rcases he : fs.get? x with _ | e
    · exact .inl rfl
    · exact .inr ⟨e, he, isLeaf_of_openForWriting h he⟩
  · exact .kept ((get?_fill_of_opened h _ x).trans (if_neg fun hn => hx hn.1))

/-- A permission change of a file changes that file only, whatever the spelling by which the file
is known to be there. -/
theorem changesOnly_of_setMode {m : Mode} (h : fs.setMode p m = .ok fs') (hr : fs.Reaches q)
    (hs : q.Same p) (hp : T p) : ChangesOnly T fs fs' := by
  obtain ⟨l, e, hl, he, -, hc, hu, hk⟩ := setMode_effect h
  obtain ⟨k, hqk, hleaf⟩ := hr
  obtain rfl : k = l := (locate_leads hqk).1.eq_of_same hl hs
  refine ⟨hc, hu, ?_⟩
  intro x
  by_cases hx : x = k
  · subst hx
    refine .written hp ((setMode_sameShape h).leadsTo hl) (.inr hleaf) ?_
    obtain ⟨e', he', hleaf⟩ := hleaf
    cases he.symm.trans he'
    exact ⟨_, (hk x).trans (if_pos rfl), by rw [Entry.isLeaf_withPermissions, hleaf]⟩
  · exact .kept ((hk x).trans (if_neg hx))

end StagedInstall.FileSystem
