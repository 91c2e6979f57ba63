import StagedInstall.Proofs.FileSystem.Removal

/-! # Removing entries by their names

Removal follows the links on the way to the last name of a path, but never that name itself
(`Names`). Since nothing is ever found that was not there before (`erase_extends`), a path whose
entry was removed leads nowhere any more (`exists?_of_removeFile`), and a path that was missing
stays so, whatever links there are.
-/

namespace StagedInstall.FileSystem

variable {fs fs' : FileSystem} {p : Path} {l x y : Location} {n : Name} {s t : List Step}
  {z : Place} {e : Entry}

/-- Steps that lead somewhere lead first to a location that the last of them are taken from. -/
theorem Leads.exists_of_append (h : fs.Leads l (s ++ t) z) (ht : t ≠ []) :
    ∃ d, fs.Leads l s (.taken d) ∧ fs.Leads d t z := by
  generalize hr : s ++ t = r at h
  induction h generalizing s with
  | done => exact absurd (List.append_eq_nil_iff.mp hr).2 ht
  | @stay l _ _ hd h ih =>
    cases s with
    | nil =>
      cases hr
      exact ⟨l, .done, .stay hd h⟩
    | cons a s =>
      cases hr
      obtain ⟨d, hs, ht⟩ := ih rfl
      exact ⟨d, .stay hd hs, ht⟩
  | @slash l _ _ hd h ih =>
    cases s with
    | nil =>
      cases hr
      exact ⟨l, .done, .slash hd h⟩
    | cons a s =>
      cases hr
      obtain ⟨d, hs, ht⟩ := ih rfl
      exact ⟨d, .slash hd hs, ht⟩
  | @up l _ _ hd h ih =>
    cases s with
    | nil =>
      cases hr
      exact ⟨l, .done, .up hd h⟩
    | cons a s =>
      cases hr
      obtain ⟨d, hs, ht⟩ := ih rfl
      exact ⟨d, .up hd hs, ht⟩
  | @free l _ hd hn =>
    cases s with
    | nil =>
      cases hr
      exact ⟨l, .done, .free hd hn⟩
    | cons a s => exact absurd (List.append_eq_nil_iff.mp (List.cons.inj hr).2).2 ht
  | @link l _ _ _ _ hd hn h ih =>
    cases s with
    | nil =>
      cases hr
      exact ⟨l, .done, .link hd hn h⟩
    | cons a s =>
      cases hr
      obtain ⟨d, hs, ht⟩ := ih (List.append_assoc ..)
      exact ⟨d, .link hd hn hs, ht⟩
  | @name l _ _ _ _ hd hn hl h ih =>
    cases s with
    | nil =>
      cases hr
      exact ⟨l, .done, .name hd hn hl h⟩
    | cons a s =>
      cases hr
      obtain ⟨d, hs, ht⟩ := ih rfl
      exact ⟨d, .name hd hn hl hs, ht⟩

/-- The place of the entry that the last name of a path stands for: links are followed on the way
to it, but that entry may itself be one. -/
def Names (fs : FileSystem) (p : Path) (x : Location) : Prop :=
  ∃ s d n, p.steps.filter (· ≠ .slash) = s ++ [.name n] ∧
    fs.Leads (start fs.cwd p) s (.taken d) ∧ x = n :: d

theorem Names.unique (h : fs.Names p x) (h' : fs.Names p y) : x = y := by
  obtain ⟨s, d, n, hs, hd, rfl⟩ := h
  obtain ⟨s', d', n', hs', hd', rfl⟩ := h'
  obtain ⟨rfl, hn⟩ := List.append_inj' (hs.symm.trans hs') rfl
  cases hn
  rw [hd.taken_unique hd']

theorem Names.extend (h : fs.Names p x) (he : fs.Extends fs') : fs'.Names p x := by
  obtain ⟨s, d, n, hs, hd, rfl⟩ := h
  refine ⟨s, d, n, hs, ?_, rfl⟩
  rw [he.cwd]
  exact he.leads hd (by simp)

theorem LeadsTo.exists_names (h : fs.LeadsTo p l)
    (hp : p.steps.filter (· ≠ .slash) = s ++ [.name n]) :
    ∃ x, fs.Names p x ∧ fs.get? x ≠ none := by
  have hsteps : ∃ r, p.steps = s ++ .name n :: r := by
    rcases p.steps_eq with hr | hr <;> rw [hp] at hr
    · exact ⟨[], hr⟩
    · exact ⟨[.slash], hr.trans (List.append_assoc ..)⟩
  obtain ⟨r, hr⟩ := hsteps
  unfold LeadsTo at h
  rw [hr] at h
  obtain ⟨d, hs, hn⟩ := h.exists_of_append (List.cons_ne_nil _ r)
  exact ⟨n :: d, ⟨s, d, n, hp, hs, rfl⟩, hn.get?_ne_none⟩

/-- The path is the name of an entry that is no directory. -/
structure Unlinkable (fs : FileSystem) (p : Path) (x : Location) : Prop where
  names : fs.Names p x
  ne_none : fs.get? x ≠ none
  not_isDirectory : ¬ fs.IsDirectory x

/-- Removal takes away the entry that the path is the name of, and no directory. -/
theorem unlinkable_of_removeFile (h : fs.removeFile p = .ok fs') :
    ∃ x, fs.Unlinkable p x ∧ fs' = fs.erase x := by
  obtain ⟨⟨d, last⟩, hl, h⟩ := bind_eq_ok_iff.mp h
  cases last with
  | unnamed => cases h
  | overlong => cases h
  | name n slashed =>
    obtain ⟨-, s, hs, hd⟩ := locateEntry_leads hl
    dsimp only at h
    split at h
    · cases h
    next e he =>
    split at h
    · cases h
    split at h
    · cases h
    split at h
    · cases h
    next hdir =>
    cases h
    exact ⟨n :: d, ⟨⟨s, d, n, hs, hd, rfl⟩, by simp [he], not_isDirectory he (by simpa using hdir)⟩,
      rfl⟩

theorem erase_extends (h : ¬ fs.IsDirectory x) : (fs.erase x).Extends fs := by
  refine ⟨(fs.erase_cwd x).symm, (user_eq (fs.erase_system x)).symm, ?_⟩
  intro y e hy
  rw [get?_erase _ h] at hy
  split at hy
  · cases hy
  · exact hy

namespace Extends

theorem refl (fs : FileSystem) : fs.Extends fs := ⟨rfl, rfl, id⟩

theorem trans {fs'' : FileSystem} (h : fs.Extends fs') (h' : fs'.Extends fs'') :
    fs.Extends fs'' :=
  ⟨h'.cwd.trans h.cwd, h'.user.trans h.user, fun hx => h'.get? (h.get? hx)⟩

theorem stat_eq (h : fs.Extends fs') (hs : fs.stat p = .ok e) : fs'.stat p = .ok e := by
  obtain ⟨l, hl, hle⟩ := bind_eq_ok_iff.mp hs
  obtain ⟨hp, e', he', -⟩ := locate_leads hl
  rw [he'] at hle
  cases hle
  refine stat_of_locate ?_ (h.get? he')
  rw [locate_eq_ok_iff_place] at hl ⊢
  rw [h.place_eq hp, hl]

theorem exists? (h : fs.Extends fs') (hp : fs.exists? p = true) : fs'.exists? p = true := by
  rw [exists?_eq_true_iff] at hp ⊢
  obtain ⟨e, he⟩ := hp
  exact ⟨e, h.stat_eq he⟩

theorem exists?_eq_false (h : fs.Extends fs') (hp : fs'.exists? p = false) :
    fs.exists? p = false := by
  rw [← Bool.not_eq_true] at hp ⊢
  exact fun he => hp (h.exists? he)

end Extends

theorem Unlinkable.exists?_erase (h : fs.Unlinkable p x) : (fs.erase x).exists? p = false := by
  rw [← Bool.not_eq_true, exists?_eq_true_iff]
  rintro ⟨e, he⟩
  obtain ⟨l, hl, -⟩ := stat_leads he
  obtain ⟨s, d, n, hs, -, -⟩ := h.names
  obtain ⟨y, hy, hne⟩ := hl.exists_names hs
  have hyx : y = x := (hy.extend (erase_extends h.not_isDirectory)).unique h.names
  exact hne (by rw [get?_erase _ h.not_isDirectory, if_pos hyx])

/-- Where an entry is named in a tree without links, the path spells out its place. -/
theorem Names.location? (h : fs.Names p x) (hl : fs.LinkFree) : p.location? fs.cwd = some x := by
  obtain ⟨s, d, n, hs, hd, rfl⟩ := h
  have hmove : (s ++ [Step.name n]).foldlM Step.move (start fs.cwd p) = some (n :: d) := by
    rw [List.foldlM_append, hd.location hl]
    rfl
  rw [← Path.foldlM_steps]
  rcases p.steps_eq with hr | hr <;> rw [hr, hs]
  · exact hmove
  · rw [List.foldlM_append, hmove]
    rfl

theorem Passable.erase (h : fs.Passable l s) (hx : ¬ fs.IsDirectory x) :
    (fs.erase x).Passable l s := by
  induction s generalizing l with
  | nil => trivial
  | cons a s ih =>
    obtain ⟨hd, hs, hnext⟩ := h
    have hget : (fs.erase x).get? l = fs.get? l := by
      rw [get?_erase _ hx, if_neg]
      rintro rfl
      exact hx hd
    refine ⟨(isDirectory_congr hget).mpr hd, fun ha => ?_, fun k hk => ih (hnext k hk)⟩
    rw [permits_congr (user_eq (fs.erase_system x)) hget]
    exact hs ha

theorem LinkFree.exists?_erase (hl : fs.LinkFree) (hx : ¬ fs.IsDirectory x)
    (hp : p.location? fs.cwd ≠ some x) : (fs.erase x).exists? p = fs.exists? p := by
  rw [Bool.eq_iff_iff]
  refine ⟨(erase_extends hx).exists?, ?_⟩
  rw [exists?_eq_true_iff, exists?_eq_true_iff]
  rintro ⟨e, he⟩
  obtain ⟨hr, hpass, l, hpl, hle⟩ := (stat_eq_ok_iff hl).mp he
  refine ⟨e, (stat_eq_ok_iff (hl.erase hx)).mpr ⟨hr, ?_, l, ?_, ?_⟩⟩
  · rw [fs.erase_cwd]
    exact hpass.erase hx
  · rw [fs.erase_cwd]
    exact hpl
  · rw [get?_erase _ hx, if_neg]
    · exact hle
    · rintro rfl
      exact hp hpl

end StagedInstall.FileSystem
