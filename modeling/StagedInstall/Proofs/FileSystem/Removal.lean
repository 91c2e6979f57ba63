import StagedInstall.Proofs.FileSystem.Directories

/-! # Removing files

In a tree without links the user may remove what stands at a location, unless it is a directory,
when everything above may be searched and the directory it stands in may be written
(`Holds.removeFile_eq`). Removing it takes nothing else away, and no permission to remove
(`Holds.permitsRemoval_erase_iff`).
-/

namespace StagedInstall

namespace FileSystem

variable {fs : FileSystem} {p : Path} {l x : Location}

theorem exists?_eq_true_iff : fs.exists? p = true ↔ ∃ e, fs.stat p = .ok e := by
  rw [exists?]
  cases fs.stat p <;> simp [Except.toOption]

theorem exists?_eq_false_of_missing (hl : fs.LinkFree)
    (h : ∀ l, p.location? fs.cwd = some l → fs.get? l = none) : fs.exists? p = false := by
  rw [Bool.eq_false_iff, Ne, exists?_eq_true_iff]
  rintro ⟨e, he⟩
  obtain ⟨-, -, l, hl', hle⟩ := (stat_eq_ok_iff hl).mp he
  cases (h l hl').symm.trans hle

theorem LinkFree.erase (h : fs.LinkFree) (hx : ¬ fs.IsDirectory x) : (fs.erase x).LinkFree := by
  intro l target hl
  rw [get?_erase _ hx] at hl
  split at hl
  · cases hl
  · exact h l target hl

/-- The user can reach what stands at `l`, and take it out of its directory. -/
structure PermitsRemoval (fs : FileSystem) (l : Location) : Prop where
  search : ∀ n y, n :: y <:+ l → fs.permits .search y = true
  write : fs.permits .write l.tail = true

theorem permitsRemoval_of_superuser (h : fs.user = .superuser) (l : Location) :
    fs.PermitsRemoval l :=
  ⟨fun _ y _ => permits_superuser h .search y, permits_superuser h .write l.tail⟩

/-- The path ends with the name of an entry at `l` that is no directory. -/
structure Holds (fs : FileSystem) (p : Path) (l : Location) : Prop where
  spells : p.Spells l
  named : p.Named
  ne_none : fs.get? l ≠ none
  not_isDirectory : ¬ fs.IsDirectory l

namespace Holds

theorem ne_root (h : fs.Holds p l) : l ≠ [] := by
  rintro rfl
  exact h.not_isDirectory fs.isDirectory_root

theorem isDirectory_above (h : fs.Holds p l) {n : Name} {y : Location} (hy : n :: y <:+ l) :
    fs.IsDirectory y :=
  fs.isDirectory_of_get? (get?_suffix_ne_none h.ne_none hy)

theorem exists?_iff (h : fs.Holds p l) (hl : fs.LinkFree) :
    fs.exists? p = true ↔ ∀ n y, n :: y <:+ l → fs.permits .search y = true := by
  rw [exists?_eq_true_iff]
  simp only [stat_eq_ok_iff hl, start, if_pos h.spells.absolute]
  constructor
  · rintro ⟨e, -, hpass, -⟩ n y hy
    exact ((named_of_passable h.spells hpass h.not_isDirectory).2 n y hy).2
  · intro hs
    obtain ⟨e, he⟩ := Option.ne_none_iff_exists'.mp h.ne_none
    have hpass : fs.Passable [] p.steps :=
      passable_of_searchable h.spells h.named fun n y hy => ⟨h.isDirectory_above hy, hs n y hy⟩
    exact ⟨e, h.spells.accepted, hpass, l, h.spells.location? fs.cwd, he⟩

/-- What is found is removed, if its directory may be written. -/
theorem removeFile_eq (h : fs.Holds p l) (hl : fs.LinkFree) (he : fs.exists? p = true) :
    fs.removeFile p =
      if fs.permits .write l.tail then .ok (fs.erase l) else .error .permissionDenied := by
  obtain ⟨n, d, rfl⟩ := List.exists_cons_of_ne_nil h.ne_root
  have hs := (h.exists?_iff hl).mp he
  have hd : ∀ y, y <:+ d → fs.Searchable y := by
    intro y hy
    obtain ⟨m, hm⟩ := exists_cons_suffix_cons hy n
    exact ⟨h.isDirectory_above hm, hs m y hm⟩
  obtain ⟨e, hne⟩ := Option.ne_none_iff_exists'.mp h.ne_none
  have hfile : e.isDirectory = false := by
    rw [Bool.eq_false_iff]
    intro hdir
    exact h.not_isDirectory ((isDirectory_iff fs).mpr (by rw [hne]; exact hdir))
  have hc : fs.permitsChange d = fs.permits .write d := by
    rw [permitsChange, (hd d List.suffix_rfl).2, Bool.and_true]
  rw [removeFile, locateEntry_of_searchable hl h.spells h.named hd]
  simp only [bind, Except.bind, hne, hfile, hc, List.tail_cons]
  by_cases hw : fs.permits .write d = true <;> simp [hw]

variable {q : Path} {k : Location} (h : fs.Holds p l) (hx : fs.Holds q k) (hne : l ≠ k)

include h hx hne

theorem erase : (fs.erase k).Holds p l := by
  have hget : (fs.erase k).get? l = fs.get? l := by rw [get?_erase _ hx.not_isDirectory, if_neg hne]
  exact ⟨h.spells, h.named, hget ▸ h.ne_none,
    fun hd => h.not_isDirectory ((isDirectory_congr hget).mp hd)⟩

theorem permitsRemoval_erase_iff :
    (fs.erase k).PermitsRemoval l ↔ fs.PermitsRemoval l := by
  have same {y : Location} (hy : fs.IsDirectory y) (a : Access) :
      (fs.erase k).permits a y = fs.permits a y := by
    refine permits_congr (user_eq (fs.erase_system k)) ?_ a
    rw [get?_erase _ hx.not_isDirectory, if_neg]
    rintro rfl
    exact hx.not_isDirectory hy
  have htail := isDirectory_tail h.ne_none h.ne_root
  constructor
  · intro hp
    exact ⟨fun n y hy => same (h.isDirectory_above hy) _ ▸ hp.search n y hy,
      same htail _ ▸ hp.write⟩
  · intro hp
    exact ⟨fun n y hy => (same (h.isDirectory_above hy) _).trans (hp.search n y hy),
      (same htail _).trans hp.write⟩

end Holds

end FileSystem

end StagedInstall
