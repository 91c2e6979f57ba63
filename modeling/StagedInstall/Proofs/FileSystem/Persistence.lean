import StagedInstall.Proofs.FileSystem.Access
import StagedInstall.Proofs.FileSystem.Listing

/-! # Files that stay

A path that leads to a file leads to it as long as directories are made, files are written and the
permissions of files are changed, whatever links are on its way (`Reaches.persist`). Another
spelling of it that ends with a name leads there as well, if it is not too long
(`Reaches.of_same`).
-/

namespace StagedInstall

namespace Entry

def isLeaf : Entry → Bool
  | file .. | device _ => true
  | directory _ | link _ => false

theorem isLeaf_withPermissions (e : Entry) (p : Permissions) :
    (e.withPermissions p).isLeaf = e.isLeaf := by
  cases e <;> rfl

theorem ne_link_of_isLeaf {e : Entry} (h : e.isLeaf = true) (target : Path) : e ≠ .link target := by
  rintro rfl
  cases h

end Entry

namespace FileSystem

variable {fs fs' : FileSystem} {p q : Path} {l k : Location} {s t : List Step} {x : Place}
  {e : Entry}

def HasLeaf (fs : FileSystem) (l : Location) : Prop := ∃ e, fs.get? l = some e ∧ e.isLeaf = true

def Reaches (fs : FileSystem) (p : Path) : Prop := ∃ l, fs.locate p = .ok l ∧ fs.HasLeaf l

/-- Directories and links are the same, and where there was a file or a device there still is. -/
structure Persists (fs fs' : FileSystem) : Prop where
  cwd : fs'.cwd = fs.cwd
  user : fs'.user = fs.user
  get? : ∀ {x e}, fs.get? x = some e → fs'.get? x = some e ∨ e.isLeaf = true ∧ fs'.HasLeaf x

theorem Extends.persists (h : fs.Extends fs') : fs.Persists fs' :=
  ⟨h.cwd, h.user, fun he => .inl (h.get? he)⟩

namespace Persists

theorem refl (fs : FileSystem) : fs.Persists fs := ⟨rfl, rfl, .inl⟩

theorem hasLeaf (h : fs.Persists fs') (hl : fs.HasLeaf l) : fs'.HasLeaf l := by
  obtain ⟨e, he, hleaf⟩ := hl
  rcases h.get? he with he' | ⟨-, hl⟩
  · exact ⟨e, he', hleaf⟩
  · exact hl

theorem trans {fs'' : FileSystem} (h : fs.Persists fs') (h' : fs'.Persists fs'') :
    fs.Persists fs'' := by
  refine ⟨h'.cwd.trans h.cwd, h'.user.trans h.user, ?_⟩
  intro x e he
  rcases h.get? he with he' | ⟨hleaf, hx⟩
  · exact h'.get? he'
  · exact .inr ⟨hleaf, h'.hasLeaf hx⟩

theorem get?_eq (h : fs.Persists fs') (he : fs.get? l = some e) (hl : e.isLeaf = false) :
    fs'.get? l = fs.get? l := by
  rcases h.get? he with he' | ⟨hleaf, -⟩
  · rw [he', he]
  · cases hl.symm.trans hleaf

theorem get?_ne_link (h : fs.Persists fs') (he : fs.get? l = some e)
    (hn : ∀ target, e ≠ .link target) :
    ∃ e', fs'.get? l = some e' ∧ ∀ target, e' ≠ .link target := by
  rcases h.get? he with he' | ⟨-, e', he', hleaf⟩
  · exact ⟨e, he', hn⟩
  · exact ⟨e', he', Entry.ne_link_of_isLeaf hleaf⟩

theorem get?_directory (h : fs.Persists fs') (hl : fs.IsDirectory l) :
    fs'.get? l = fs.get? l := by
  obtain ⟨m, hm⟩ := hl
  exact h.get?_eq hm rfl

theorem leads (h : fs.Persists fs') (hs : fs.Leads l s (.taken k)) :
    fs'.Leads l s (.taken k) := by
  have directory {d : Location} (hd : fs.IsDirectory d) : fs'.IsDirectory d :=
    (isDirectory_congr (h.get?_directory hd)).mpr hd
  generalize hx : Place.taken k = x at hs
  induction hs with
  | done =>
    cases hx
    exact .done
  | stay hd _ ih => exact .stay (directory hd) (ih hx)
  | slash hd _ ih => exact .slash (directory hd) (ih hx)
  | up hd _ ih => exact .up (directory hd) (ih hx)
  | free => cases hx
  | link hd hn _ ih => exact .link (directory hd) ((h.get?_eq hn rfl).trans hn) (ih hx)
  | name hd hn hl _ ih =>
    obtain ⟨e, he, hl⟩ := h.get?_ne_link hn hl
    exact .name (directory hd) he hl (ih hx)

theorem leadsTo (h : fs.Persists fs') (hp : fs.LeadsTo p l) : fs'.LeadsTo p l := by
  unfold LeadsTo at hp ⊢
  rw [h.cwd]
  exact h.leads hp

/-- A walk ends where it did before, also when a file was made at the free name. -/
theorem stepwise {follow follow' : Location → List Step → Except Cause Place}
    (h : fs.Persists fs') (hx : ∀ d n, x = .free d n → fs'.HasLeaf (n :: d))
    (hf : ∀ {l s}, follow l s = .ok x → follow' l s = .ok (.taken x.location))
    (hs : fs.stepwise .existing follow l s = .ok x) :
    fs'.stepwise .existing follow' l s = .ok (.taken x.location) := by
  induction s generalizing l with
  | nil =>
    cases hs
    rfl
  | cons a s ih =>
    simp only [FileSystem.stepwise] at hs ⊢
    split at hs
    · cases hs
    next hd =>
    have hget := h.get?_directory (Decidable.not_not.mp hd)
    have hd' : ¬ ¬ fs'.IsDirectory l := by rwa [isDirectory_congr hget]
    rw [if_neg hd', permits_congr h.user hget]
    split at hs
    · cases hs
    next hp =>
    rw [if_neg hp]
    cases a with
    | stay | slash | up => exact ih hs
    | overlong => cases hs
    | name n =>
      have hnew : ¬ (Purpose.existing = .creating ∧ s = [.slash]) := by simp
      dsimp only at hs ⊢
      rw [if_neg hnew] at hs ⊢
      split at hs
      · split at hs
        · next hrest =>
          -- the walk ended at a free name, where a file stands now
          cases hs
          obtain ⟨e, he, hleaf⟩ := hx _ _ rfl
          subst hrest
          rw [he]
          cases e with
          | file | device => rfl
          | directory | link => cases hleaf
        · cases hs
      · next target ht =>
        rw [h.get?_eq ht rfl, ht]
        exact hf hs
      · next e hn he =>
        obtain ⟨e', he', hn'⟩ := h.get?_ne_link he fun target ht => hn target ht
        rw [he']
        cases e' with
        | link target => exact absurd rfl (hn' target)
        | file | directory | device => exact ih hs

theorem resolve {n : Nat} (h : fs.Persists fs') (hx : ∀ d n, x = .free d n → fs'.HasLeaf (n :: d))
    (hs : fs.resolve .existing n l s = .ok x) :
    fs'.resolve .existing n l s = .ok (.taken x.location) := by
  induction n generalizing l s with
  | zero =>
    apply h.stepwise hx _ hs
    intro l s hs
    cases hs
  | succ n ih => exact h.stepwise hx ih hs

theorem locate (h : fs.Persists fs') (hx : ∀ d n, x = .free d n → fs'.HasLeaf (n :: d))
    (hp : fs.place .existing p = .ok x) : fs'.locate p = .ok x.location := by
  rw [locate_eq_ok_iff_place]
  unfold place at hp ⊢
  split at hp
  · cases hp
  · rw [h.cwd]
    exact h.resolve hx hp

end Persists

theorem Reaches.persist (hp : fs.Reaches p) (h : fs.Persists fs') : fs'.Reaches p := by
  obtain ⟨l, hl, hleaf⟩ := hp
  exact ⟨l, h.locate (by simp) (locate_eq_ok_iff_place.mp hl), h.hasLeaf hleaf⟩

theorem reaches_of_isFile (h : fs.isFile p = true) : fs.Reaches p := by
  obtain ⟨m, c, hs⟩ := isFile_eq_true_iff.mp h
  obtain ⟨l, hl, h⟩ := bind_eq_ok_iff.mp hs
  refine ⟨l, hl, .file m c, ?_, rfl⟩
  split at h
  · next he => cases h; exact he
  · cases h

theorem isLeaf_of_openForWriting (h : fs.openForWriting p = .ok l) (he : fs.get? l = some e) :
    e.isLeaf = true := by
  obtain ⟨-, e', he', hn⟩ := locate_leads (locate_of_openForWriting h (by simp [he]))
  cases he.symm.trans he'
  cases e with
  | file | device => rfl
  | link target => exact absurd rfl (hn target)
  | directory m =>
    rcases openForWriting_leads h with ⟨-, -, hd⟩ | ⟨d, n, -, -, -, hnone⟩
    · exact absurd ⟨m, he⟩ hd
    · cases hnone.symm.trans he

theorem locate_of_written (h : fs.openForWriting p = .ok l) (hp : fs.Persists fs')
    (hl : fs'.HasLeaf l) : fs'.locate p = .ok l := by
  rcases openForWriting_eq_ok_iff.mp h with ⟨hx, -⟩ | ⟨d, n, rfl, hx, -⟩
  · exact hp.locate (by simp) (place_existing hx)
  · refine hp.locate ?_ (place_existing hx)
    rintro d' n' he
    cases he
    exact hl

/-- A write where a file was opened leaves all that stays, and a file or a device there. -/
theorem persists_of_fill {m : Permissions} {s : Bytes} (h : fs.openForWriting p = .ok l) :
    fs.Persists (fs.fill l (.file m s)) ∧ (fs.fill l (.file m s)).HasLeaf l := by
  have hk := get?_fill_of_opened h (.file m s)
  have hleaf : (fs.fill l (.file m s)).HasLeaf l := by
    by_cases hd : ∃ m, fs.get? l = some (.device m)
    · obtain ⟨m', hm'⟩ := hd
      refine ⟨.device m', ?_, rfl⟩
      rw [hk, if_neg fun hn => hn.2 ⟨m', hm'⟩, hm']
    · exact ⟨_, (hk l).trans (if_pos ⟨rfl, hd⟩), rfl⟩
  refine ⟨⟨fill_cwd .., user_eq (fill_system ..), ?_⟩, hleaf⟩
  intro x e he
  by_cases hx : x = l
  · subst hx
    exact .inr ⟨isLeaf_of_openForWriting h he, hleaf⟩
  · exact .inl ((hk x).trans ((if_neg fun hn => hx hn.1).trans he))

theorem copyFile_reaches (h : fs.copyFile p q = (fs', none)) :
    fs.Persists fs' ∧ fs'.Reaches q := by
  obtain ⟨l, m, content, ho, -, rfl⟩ := copyFile_effect h
  obtain ⟨hp, hleaf⟩ := persists_of_fill ho.target
  exact ⟨hp, l, locate_of_written ho.target hp hleaf, hleaf⟩

/-- Where nothing is refused, the permissions of a file or a device can be changed, and that is all
that changes. -/
theorem Reaches.setMode (h : fs.Reaches p) (hr : ∀ l, fs.storage.refusal? l = none) (m : Mode) :
    ∃ fs', fs.setMode p m = .ok fs' ∧ fs.Persists fs' := by
  obtain ⟨l, hl, e, he, hleaf⟩ := h
  refine ⟨_, setMode_of_locate hl (hr l) he, fs.put_cwd .., user_eq (fs.put_system ..), ?_⟩
  have hk := fs.get?_put (admits_withPermissions he m.permissions)
  intro x e' he'
  rw [hk]
  split
  · next hx =>
    subst hx
    cases he.symm.trans he'
    refine .inr ⟨hleaf, _, (hk x).trans (if_pos rfl), ?_⟩
    rw [Entry.isLeaf_withPermissions, hleaf]
  · exact .inl he'

end FileSystem

end StagedInstall
