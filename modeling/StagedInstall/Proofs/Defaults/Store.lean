import StagedInstall.Proofs.Defaults.Text
import StagedInstall.Proofs.FileSystem.Persistence
import StagedInstall.Proofs.Install.Parents
import StagedInstall.Proofs.Text.RoundTrip

/-! # Prefixes that are stored

A prefix that was stored is read back where the file may be opened for reading (`ofFile_of_stored`).
It may be, since the file was read before it was written, or is new; only when the directories that
were missing on a path with `..` bring a file to light that was not found before, it may turn out
that the user can write it but not read it (`stored_but_unreadable`).
-/

namespace StagedInstall

namespace FileSystem

variable {fs fs' : FileSystem} {p : Path} {l : Location} {s : Bytes} {m : Permissions}

def DeviceFree (fs : FileSystem) : Prop := ∀ l m, fs.get? l ≠ some (.device m)

theorem exists?_of_reaches (h : fs.Reaches p) : fs.exists? p = true := by
  obtain ⟨l, hl, e, he, -⟩ := h
  rw [exists?, stat_of_locate hl he]
  rfl

theorem deviceFree_empty : empty.DeviceFree := by
  intro l m h
  cases l with
  | nil => cases h
  | cons n l => cases h

theorem DeviceFree.put (h : fs.DeviceFree) (l : Location) {e : Entry}
    (he : ∀ m, e ≠ .device m) : (fs.put l e).DeviceFree := by
  intro k m hk
  rcases get?_put_cases hk with hk | hk
  · exact he m hk.symm
  · exact h k m hk

theorem readText_of_locate {text : String} (hl : fs.locate p = .ok l)
    (he : fs.get? l = some (.file m (.ofString text))) :
    fs.readText p = if fs.permits .read l then .ok text else .error .permissionDenied := by
  rw [readText, readFile, openForReading, hl]
  by_cases hp : fs.permits .read l
  · simp only [bind, Except.bind, hp, if_true, he, Bytes.toString?_ofString]
  · simp only [bind, Except.bind, hp, if_false, Bool.false_eq_true]

end FileSystem

theorem Path.isAbsolute_ofString (s : String) :
    (Path.ofString s).isAbsolute = true ↔ s.toList.head? = some '/' := by
  rw [isAbsolute, decide_eq_true_iff]
  exact Utf8.head?_encode s.toList

namespace Defaults

variable {fs fs' : FileSystem} {path : Path} {l : Location} {m : Permissions} {d : Defaults}
  {v : String} {vs : List String}

theorem set_eq_ok_iff {d' : Defaults} : d.set prefixKey v = .ok d' ↔
    v.toList.head? = some '/' ∧ d' = { prefixDir := some v } := by
  rw [set, if_pos rfl, ← Path.isAbsolute_ofString]
  split
  · next h => simp [h, eq_comm]
  · next h => simp [h]

/-- The file system after the prefix was set in the file at `path`, if that succeeds. -/
def stored? (path : Path) (fs : FileSystem) (value : String) : Option FileSystem :=
  match store fs path prefixKey value with
  | ⟨.ok (), fs, _⟩ => some fs
  | ⟨.error _, _, _⟩ => none

theorem save_eq_none_iff : d.save fs path = (fs', none) ↔
    ∃ fs₁, fs.makeParents path = (fs₁, none) ∧
      fs₁.writeFile path (.ofString d.render) = (fs', none) := by
  unfold save
  rcases fs.makeParents path with ⟨fs₁, _ | e⟩
  · dsimp only
    rcases h : fs₁.writeFile path (.ofString d.render) with ⟨fs₂, _ | cause⟩ <;> simp [h]
  · simp

theorem exists_of_stored? (h : stored? path fs v = some fs') :
    ∃ d fs₁, ofFile fs path = .ok d ∧ fs.makeParents path = (fs₁, none) ∧
      fs₁.writeFile path (.ofString (render { prefixDir := some v })) = (fs', none) := by
  unfold stored? at h
  split at h
  case h_2 => cases h
  next fs₂ _ hs =>
  cases h
  unfold store at hs
  dsimp only at hs
  split at hs
  · cases hs
  next d' hd' =>
  obtain ⟨d, hd, hset⟩ := bind_eq_ok_iff.mp hd'
  obtain ⟨-, rfl⟩ := set_eq_ok_iff.mp (mapError_eq_ok_iff.mp hset)
  split at hs
  · cases hs
  · next hsave =>
    cases hs
    obtain ⟨fs₁, hm, hw⟩ := save_eq_none_iff.mp hsave
    exact ⟨d, fs₁, hd, hm, hw⟩

theorem ofFile_of_locate (hl : fs.locate path = .ok l)
    (he : fs.get? l = some (.file m (.ofString d.render))) :
    ofFile fs path = if fs.permits .read l then .ok d
      else .error (.file .read path .permissionDenied) := by
  have hexists := FileSystem.exists?_of_reaches ⟨l, hl, _, he, rfl⟩
  rw [ofFile, hexists, FileSystem.readText_of_locate hl he]
  by_cases hp : fs.permits .read l
  · rw [if_pos hp, if_pos hp]
    change (parse d.render).mapError _ = _
    rw [parse_render]
    rfl
  · rw [if_neg hp, if_neg hp]
    rfl

theorem exists_of_ofFile (h : ofFile fs path = .ok d) (he : fs.exists? path = true) :
    ∃ k, fs.openForReading path = .ok k := by
  rw [ofFile, he] at h
  obtain ⟨t, ht, -⟩ := bind_eq_ok_iff.mp h
  obtain ⟨b, hb, -⟩ := bind_eq_ok_iff.mp (mapError_eq_ok_iff.mp ht)
  obtain ⟨k, hk, -⟩ := bind_eq_ok_iff.mp hb
  exact ⟨k, hk⟩

/-- What a file holds in which the prefix was stored. -/
def fileContent (value : String) : Bytes := .ofString (render { prefixDir := some value })

/-- The path leads to the file at `l`, which holds the content now and has kept the permissions it
had, but for what a write takes from them; a device takes it without a change. Nothing else differs
but for new directories to which paths above lead. -/
structure WrittenAt (fs : FileSystem) (path : Path) (content : Bytes) (l : Location)
    (fs' : FileSystem) : Prop where
  cwd : fs'.cwd = fs.cwd
  system : fs'.system = fs.system
  locate : fs'.locate path = .ok l
  file : (∃ m, fs.get? l = some (.device m) ∧ fs'.get? l = fs.get? l) ∨
    ∃ m, fs'.get? l = some (.file m content) ∧
      (fs.get? l = none ∧ m = .newFile ∨
        ∃ m' c, fs.get? l = some (.file m' c) ∧ m = fs.rewritten m')
  others : ∀ x, x ≠ l → fs'.get? x = fs.get? x ∨ fs.get? x = none ∧
    fs'.get? x = some (.directory .newDirectory) ∧ ∃ q : Path, q.Above path ∧ fs'.LeadsTo q x

open FileSystem in
theorem writtenAt_of_fill {fs₁ : FileSystem} {content : Bytes} (hp : fs.PreparedFor path fs₁)
    (hl : fs₁.openForWriting path = .ok l) :
    WrittenAt fs path content l (fs₁.fill l (.file (fs₁.emptied l .newFile) content)) := by
  obtain ⟨hpersist, hleaf⟩ :=
    persists_of_fill (m := fs₁.emptied l .newFile) (s := content) hl
  have hk := get?_fill_of_opened hl (.file (fs₁.emptied l .newFile) content)
  have hsame : fs.get? l = fs₁.get? l := by
    rcases hp.get? l with he | ⟨-, he, -⟩
    · exact he.symm
    · cases isLeaf_of_openForWriting hl he
  refine ⟨(fs₁.fill_cwd ..).trans hp.cwd, (fs₁.fill_system ..).trans hp.system,
    locate_of_written hl hpersist hleaf, ?_, ?_⟩
  · rw [hsame]
    have hwritten (hno : ¬ ∃ m, fs₁.get? l = some (.device m)) :=
      (hk l).trans (if_pos ⟨rfl, hno⟩)
    rcases he : fs₁.get? l with _ | ⟨m, c⟩ | m | target | m
    · refine .inr ⟨_, hwritten (by simp [he]), .inl ⟨rfl, ?_⟩⟩
      rw [emptied, he]
    · refine .inr ⟨_, hwritten (by simp [he]), .inr ⟨m, c, rfl, ?_⟩⟩
      rw [emptied, he]
      exact rewritten_congr hp.user m
    · cases isLeaf_of_openForWriting hl he
    · cases isLeaf_of_openForWriting hl he
    · exact .inl ⟨m, rfl, ((hk l).trans (if_neg fun hn => hn.2 ⟨m, he⟩)).trans he⟩
  · intro x hx
    have hx₁ := (hk x).trans (if_neg fun hn => hx hn.1)
    rcases hp.get? x with he | ⟨hn, hd, -, q, hq, hlead⟩
    · exact .inl (hx₁.trans he)
    · exact .inr ⟨hn, hx₁.trans hd, q, hq, hpersist.leadsTo hlead⟩

theorem WrittenAt.deviceFree {content : Bytes} (h : WrittenAt fs path content l fs')
    (hdev : fs.DeviceFree) : fs'.DeviceFree := by
  intro x m hx
  by_cases hxl : x = l
  · subst hxl
    rcases h.file with ⟨m', hm', -⟩ | ⟨m', hm', -⟩
    · exact hdev x m' hm'
    · cases hm'.symm.trans hx
  · rcases h.others x hxl with he | ⟨-, he, -⟩
    · exact hdev x m (he ▸ hx)
    · cases he.symm.trans hx

/-- What is stored stands where the path leads afterwards, in a new file or in one that grants what it
granted. The path led to no other entry before, and to that one if it has no `..`. -/
theorem stored?_effect (hdev : fs.DeviceFree) (h : stored? path fs v = some fs') :
    fs'.DeviceFree ∧ fs'.user = fs.user ∧ ∃ l m, fs'.locate path = .ok l ∧
      fs'.get? l = some (.file m (.ofString (render { prefixDir := some v }))) ∧
      (m = .newFile ∨ (∃ m' c, fs.get? l = some (.file m' c) ∧ m = fs.rewritten m') ∧
        (∀ k, fs.LeadsTo path k → k = l) ∧
        (.parent ∉ path.components → fs.locate path = .ok l)) := by
  obtain ⟨d, fs₁, -, hm, hw⟩ := exists_of_stored? h
  have hprep := FileSystem.makeParents_preparedFor hm
  obtain ⟨l, hl, -, rfl⟩ := FileSystem.writeFile_effect hw
  have hwritten : WrittenAt fs path (fileContent v) l _ := writtenAt_of_fill hprep hl
  obtain ⟨m, hfile, hm⟩ := hwritten.file.resolve_left fun ⟨m, hm, _⟩ => hdev l m hm
  refine ⟨hwritten.deviceFree hdev, FileSystem.user_eq hwritten.system, l, m, hwritten.locate,
    hfile, hm.imp And.right ?_⟩
  rintro ⟨m', c, hc, rfl⟩
  have hc₁ : fs₁.get? l = some (.file m' c) := hprep.extend.get? hc
  have hlocate : fs₁.locate path = .ok l :=
    FileSystem.locate_of_openForWriting hl (by simp [hc₁])
  have hlead := (FileSystem.locate_leads hlocate).1
  refine ⟨⟨m', c, hc, rfl⟩, fun k hk => (hk.extend hprep.extend).unique hlead, ?_⟩
  intro hp
  have hplace : fs₁.place .existing path = fs.place .existing path :=
    hprep.extend.place_eq (hprep.leadsTo hp hlead)
  rw [FileSystem.locate_eq_ok_iff_place, ← hplace, ← FileSystem.locate_eq_ok_iff_place]
  exact hlocate

/-- The superuser may read what was stored, and so may everyone who has found the file before, or
whose path has no `..`. -/
theorem permits_of_stored? (hdev : fs.DeviceFree) (h : stored? path fs v = some fs')
    (hl : fs'.locate path = .ok l)
    (hr : fs.user = .superuser ∨ fs.exists? path = true ∨ .parent ∉ path.components) :
    fs'.permits .read l = true := by
  obtain ⟨d, -, hd, -, -⟩ := exists_of_stored? h
  obtain ⟨-, hu, l', m, hl', hget, hm⟩ := stored?_effect hdev h
  cases hl.symm.trans hl'
  rcases hm with rfl | ⟨⟨m', c, hc, rfl⟩, hleads, hlocate⟩
  · cases hsuper : fs'.user with
    | superuser => exact FileSystem.permits_superuser hsuper ..
    | owner =>
      rw [FileSystem.permits_owner hsuper, hget]
      exact Permissions.grants_newFile (a := .read) (by decide)
  · rw [FileSystem.permits_of_grants hu hget hc (fs.grants_rewritten ..)]
    have hread (he : fs.exists? path = true) : fs.permits .read l = true := by
      obtain ⟨k, hk⟩ := exists_of_ofFile hd he
      cases hleads k (FileSystem.openForReading_leads hk)
      exact (FileSystem.openForReading_eq_ok_iff.mp hk).2
    rcases hr with hr | hr | hr
    · exact FileSystem.permits_superuser hr ..
    · exact hread hr
    · exact hread (FileSystem.exists?_of_reaches ⟨l, hlocate hr, _, hc, rfl⟩)

theorem stored_run (hdev : fs.DeviceFree) (h : vs.foldlM (stored? path) fs = some fs') :
    fs'.DeviceFree ∧ fs'.user = fs.user ∧
      (vs ≠ [] ∨ fs.exists? path = true → fs'.exists? path = true) := by
  induction vs generalizing fs with
  | nil =>
    cases h
    exact ⟨hdev, rfl, fun h => h.resolve_left (fun h => h rfl)⟩
  | cons v vs ih =>
    rw [List.foldlM_cons, Option.bind_eq_bind, Option.bind_eq_some_iff] at h
    obtain ⟨fs₁, hv, h⟩ := h
    obtain ⟨hdev₁, hu₁, l, m, hl, hget, -⟩ := stored?_effect hdev hv
    obtain ⟨hdev', hu', hexists⟩ := ih hdev₁ h
    have he := FileSystem.exists?_of_reaches ⟨l, hl, _, hget, rfl⟩
    exact ⟨hdev', hu'.trans hu₁, fun _ => hexists (.inr he)⟩

/-- The prefix that was stored last is read where the file may be opened for reading, which is so
but for a first value, in a file that was not found before, on a path with `..`. Every text that
begins with a slash can be set. -/
theorem ofFile_of_stored (hdev : fs.DeviceFree)
    (h : (vs ++ [v]).foldlM (stored? path) fs = some fs') :
    (∀ (d : Defaults) (w : String),
      (∃ d', d.set prefixKey w = .ok d') ↔ w.toList.head? = some '/') ∧
    (ofFile fs' path = .ok { prefixDir := some v } ↔ ∃ l, fs'.openForReading path = .ok l) ∧
    (fs.user = .superuser ∨ fs.exists? path = true ∨ .parent ∉ path.components ∨ vs ≠ [] →
      ofFile fs' path = .ok { prefixDir := some v }) := by
  rw [List.foldlM_append, Option.bind_eq_bind, Option.bind_eq_some_iff] at h
  obtain ⟨fs₁, hvs, h⟩ := h
  rw [List.foldlM_cons, Option.bind_eq_bind, Option.bind_eq_some_iff] at h
  obtain ⟨fs₂, hv, h⟩ := h
  cases h
  obtain ⟨hdev₁, hu₁, hexists⟩ := stored_run hdev hvs
  obtain ⟨-, -, l, m, hl, hget, -⟩ := stored?_effect hdev₁ hv
  have hfile := ofFile_of_locate hl hget
  refine ⟨fun d w => by simp [set_eq_ok_iff], ?_, ?_⟩
  · simp only [FileSystem.openForReading_eq_ok_iff, hl, Except.ok.injEq, exists_eq_left']
    rw [hfile]
    split
    · next hp => simp [hp]
    · next hp => simp [hp]
  · intro hr
    have hp : fs'.permits .read l = true := by
      apply permits_of_stored? hdev₁ hv hl
      rcases hr with hr | hr | hr | hr
      · exact .inl (hu₁.trans hr)
      · exact .inr (.inl (hexists (.inr hr)))
      · exact .inr (.inr hr)
      · exact .inr (.inl (hexists (.inl hr)))
    rw [hfile, if_pos hp]

namespace Sample

/-- The path `/d/../c`, where `d` is missing. -/
def returning : Path := .ofString "/d/../c"

/-- A file at `/c` that may be written but not read. -/
def tree : FileSystem :=
  FileSystem.empty.put [(Name.ofBytes? [0x63]).get rfl] (.file ⟨0o200, by decide⟩ [])

theorem deviceFree_tree : tree.DeviceFree :=
  FileSystem.deviceFree_empty.put _ (by simp)

end Sample

theorem ofFile_of_stored_sample :
    FileSystem.empty.DeviceFree ∧ ∃ fs' : FileSystem,
      (["/x"] ++ ["/y\n\\"]).foldlM (stored? (.ofString "/d/c")) FileSystem.empty = some fs' ∧
      ofFile fs' (.ofString "/d/c") = .ok { prefixDir := some "/y\n\\" } := by
  have hsome : ((["/x"] ++ ["/y\n\\"]).foldlM (stored? (.ofString "/d/c"))
      FileSystem.empty).isSome = true := by decide +kernel
  obtain ⟨fs', h⟩ := Option.isSome_iff_exists.mp hsome
  have hlist : ["/x"] ≠ [] := by simp
  exact ⟨FileSystem.deviceFree_empty, fs', h,
    (ofFile_of_stored FileSystem.deviceFree_empty h).2.2 (.inr (.inr (.inr hlist)))⟩

/-- What was stored cannot always be read: the file may have come to light only when the missing
directory on its path was made. -/
theorem stored_but_unreadable :
    ¬ ∀ (fs fs' : FileSystem) (path : Path) (v : String), fs.DeviceFree →
      stored? path fs v = some fs' → ofFile fs' path = .ok { prefixDir := some v } := by
  intro h
  have hread : (stored? Sample.returning Sample.tree "/x").map (ofFile · Sample.returning) =
      some (.error (.file .read Sample.returning .permissionDenied)) := by decide +kernel
  obtain ⟨fs', hs, hread⟩ := Option.map_eq_some_iff.mp hread
  cases hread.symm.trans (h _ fs' _ _ Sample.deviceFree_tree hs)

end Defaults

end StagedInstall
