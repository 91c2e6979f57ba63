import StagedInstall.Proofs.Install.Order

/-! # Repairs

A repair adds entries where nothing stands, and the directories above them where these are missing;
the storage may take more than before. It does not hinder a copy (`Repairs.succeeds`), and it may as well be made before copies
(`Repairs.runCopies`) and permission changes (`Repairs.runChmods`) as after them.
-/

namespace StagedInstall

/-- The entries of `A` are added at places that were free, with the directories above them that were
missing. The storage is `s`, which takes what the old one takes. -/
structure Repairs (A : Location → Option Entry) (s : Storage) (fs fs' : FileSystem) : Prop where
  cwd : fs'.cwd = fs.cwd
  system : fs'.system = { fs.system with storage := s }
  eased : fs.storage.Eases s
  noLink : ∀ x target, A x ≠ some (.link target)
  added : ∀ x e, A x = some e → fs.get? x = none ∧ fs'.get? x = some e
  others : ∀ x, A x = none → fs'.get? x = fs.get? x ∨
    fs.get? x = none ∧ fs'.get? x = some (.directory .newDirectory) ∧ ∃ y, A y ≠ none ∧ x <:+ y

variable {A : Location → Option Entry} {s : Storage} {fs fs' F F' G G' : FileSystem} {p : Path}
  {k l x y : Location} {c : Copy} {cs : List Copy} {d : Chmod} {ds : List Chmod} {e : Entry}

namespace Repairs

theorem single (hx : fs.get? x = none) (ht : fs.IsDirectory x.tail)
    (he : ∀ target, e ≠ .link target) :
    Repairs (fun y => if y = x then some e else none) fs.storage fs (fs.put x e) := by
  have hput := fs.get?_put (FileSystem.admits_of_not_isDirectory (fun _ => ht)
    (FileSystem.not_isDirectory_of_none hx) e)
  constructor
  case cwd => exact fs.put_cwd ..
  case system => exact fs.put_system ..
  case eased => exact .refl fs.storage
  case noLink =>
    intro y target hy
    split at hy
    · exact he target (Option.some.inj hy)
    · cases hy
  case added =>
    intro y e' hy
    split at hy
    · next hyx =>
      cases hy
      rw [hput, if_pos hyx, hyx]
      exact ⟨hx, rfl⟩
    · cases hy
  case others =>
    intro y hy
    rw [hput, if_neg]
    · exact .inl rfl
    · rintro rfl
      simp at hy

theorem user (h : Repairs A s fs fs') : fs'.user = fs.user := by
  rw [FileSystem.user, h.system]
  rfl

theorem storage (h : Repairs A s fs fs') : fs'.storage = s := by
  rw [FileSystem.storage, h.system]

theorem eq_none (h : Repairs A s fs fs') (hx : fs.get? x ≠ none) : A x = none := by
  cases ha : A x with
  | none => rfl
  | some e => exact absurd (h.added x e ha).1 hx

theorem extend (h : Repairs A s fs fs') : fs.Extends fs' := by
  refine ⟨h.cwd, h.user, ?_⟩
  intro x e hx
  rcases h.others x (h.eq_none (by simp [hx])) with he | ⟨hn, -⟩
  · exact he.trans hx
  · cases hn.symm.trans hx

theorem linkFree (h : Repairs A s fs fs') (hl : fs.LinkFree) : fs'.LinkFree := by
  intro x target hx
  cases ha : A x with
  | some e =>
    cases (h.added x e ha).2.symm.trans hx
    exact h.noLink x target ha
  | none =>
    rcases h.others x ha with he | ⟨-, he, -⟩
    · exact hl x target (he ▸ hx)
    · cases he.symm.trans hx

theorem grownBut (h : Repairs A s fs fs') (hl : fs.LinkFree) : fs.GrownBut (A · ≠ none) fs' := by
  constructor
  case linkFree => exact hl
  case linkFree' => exact h.linkFree hl
  case cwd => exact h.cwd
  case user => exact h.user
  case written =>
    rintro x hx ⟨m, hm⟩
    exact hx (h.eq_none (by simp [hm]))
  case get? =>
    intro x hx
    rcases h.others x (not_not.mp hx) with he | ⟨hn, he, -⟩
    · exact .inl he
    · exact .inr ⟨hn, he⟩

theorem get?_above (h : Repairs A s fs fs') (hy : A y ≠ none) (hx : x <:+ y) :
    fs'.get? x ≠ none := by
  obtain ⟨e, he⟩ := Option.ne_none_iff_exists'.mp hy
  exact FileSystem.get?_suffix_ne_none (by simp [(h.added y e he).2]) hx

/-- What is new is an entry of the repair, or a directory above one. -/
theorem get?_of_none (h : Repairs A s fs fs') (ha : A x = none) (hn : fs.get? x = none) :
    (fs'.get? x = none ∧ ∀ y, A y ≠ none → ¬ x <:+ y) ∨
      fs'.get? x = some (.directory .newDirectory) ∧ ∃ y, A y ≠ none ∧ x <:+ y := by
  rcases h.others x ha with he | ⟨-, he, hy⟩
  · exact .inl ⟨he.trans hn, fun y hy hx => h.get?_above hy hx (he.trans hn)⟩
  · exact .inr ⟨he, hy⟩

theorem get?_congr (h : Repairs A s fs fs') (h' : Repairs A s F F') (ha : A x = none)
    (hn : fs.get? x = none) (hn' : F.get? x = none) : F'.get? x = fs'.get? x := by
  rcases h.get?_of_none ha hn with ⟨he, hno⟩ | ⟨he, y, hy, hx⟩
  · rcases h'.get?_of_none ha hn' with ⟨he', -⟩ | ⟨-, y, hy, hx⟩
    · rw [he, he']
    · exact absurd hx (hno y hy)
  · rcases h'.get?_of_none ha hn' with ⟨-, hno⟩ | ⟨he', -⟩
    · exact absurd hx (hno y hy)
    · rw [he, he']

theorem unique (h : Repairs A s fs F) (h' : Repairs A s fs F') : F' = F := by
  refine FileSystem.ext ?_ (h'.cwd.trans h.cwd.symm) (h'.system.trans h.system.symm)
  intro x
  by_cases hn : fs.get? x = none
  · cases ha : A x with
    | some e => rw [(h.added x e ha).2, (h'.added x e ha).2]
    | none => exact h.get?_congr h' ha hn hn
  · rw [h.extend.get?_eq hn, h'.extend.get?_eq hn]

theorem entryAt?_eq (h : Repairs A s fs fs') (hl : p.location? fs.cwd = some l) (ha : A l = none)
    (hd : ¬ fs'.IsDirectory l) : fs'.entryAt? p = fs.entryAt? p := by
  rw [FileSystem.entryAt?_of_location? hl, FileSystem.entryAt?_of_location? (h.cwd ▸ hl)]
  rcases h.others l ha with he | ⟨-, he, -⟩
  · exact he
  · exact absurd ⟨_, he⟩ hd

theorem source_eq (h : Repairs A s fs fs') (hl : fs.LinkFree) (hs : c.Ready fs) :
    fs'.entryAt? c.source = fs.entryAt? c.source := by
  obtain ⟨k, hk, hke, hkd⟩ := hs.source hl
  apply h.entryAt?_eq hk (h.eq_none hke)
  rwa [FileSystem.isDirectory_congr (h.extend.get?_eq hke)]

theorem not_adds (h : Repairs A s fs fs') (hl : fs.LinkFree) (hs : c.Ready fs)
    (hk : c.source.location? fs.cwd = some k) : ¬ A k ≠ none := by
  intro ha
  obtain ⟨k', hk', hke, -⟩ := hs.source hl
  cases hk.symm.trans hk'
  exact ha (h.eq_none hke)

section Ready

variable (h : Repairs A s fs fs') (h₁ : Repairs A s F F') (hl : fs.LinkFree) (hs : c.Ready fs)
  (hu : c.Upright) (hc : c.target.location? fs.cwd = some l) (hx : F.get? l ≠ none)
  (hd : ¬ F.IsDirectory l)

include h h₁ hl hs hu hc hx hd

/-- No directory is made at a target that exists when the repair is made later. -/
theorem not_isDirectory_target : ¬ fs'.IsDirectory l := by
  intro hdl
  have ha := h₁.eq_none hx
  by_cases hn : fs.get? l = none
  · rcases h.get?_of_none ha hn with ⟨he, -⟩ | ⟨-, y, hy, hly⟩
    · exact FileSystem.not_isDirectory_of_none he hdl
    · have hne : l ≠ y := by
        rintro rfl
        exact hy ha
      have hF' := FileSystem.isDirectory_of_suffix (h₁.get?_above hy List.suffix_rfl) hly hne
      exact hd ((FileSystem.isDirectory_congr (h₁.extend.get?_eq hx)).mp hF')
  · rw [FileSystem.isDirectory_congr (h.extend.get?_eq hn)] at hdl
    exact hs.not_isDirectory hl hu hc hdl

theorem spares_target {k : Location} (hk : c.target.location? fs.cwd = some k) :
    (∀ y, y <:+ k → ¬ A y ≠ none) ∧ ¬ fs'.IsDirectory k := by
  cases hc.symm.trans hk
  refine ⟨?_, not_isDirectory_target h h₁ hl hs hu hc hx hd⟩
  intro y hy ha
  exact ha (h₁.eq_none (FileSystem.get?_suffix_ne_none hx hy))

/-- A repair that may be made when the target exists does not hinder the copy. -/
theorem ready : c.Ready fs' :=
  hs.extend hu (h.grownBut hl) (fun _ => h.not_adds hl hs)
    fun _ => spares_target h h₁ hl hs hu hc hx hd

theorem target_eq : fs'.entryAt? c.target = fs.entryAt? c.target :=
  h.entryAt?_eq hc (h₁.eq_none hx) (not_isDirectory_target h h₁ hl hs hu hc hx hd)

theorem writes_iff : c.Writes fs' e ↔ c.Writes fs e := by
  have ht := target_eq h h₁ hl hs hu hc hx hd
  have hsource := h.source_eq hl hs
  exact ⟨fun hw => hw.of_keeps h.user (.inl ht) (.inl hsource),
    fun hw => hw.of_keeps h.user.symm (.inl ht.symm) (.inl hsource.symm)⟩

end Ready

theorem succeeds (h : Repairs A s fs fs') (h₁ : Repairs A s F F') (hl : fs.LinkFree)
    (hs : c.Succeeds fs) (hu : c.Upright)
    (hne : ∀ l, c.target.location? fs.cwd = some l → c.source.location? fs.cwd ≠ some l)
    (hc : c.target.location? fs.cwd = some l) (hx : F.get? l ≠ none) (hd : ¬ F.IsDirectory l) :
    c.Succeeds fs' :=
  hs.extend hu (h.grownBut hl) hne (fun _ => h.not_adds hl hs.ready) (h.storage ▸ h.eased)
    fun _ => spares_target h h₁ hl hs.ready hu hc hx hd

theorem of_installs (h : Repairs A s fs fs') (hA : ∀ x, A x ≠ none → G.get? x = none)
    (hi : Installs cs fs G) (hi' : Installs cs fs' G')
    (hw : ∀ c ∈ cs, ∀ e, c.Writes fs' e → c.Writes fs e) : Repairs A s G G' := by
  have htarget {x : Location} : TargetOf cs fs'.cwd x ↔ TargetOf cs fs.cwd x := by rw [h.cwd]
  have hway {x : Location} : OnWay cs fs'.cwd x ↔ OnWay cs fs.cwd x := by rw [h.cwd]
  constructor
  case cwd => exact hi'.cwd.trans (h.cwd.trans hi.cwd.symm)
  case system => rw [hi'.system, h.system, hi.system]
  case eased => exact FileSystem.storage_eq hi.system ▸ h.eased
  case noLink => exact h.noLink
  case added =>
    intro x e ha
    have hG := hA x (by simp [ha])
    refine ⟨hG, ?_⟩
    have hx' : ¬ TargetOf cs fs'.cwd x := fun hx => (hi.not_isDirectory (htarget.mp hx)).1 hG
    have he := (h.added x e ha).2
    rw [hi'.get?_of_ne_none hx' (by simp [he]), he]
  case others =>
    intro x ha
    by_cases hx : TargetOf cs fs.cwd x
    · obtain ⟨c, hc, hcx⟩ := hx
      obtain ⟨e, he, hex⟩ := hi.get?_target hc hcx
      obtain ⟨e', he', hex'⟩ := hi'.get?_target hc (h.cwd ▸ hcx)
      rw [hex, hex', he.unique (hw c hc e' he')]
      exact .inl rfl
    have hx' := htarget.not.mpr hx
    by_cases hn : fs.get? x = none
    · by_cases hon : OnWay cs fs.cwd x
      · rw [hi.get?_of_onWay hx hn hon]
        rcases h.others x ha with he | ⟨-, he, -⟩
        · exact .inl (hi'.get?_of_onWay hx' (he.trans hn) (hway.mpr hon))
        · exact .inl ((hi'.get?_of_ne_none hx' (by simp [he])).trans he)
      · rw [hi.get?_of_not_onWay hon, hi'.get?_of_not_onWay (hway.not.mpr hon)]
        exact h.others x ha
    · have he := h.extend.get?_eq hn
      rw [hi.get?_of_ne_none hx hn, hi'.get?_of_ne_none hx' (he ▸ hn), he]
      exact .inl rfl

theorem put (h : Repairs A s F F') (he : F.get? l = some e) (m : Permissions) :
    Repairs A s (F.put l (e.withPermissions m)) (F'.put l (e.withPermissions m)) := by
  have hput := F.get?_put (FileSystem.admits_withPermissions he m)
  have hput' := F'.get?_put (FileSystem.admits_withPermissions (h.extend.get? he) m)
  constructor
  case cwd => rw [FileSystem.put_cwd, FileSystem.put_cwd, h.cwd]
  case system => rw [FileSystem.put_system, FileSystem.put_system, h.system]
  case eased => exact FileSystem.storage_eq (F.put_system ..) ▸ h.eased
  case noLink => exact h.noLink
  case added =>
    intro x e' ha
    obtain ⟨hn, hx⟩ := h.added x e' ha
    have hne : x ≠ l := by
      rintro rfl
      cases hn.symm.trans he
    rw [hput, hput', if_neg hne, if_neg hne]
    exact ⟨hn, hx⟩
  case others =>
    intro x ha
    rw [hput, hput']
    split
    · exact .inl rfl
    · exact h.others x ha

/-- Copies that succeed still do when a repair is made before them that may be made after them, and
what they leave behind is then repaired. -/
theorem runCopies (h : Repairs A s fs fs') (h₁ : Repairs A s F F')
    (hs : (InstallRun.runCopies fs [] cs).fs.SameShape F) (hl : fs.LinkFree)
    (hu : ∀ c ∈ cs, c.Upright) (ha : Apart fs.cwd cs)
    (hf : (InstallRun.runCopies fs [] cs).failure = none) :
    (InstallRun.runCopies fs' [] cs).failure = none ∧
      Repairs A s (InstallRun.runCopies fs [] cs).fs (InstallRun.runCopies fs' [] cs).fs := by
  obtain ⟨hi, -⟩ := InstallRun.runCopies_installs hf hl ha
  obtain ⟨hsucc, hno⟩ := (runCopies_succeeds_iff hl hu ha).mp hf
  have ha' : Apart fs'.cwd cs := h.cwd ▸ ha
  have hcopy : ∀ c ∈ cs, c.Succeeds fs' ∧ ∀ e, c.Writes fs' e → c.Writes fs e := by
    intro c hc
    obtain ⟨l, hsp, -⟩ := (hsucc c hc).ready.target hl (hu c hc)
    have hcl := hsp.location? fs.cwd
    obtain ⟨hx, hd⟩ := hi.not_isDirectory ⟨c, hc, hcl⟩
    have hx' : F.get? l ≠ none := fun hn => hx (hs.symm.get?_eq_none hn)
    have hd' : ¬ F.IsDirectory l := fun hd' => hd (hs.symm.isDirectory hd')
    exact ⟨h.succeeds h₁ hl (hsucc c hc) (hu c hc) (ha.sources c hc c hc) hcl hx' hd',
      fun e => (h.writes_iff h₁ hl (hsucc c hc).ready (hu c hc) hcl hx' hd').mp⟩
  have hf' : (InstallRun.runCopies fs' [] cs).failure = none :=
    (runCopies_succeeds_iff (h.linkFree hl) hu ha').mpr
      ⟨fun c hc => (hcopy c hc).1, h.cwd ▸ hno⟩
  obtain ⟨hi', -⟩ := InstallRun.runCopies_installs hf' (h.linkFree hl) ha'
  refine ⟨hf', h.of_installs ?_ hi hi' fun c hc => (hcopy c hc).2⟩
  intro x hx
  obtain ⟨e, he⟩ := Option.ne_none_iff_exists'.mp hx
  exact hs.symm.get?_eq_none (h₁.added x e he).1

open InstallRun in
theorem runChmods (h : Repairs A s F F') (hl : F.LinkFree)
    (hp : ∀ d ∈ ds, .parent ∉ d.target.components) (hf : (runChmods F ds).failure = none) :
    (InstallRun.runChmods F' ds).failure = none ∧
      Repairs A s (InstallRun.runChmods F ds).fs (InstallRun.runChmods F' ds).fs := by
  induction ds generalizing F F' with
  | nil => exact ⟨rfl, h⟩
  | cons d ds ih =>
    rcases hd : d.perform F with e | F₁
    · rw [runChmods_cons_error hd] at hf
      cases hf
    obtain ⟨l, e, hdl, hr, he, rfl⟩ := FileSystem.setMode_eq_ok_iff.mp (perform_eq_ok_iff.mp hd)
    obtain ⟨hlead, -, -, -⟩ := FileSystem.locate_leads hdl
    have hagree := h.extend.agree hl (h.linkFree hl) (hp d List.mem_cons_self)
      (hlead.location? hl) (by simp [he])
    have hr' : F'.storage.refusal? l = none := h.storage ▸ h.eased.refusal l hr
    have hd' := perform_eq_ok_iff.mpr
      (FileSystem.setMode_of_locate (hagree.locate_eq.trans hdl) hr' (h.extend.get? he))
    have hs := FileSystem.setMode_sameShape (perform_eq_ok_iff.mp hd)
    rw [runChmods_cons_ok hd] at hf ⊢
    rw [runChmods_cons_ok hd']
    exact ih (h.put he _) (hs.linkFree hl) (fun d' hd' => hp d' (List.mem_cons_of_mem d hd')) hf

end Repairs

end StagedInstall
