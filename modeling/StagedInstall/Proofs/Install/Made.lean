import StagedInstall.Proofs.Install.Order

/-! # Targets that need no copy

After copies each target holds a file like its source, or is a device (`Installs.made`), and
permission changes leave it so (`Made.of_sameShape`). The same copies write nothing else there, so
they leave the whole tree as it is when they succeed again (`Installs.eq_of_made`).
-/

namespace StagedInstall

variable {fs fs' F G : FileSystem} {c : Copy} {cs : List Copy} {e e' : Entry}

theorem Entry.content?_of_bare (h : e'.bare = e.bare) : e'.content? = e.content? := by
  cases e <;> cases e' <;> simp_all [bare, withPermissions, content?]

namespace Copy

def Made (c : Copy) (fs : FileSystem) : Prop := c.isCurrent fs = true ∨ c.ToDevice fs

theorem ToDevice.isCurrent_eq (h : c.ToDevice fs) : c.isCurrent fs = false := by
  obtain ⟨m, hm⟩ := h
  rw [isCurrent, hm]

/-- What a copy has written is made, as long as the source has its content. -/
theorem Writes.made (h : c.Writes fs e) (ht : fs'.entryAt? c.target = some e)
    (hs : fs'.content? c.source = fs.content? c.source) : c.Made fs' := by
  cases h with
  | upToDate hc ht' =>
    left
    obtain ⟨m, t, s, hm, hcs, hlen, hd⟩ := isCurrent_iff.mp hc
    cases ht'.symm.trans hm
    exact isCurrent_iff.mpr ⟨_, _, s, ht, hs.trans hcs, hlen, hd⟩
  | @copied m s _ _ hsource =>
    left
    have hcs : fs.content? c.source = some s := by
      rw [FileSystem.content?, hsource]
      rfl
    exact isCurrent_iff.mpr ⟨_, s, s, ht, hs.trans hcs, rfl, rfl⟩
  | device => exact .inr ⟨_, ht⟩

namespace Made

theorem exists_writes (h : c.Made fs) : ∃ e, c.Writes fs e ∧ fs.entryAt? c.target = some e := by
  rcases h with hc | ⟨m, hm⟩
  · obtain ⟨m, t, -, ht, -⟩ := isCurrent_iff.mp hc
    exact ⟨_, .upToDate hc ht, ht⟩
  · exact ⟨_, .device hm, hm⟩

theorem eq_of_writes (h : c.Made fs) (hw : c.Writes fs e') (ht : fs.entryAt? c.target = some e) :
    e' = e := by
  obtain ⟨e₁, he₁, ht₁⟩ := h.exists_writes
  cases ht₁.symm.trans ht
  exact hw.unique he₁

end Made

theorem isCurrent_of_sameShape (h : c.isCurrent G = true) (hs : G.SameShape F) :
    c.isCurrent F = true := by
  obtain ⟨m, t, s, ht, hcs, hlen, hd⟩ := isCurrent_iff.mp h
  obtain ⟨l, hl, hlm⟩ := FileSystem.entryAt?_eq_some_iff.mp ht
  obtain ⟨m', hm'⟩ := hs.get?_eq_file hlm
  refine isCurrent_iff.mpr ⟨m', t, s, ?_, ?_, hlen, hd⟩
  · exact (FileSystem.entryAt?_of_location? (hs.cwd ▸ hl)).trans hm'
  · obtain ⟨e, he, hes⟩ := Option.bind_eq_some_iff.mp hcs
    obtain ⟨k, hk, hke⟩ := FileSystem.entryAt?_eq_some_iff.mp he
    obtain ⟨e', he', hb⟩ := hs.get?_eq_some hke
    rw [FileSystem.content?, FileSystem.entryAt?_of_location? (hs.cwd ▸ hk), he']
    exact (Entry.content?_of_bare hb).trans hes

theorem toDevice_iff_of_sameShape (h : G.SameShape F) : c.ToDevice F ↔ c.ToDevice G := by
  have key {G F : FileSystem} (h : G.SameShape F) : c.ToDevice G → c.ToDevice F := by
    rintro ⟨m, hm⟩
    obtain ⟨l, hl, hlm⟩ := FileSystem.entryAt?_eq_some_iff.mp hm
    obtain ⟨e, he, hb⟩ := h.get?_eq_some hlm
    cases e with
    | device m' => exact ⟨m', (FileSystem.entryAt?_of_location? (h.cwd ▸ hl)).trans he⟩
    | file | directory | link => cases hb
  exact ⟨key h.symm, key h⟩

theorem Made.of_sameShape (h : c.Made G) (hs : G.SameShape F) : c.Made F :=
  h.imp (isCurrent_of_sameShape · hs) (toDevice_iff_of_sameShape hs).mpr

end Copy

namespace Installs

theorem made (h : Installs cs fs G) (ha : Apart fs.cwd cs) (hc : c ∈ cs) : c.Made G := by
  obtain ⟨e, he, hte⟩ := h.written c hc
  have hsource : fs.Keeps G c.source := h.keeps fun c' hc' => ha.sources c' hc' c hc
  exact he.made hte hsource.content?_eq

theorem eq_of_made (h : Installs cs fs F) (hm : ∀ c ∈ cs, c.Made fs) : F = fs := by
  have hself : Installs cs fs fs :=
    ⟨rfl, rfl, fun c hc => (hm c hc).exists_writes, fun x _ => .inl rfl⟩
  exact hself.eq_of_writes h (fun c => Iff.rfl) rfl rfl (fun c _ e e' he he' => he'.unique he)
    fun x _ => .inl rfl

theorem toDevice_iff (h : Installs cs fs G) (hc : c ∈ cs) : c.ToDevice G ↔ c.ToDevice fs := by
  obtain ⟨e, he, hte⟩ := h.written c hc
  constructor
  · rintro ⟨m, hm⟩
    cases hte.symm.trans hm
    cases he with
    | device hd => exact ⟨m, hd⟩
  · rintro ⟨m, hm⟩
    cases he with
    | upToDate _ ht => cases ht.symm.trans hm
    | copied _ hd => exact absurd ⟨m, hm⟩ hd
    | device => exact ⟨_, hte⟩

end Installs

end StagedInstall
