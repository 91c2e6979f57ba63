import StagedInstall.Proofs.FileSystem.Growth
import StagedInstall.Proofs.Install.Content

/-! # The directories above a target

In a tree without links the directories that are made for a target stand on the way to the
location that it spells out, where nothing stood before (`makeParents_grownFor`). When the target
exists there are none (`GrownFor.eq_of_taken`).
-/

namespace StagedInstall.FileSystem

variable {fs fs' fs₁ : FileSystem} {p : Path} {l x : Location}

/-- Nothing differs but for new directories on the way to the location that `p` spells out. -/
structure GrownFor (fs : FileSystem) (p : Path) (fs' : FileSystem) : Prop where
  cwd : fs'.cwd = fs.cwd
  system : fs'.system = fs.system
  get? : ∀ x, fs'.get? x = fs.get? x ∨ fs.get? x = none ∧
    fs'.get? x = some (.directory .newDirectory) ∧ ∀ l, p.location? fs.cwd = some l → x <:+ l

namespace GrownFor

theorem get?_of_ne (h : fs.GrownFor p fs') {e : Entry} (he : fs'.get? x = some e)
    (hd : e ≠ .directory .newDirectory) : fs.get? x = some e := by
  rcases h.get? x with hx | ⟨-, hx, -⟩
  · exact hx ▸ he
  · exact absurd (Option.some.inj (he.symm.trans hx)) hd

theorem linkFree (h : fs.GrownFor p fs') (hl : fs.LinkFree) : fs'.LinkFree :=
  fun x _ hx => hl x _ (h.get?_of_ne hx (by simp))

end GrownFor

theorem GrownFor.eq_of_taken (h : fs.GrownFor p fs') (hp : p.location? fs.cwd = some l)
    (hl : fs.get? l ≠ none) : fs' = fs := by
  refine ext ?_ h.cwd h.system
  intro x
  rcases h.get? x with hx | ⟨hn, -, hx⟩
  · exact hx
  · exact absurd hn (get?_suffix_ne_none hl (hx l hp))

theorem GrownFor.device_iff (h : fs.GrownFor p fs') {m : Permissions} :
    fs'.get? l = some (.device m) ↔ fs.get? l = some (.device m) := by
  rcases h.get? l with h | ⟨hn, hd, -⟩
  · rw [h]
  · simp [hn, hd]

theorem PreparedFor.linkFree (h : fs.PreparedFor p fs') (hl : fs.LinkFree) : fs'.LinkFree := by
  intro x target hx
  rcases h.get? x with he | ⟨-, he, -⟩
  · exact hl x target (he ▸ hx)
  · cases hx.symm.trans he

theorem PreparedFor.grownFor (h : fs.PreparedFor p fs') (hl : fs.LinkFree)
    (hp : .parent ∉ p.components) : fs.GrownFor p fs' := by
  refine ⟨h.cwd, h.system, ?_⟩
  intro x
  rcases h.get? x with he | ⟨hn, hd, -, q, hq, hqx⟩
  · exact .inl he
  · refine .inr ⟨hn, hd, ?_⟩
    intro l hpl
    obtain ⟨k, hk, hkl, -⟩ := hq.location? hp hpl
    rw [← h.cwd] at hk
    cases hk.symm.trans (hqx.location? (h.linkFree hl))
    exact hkl

theorem makeParents_preparedFor {e : Option InstallError} (h : fs.makeParents p = (fs', e)) :
    fs.PreparedFor p fs' := by
  apply makeParents_induction h (.refl fs p)
  intro dir q fs₁ fs₂ hdir hq hr hm
  have hn : q ≠ ∅ := by
    rintro rfl
    exact makeDirectory_empty hm
  exact hr.makeDirectory (Path.above_of_mem_lineage hdir hq hn) hm

theorem makeParents_grownFor {e : Option InstallError} (h : fs.makeParents p = (fs', e))
    (hl : fs.LinkFree) (hp : .parent ∉ p.components) : fs.GrownFor p fs' :=
  (makeParents_preparedFor h).grownFor hl hp

theorem location?_of_openForWriting (h : fs.openForWriting p = .ok l) (hl : fs.LinkFree) :
    p.location? fs.cwd = some l := by
  rcases openForWriting_leads h with ⟨h, -⟩ | ⟨d, n, rfl, h, -⟩
  · exact Leads.location? h hl
  · exact Leads.location? h hl

end StagedInstall.FileSystem
