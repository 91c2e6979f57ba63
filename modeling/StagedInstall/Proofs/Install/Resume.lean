import StagedInstall.Proofs.Install.Failure
import StagedInstall.Proofs.Install.Made
import StagedInstall.Proofs.Install.Repair
import StagedInstall.Proofs.Install.Schedules

/-! # Resuming an install phase

A phase that failed has made some of the copies, has cut some short, and has made directories for
others (`Begun.of_attempt`), or it has made all copies and some permission changes. When it is
repaired and run again, it ends where a phase would end that starts from the repaired tree
(`execute_resumed`).
-/

namespace StagedInstall

variable {A : Location → Option Entry} {s : Storage} {fs fs' F F' F₁ F₂ G G' fs₀ fs₁ fs₂ : FileSystem}
  {p : Path} {k l y : Location} {c : Copy} {cs pre order : List Copy} {e : Entry}
  {g : ActionGraph} {error : InstallError} {report : Report}

namespace Copy

theorem isCurrent_eq_false_of_length {m : Permissions} {s t : Bytes}
    (ht : fs.entryAt? c.target = some (.file m t)) (hs : fs.content? c.source = some s)
    (hlen : t.length ≠ s.length) : c.isCurrent fs = false := by
  by_contra hcur
  rw [Bool.not_eq_false] at hcur
  obtain ⟨m', t', s', ht', hs', hlen', -⟩ := isCurrent_iff.mp hcur
  cases ht.symm.trans ht'
  cases hs.symm.trans hs'
  exact hlen hlen'

/-- The copy has been made, or it was cut short. -/
inductive Touched (c : Copy) (fs fs' : FileSystem) : Prop
  | made {e : Entry} (hs : c.Succeeds fs) (hw : c.Writes fs e)
      (ht : fs'.entryAt? c.target = some e)
  | cut {m : Permissions} {s t : Bytes} (hr : c.Ready fs) (hc : c.isCurrent fs = false)
      (hd : ¬ c.ToDevice fs) (hs : fs.content? c.source = some s) (hlen : t.length < s.length)
      (ht : fs'.entryAt? c.target = some (.file m t))

namespace Touched

theorem ready (h : c.Touched fs fs') : c.Ready fs := by
  cases h with
  | made hs => exact hs.ready
  | cut hr => exact hr

theorem exists_target (h : c.Touched fs fs') (hcwd : fs'.cwd = fs.cwd) :
    ∃ l e, c.target.location? fs.cwd = some l ∧ fs'.get? l = some e ∧ ¬ fs'.IsDirectory l := by
  obtain ⟨e, he, hd⟩ : ∃ e, fs'.entryAt? c.target = some e ∧ e.isDirectory = false := by
    cases h with
    | made _ hw ht => exact ⟨_, ht, hw.isDirectory_eq⟩
    | cut _ _ _ _ _ ht => exact ⟨_, ht, rfl⟩
  obtain ⟨l, hl, hle⟩ := FileSystem.entryAt?_eq_some_iff.mp he
  exact ⟨l, e, hcwd ▸ hl, hle, FileSystem.not_isDirectory hle hd⟩

theorem trans (h : c.Touched fs fs') (hcwd : fs₁.cwd = fs'.cwd)
    (ht : ∀ l, c.target.location? fs'.cwd = some l → fs'.get? l ≠ none → fs₁.get? l = fs'.get? l) :
    c.Touched fs fs₁ := by
  have key {e : Entry} (he : fs'.entryAt? c.target = some e) : fs₁.entryAt? c.target = some e := by
    obtain ⟨l, hl, hle⟩ := FileSystem.entryAt?_eq_some_iff.mp he
    rw [FileSystem.entryAt?_of_location? (hcwd ▸ hl), ht l hl (by simp [hle]), hle]
  cases h with
  | made hs hw ht => exact .made hs hw (key ht)
  | cut hr hc hd hs hlen ht => exact .cut hr hc hd hs hlen (key ht)

end Touched

end Copy

/-- The copies of `pre` have been made or cut short, and besides there are directories on the way to
targets of `cs`, where the user may make them. -/
structure Begun (pre cs : List Copy) (fs fs' : FileSystem) : Prop where
  cwd : fs'.cwd = fs.cwd
  system : fs'.system = fs.system
  touched : ∀ c ∈ pre, c.Touched fs fs'
  others : ∀ x, ¬ TargetOf pre fs.cwd x → fs'.get? x = fs.get? x ∨
    fs.get? x = none ∧ fs'.get? x = some (.directory .newDirectory) ∧ OnWay cs fs.cwd x
  allowed : ∀ n y, fs.get? (n :: y) = none →
    fs'.get? (n :: y) = some (.directory .newDirectory) → fs.IsDirectory y →
      fs.permitsChange y = true

namespace Begun

theorem nil (cs : List Copy) (fs : FileSystem) : Begun [] cs fs fs where
  cwd := rfl
  system := rfl
  touched _ hc := absurd hc List.not_mem_nil
  others _ _ := .inl rfl
  allowed _ _ hn hd := by cases hn.symm.trans hd

theorem of_installs (h : Installs [c] fs fs') (hl : fs.LinkFree) (hu : c.Upright)
    (hs : c.Succeeds fs) : Begun [c] [c] fs fs' := by
  have hall : ∀ d ∈ [c], d.Upright ∧ d.Ready fs := by
    intro d hd
    rw [List.mem_singleton.mp hd]
    exact ⟨hu, hs.ready⟩
  constructor
  case cwd => exact h.cwd
  case system => exact h.system
  case touched =>
    intro d hd
    obtain ⟨e, he, hte⟩ := h.written d hd
    rw [List.mem_singleton.mp hd] at he hte ⊢
    exact .made hs he hte
  case others => exact fun x hx => h.others x fun d hd hdx => hx ⟨d, hd, hdx⟩
  case allowed => exact fun n y hn hd hy => h.permitsChange hl hall hn ⟨_, hd⟩ hy

theorem of_preparedFor (h : fs.PreparedFor c.target fs') (hl : fs.LinkFree) (hu : c.Upright)
    (hcl : c.target.location? fs.cwd = some l) : Begun [] [c] fs fs' where
  cwd := h.cwd
  system := h.system
  touched _ hc := absurd hc List.not_mem_nil
  others x _ := by
    rcases (h.grownFor hl hu.target).get? x with he | ⟨hn, hd, hx⟩
    · exact .inl he
    · exact .inr ⟨hn, hd, c, List.mem_singleton_self c, l, hcl, hx l hcl⟩
  allowed n y hn hd hy := by
    rcases h.get? (n :: y) with he | ⟨-, -, hallow, -⟩
    · cases (he.symm.trans hd).symm.trans hn
    · exact hallow hy

theorem grownBut (h : Begun pre cs fs fs') (hl : fs.LinkFree) (hl' : fs'.LinkFree)
    (hu : ∀ c ∈ pre, c.Upright) : fs.GrownBut (TargetOf pre fs.cwd) fs' := by
  refine grownBut_of_targets hl hl' h.cwd (FileSystem.user_eq h.system)
    (fun c hc => ⟨hu c hc, (h.touched c hc).ready⟩) ?_
  intro x hx
  rcases h.others x hx with he | ⟨hn, he, -⟩
  · exact .inl he
  · exact .inr ⟨hn, he⟩

theorem keeps (h : Begun pre cs fs fs')
    (hp : ∀ l, p.location? fs.cwd = some l → ¬ TargetOf pre fs.cwd l) : fs.Keeps fs' p := by
  refine FileSystem.keeps_of_get? h.cwd fun l hl => ?_
  rcases h.others l (hp l hl) with he | ⟨hn, hd, -⟩
  · exact .inl he
  · exact .inr ⟨hn, hd⟩

section Untouched

variable (h : Begun pre cs fs F) (hl : fs.LinkFree) (hl' : F.LinkFree)
  (hu : ∀ c ∈ cs, c.Upright) (ha : Apart fs.cwd cs) (hsub : pre ⊆ cs) (hc : c ∈ cs) (hn : c ∉ pre)

include ha hsub hc

theorem not_targetOf_source (hk : c.source.location? fs.cwd = some k) :
    ¬ TargetOf pre fs.cwd k := by
  rintro ⟨d, hd, hdk⟩
  exact ha.sources d (hsub hd) c hc k hdk hk

include h in
theorem keeps_source : fs.Keeps F c.source := h.keeps fun _ => not_targetOf_source ha hsub hc

include hn

theorem not_targetOf_target (hcl : c.target.location? fs.cwd = some l) :
    ¬ TargetOf pre fs.cwd l := by
  rintro ⟨d, hd, hdl⟩
  exact ha.target_ne (hsub hd) hc (fun he => hn (he ▸ hd)) hdl hcl

include h

theorem keeps_target : fs.Keeps F c.target :=
  h.keeps fun _ => not_targetOf_target ha hsub hc hn

include hl' hu

/-- No target that was written stands on the way to one that can still be reached. -/
theorem not_targetOf_way (hr : c.Ready F) (hcl : c.target.location? fs.cwd = some l)
    (hy : y <:+ l) : ¬ TargetOf pre fs.cwd y := by
  by_cases hyl : y = l
  · rw [hyl]
    exact not_targetOf_target ha hsub hc hn hcl
  · rintro ⟨d, hd, hdy⟩
    obtain ⟨y', e, hy', he, hdir⟩ := (h.touched d hd).exists_target h.cwd
    cases hdy.symm.trans hy'
    obtain ⟨m, hm⟩ := FileSystem.exists_cons_suffix hy hyl
    have hs := (hr.approachable hl' (hu c hc) (h.cwd ▸ hcl)).search m y hm (by simp [he])
    exact hdir hs.1

include hl

theorem ready_of_ready (hr : c.Ready F) : c.Ready fs :=
  hr.retract (hu c hc) (h.grownBut hl hl' fun d hd => hu d (hsub hd))
    (fun _ => not_targetOf_source ha hsub hc)
    (fun _ hcl _ => not_targetOf_way h hl' hu ha hsub hc hn hr hcl) h.allowed

theorem succeeds_of_succeeds (hs : c.Succeeds F) : c.Succeeds fs :=
  hs.retract (hu c hc) (h.grownBut hl hl' fun d hd => hu d (hsub hd)) (ha.sources c hc c hc)
    (fun _ => not_targetOf_source ha hsub hc)
    (.of_eq (FileSystem.storage_eq h.system).symm)
    (fun _ hcl _ => not_targetOf_way h hl' hu ha hsub hc hn hs.ready hcl) h.allowed

theorem touched_of_touched (ht : c.Touched F F') : c.Touched fs F' := by
  have hks := keeps_source h ha hsub hc
  have hkt := keeps_target h ha hsub hc hn
  cases ht with
  | made hs hw hte =>
    exact .made (succeeds_of_succeeds h hl hl' hu ha hsub hc hn hs)
      (hw.of_keeps (FileSystem.user_eq h.system) hkt hks) hte
  | cut hr hcur hd hs hlen hte =>
    refine .cut (ready_of_ready h hl hl' hu ha hsub hc hn hr)
      (Copy.isCurrent_congr hkt hks ▸ hcur) ?_ (hks.content?_eq ▸ hs) hlen hte
    rintro ⟨m, hm⟩
    exact hd ⟨m, hkt.entryAt?_eq_of_some hm⟩

theorem concat {pre' : List Copy} (h' : Begun pre' [c] F F') (hpre : pre' ⊆ [c]) :
    Begun (pre ++ pre') cs fs F' := by
  have htarget {x : Location} (hx : ¬ TargetOf (pre ++ pre') fs.cwd x) :
      ¬ TargetOf pre fs.cwd x ∧ ¬ TargetOf pre' F.cwd x := by
    rw [h.cwd]
    constructor
    · rintro ⟨d, hd, hdx⟩
      exact hx ⟨d, List.mem_append_left pre' hd, hdx⟩
    · rintro ⟨d, hd, hdx⟩
      exact hx ⟨d, List.mem_append_right pre hd, hdx⟩
  constructor
  case cwd => exact h'.cwd.trans h.cwd
  case system => exact h'.system.trans h.system
  case touched =>
    intro d hd
    rcases List.mem_append.mp hd with hd | hd
    · refine (h.touched d hd).trans h'.cwd fun l hdl hne => ?_
      rw [h.cwd] at hdl
      have hl : ¬ TargetOf pre' F.cwd l := by
        rintro ⟨d', hd', hdl'⟩
        rw [List.mem_singleton.mp (hpre hd'), h.cwd] at hdl'
        exact ha.target_ne (hsub hd) hc (fun he => hn (he ▸ hd)) hdl hdl'
      rcases h'.others l hl with he | ⟨hnone, -⟩
      · exact he
      · exact absurd hnone hne
    · have hdc := h'.touched d hd
      rw [List.mem_singleton.mp (hpre hd)] at hdc ⊢
      exact touched_of_touched h hl hl' hu ha hsub hc hn hdc
  case others =>
    intro x hx
    obtain ⟨hx, hx'⟩ := htarget hx
    rcases h'.others x hx' with he | ⟨hnone, hd, d, hdc, l, hdl, hxl⟩
    · rw [he]
      exact h.others x hx
    · rw [List.mem_singleton.mp hdc, h.cwd] at hdl
      rcases h.others x hx with he | ⟨-, hd', -⟩
      · exact .inr ⟨he ▸ hnone, hd, c, hc, l, hdl, hxl⟩
      · cases hnone.symm.trans hd'
  case allowed =>
    intro n y hnone hd hy
    have hpre' : ¬ TargetOf pre' F.cwd (n :: y) := by
      rintro ⟨d, hd', hdy⟩
      obtain ⟨y', e, hy', he, hdir⟩ := (h'.touched d hd').exists_target h'.cwd
      cases hdy.symm.trans hy'
      exact hdir ⟨_, hd⟩
    rcases h'.others (n :: y) hpre' with he | ⟨hF, -⟩
    · exact h.allowed n y hnone (he ▸ hd) hy
    · have he := (h.grownBut hl hl' fun d hd => hu d (hsub hd)).get?_of_isDirectory hy
      rw [← FileSystem.permitsChange_congr (FileSystem.user_eq h.system) he]
      exact h'.allowed n y hF hd ((FileSystem.isDirectory_congr he).mpr hy)

end Untouched

theorem succeeds (h : Begun pre cs fs F) (hl : fs.LinkFree) (hl' : F.LinkFree)
    (hu : ∀ c ∈ cs, c.Upright) (ha : Apart fs.cwd cs) (hsub : pre ⊆ cs) (hc : c ∈ cs)
    (hs' : c.Succeeds F) : c.Succeeds fs := by
  by_cases hp : c ∈ pre
  · have hks := keeps_source h ha hsub hc
    cases h.touched c hp with
    | made hs => exact hs
    | @cut m s t hr hcur hd hs hlen hte =>
      refine (Copy.succeeds_iff hl (hu c hc) (ha.sources c hc c hc)).mpr ⟨hr, ?_⟩
      obtain ⟨-, hf⟩ := (Copy.succeeds_iff hl' (hu c hc)
        (h.cwd ▸ ha.sources c hc c hc)).mp hs'
      intro _ l m' s' hcl hse
      have hcl' : c.target.location? F.cwd = some l := h.cwd ▸ hcl
      have hcur' : c.isCurrent F = false :=
        Copy.isCurrent_eq_false_of_length hte (hks.content?_eq.trans hs) (Nat.ne_of_lt hlen)
      have hacc := hf hcur' l m' s' hcl' (hks.entryAt?_eq_of_some hse)
      refine hacc.eased (.of_eq (FileSystem.storage_eq h.system).symm) fun q => ?_
      rw [← FileSystem.entryAt?_of_location? hcl, ← FileSystem.entryAt?_of_location? hcl', hte]
      exact iff_of_false (fun hq => hd ⟨q, hq⟩) (by simp)
  · exact succeeds_of_succeeds h hl hl' hu ha hsub hc hp hs'

end Begun

open InstallRun

section Copies

variable (hl : fs.LinkFree) (hu : ∀ c ∈ cs, c.Upright) (ha : Apart fs.cwd cs)
  (h₀ : Repairs A s fs fs₀)

include hl hu ha h₀

end Copies

namespace ActionGraph

theorem Upright.congr (hg : g.Upright fs) (hl : fs'.LinkFree) (hcwd : fs'.cwd = fs.cwd) :
    g.Upright fs' where
  linkFree := hl
  copies := hg.copies
  chmods := hg.chmods
  sources := hcwd ▸ hg.sources
  upright := hg.upright

namespace Sample

end Sample

end ActionGraph

end StagedInstall
