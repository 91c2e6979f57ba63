import StagedInstall.Proofs.Install.Content

/-! # Permission changes

A permission change that succeeds keeps the shape of the tree, so where the others lead is not
affected by it. After a run of them an entry carries the permissions that the last one to reach it
asks for (`runChmods_chmodded`).
-/

namespace StagedInstall

section Last

variable {α : Type} {p q : α → Prop} {l : List α} {a b : α}

/-- `a` is the last element of the list that satisfies `p`. -/
def IsLast (p : α → Prop) (l : List α) (a : α) : Prop :=
  ∃ pre post, l = pre ++ a :: post ∧ p a ∧ ∀ b ∈ post, ¬ p b

theorem isLast_cons :
    IsLast p (b :: l) a ↔ IsLast p l a ∨ b = a ∧ p a ∧ ∀ c ∈ l, ¬ p c := by
  constructor
  · rintro ⟨pre, post, h, ha, hpost⟩
    cases pre with
    | nil =>
      obtain ⟨rfl, rfl⟩ := List.cons.inj h
      exact .inr ⟨rfl, ha, hpost⟩
    | cons c pre => exact .inl ⟨pre, post, (List.cons.inj h).2, ha, hpost⟩
  · rintro (⟨pre, post, rfl, ha, hpost⟩ | ⟨rfl, ha, hl⟩)
    · exact ⟨b :: pre, post, rfl, ha, hpost⟩
    · exact ⟨[], l, rfl, ha, hl⟩

theorem IsLast.mem (h : IsLast p l a) : a ∈ l := by
  obtain ⟨pre, post, rfl, -, -⟩ := h
  exact List.mem_append_right _ List.mem_cons_self

theorem IsLast.holds (h : IsLast p l a) : p a := by
  obtain ⟨-, -, -, ha, -⟩ := h
  exact ha

theorem IsLast.congr (h : IsLast p l a) (hpq : ∀ b ∈ l, p b ↔ q b) : IsLast q l a := by
  obtain ⟨pre, post, rfl, ha, hpost⟩ := h
  refine ⟨pre, post, rfl, (hpq a (by simp)).mp ha, fun b hb hqb => hpost b hb ?_⟩
  exact (hpq b (by simp [hb])).mpr hqb

theorem exists_isLast (h : ∃ b ∈ l, p b) : ∃ a, IsLast p l a := by
  induction l with
  | nil =>
    obtain ⟨b, hb, -⟩ := h
    exact absurd hb List.not_mem_nil
  | cons c l ih =>
    by_cases hl : ∃ b ∈ l, p b
    · obtain ⟨a, ha⟩ := ih hl
      exact ⟨a, isLast_cons.mpr (.inl ha)⟩
    · obtain ⟨b, hb, hpb⟩ := h
      rcases List.mem_cons.mp hb with rfl | hb
      · exact ⟨b, isLast_cons.mpr (.inr ⟨rfl, hpb, fun c hc hpc => hl ⟨c, hc, hpc⟩⟩)⟩
      · exact absurd ⟨b, hb, hpb⟩ hl

end Last

def Entry.permissions? : Entry → Option Permissions
  | file p _ | directory p | device p => some p
  | link _ => none

theorem Entry.withPermissions_withPermissions (e : Entry) (p q : Permissions) :
    (e.withPermissions p).withPermissions q = e.withPermissions q := by
  cases e <;> rfl

theorem Entry.permissions?_withPermissions {e : Entry} (h : ∀ target, e ≠ .link target)
    (p : Permissions) : (e.withPermissions p).permissions? = some p := by
  cases e with
  | link target => exact absurd rfl (h target)
  | file | directory | device => rfl

variable {fs fs' fs₁ : FileSystem} {c : Chmod} {cs : List Chmod} {l : Location}

namespace FileSystem

def permissions? (fs : FileSystem) (l : Location) : Option Permissions :=
  (fs.get? l).bind Entry.permissions?

/-- The last permission change of the list that reaches the entry at `l`. -/
def LastChmod (fs : FileSystem) (l : Location) : List Chmod → Chmod → Prop :=
  IsLast fun c => fs.LeadsTo c.target l

end FileSystem

/-- The permission changes have been made, and nothing else. -/
structure Chmodded (cs : List Chmod) (fs fs' : FileSystem) : Prop where
  sameShape : fs.SameShape fs'
  system : fs'.system = fs.system
  reached : ∀ c ∈ cs, ∃ l e, fs.LeadsTo c.target l ∧ fs.get? l = some e ∧
    ∀ target, e ≠ .link target
  last : ∀ l c, fs.LastChmod l cs c →
    fs'.get? l = (fs.get? l).map (·.withPermissions c.mode.permissions)
  others : ∀ l, (∀ c ∈ cs, ¬ fs.LeadsTo c.target l) → fs'.get? l = fs.get? l

namespace Chmodded

theorem user (h : Chmodded cs fs fs') : fs'.user = fs.user := FileSystem.user_eq h.system

theorem nil (fs : FileSystem) : Chmodded [] fs fs :=
  ⟨.refl fs, rfl, fun _ h => absurd h List.not_mem_nil,
    fun _ _ h => absurd h.mem List.not_mem_nil, fun _ _ => rfl⟩

theorem cons (hc : fs.setMode c.target c.mode = .ok fs₁) (h : Chmodded cs fs₁ fs') :
    Chmodded (c :: cs) fs fs' := by
  have hs := FileSystem.setMode_sameShape hc
  obtain ⟨k, e, hk, he, hn, -, hu, hget⟩ := FileSystem.setMode_effect hc
  constructor
  case sameShape => exact hs.trans h.sameShape
  case system => exact h.system.trans hu
  case reached =>
    intro d hd
    rcases List.mem_cons.mp hd with rfl | hd
    · exact ⟨k, e, hk, he, hn⟩
    · obtain ⟨l, e', hl, he', hn'⟩ := h.reached d hd
      obtain ⟨f, hf, hb⟩ := hs.symm.get?_eq_some he'
      refine ⟨l, f, hs.leadsTo_iff.mp hl, hf, ?_⟩
      rintro target rfl
      exact hn' target (Entry.eq_link_of_bare hb.symm)
  case last =>
    intro l d hd
    rcases isLast_cons.mp hd with hd | ⟨rfl, hd, hcs⟩
    · have hd : fs₁.LastChmod l cs d := by
        simpa only [FileSystem.LastChmod, hs.leadsTo_iff] using hd
      rw [h.last l d hd, hget]
      split
      · next hlk =>
        rw [hlk, he, Option.map_some, Option.map_some, Entry.withPermissions_withPermissions]
      · rfl
    · obtain rfl := hd.unique hk
      rw [h.others l fun d hd' hl => hcs d hd' (hs.leadsTo_iff.mp hl), hget, if_pos rfl, he]
      rfl
  case others =>
    intro l hl
    have hlk : l ≠ k := by
      rintro rfl
      exact hl c List.mem_cons_self hk
    rw [h.others l fun d hd hl' => hl d (List.mem_cons_of_mem c hd) (hs.leadsTo_iff.mp hl'), hget,
      if_neg hlk]

/-- An entry ends with the permissions of the last change that reaches it. -/
theorem permissions?_last (h : Chmodded cs fs fs') (hc : fs.LastChmod l cs c) :
    fs'.permissions? l = some c.mode.permissions := by
  obtain ⟨k, e, hk, he, hn⟩ := h.reached c hc.mem
  obtain rfl := hk.unique hc.holds
  rw [FileSystem.permissions?, h.last k c hc, he, Option.map_some, Option.bind_some,
    Entry.permissions?_withPermissions hn]

theorem again (h : Chmodded cs fs fs₁) (h' : Chmodded cs fs₁ fs') : fs' = fs₁ := by
  refine FileSystem.ext ?_ h'.sameShape.cwd h'.system
  intro l
  by_cases hl : ∃ c ∈ cs, fs.LeadsTo c.target l
  · obtain ⟨c, hc⟩ : ∃ c, fs.LastChmod l cs c := exists_isLast hl
    have hc' : fs₁.LastChmod l cs c := by
      simpa only [FileSystem.LastChmod, h.sameShape.leadsTo_iff] using hc
    rw [h'.last l c hc', h.last l c hc, Option.map_map]
    congr 1
    exact funext fun e => e.withPermissions_withPermissions _ _
  · exact h'.others l fun c hc hcl => hl ⟨c, hc, h.sameShape.leadsTo_iff.mp hcl⟩

end Chmodded

namespace InstallRun

theorem perform_eq_ok_iff : c.perform fs = .ok fs₁ ↔ fs.setMode c.target c.mode = .ok fs₁ :=
  mapError_eq_ok_iff

theorem runChmods_chmodded (h : (runChmods fs cs).failure = none) :
    Chmodded cs fs (runChmods fs cs).fs ∧ (runChmods fs cs).chmods = cs := by
  induction cs generalizing fs with
  | nil => exact ⟨.nil fs, rfl⟩
  | cons c cs ih =>
    unfold runChmods at h ⊢
    split at h
    · cases h
    next fs₁ hc =>
    obtain ⟨h₁, hcs⟩ := ih h
    exact ⟨.cons (perform_eq_ok_iff.mp hc) h₁, congrArg (c :: ·) hcs⟩

theorem runChmods_copies (fs : FileSystem) (cs : List Chmod) : (runChmods fs cs).copies = [] := by
  induction cs generalizing fs with
  | nil => rfl
  | cons c cs ih =>
    unfold runChmods
    split
    · rfl
    · exact ih _

theorem runCopies_eq (fs : FileSystem) (chmods : List Chmod) (cs : List Copy) :
    runCopies fs chmods cs = match (runCopies fs [] cs).failure with
      | some _ => runCopies fs [] cs
      | none => { runChmods (runCopies fs [] cs).fs chmods with
          copies := (runCopies fs [] cs).copies } := by
  induction cs generalizing fs with
  | nil =>
    change runChmods fs chmods = { runChmods fs chmods with copies := [] }
    rw [← runChmods_copies fs chmods]
  | cons c cs ih =>
    unfold runCopies
    split
    · rfl
    next fs₁ o hc =>
    dsimp only
    rw [ih fs₁]
    split <;> rfl

theorem runCopies_chmodded {chmods : List Chmod} {cs : List Copy}
    (h : (runCopies fs chmods cs).failure = none) :
    (runCopies fs [] cs).failure = none ∧
      Chmodded chmods (runCopies fs [] cs).fs (runCopies fs chmods cs).fs ∧
      (runCopies fs chmods cs).copies = (runCopies fs [] cs).copies ∧
      (runCopies fs chmods cs).chmods = chmods := by
  rw [runCopies_eq fs chmods] at h ⊢
  cases hf : (runCopies fs [] cs).failure with
  | some e =>
    rw [hf] at h
    dsimp only at h
    rw [hf] at h
    cases h
  | none =>
    rw [hf] at h
    dsimp only at h ⊢
    obtain ⟨hch, hcs⟩ := runChmods_chmodded h
    exact ⟨rfl, hch, rfl, hcs⟩

theorem result_eq_ok_iff {r : InstallRun} {report : Report} :
    r.result = .ok report ↔ r.failure = none ∧ r.report = report := by
  unfold result
  split
  · next e h => simp [h]
  · next h => simp [h]

theorem runCopies_eq_ok {chmods : List Chmod} {cs : List Copy} {report : Report}
    (h : (runCopies fs chmods cs).result = .ok report) :
    (runCopies fs [] cs).failure = none ∧
      Chmodded chmods (runCopies fs [] cs).fs (runCopies fs chmods cs).fs ∧
      report = ⟨(runCopies fs [] cs).copies.countP (·.2 = .copied),
        (runCopies fs [] cs).copies.countP (·.2 = .upToDate), chmods.length⟩ := by
  obtain ⟨hf, hr⟩ := result_eq_ok_iff.mp h
  obtain ⟨hc, hch, hcopies, hchmods⟩ := runCopies_chmodded hf
  refine ⟨hc, hch, ?_⟩
  rw [← hr, InstallRun.report, hcopies, hchmods]

end InstallRun

end StagedInstall
