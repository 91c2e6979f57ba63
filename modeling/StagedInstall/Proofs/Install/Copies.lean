import Mathlib.Data.List.Pairwise
import StagedInstall.Proofs.Install.Parents

/-! # Copies in a tree without links

A copy that succeeds writes the location that its target spells out and makes directories above
it, and nothing else (`Copy.perform_installs`). Copies to different targets, none of which is a
source, therefore do not get in each other's way: the run of a whole list has the outcome that
each of its copies has alone (`runCopies_installs`).
-/

namespace StagedInstall

variable {fs fs' fs₁ : FileSystem} {p : Path} {l x : Location} {c c' : Copy} {cs : List Copy}
  {o : CopyOutcome}

namespace FileSystem

def content? (fs : FileSystem) (p : Path) : Option Bytes := (fs.entryAt? p).bind Entry.content?

end FileSystem

namespace Copy

/-- Whether the target is a regular file of the same length and digest as the source. -/
def isCurrent (c : Copy) (fs : FileSystem) : Bool :=
  match fs.entryAt? c.target, fs.content? c.source with
  | some (.file _ t), some s => t.length = s.length ∧ digest t = digest s
  | _, _ => false

theorem isCurrent_iff : c.isCurrent fs = true ↔ ∃ m t s, fs.entryAt? c.target = some (.file m t) ∧
    fs.content? c.source = some s ∧ t.length = s.length ∧ digest t = digest s := by
  unfold isCurrent
  split
  · next m t s ht hs => simp [ht, hs]
  · next hn =>
    refine iff_of_false (by simp) ?_
    rintro ⟨m, t, s, ht, hs, -⟩
    exact hn m t s ht hs

def ToDevice (c : Copy) (fs : FileSystem) : Prop := ∃ m, fs.entryAt? c.target = some (.device m)

def outcome (c : Copy) (fs : FileSystem) : CopyOutcome :=
  if c.isCurrent fs then .upToDate else .copied

/-- `e` is what stands at the target once the copy is made. -/
inductive Writes (c : Copy) (fs : FileSystem) : Entry → Prop
  | upToDate {m t} : c.isCurrent fs = true → fs.entryAt? c.target = some (.file m t) →
      Writes c fs (.file m t)
  | copied {m s} : c.isCurrent fs = false → ¬ c.ToDevice fs →
      fs.entryAt? c.source = some (.file m s) → Writes c fs (.file (fs.written m s) s)
  | device {m} : fs.entryAt? c.target = some (.device m) → Writes c fs (.device m)

theorem Writes.ne_link {e : Entry} (h : c.Writes fs e) (target : Path) : e ≠ .link target := by
  cases h <;> simp

end Copy

/-- The copies have been made: every target holds what its copy writes, and nothing else differs
but for new directories on the way to targets. -/
structure Installs (cs : List Copy) (fs fs' : FileSystem) : Prop where
  cwd : fs'.cwd = fs.cwd
  system : fs'.system = fs.system
  written : ∀ c ∈ cs, ∃ e, c.Writes fs e ∧ fs'.entryAt? c.target = some e
  others : ∀ x, (∀ c ∈ cs, c.target.location? fs.cwd ≠ some x) → fs'.get? x = fs.get? x ∨
    fs.get? x = none ∧ fs'.get? x = some (.directory .newDirectory) ∧
      ∃ c ∈ cs, ∃ l, c.target.location? fs.cwd = some l ∧ x <:+ l

namespace FileSystem

/-- What stands at the location of `p` has not changed, or is a directory that is new there. -/
def Keeps (fs fs' : FileSystem) (p : Path) : Prop :=
  fs'.entryAt? p = fs.entryAt? p ∨
    fs.entryAt? p = none ∧ fs'.entryAt? p = some (.directory .newDirectory)

theorem keeps_of_get? (hcwd : fs'.cwd = fs.cwd)
    (h : ∀ l, p.location? fs.cwd = some l → fs'.get? l = fs.get? l ∨
      fs.get? l = none ∧ fs'.get? l = some (.directory .newDirectory)) : fs.Keeps fs' p := by
  unfold Keeps entryAt?
  rw [hcwd]
  cases hl : p.location? fs.cwd with
  | none => exact .inl rfl
  | some l => exact h l hl

theorem Keeps.entryAt?_eq (h : fs.Keeps fs' p) {e : Entry} (he : fs'.entryAt? p = some e)
    (hd : e ≠ .directory .newDirectory) : fs.entryAt? p = some e := by
  rcases h with h | ⟨-, h⟩
  · exact h ▸ he
  · exact absurd (Option.some.inj (he.symm.trans h)) hd

theorem Keeps.entryAt?_eq_of_some (h : fs.Keeps fs' p) {e : Entry} (he : fs.entryAt? p = some e) :
    fs'.entryAt? p = some e := by
  rcases h with h | ⟨hn, -⟩
  · exact h.trans he
  · cases hn.symm.trans he

theorem Keeps.entryAt?_iff (h : fs.Keeps fs' p) {e : Entry} (hd : e ≠ .directory .newDirectory) :
    fs'.entryAt? p = some e ↔ fs.entryAt? p = some e :=
  ⟨fun he => h.entryAt?_eq he hd, h.entryAt?_eq_of_some⟩

theorem Keeps.content?_eq (h : fs.Keeps fs' p) : fs'.content? p = fs.content? p := by
  rcases h with h | ⟨hn, hd⟩
  · rw [content?, content?, h]
  · rw [content?, content?, hn, hd]
    rfl

end FileSystem

namespace Copy

theorem isCurrent_congr (ht : fs.Keeps fs' c.target) (hs : fs.Keeps fs' c.source) :
    c.isCurrent fs' = c.isCurrent fs := by
  rw [Bool.eq_iff_iff, isCurrent_iff, isCurrent_iff, hs.content?_eq]
  constructor
  · rintro ⟨m, t, s, h, h'⟩
    exact ⟨m, t, s, ht.entryAt?_eq h (by simp), h'⟩
  · rintro ⟨m, t, s, h, h'⟩
    exact ⟨m, t, s, ht.entryAt?_eq_of_some h, h'⟩

theorem Writes.of_keeps {e : Entry} (h : c.Writes fs' e) (hu : fs'.user = fs.user)
    (ht : fs.Keeps fs' c.target) (hs : fs.Keeps fs' c.source) : c.Writes fs e := by
  cases h with
  | upToDate hc h =>
    exact .upToDate (isCurrent_congr ht hs ▸ hc) (ht.entryAt?_eq h (by simp))
  | copied hc hd h =>
    rw [FileSystem.written_congr hu]
    refine .copied (isCurrent_congr ht hs ▸ hc) ?_ (hs.entryAt?_eq h (by simp))
    rintro ⟨m, hm⟩
    exact hd ⟨m, ht.entryAt?_eq_of_some hm⟩
  | device h => exact .device (ht.entryAt?_eq h (by simp))

theorem isCurrent_eq {b : Bool} (hf : fs.isFile c.target = true) (h : c.isUpToDate fs = .ok b)
    (hl : fs.LinkFree) : c.isCurrent fs = b := by
  obtain ⟨l, m, t, k, e, htl, hlm, hsk, hke, hb⟩ := isUpToDate_of_isFile hf h
  have ht : fs.entryAt? c.target = some (.file m t) :=
    (FileSystem.entryAt?_of_location? (htl.location? hl)).trans hlm
  have hs : fs.content? c.source = e.content? := by
    rw [FileSystem.content?, FileSystem.entryAt?_of_location? (hsk.location? hl), hke]
    rfl
  rw [Bool.eq_iff_iff, hb, isCurrent_iff, hs]
  constructor
  · rintro ⟨m', t', s, ht', hs, hlen, hd⟩
    cases ht.symm.trans ht'
    exact ⟨s, hs, hlen, hd⟩
  · rintro ⟨s, hs, hlen, hd⟩
    exact ⟨m, t, s, ht, hs, hlen, hd⟩

theorem installs_of_isUpToDate (h : c.isUpToDate fs = .ok true) (hl : fs.LinkFree) :
    Installs [c] fs fs ∧ c.isCurrent fs = true := by
  have hcur := isCurrent_eq (isFile_of_isUpToDate h) h hl
  obtain ⟨m, t, s, ht, -⟩ := isCurrent_iff.mp hcur
  refine ⟨⟨rfl, rfl, ?_, fun x _ => .inl rfl⟩, hcur⟩
  intro c' hc'
  obtain rfl := List.mem_singleton.mp hc'
  exact ⟨_, .upToDate hcur ht, ht⟩

/-- The target of a copy that is carried out is not current, since it would have been found up to
date. -/
theorem isCurrent_eq_false (hu : c.isUpToDate fs = .ok false) (hl : fs.LinkFree)
    (hg : fs.GrownFor c.target fs₁) (hopen : fs₁.openForWriting c.target = .ok l) :
    c.isCurrent fs = false := by
  by_contra hcur
  rw [Bool.not_eq_false] at hcur
  obtain ⟨m, t, s, ht, -⟩ := isCurrent_iff.mp hcur
  obtain ⟨k, hk, ht⟩ := FileSystem.entryAt?_eq_some_iff.mp ht
  obtain rfl : fs₁ = fs := hg.eq_of_taken hk (by simp [ht])
  cases hk.symm.trans (FileSystem.location?_of_openForWriting hopen hl)
  have hf := FileSystem.isFile_eq_true_iff.mpr ⟨m, t, FileSystem.stat_of_openForWriting hopen ht⟩
  cases hcur.symm.trans (isCurrent_eq hf hu hl)

/-- The files that are opened stand where the paths point, also before the directories are made. -/
theorem opens_of_grownFor {m : Permissions} {s : Bytes} (hg : fs.GrownFor c.target fs₁)
    (hl : fs.LinkFree) (ho : fs₁.OpensBoth c.source c.target l m s)
    (hne : ∀ l, c.target.location? fs.cwd = some l → c.source.location? fs.cwd ≠ some l) :
    c.target.location? fs.cwd = some l ∧ fs.entryAt? c.source = some (.file m s) := by
  obtain ⟨⟨o, s', hso, hos, hs⟩, hopen⟩ := ho
  have hl₁ := hg.linkFree hl
  have htl : c.target.location? fs.cwd = some l :=
    hg.cwd ▸ FileSystem.location?_of_openForWriting hopen hl₁
  have hsl : c.source.location? fs.cwd = some o :=
    hg.cwd ▸ (FileSystem.openForReading_leads hso).location? hl₁
  have hlo : l ≠ o := by
    rintro rfl
    exact hne l htl hsl
  obtain rfl : s = s' := hs.trans (if_neg hlo)
  refine ⟨htl, ?_⟩
  rw [FileSystem.entryAt?_of_location? hsl]
  exact hg.get?_of_ne hos (by simp)

theorem installs_of_copyFile (hu : c.isUpToDate fs = .ok false) (hl : fs.LinkFree)
    (hg : fs.GrownFor c.target fs₁) (h : fs₁.copyFile c.source c.target = (fs', none))
    (hne : ∀ l, c.target.location? fs.cwd = some l → c.source.location? fs.cwd ≠ some l) :
    Installs [c] fs fs' ∧ c.isCurrent fs = false := by
  obtain ⟨l, m, s, ho, -, rfl⟩ := FileSystem.copyFile_effect h
  obtain ⟨htl, hse⟩ := opens_of_grownFor hg hl ho hne
  have hopen := ho.target
  have hcur := isCurrent_eq_false hu hl hg hopen
  have hcwd := (fs₁.fill_cwd l (.file (fs₁.written m s) s)).trans hg.cwd
  have hk := FileSystem.get?_fill_of_opened hopen (.file (fs₁.written m s) s)
  have hte : fs.entryAt? c.target = fs.get? l := FileSystem.entryAt?_of_location? htl
  refine ⟨⟨hcwd, (fs₁.fill_system ..).trans hg.system, ?_, ?_⟩, hcur⟩
  · intro c' hc'
    obtain rfl := List.mem_singleton.mp hc'
    rw [FileSystem.entryAt?_of_location? (by rw [hcwd, htl]), hk]
    by_cases hd : ∃ m', fs₁.get? l = some (.device m')
    · obtain ⟨m', hm'⟩ := hd
      rw [if_neg (fun h => h.2 ⟨m', hm'⟩), hm']
      exact ⟨_, .device (hte.trans (hg.device_iff.mp hm')), rfl⟩
    · rw [if_pos ⟨rfl, hd⟩, FileSystem.written_congr (FileSystem.user_eq hg.system)]
      refine ⟨_, .copied hcur ?_ hse, rfl⟩
      rintro ⟨m', hm'⟩
      exact hd ⟨m', hg.device_iff.mpr (hte.symm.trans hm')⟩
  · intro x hx
    have hxl : x ≠ l := by
      rintro rfl
      exact hx c (List.mem_singleton_self c) htl
    rw [hk, if_neg (fun h => hxl h.1)]
    rcases hg.get? x with h | ⟨hn, hd, hs⟩
    · exact .inl h
    · exact .inr ⟨hn, hd, c, List.mem_singleton_self c, l, htl, hs l htl⟩

/-- A copy that succeeds is made, unless its target is current. -/
theorem perform_installs (h : c.perform fs = (fs', .ok o)) (hl : fs.LinkFree)
    (hp : .parent ∉ c.target.components)
    (hne : ∀ l, c.target.location? fs.cwd = some l → c.source.location? fs.cwd ≠ some l) :
    Installs [c] fs fs' ∧ o = c.outcome fs := by
  unfold outcome
  rcases perform_cases h with ⟨rfl, hu, rfl⟩ | ⟨rfl, hu, fs₁, hm, hcopy⟩
  · obtain ⟨hi, hcur⟩ := installs_of_isUpToDate hu hl
    exact ⟨hi, (if_pos hcur).symm⟩
  · have hg := FileSystem.makeParents_grownFor hm hl hp
    obtain ⟨hi, hcur⟩ := installs_of_copyFile hu hl hg hcopy hne
    exact ⟨hi, (if_neg (by simp [hcur])).symm⟩

/-- What a copy does, whether it succeeds or not: directories above its target, and at most one
write. -/
theorem perform_fills {r : Except InstallError CopyOutcome} (h : c.perform fs = (fs', r)) :
    ∃ fs₁, fs.PreparedFor c.target fs₁ ∧ (fs' = fs₁ ∨
      ∃ l m s, fs₁.openForWriting c.target = .ok l ∧ fs' = fs₁.fill l (.file m s)) := by
  unfold perform at h
  split at h
  · cases h
    exact ⟨fs, .refl fs c.target, .inl rfl⟩
  · cases h
    exact ⟨fs, .refl fs c.target, .inl rfl⟩
  split at h
  · next hm =>
    cases h
    exact ⟨_, FileSystem.makeParents_preparedFor hm, .inl rfl⟩
  · next fs₁ hm =>
    refine ⟨fs₁, FileSystem.makeParents_preparedFor hm, ?_⟩
    split at h <;> next hc =>
      cases h
      exact FileSystem.copyFile_fills hc

theorem linkFree_of_perform {r : Except InstallError CopyOutcome} (h : c.perform fs = (fs', r))
    (hl : fs.LinkFree) : fs'.LinkFree := by
  obtain ⟨fs₁, hp, rfl | ⟨l, m, s, hw, rfl⟩⟩ := perform_fills h
  · exact hp.linkFree hl
  · exact (hp.linkFree hl).fill hw

theorem perform_stays {r : Except InstallError CopyOutcome} (h : c.perform fs = (fs', r)) :
    fs'.cwd = fs.cwd ∧ fs'.system = fs.system := by
  obtain ⟨fs₁, hp, rfl | ⟨l, m, s, -, rfl⟩⟩ := perform_fills h
  · exact ⟨hp.cwd, hp.system⟩
  · exact ⟨(fs₁.fill_cwd ..).trans hp.cwd, (fs₁.fill_system ..).trans hp.system⟩

end Copy

/-- Copies that do not get in each other's way: their targets spell out different locations, none
of them that of a source. -/
structure Apart (cwd : Location) (cs : List Copy) : Prop where
  noParent : ∀ c ∈ cs, .parent ∉ c.target.components
  targets : cs.Pairwise fun c c' =>
    ∀ l, c.target.location? cwd = some l → c'.target.location? cwd ≠ some l
  sources : ∀ c ∈ cs, ∀ c' ∈ cs,
    ∀ l, c.target.location? cwd = some l → c'.source.location? cwd ≠ some l

theorem Apart.tail {cwd : Location} (h : Apart cwd (c :: cs)) : Apart cwd cs where
  noParent _ hc := h.noParent _ (List.mem_cons_of_mem c hc)
  targets := (List.pairwise_cons.mp h.targets).2
  sources _ hc _ hc' := h.sources _ (List.mem_cons_of_mem c hc) _ (List.mem_cons_of_mem c hc')

theorem Apart.perm {cwd : Location} {cs' : List Copy} (h : Apart cwd cs) (hp : cs.Perm cs') :
    Apart cwd cs' where
  noParent c hc := h.noParent c (hp.mem_iff.mpr hc)
  targets := h.targets.perm hp fun {_ _} hne l hl hl' => hne l hl' hl
  sources c hc c' hc' := h.sources c (hp.mem_iff.mpr hc) c' (hp.mem_iff.mpr hc')

theorem Apart.target_ne {cwd : Location} (h : Apart cwd cs) (hc : c ∈ cs) (hc' : c' ∈ cs)
    (hne : c ≠ c') (hl : c.target.location? cwd = some l) : c'.target.location? cwd ≠ some l := by
  have : Std.Symm fun c c' : Copy =>
      ∀ l, c.target.location? cwd = some l → c'.target.location? cwd ≠ some l :=
    ⟨fun _ _ h l hl hl' => h l hl' hl⟩
  exact h.targets.forall hc hc' hne l hl

namespace Installs

theorem user (h : Installs cs fs fs') : fs'.user = fs.user := FileSystem.user_eq h.system

theorem nil (fs : FileSystem) : Installs [] fs fs :=
  ⟨rfl, rfl, fun _ h => absurd h List.not_mem_nil, fun _ _ => .inl rfl⟩

theorem of_mem_iff {cs' : List Copy} (h : Installs cs fs fs') (hm : ∀ c, c ∈ cs ↔ c ∈ cs') :
    Installs cs' fs fs' where
  cwd := h.cwd
  system := h.system
  written c hc := h.written c ((hm c).mpr hc)
  others x hx := by
    rcases h.others x fun c hc => hx c ((hm c).mp hc) with h | ⟨hn, hd, c, hc, hl⟩
    · exact .inl h
    · exact .inr ⟨hn, hd, c, (hm c).mp hc, hl⟩

theorem keeps (h : Installs cs fs fs')
    (hp : ∀ c ∈ cs, ∀ l, c.target.location? fs.cwd = some l → p.location? fs.cwd ≠ some l) :
    fs.Keeps fs' p := by
  refine FileSystem.keeps_of_get? h.cwd fun l hl => ?_
  rcases h.others l (fun c hc ht => hp c hc l ht hl) with h | ⟨hn, hd, -⟩
  · exact .inl h
  · exact .inr ⟨hn, hd⟩

theorem linkFree (h : Installs cs fs fs') (hl : fs.LinkFree) : fs'.LinkFree := by
  intro x target hx
  by_cases ht : ∃ c ∈ cs, c.target.location? fs.cwd = some x
  · obtain ⟨c, hc, hcx⟩ := ht
    obtain ⟨e, he, het⟩ := h.written c hc
    rw [FileSystem.entryAt?_of_location? (h.cwd ▸ hcx), hx] at het
    exact he.ne_link target (Option.some.inj het).symm
  · rcases h.others x (fun c hc hcx => ht ⟨c, hc, hcx⟩) with h | ⟨-, hd, -⟩
    · exact hl x target (h ▸ hx)
    · cases hd.symm.trans hx

theorem keeps_tail (h : Installs [c] fs fs₁) (ha : Apart fs.cwd (c :: cs)) (hc : c' ∈ cs) :
    fs.Keeps fs₁ c'.target ∧ fs.Keeps fs₁ c'.source := by
  constructor
  · apply h.keeps
    intro c'' hc''
    rw [List.mem_singleton.mp hc'']
    exact (List.pairwise_cons.mp ha.targets).1 c' hc
  · apply h.keeps
    intro c'' hc''
    rw [List.mem_singleton.mp hc'']
    exact ha.sources c List.mem_cons_self c' (List.mem_cons_of_mem c hc)

theorem cons (h : Installs [c] fs fs₁) (h' : Installs cs fs₁ fs') (ha : Apart fs.cwd (c :: cs)) :
    Installs (c :: cs) fs fs' := by
  constructor
  case cwd => exact h'.cwd.trans h.cwd
  case system => exact h'.system.trans h.system
  case written =>
    intro c' hm
    rcases List.mem_cons.mp hm with rfl | hc'
    · obtain ⟨e, he, hte⟩ := h.written c' (List.mem_singleton_self c')
      have hkeep : fs₁.Keeps fs' c'.target := by
        apply h'.keeps
        intro c'' hc'' l hl ht
        rw [h.cwd] at hl ht
        exact (List.pairwise_cons.mp ha.targets).1 c'' hc'' l ht hl
      exact ⟨e, he, hkeep.entryAt?_eq_of_some hte⟩
    · obtain ⟨e, he, hte⟩ := h'.written c' hc'
      obtain ⟨ht, hs⟩ := h.keeps_tail ha hc'
      exact ⟨e, he.of_keeps h.user ht hs, hte⟩
  case others =>
    intro x hx
    have hx₁ := h.others x fun c' hc' => hx c' (List.mem_singleton.mp hc' ▸ List.mem_cons_self)
    have hx₂ := h'.others x fun c' hc' => h.cwd ▸ hx c' (List.mem_cons_of_mem c hc')
    rcases hx₂ with hx₂ | ⟨hn, hd, c', hc', l, hl, hs⟩
    · rw [hx₂]
      rcases hx₁ with hx₁ | ⟨hn, hd, c', hc', hs⟩
      · exact .inl hx₁
      · exact .inr ⟨hn, hd, c', List.mem_singleton.mp hc' ▸ List.mem_cons_self, hs⟩
    · refine .inr ⟨?_, hd, c', List.mem_cons_of_mem c hc', l, h.cwd ▸ hl, hs⟩
      rcases hx₁ with hx₁ | ⟨-, hd', -⟩
      · exact hx₁ ▸ hn
      · cases hd'.symm.trans hn

end Installs

namespace InstallRun

/-- The copies of a run that succeeds have all been made, each with the outcome it has alone. -/
theorem runCopies_installs (h : (runCopies fs [] cs).failure = none) (hl : fs.LinkFree)
    (ha : Apart fs.cwd cs) : Installs cs fs (runCopies fs [] cs).fs ∧
      (runCopies fs [] cs).copies = cs.map fun c => (c, c.outcome fs) := by
  induction cs generalizing fs with
  | nil => exact ⟨.nil fs, rfl⟩
  | cons c cs ih =>
    unfold runCopies at h ⊢
    split at h
    · cases h
    next fs₁ o hc =>
    obtain ⟨h₁, rfl⟩ := Copy.perform_installs hc hl (ha.noParent c List.mem_cons_self)
      (ha.sources c List.mem_cons_self c List.mem_cons_self)
    obtain ⟨h₂, hcs⟩ := ih h (h₁.linkFree hl) (h₁.cwd ▸ ha.tail)
    refine ⟨h₁.cons h₂ ha, ?_⟩
    dsimp only
    rw [hcs, List.map_cons]
    congr 1
    apply List.map_congr_left
    intro c' hc'
    obtain ⟨ht, hs⟩ := h₁.keeps_tail ha hc'
    rw [Copy.outcome, Copy.outcome, Copy.isCurrent_congr ht hs]

theorem runCopies_linkFree (cs : List Copy) (hl : fs.LinkFree) :
    (runCopies fs [] cs).fs.LinkFree := by
  induction cs generalizing fs with
  | nil => exact hl
  | cons c cs ih =>
    unfold runCopies
    split
    · next hc => exact Copy.linkFree_of_perform hc hl
    · next hc => exact ih (Copy.linkFree_of_perform hc hl)

theorem runCopies_system (fs : FileSystem) (cs : List Copy) :
    (runCopies fs [] cs).fs.system = fs.system := by
  induction cs generalizing fs with
  | nil => rfl
  | cons c cs ih =>
    unfold runCopies
    split
    · next hc => exact (Copy.perform_stays hc).2
    · next hc => exact (ih _).trans (Copy.perform_stays hc).2

end InstallRun

end StagedInstall
