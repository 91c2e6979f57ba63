import StagedInstall.Proofs.Install.Phase
import StagedInstall.Proofs.Install.Runs
import StagedInstall.Proofs.Install.Success

/-! # The order of the copies

Copies that are apart succeed one after the other exactly when each of them would succeed alone and
no target stands on the way to another (`runCopies_succeeds_iff`). What they leave behind is
determined by what each of them writes (`Installs.eq_of_writes`). So neither depends on their order
(`execute_perm`).
-/

namespace StagedInstall

variable {fs fs' fs₁ F F' : FileSystem} {l x y : Location} {n : Name} {c c' : Copy}
  {cs cs' : List Copy}

namespace Copy

/-- The target of one of the copies is on the way to that of the other. -/
def Collides (cwd : Location) (c c' : Copy) : Prop :=
  ∃ l l', c.target.location? cwd = some l ∧ c'.target.location? cwd = some l' ∧
    (l <:+ l' ∨ l' <:+ l)

theorem Collides.symm {cwd : Location} (h : c.Collides cwd c') : c'.Collides cwd c := by
  obtain ⟨l, l', hl, hl', hs⟩ := h
  exact ⟨l', l, hl', hl, hs.symm⟩

theorem Writes.isDirectory_eq {e : Entry} (h : c.Writes fs e) : e.isDirectory = false := by
  cases h <;> rfl

theorem Writes.unique {e e' : Entry} (h : c.Writes fs e) (h' : c.Writes fs e') : e = e' := by
  cases h with
  | upToDate hc ht =>
    cases h' with
    | upToDate _ ht' => exact Option.some.inj (ht.symm.trans ht')
    | copied hc' => cases hc.symm.trans hc'
    | device ht' => cases ht.symm.trans ht'
  | copied hc hd hs =>
    cases h' with
    | upToDate hc' => cases hc.symm.trans hc'
    | copied _ _ hs' =>
      cases hs.symm.trans hs'
      rfl
    | device ht' => exact absurd ⟨_, ht'⟩ hd
  | device ht =>
    cases h' with
    | upToDate _ ht' => cases ht.symm.trans ht'
    | copied _ hd => exact absurd ⟨_, ht⟩ hd
    | device ht' => exact Option.some.inj (ht.symm.trans ht')

end Copy

def TargetOf (cs : List Copy) (cwd x : Location) : Prop :=
  ∃ c ∈ cs, c.target.location? cwd = some x

/-- A tree that differs at the targets of copies that were ready, and in new directories elsewhere. -/
theorem grownBut_of_targets (hl : fs.LinkFree) (hl' : fs'.LinkFree) (hcwd : fs'.cwd = fs.cwd)
    (huser : fs'.user = fs.user) (hs : ∀ c ∈ cs, c.Upright ∧ c.Ready fs)
    (ho : ∀ x, ¬ TargetOf cs fs.cwd x → fs'.get? x = fs.get? x ∨
      fs.get? x = none ∧ fs'.get? x = some (.directory .newDirectory)) :
    fs.GrownBut (TargetOf cs fs.cwd) fs' := by
  refine ⟨hl, hl', hcwd, huser, ?_, ho⟩
  rintro x ⟨c, hc, hcx⟩
  obtain ⟨hu, hsc⟩ := hs c hc
  exact hsc.not_isDirectory hl hu hcx

namespace Installs

theorem get?_target (h : Installs cs fs fs') (hc : c ∈ cs)
    (hx : c.target.location? fs.cwd = some x) : ∃ e, c.Writes fs e ∧ fs'.get? x = some e := by
  obtain ⟨e, he, hte⟩ := h.written c hc
  rw [FileSystem.entryAt?_of_location? (h.cwd ▸ hx)] at hte
  exact ⟨e, he, hte⟩

theorem not_isDirectory (h : Installs cs fs fs') (hx : TargetOf cs fs.cwd x) :
    fs'.get? x ≠ none ∧ ¬ fs'.IsDirectory x := by
  obtain ⟨c, hc, hcx⟩ := hx
  obtain ⟨e, he, hxe⟩ := h.get?_target hc hcx
  exact ⟨by simp [hxe], FileSystem.not_isDirectory hxe he.isDirectory_eq⟩

theorem grownBut (h : Installs cs fs fs') (hl : fs.LinkFree)
    (hs : ∀ c ∈ cs, c.Upright ∧ c.Ready fs) : fs.GrownBut (TargetOf cs fs.cwd) fs' := by
  refine grownBut_of_targets hl (h.linkFree hl) h.cwd h.user hs ?_
  intro x hx
  rcases h.others x fun c hc hcx => hx ⟨c, hc, hcx⟩ with he | ⟨hn, he, -⟩
  · exact .inl he
  · exact .inr ⟨hn, he⟩

theorem above_of_new (h : Installs cs fs fs') (hn : fs.get? x = none) (hd : fs'.IsDirectory x) :
    ∃ c ∈ cs, ∃ l, c.target.location? fs.cwd = some l ∧ x <:+ l := by
  rcases h.others x fun c hc hcx => (h.not_isDirectory ⟨c, hc, hcx⟩).2 hd with he | ⟨-, -, hs⟩
  · obtain ⟨m, hm⟩ := hd
    cases (he.symm.trans hm).symm.trans hn
  · exact hs

theorem permitsChange (h : Installs cs fs fs') (hl : fs.LinkFree)
    (hs : ∀ c ∈ cs, c.Upright ∧ c.Ready fs) (hn : fs.get? (n :: y) = none)
    (hd : fs'.IsDirectory (n :: y)) (hy : fs.IsDirectory y) : fs.permitsChange y = true := by
  obtain ⟨c, hc, l, hcl, hnl⟩ := h.above_of_new hn hd
  obtain ⟨hu, hsc⟩ := hs c hc
  obtain ⟨m, hm⟩ := hy
  exact (hsc.approachable hl hu hcl).change n y hnl (by simp [hm]) hn

end Installs

namespace Copy

section After

variable (h : Installs [c] fs fs₁) (hl : fs.LinkFree) (ha : Apart fs.cwd (c :: cs))
  (hc' : c' ∈ cs) (hu : c.Upright) (hu' : c'.Upright) (hs : c.Succeeds fs)

include h hl ha hc' hu'

theorem not_collides (hs' : c'.Ready fs₁) : ¬ c.Collides fs.cwd c' := by
  rintro ⟨l, l', hcl, hcl', hll⟩
  have hne : l ≠ l' := by
    rintro rfl
    exact (List.pairwise_cons.mp ha.targets).1 c' hc' l hcl hcl'
  obtain ⟨hle, hld⟩ := h.not_isDirectory ⟨c, List.mem_singleton_self c, hcl⟩
  rw [← h.cwd] at hcl'
  have hl₁ := h.linkFree hl
  rcases hll with hll | hll
  · obtain ⟨m, hm⟩ := FileSystem.exists_cons_suffix hll hne
    exact hld ((hs'.approachable hl₁ hu' hcl').search m l hm hle).1
  · exact hs'.not_isDirectory hl₁ hu' hcl' (FileSystem.isDirectory_of_suffix hle hll hne.symm)

include hu hs

/-- After a copy, another one succeeds when it would have succeeded before, and the targets do not
collide. -/
theorem succeeds_after_iff :
    c'.Succeeds fs₁ ↔ c'.Succeeds fs ∧ ¬ c.Collides fs.cwd c' := by
  have hall : ∀ d ∈ [c], d.Upright ∧ d.Ready fs := by
    intro d hd
    rw [List.mem_singleton.mp hd]
    exact ⟨hu, hs.ready⟩
  have hg := h.grownBut hl hall
  have hsource : ∀ k, c'.source.location? fs.cwd = some k → ¬ TargetOf [c] fs.cwd k := by
    rintro k hk ⟨d, hd, hdk⟩
    rw [List.mem_singleton.mp hd] at hdk
    exact ha.sources c List.mem_cons_self c' (List.mem_cons_of_mem c hc') k hdk hk
  have htarget (hno : ¬ c.Collides fs.cwd c') {k y : Location}
      (hk : c'.target.location? fs.cwd = some k) (hy : y <:+ k) : ¬ TargetOf [c] fs.cwd y := by
    rintro ⟨d, hd, hdy⟩
    rw [List.mem_singleton.mp hd] at hdy
    exact hno ⟨y, k, hdy, hk, .inl hy⟩
  have hst := FileSystem.storage_eq h.system
  have hne := ha.sources c' (List.mem_cons_of_mem c hc') c' (List.mem_cons_of_mem c hc')
  constructor
  · intro hs'
    have hno := not_collides h hl ha hc' hu' hs'.ready
    refine ⟨hs'.retract hu' hg hne hsource (.of_eq hst.symm) (fun k hk y => htarget hno hk) ?_,
      hno⟩
    intro n y hn hny
    exact h.permitsChange hl hall hn ⟨_, hny⟩
  · rintro ⟨hs', hno⟩
    refine hs'.extend hu' hg hne hsource (.of_eq hst)
      fun k hk => ⟨fun y => htarget hno hk, fun hdk => ?_⟩
    rcases hg.get? k (htarget hno hk List.suffix_rfl) with he | ⟨hn, -⟩
    · exact hs'.ready.not_isDirectory hl hu' hk ((FileSystem.isDirectory_congr he).mp hdk)
    · obtain ⟨d, hd, l, hdl, hkl⟩ := h.above_of_new hn hdk
      rw [List.mem_singleton.mp hd] at hdl
      exact hno ⟨l, k, hdl, hk, .inr hkl⟩

end After

end Copy

open InstallRun

/-- Copies succeed one after the other when each succeeds alone and no two targets collide. -/
theorem runCopies_succeeds_iff (hl : fs.LinkFree) (hu : ∀ c ∈ cs, c.Upright)
    (ha : Apart fs.cwd cs) : (runCopies fs [] cs).failure = none ↔
      (∀ c ∈ cs, c.Succeeds fs) ∧ cs.Pairwise fun c c' => ¬ c.Collides fs.cwd c' := by
  induction cs generalizing fs with
  | nil => exact iff_of_true rfl ⟨fun _ h => absurd h List.not_mem_nil, .nil⟩
  | cons c cs ih =>
    have hucs : ∀ c' ∈ cs, c'.Upright := fun c' hc' => hu c' (List.mem_cons_of_mem c hc')
    have huc := hu c List.mem_cons_self
    rcases c.perform_ok_or_error fs with ⟨fs₁, o, hc⟩ | ⟨fs₁, e, hc⟩
    · have hs : c.Succeeds fs := ⟨fs₁, o, hc⟩
      obtain ⟨h, -⟩ := Copy.perform_installs hc hl huc.target
        (ha.sources c List.mem_cons_self c List.mem_cons_self)
      have hafter {c' : Copy} (hc' : c' ∈ cs) :=
        Copy.succeeds_after_iff h hl ha hc' huc (hucs c' hc') hs
      rw [runCopies_cons_ok hc, ih (h.linkFree hl) hucs (h.cwd ▸ ha.tail), h.cwd,
        List.forall_mem_cons, List.pairwise_cons]
      constructor
      · rintro ⟨hcs, hp⟩
        exact ⟨⟨hs, fun c' hc' => ((hafter hc').mp (hcs c' hc')).1⟩,
          fun c' hc' => ((hafter hc').mp (hcs c' hc')).2, hp⟩
      · rintro ⟨⟨-, hcs⟩, hno, hp⟩
        exact ⟨fun c' hc' => (hafter hc').mpr ⟨hcs c' hc', hno c' hc'⟩, hp⟩
    · rw [runCopies_cons_error hc]
      refine iff_of_false (by simp) ?_
      rintro ⟨hs, -⟩
      obtain ⟨fs', o, hc'⟩ := hs c List.mem_cons_self
      cases hc.symm.trans hc'

def OnWay (cs : List Copy) (cwd x : Location) : Prop :=
  ∃ c ∈ cs, ∃ l, c.target.location? cwd = some l ∧ x <:+ l

namespace Installs

theorem get?_of_ne_none (h : Installs cs fs F) (hx : ¬ TargetOf cs fs.cwd x)
    (he : fs.get? x ≠ none) : F.get? x = fs.get? x := by
  rcases h.others x fun c hc hcx => hx ⟨c, hc, hcx⟩ with he' | ⟨hn, -⟩
  · exact he'
  · exact absurd hn he

theorem get?_of_onWay (h : Installs cs fs F) (hx : ¬ TargetOf cs fs.cwd x)
    (hn : fs.get? x = none) (ho : OnWay cs fs.cwd x) :
    F.get? x = some (.directory .newDirectory) := by
  rcases h.others x fun c hc hcx => hx ⟨c, hc, hcx⟩ with he | ⟨-, he, -⟩
  · obtain ⟨c, hc, l, hl, hxl⟩ := ho
    have hne := FileSystem.get?_suffix_ne_none (h.not_isDirectory ⟨c, hc, hl⟩).1 hxl
    exact absurd (he.trans hn) hne
  · exact he

theorem get?_of_not_onWay (h : Installs cs fs F) (ho : ¬ OnWay cs fs.cwd x) :
    F.get? x = fs.get? x := by
  rcases h.others x fun c hc hcx => ho ⟨c, hc, x, hcx, List.suffix_rfl⟩ with he | ⟨-, -, ho'⟩
  · exact he
  · exact absurd ho' ho

/-- What copies leave behind is determined by what they write, and what they find elsewhere. There
the directories on the way to targets may be made already. -/
theorem eq_of_writes (h : Installs cs fs F) (h' : Installs cs' fs' F')
    (hm : ∀ c, c ∈ cs' ↔ c ∈ cs) (hcwd : fs'.cwd = fs.cwd) (hsys : fs'.system = fs.system)
    (hw : ∀ c ∈ cs, ∀ e e', c.Writes fs e → c.Writes fs' e' → e' = e)
    (ho : ∀ x, ¬ TargetOf cs fs.cwd x → fs'.get? x = fs.get? x ∨
      fs.get? x = none ∧ fs'.get? x = some (.directory .newDirectory) ∧ OnWay cs fs.cwd x) :
    F' = F := by
  have htarget {x : Location} : TargetOf cs' fs'.cwd x ↔ TargetOf cs fs.cwd x := by
    simp only [TargetOf, hm, hcwd]
  have hway {x : Location} : OnWay cs' fs'.cwd x ↔ OnWay cs fs.cwd x := by
    simp only [OnWay, hm, hcwd]
  refine FileSystem.ext ?_ (h'.cwd.trans (hcwd.trans h.cwd.symm))
    (h'.system.trans (hsys.trans h.system.symm))
  intro x
  by_cases hx : TargetOf cs fs.cwd x
  · obtain ⟨c, hc, hcx⟩ := hx
    obtain ⟨e, he, hex⟩ := h.get?_target hc hcx
    obtain ⟨e', he', hex'⟩ := h'.get?_target ((hm c).mpr hc) (hcwd ▸ hcx)
    rw [hex, hex', hw c hc e e' he he']
  · have hx' := htarget.not.mpr hx
    rcases ho x hx with he | ⟨hn, hd, hon⟩
    · by_cases hn : fs.get? x = none
      · by_cases hon : OnWay cs fs.cwd x
        · rw [h.get?_of_onWay hx hn hon, h'.get?_of_onWay hx' (he.trans hn) (hway.mpr hon)]
        · rw [h.get?_of_not_onWay hon, h'.get?_of_not_onWay (hway.not.mpr hon), he]
      · rw [h.get?_of_ne_none hx hn, h'.get?_of_ne_none hx' (he ▸ hn), he]
    · rw [h.get?_of_onWay hx hn hon, h'.get?_of_ne_none hx' (by simp [hd]), hd]

end Installs

theorem runCopies_perm (hl : fs.LinkFree) (hu : ∀ c ∈ cs, c.Upright) (ha : Apart fs.cwd cs)
    (hp : cs.Perm cs') (hf : (runCopies fs [] cs).failure = none) :
    (runCopies fs [] cs').failure = none ∧
      (runCopies fs [] cs').fs = (runCopies fs [] cs).fs ∧
      (runCopies fs [] cs').copies.Perm (runCopies fs [] cs).copies := by
  have hu' : ∀ c ∈ cs', c.Upright := fun c hc => hu c (hp.mem_iff.mpr hc)
  have ha' := ha.perm hp
  have hf' : (runCopies fs [] cs').failure = none := by
    rw [runCopies_succeeds_iff hl hu ha] at hf
    obtain ⟨hs, hno⟩ := hf
    refine (runCopies_succeeds_iff hl hu' ha').mpr ⟨?_, ?_⟩
    · exact fun c hc => hs c (hp.mem_iff.mpr hc)
    · exact (hp.pairwise_iff fun hno hcol => hno hcol.symm).mp hno
  obtain ⟨hi, hcs⟩ := runCopies_installs hf hl ha
  obtain ⟨hi', hcs'⟩ := runCopies_installs hf' hl ha'
  refine ⟨hf', ?_, ?_⟩
  · exact hi.eq_of_writes hi' (fun c => hp.mem_iff.symm) rfl rfl
      (fun c _ e e' he he' => he'.unique he) fun x _ => .inl rfl
  · rw [hcs, hcs']
    exact (hp.map _).symm

theorem result_perm (hl : fs.LinkFree) (hu : ∀ c ∈ cs, c.Upright) (ha : Apart fs.cwd cs)
    (hp : cs.Perm cs') (hf : (runCopies fs [] cs).failure = none) (ds : List Chmod) :
    (runCopies fs ds cs').result = (runCopies fs ds cs).result ∧
      (runCopies fs ds cs').fs = (runCopies fs ds cs).fs := by
  obtain ⟨hf', hfs, hcs⟩ := runCopies_perm hl hu ha hp hf
  rw [runCopies_of_copies hf, runCopies_of_copies hf', hfs]
  refine ⟨?_, rfl⟩
  rw [result, result, report, report, hcs.countP_eq, hcs.countP_eq]

namespace ActionGraph

variable {g g' : ActionGraph} {report : Report}

/-- The install phase of a plain graph in whose sources there is no `..` either. -/
structure Upright (g : ActionGraph) (fs : FileSystem) : Prop extends g.Plain fs where
  upright : ∀ c ∈ g.copies, .parent ∉ c.source.components

theorem Upright.copy_upright (h : g.Upright fs) (hc : c ∈ g.distinctCopies) : c.Upright := by
  have hc := mem_of_mem_uniqueBy hc
  obtain ⟨ha, hp⟩ := h.copies c hc
  exact ⟨ha, hp, h.upright c hc⟩

theorem Upright.of_forall (hl : fs.LinkFree)
    (hc : ∀ c ∈ g.copies, (c.target.isAbsolute = true ∧ .parent ∉ c.target.components) ∧
      .parent ∉ c.source.components)
    (hm : ∀ c ∈ g.chmods, c.target.isAbsolute = true ∧ .parent ∉ c.target.components)
    (hs : ∀ c ∈ g.copies, ∀ d ∈ g.copies,
      d.source.location? fs.cwd ≠ c.target.location? fs.cwd) : g.Upright fs where
  linkFree := hl
  copies c h := (hc c h).1
  chmods := hm
  sources c h d h' _ hl := hl ▸ hs c h d h'
  upright c h := (hc c h).2

theorem execute_of_perm (h : g.Upright fs) (hc : g.chmods = g'.chmods)
    (hp : g.distinctCopies.Perm g'.distinctCopies)
    (hr : (g.execute fs false).result = .ok report) :
    (g'.execute fs false).result = .ok report ∧
      (g'.execute fs false).fs = (g.execute fs false).fs := by
  obtain ⟨hf, -, -⟩ := execute_eq_ok hr
  obtain ⟨hres, hfs⟩ := result_perm h.linkFree (fun c => h.copy_upright) h.apart hp hf
    g.distinctChmods
  have hrun : g'.run fs = runCopies fs g.distinctChmods g'.distinctCopies := by
    rw [run, distinctChmods, distinctChmods, hc]
  change (g'.run fs).result = _ ∧ (g'.run fs).fs = _
  rw [hrun]
  exact ⟨hres.trans hr, hfs⟩

/-- The order of the copies decides neither whether the phase succeeds nor what it does. -/
theorem execute_perm (h : g.Upright fs) (h' : g'.Upright fs) (hc : g.chmods = g'.chmods)
    (hp : g.distinctCopies.Perm g'.distinctCopies) :
    (∀ report, (g.execute fs false).result = .ok report ↔
      (g'.execute fs false).result = .ok report) ∧
    ∀ report, (g.execute fs false).result = .ok report →
      (g'.execute fs false).fs = (g.execute fs false).fs := by
  constructor
  · intro report
    constructor
    · exact fun hr => (execute_of_perm h hc hp hr).1
    · exact fun hr => (execute_of_perm h' hc.symm hp.symm hr).1
  · exact fun report hr => (execute_of_perm h hc hp hr).2

namespace Sample

/-- The path `/d/u`, next to the target. -/
def neighbour : Path := ⟨[slash, 0x64, slash, 0x75]⟩

def pair : ActionGraph :=
  ⟨[.copy ⟨file, target⟩, .copy ⟨file, neighbour⟩, .chmod ⟨target, 0o640⟩], []⟩

def swapped : ActionGraph :=
  ⟨[.copy ⟨file, neighbour⟩, .copy ⟨file, target⟩, .chmod ⟨target, 0o640⟩], []⟩

theorem upright_pair : pair.Upright tree :=
  .of_forall linkFree_tree (by decide) (by decide) (by decide)

theorem upright_swapped : swapped.Upright tree :=
  .of_forall linkFree_tree (by decide) (by decide) (by decide)

end Sample

theorem execute_perm_sample :
    (Sample.pair.execute Sample.tree false).result = .ok ⟨2, 0, 1⟩ ∧
      (Sample.swapped.execute Sample.tree false).result = .ok ⟨2, 0, 1⟩ ∧
      (Sample.swapped.execute Sample.tree false).fs = (Sample.pair.execute Sample.tree false).fs := by
  have hp : Sample.pair.distinctCopies.Perm Sample.swapped.distinctCopies := .swap ..
  have h : (Sample.pair.execute Sample.tree false).result = .ok ⟨2, 0, 1⟩ := rfl
  obtain ⟨hiff, hfs⟩ := execute_perm Sample.upright_pair Sample.upright_swapped rfl hp
  exact ⟨h, (hiff _).mp h, hfs _ h⟩

end ActionGraph

end StagedInstall
