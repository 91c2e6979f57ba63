import StagedInstall.Proofs.FileSystem.LinkFree
import StagedInstall.Proofs.FileSystem.Respelling
import StagedInstall.Proofs.Staging.Containment
import StagedInstall.Proofs.Staging.Cycles
import StagedInstall.Proofs.Text.RoundTrip

/-! # What a search fails at

A search fails at an obstacle: a directory that it reaches and cannot list, or an entry that it
cannot look at (`Search.Obstacle`). It fails without one, too: a directory whose name is not UTF-8
is searched under the text of the name, which need not be the name of a directory
(`Search.Misnamed`). There is no other failure (`Task.staging_directory_obstacles`).
-/

namespace StagedInstall

open FileSystem

variable {fs : FileSystem} {s : Search} {stage : Path → Path → StagingEvent}
  {p path basedir : Path} {m n : Name} {ns ds : List Name} {cause cause' : Cause}
  {error : InstallError}

theorem Name.isSome_toString?_of_shown (h : m.toPath = n.shown) :
    m.bytes.toString?.isSome = true := by
  have hm : m.bytes = .ofString n.display := congrArg Path.bytes h
  rw [hm, Bytes.toString?_ofString]
  rfl

theorem Path.eq_concat_of_below_eq_div_shown (h : p.below ns = p.below ds / n.shown) :
    ∃ m : Name, m.toPath = n.shown ∧ ns = ds ++ [m] := by
  have hc := congrArg components h
  rw [n.isName_shown.components_div, components_below, components_below, List.append_assoc,
    List.append_cancel_left_eq] at hc
  obtain ⟨front, last, rfl, hfront, hlast⟩ := List.map_eq_append_iff.mp hc
  obtain ⟨m, rfl, hm⟩ := List.map_eq_singleton_iff.mp hlast
  rw [map_normal_injective hfront]
  exact ⟨m, ext (Component.normal.inj hm), rfl⟩

namespace FileSystem

/-- What cannot be looked at cannot be listed either, for the same cause. -/
theorem list_of_stat_eq_error (h : fs.stat p = .error cause) : fs.list p = .error cause := by
  cases hl : fs.locate p with
  | error cause' =>
    rw [stat, hl] at h
    cases h
    rw [list, hl]
    rfl
  | ok l =>
    obtain ⟨-, e, he, -⟩ := locate_leads hl
    cases h.symm.trans (stat_of_locate hl he)

theorem exists_mem_of_list_div {q : Path} {ms : List Name} (hq : q.IsName)
    (hl : fs.list p = .ok ns) (h : fs.list (p / q) = .ok ms) :
    ∃ m ∈ ns, m.toPath = q ∧ fs.isDirectory (p / m.toPath) = true := by
  obtain ⟨l, hlead, -, -, hd⟩ := list_leads h
  obtain ⟨m, rfl⟩ := hlead.exists_fileName (hq.fileName?_div p)
  obtain ⟨permissions, hs⟩ := isDirectory_eq_true_iff.mp hd
  exact ⟨m, mem_of_list hl hs, rfl, hd⟩

end FileSystem

namespace Search

/-- The directory `n` is listed in `p`, for the search to go on to. -/
structure Offers (s : Search) (fs : FileSystem) (p : Path) (n : Name) : Prop where
  untested : p.isTestTree = false
  recursive : s.recursive = true
  listed : ∃ ns, fs.list (s.root / p) = .ok ns ∧ n ∈ ns
  directory : fs.isDirectory (s.root / p / n.toPath) = true

/-- The names lead from `p` through directories that are listed, each in the one before it, to one
that is to be searched. -/
inductive Reaches (s : Search) (fs : FileSystem) : Path → List Name → Prop
  | here {p : Path} : p.isTestTree = false → Reaches s fs p []
  | into {p : Path} {n : Name} {ds : List Name} : s.Offers fs p n →
      Reaches s fs (p / n.toPath) ds → Reaches s fs p (n :: ds)

/-- A directory that is to be searched cannot be listed, or what is listed there cannot be looked
at. -/
inductive Obstacle (s : Search) (fs : FileSystem) (p : Path) : Path → Cause → Prop
  | unlisted (ds : List Name) {cause : Cause} : s.Reaches fs p ds →
      fs.list (s.root / p.below ds) = .error cause → Obstacle s fs p (s.root / p.below ds) cause
  | unstated (ds : List Name) {ns : List Name} {n : Name} {cause : Cause} : s.Reaches fs p ds →
      fs.list (s.root / p.below ds) = .ok ns → n ∈ ns →
      fs.stat (s.root / p.below ds / n.toPath) = .error cause →
      Obstacle s fs p (s.root / p.below ds / n.toPath) cause

/-- The directory `n` is to be searched, but its name is not UTF-8. No directory is listed under
the text of the name, and what is listed there instead can be looked at. -/
structure Misnamed (s : Search) (fs : FileSystem) (p : Path) (ds : List Name) (n : Name)
    (cause : Cause) : Prop where
  reached : s.Reaches fs p ds
  text : ∀ d ∈ ds, d.bytes.toString?.isSome = true
  offered : s.Offers fs (p.below ds) n
  not_text : n.bytes.toString? = none
  untested : (p.below ds / n.shown).isTestTree = false
  clear : ∀ ns, fs.list (s.root / p.below ds) = .ok ns → ∀ m ∈ ns, m.toPath = n.shown →
    ∃ e, fs.stat (s.root / p.below ds / m.toPath) = .ok e ∧ e.isDirectory = false
  missed : fs.list (s.root / p.below ds / n.shown) = .error cause

def Misses (s : Search) (fs : FileSystem) (p path : Path) (cause : Cause) : Prop :=
  ∃ ds n, s.Misnamed fs p ds n cause ∧ path = s.root / p.below ds / n.shown

theorem Offers.calls (h : s.Offers fs p n) : s.Calls fs (p / n.shown) p := by
  obtain ⟨ns, hl, hn⟩ := h.listed
  exact .descend h.untested h.recursive hl hn h.directory

theorem Offers.run_shown (h : s.Offers fs p n) (hok : (s.run fs stage p basedir).failure = none) :
    (s.run fs stage (p / n.shown) (basedir / n.shown)).failure = none ∧
      (s.run fs stage (p / n.shown) (basedir / n.shown)).actions ⊆
        (s.run fs stage p basedir).actions := by
  obtain ⟨ns, hl, hn⟩ := h.listed
  have hname := visitName_of_run hok h.untested hl hn
  rwa [visitName_of_isDirectory h.directory h.recursive] at hname

namespace Reaches

theorem untested (h : s.Reaches fs p ds) : (p.below ds).isTestTree = false := by
  induction h with
  | here hp => exact hp
  | into _ _ ih => exact ih

theorem offers_of_concat (h : s.Reaches fs p (ds ++ [n])) : s.Offers fs (p.below ds) n := by
  induction ds generalizing p with
  | nil =>
    cases h with
    | into ho _ => exact ho
  | cons d ds ih =>
    cases h with
    | into _ h => exact ih h

theorem text_of_utf8Directories (h : s.Reaches fs p ds) (hu : fs.Utf8Directories) :
    ∀ d ∈ ds, d.bytes.toString?.isSome = true := by
  induction h with
  | here _ => exact fun _ h => absurd h List.not_mem_nil
  | into ho _ ih => exact List.forall_mem_cons.mpr ⟨hu _ _ ho.directory, ih⟩

/-- A search that comes through has come through each directory to which UTF-8 names lead, and has
staged what that contributes. -/
theorem run_below (h : s.Reaches fs p ds) (ht : ∀ d ∈ ds, d.bytes.toString?.isSome = true)
    (hok : (s.run fs stage p basedir).failure = none) :
    (s.run fs stage (p.below ds) (basedir.below ds)).failure = none ∧
      (s.run fs stage (p.below ds) (basedir.below ds)).actions ⊆
        (s.run fs stage p basedir).actions := by
  induction h generalizing basedir with
  | here _ => exact ⟨hok, List.Subset.refl _⟩
  | @into p n ds ho _ ih =>
    obtain ⟨hn, ht⟩ := List.forall_mem_cons.mp ht
    obtain ⟨hfailure, hactions⟩ := ho.run_shown hok
    rw [n.shown_eq hn] at hfailure hactions
    obtain ⟨hbelow, hsub⟩ := ih ht hfailure
    exact ⟨hbelow, List.Subset.trans hsub hactions⟩

end Reaches

theorem Obstacle.into (h : s.Obstacle fs (p / n.toPath) path cause) (ho : s.Offers fs p n) :
    s.Obstacle fs p path cause := by
  cases h with
  | unlisted ds hr hl => exact .unlisted (n :: ds) (.into ho hr) hl
  | unstated ds hr hl hm hs => exact .unstated (n :: ds) (.into ho hr) hl hm hs

theorem Misnamed.into (h : s.Misnamed fs (p / m.toPath) ds n cause) (ho : s.Offers fs p m)
    (hm : m.bytes.toString?.isSome = true) : s.Misnamed fs p (m :: ds) n cause where
  reached := .into ho h.reached
  text := List.forall_mem_cons.mpr ⟨hm, h.text⟩
  offered := h.offered
  not_text := h.not_text
  untested := h.untested
  clear := h.clear
  missed := h.missed

theorem Misnamed.not_obstacle (h : s.Misnamed fs p ds n cause) :
    ¬ s.Obstacle fs p (s.root / p.below ds / n.shown) cause' := by
  intro ho
  generalize hpath : s.root / p.below ds / n.shown = path at ho
  cases ho with
  | unlisted es hr hl =>
    rw [Path.div_below, Path.div_below] at hpath
    obtain ⟨m, hm, rfl⟩ := Path.eq_concat_of_below_eq_div_shown hpath.symm
    have ho := hr.offers_of_concat
    obtain ⟨ns, hl', hmem⟩ := ho.listed
    obtain ⟨e, he, hd⟩ := h.clear ns hl' m hmem hm
    obtain ⟨permissions, hs⟩ := isDirectory_eq_true_iff.mp ho.directory
    cases he.symm.trans hs
    cases hd
  | @unstated es ns m _ hr hl hmem hs =>
    rw [Path.div_below, Path.div_below, ← Path.below_concat] at hpath
    obtain ⟨m', hm, he⟩ := Path.eq_concat_of_below_eq_div_shown hpath.symm
    obtain ⟨rfl, rfl⟩ := List.append_singleton_inj.mp he
    obtain ⟨e, he, -⟩ := h.clear ns hl _ hmem hm
    cases hs.symm.trans he

/-- Where no directory is listed under the text of a name, what cannot be listed there is an entry
that cannot be looked at, or the name is not UTF-8. -/
theorem Offers.obstacle_or_misnamed (ho : s.Offers fs p n) (hl : fs.list (s.root / p) = .ok ns)
    (hm : ∀ m ∈ ns, m.toPath = n.shown → fs.isDirectory (s.root / p / m.toPath) ≠ true)
    (hp : (p / n.shown).isTestTree = false)
    (hlist : fs.list (s.root / p / n.shown) = .error cause) :
    s.Obstacle fs p (s.root / p / n.shown) cause ∨ s.Misnamed fs p [] n cause := by
  by_cases hstat : ∃ m ∈ ns, m.toPath = n.shown ∧
      ∃ cause', fs.stat (s.root / p / m.toPath) = .error cause'
  · obtain ⟨m, hmem, hmn, cause', hstat⟩ := hstat
    rw [← hmn] at hlist ⊢
    cases hlist.symm.trans (list_of_stat_eq_error hstat)
    exact .inl (.unstated [] (.here ho.untested) hl hmem hstat)
  refine .inr ⟨.here ho.untested, fun _ h => absurd h List.not_mem_nil, ho, ?_, hp, ?_, hlist⟩
  · -- a name in UTF-8 is its own text, so the directory that is offered would be listed under it
    obtain ⟨ns', hl', hn⟩ := ho.listed
    cases hl.symm.trans hl'
    rw [← Option.not_isSome_iff_eq_none]
    intro ht
    exact hm n hn (n.shown_eq ht).symm ho.directory
  · intro ns' hl' m hmem hmn
    cases hl.symm.trans hl'
    cases hs : fs.stat (s.root / p / m.toPath) with
    | error cause' => exact absurd ⟨m, hmem, hmn, cause', hs⟩ hstat
    | ok e =>
      refine ⟨e, hs, ?_⟩
      rw [← Bool.not_eq_true]
      intro hd
      refine hm m hmem hmn ?_
      rw [isDirectory, hs]
      exact hd

theorem obstacle_or_misnamed_of_failure (h : (s.run fs stage p basedir).failure = some error) :
    ∃ path cause, error = .traversal path cause ∧
      (s.Obstacle fs p path cause ∨ s.Misses fs p path cause) := by
  induction p using (s.wellFounded_calls fs).induction generalizing basedir with
  | _ p ih =>
    rw [run_eq_level] at h
    rcases s.level_cases fs stage (s.run fs stage) p basedir with
      hs | ⟨cause, hp, hl, hs⟩ | ⟨ns, hp, hl, hs⟩ <;> rw [hs] at h
    · cases h
    · exact ⟨_, cause, (Option.some.inj h).symm, .inl (.unlisted [] (.here hp) hl)⟩
    obtain ⟨n, hn, h⟩ := failure_visit h
    rcases failure_visitName h with ⟨cause, hstat, rfl⟩ | ⟨hr, hd, h⟩
    · exact ⟨_, cause, rfl, .inl (.unstated [] (.here hp) hl hn hstat)⟩
    have ho : s.Offers fs p n := ⟨hp, hr, ⟨ns, hl, hn⟩, hd⟩
    by_cases hm : ∃ m ∈ ns, m.toPath = n.shown ∧ fs.isDirectory (s.root / p / m.toPath) = true
    · -- the text is the name of a directory that is offered as well, and that is searched
      obtain ⟨m, hmem, hmn, hmd⟩ := hm
      have hcall := ho.calls
      have hom : s.Offers fs p m := ⟨hp, hr, ⟨ns, hl, hmem⟩, hmd⟩
      rw [← hmn] at h hcall
      obtain ⟨path, cause, he, hpath⟩ := ih _ hcall h
      refine ⟨path, cause, he, hpath.imp (·.into hom) ?_⟩
      rintro ⟨ds, n', hn', rfl⟩
      exact ⟨m :: ds, n', hn'.into hom (Name.isSome_toString?_of_shown hmn), rfl⟩
    · have hm : ∀ m ∈ ns, m.toPath = n.shown → fs.isDirectory (s.root / p / m.toPath) ≠ true :=
        fun m hmem hmn hmd => hm ⟨m, hmem, hmn, hmd⟩
      have hassoc : s.root / (p / n.shown) = s.root / p / n.shown := (Path.div_assoc ..).symm
      have hlist : ∀ ms, fs.list (s.root / (p / n.shown)) ≠ .ok ms := by
        rw [hassoc]
        intro ms hms
        obtain ⟨m, hmem, hmn, hmd⟩ := exists_mem_of_list_div n.isName_shown hl hms
        exact hm m hmem hmn hmd
      obtain ⟨cause, he, hq, hlist⟩ := failure_run_of_list_ne_ok h hlist
      rw [hassoc] at he hlist
      refine ⟨_, cause, he, ?_⟩
      exact (ho.obstacle_or_misnamed hl hm hq hlist).imp_right fun h => ⟨[], n, h, rfl⟩

/-- A search that looks for a directory under the text of its name does not come through. -/
theorem Misnamed.failure_ne_none (h : s.Misnamed fs p ds n cause) :
    (s.run fs stage p basedir).failure ≠ none := by
  intro hok
  obtain ⟨hbelow, -⟩ := h.reached.run_below h.text hok
  obtain ⟨hshown, -⟩ := h.offered.run_shown hbelow
  obtain ⟨ns, hl, -⟩ := run_eq_visit hshown h.untested
  rw [← Path.div_assoc] at hl
  cases h.missed.symm.trans hl

end Search

namespace Task

variable {dirs : InstallDirectories} {category : Category} {parent : Path}

theorem copy_mem_of_reaches
    (hok : ((directory category s parent basedir).staging fs dirs).failure = none)
    (hr : s.Reaches fs parent ds) (ht : ∀ d ∈ ds, d.bytes.toString?.isSome = true)
    (hf : fs.isFile (s.root / parent.below ds / n.toPath) = true)
    (hm : Fnmatch.isMatch s.pattern n.display = true) :
    .copy ⟨s.root / parent.below ds / n.toPath,
        dirs.dir category / basedir.below ds / n.toPath⟩ ∈
      ((directory category s parent basedir).staging fs dirs).actions := by
  obtain ⟨hbelow, hsub⟩ := hr.run_below ht hok
  obtain ⟨ns, hl, -⟩ := Search.run_eq_visit hbelow hr.untested
  obtain ⟨m, c, hs⟩ := isFile_eq_true_iff.mp hf
  obtain ⟨-, hstaged⟩ := Search.visitName_of_run hbelow hr.untested hl (mem_of_list hl hs)
  apply hsub (hstaged _)
  rw [Search.visitName_of_isFile hf hm]
  refine List.mem_append_left [] ?_
  rw [Search.actions_stageFile]
  exact List.mem_singleton_self _

theorem text_of_copy_mem {c : Copy}
    (h : .copy c ∈ ((directory category s parent basedir).staging fs dirs).actions)
    (hc : c.source = s.root / parent.below ds / n.toPath) :
    ∀ d ∈ ds, d.bytes.toString?.isSome = true := by
  obtain ⟨es, ⟨-, m, hsource⟩, -⟩ := exists_takes h
  have hcomponents := congrArg Path.components (hc.symm.trans hsource)
  rw [Path.components_div_name, Path.components_div_name, Path.div_below, Path.components_below,
    Path.components_div_descend, List.append_singleton_inj, List.append_cancel_left_eq]
    at hcomponents
  intro d hd
  have hmem := hcomponents.1 ▸ List.mem_map_of_mem hd
  obtain ⟨e, -, he⟩ := List.mem_map.mp hmem
  exact Name.isSome_toString?_of_shown (Path.ext (Component.normal.inj he.symm))

/-- A search that fails reports an obstacle, or it has looked in vain for a directory under the text
of a name that is not UTF-8, and then it reports none. Where there is no obstacle, it fails for such
a directory only. When it comes through, it has staged the matching files of the directories that
it reaches by UTF-8 names, and no files of others. If all names of directories are UTF-8, no
directory is looked for in vain, and every one that is reached is reached by such names. -/
theorem staging_directory_obstacles (fs : FileSystem) (dirs : InstallDirectories)
    (category : Category) (s : Search) (parent basedir : Path) :
    let staging := (directory category s parent basedir).staging fs dirs
    (∀ error, staging.failure = some error → ∃ path cause, error = .traversal path cause ∧
      (s.Obstacle fs parent path cause ∨ s.Misses fs parent path cause) ∧
      ¬ (s.Obstacle fs parent path cause ∧ s.Misses fs parent path cause)) ∧
    ((∀ path cause, ¬ s.Obstacle fs parent path cause) →
      (staging.failure = none ↔ ∀ path cause, ¬ s.Misses fs parent path cause)) ∧
    (staging.failure = none → ∀ (ds : List Name) (n : Name), s.Reaches fs parent ds →
      fs.isFile (s.root / parent.below ds / n.toPath) = true →
      Fnmatch.isMatch s.pattern n.display = true →
      ((∀ d ∈ ds, d.bytes.toString?.isSome = true) →
        .copy ⟨s.root / parent.below ds / n.toPath,
          dirs.dir category / basedir.below ds / n.toPath⟩ ∈ staging.actions) ∧
      (∀ c, .copy c ∈ staging.actions → c.source = s.root / parent.below ds / n.toPath →
        ∀ d ∈ ds, d.bytes.toString?.isSome = true)) ∧
    (fs.Utf8Directories → (∀ path cause, ¬ s.Misses fs parent path cause) ∧
      ∀ ds, s.Reaches fs parent ds → ∀ d ∈ ds, d.bytes.toString?.isSome = true) := by
  intro staging
  refine ⟨?_, ?_, ?_, ?_⟩
  · intro error h
    obtain ⟨path, cause, he, hpath⟩ := Search.obstacle_or_misnamed_of_failure h
    refine ⟨path, cause, he, hpath, ?_⟩
    rintro ⟨ho, ds, n, hm, rfl⟩
    exact hm.not_obstacle ho
  · intro hno
    constructor
    · rintro hok path cause ⟨ds, n, hm, -⟩
      exact hm.failure_ne_none hok
    · intro hm
      by_contra hne
      obtain ⟨error, he⟩ := Option.ne_none_iff_exists'.mp hne
      obtain ⟨path, cause, -, hpath⟩ := Search.obstacle_or_misnamed_of_failure he
      exact hpath.elim (hno path cause) (hm path cause)
  · intro hok ds n hr hf hm
    exact ⟨fun ht => copy_mem_of_reaches hok hr ht hf hm, fun c hc hs => text_of_copy_mem hc hs⟩
  · intro hu
    refine ⟨?_, fun ds hr => hr.text_of_utf8Directories hu⟩
    rintro path cause ⟨ds, n, hm, -⟩
    have ht := hu _ n hm.offered.directory
    rw [hm.not_text] at ht
    cases ht

end Task

namespace Search.Sample

/-- A name of one byte that stands for no character. -/
def rawName : Name := (Name.ofBytes? [0xFF]).get rfl

def raw : FileSystem := FileSystem.empty.put [rawName] (.directory .newDirectory)

theorem list_raw : raw.list (search.root / ∅) = .ok [rawName] := rfl

theorem list_rawName : raw.list (search.root / (∅ / rawName.toPath)) = .ok [] := rfl

theorem linkFree_raw : raw.LinkFree := linkFree_empty.put _ nofun

theorem reaches_raw (h : search.Reaches raw ∅ ds) : ds = [] ∨ ds = [rawName] := by
  cases h with
  | here _ => exact .inl rfl
  | into ho h =>
    obtain ⟨ns, hl, hn⟩ := ho.listed
    cases list_raw.symm.trans hl
    obtain rfl := List.mem_singleton.mp hn
    cases h with
    | here _ => exact .inr rfl
    | into ho _ =>
      obtain ⟨ns, hl, hn⟩ := ho.listed
      cases list_rawName.symm.trans hl
      cases hn

theorem not_obstacle_raw : ¬ search.Obstacle raw ∅ path cause := by
  intro h
  cases h with
  | unlisted ds hr hl => rcases reaches_raw hr with rfl | rfl <;> cases hl
  | unstated ds hr hl hn hs =>
    rcases reaches_raw hr with rfl | rfl
    · cases list_raw.symm.trans hl
      obtain rfl := List.mem_singleton.mp hn
      cases hs
    · cases list_rawName.symm.trans hl
      cases hn

theorem reaches_tree : search.Reaches tree ∅ [dirName] :=
  .into ⟨by decide, rfl, ⟨_, rfl, by decide⟩, by decide⟩ (.here (by decide))

end Search.Sample

namespace Task

open Search.Sample

theorem staging_directory_obstacles_sample :
    (∃ path cause, search.Misses raw ∅ path cause) ∧
    (task.staging tree installer.dirs).failure = none ∧
    .copy ⟨.ofString "/d/f", .ofString "/d/f"⟩ ∈ (task.staging tree installer.dirs).actions := by
  obtain ⟨-, hmisses, -, -⟩ :=
    staging_directory_obstacles raw installer.dirs .share search ∅ ∅
  obtain ⟨-, -, hstaged, hnames⟩ :=
    staging_directory_obstacles tree installer.dirs .share search ∅ ∅
  have hraw : (task.staging raw installer.dirs).failure ≠ none := by decide +kernel
  have htree : (task.staging tree installer.dirs).failure = none := by decide +kernel
  have htext := (hnames utf8Directories_tree).2 _ reaches_tree
  refine ⟨?_, htree, ?_⟩
  · by_contra hno
    exact hraw ((hmisses fun _ _ => not_obstacle_raw).mpr fun path cause h => hno ⟨path, cause, h⟩)
  · exact (hstaged htree _ fileName reaches_tree (by decide) (by decide)).1 htext

/-- A search can fail in a tree without links where every directory can be listed and every entry
can be looked at. -/
theorem fails_without_obstacle : raw.LinkFree ∧
    (∀ path cause, ¬ search.Obstacle raw ∅ path cause) ∧
    (task.staging raw installer.dirs).failure =
      some (.traversal (.ofString "/\uFFFD") .notFound) :=
  ⟨linkFree_raw, fun _ _ => not_obstacle_raw, by decide +kernel⟩

end Task

end StagedInstall
