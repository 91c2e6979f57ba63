import StagedInstall.Proofs.FileSystem.Directories
import StagedInstall.Proofs.Staging.Footprint

/-! # Searches through cycles of links

A search keeps no record of where it has been. It ends all the same: each directory that it
descends into has a longer path than the one before, and paths that are too long are refused
(`Search.wellFounded_calls`). So the depth that bounds a search is never what stops it
(`Search.run_eq_level`). Directories that lead on without end cannot all have paths that are short
enough, and the search fails at one of them (`Task.staging_directory_ends`).
-/

namespace StagedInstall

open FileSystem

section Infix

variable {α : Type} {w a b : List α} {c : α}

theorem prefix_of_append_cons (h : w <+: a ++ c :: b) (hc : c ∉ w) : w <+: a := by
  induction a generalizing w with
  | nil =>
    cases w with
    | nil => exact List.nil_prefix
    | cons d w =>
      obtain ⟨rfl, -⟩ := List.cons_prefix_cons.mp h
      exact absurd List.mem_cons_self hc
  | cons x a ih =>
    cases w with
    | nil => exact List.nil_prefix
    | cons d w =>
      rw [List.cons_append] at h
      obtain ⟨rfl, hw⟩ := List.cons_prefix_cons.mp h
      exact List.cons_prefix_cons.mpr ⟨rfl, ih hw fun hm => hc (List.mem_cons_of_mem d hm)⟩

theorem infix_of_append_cons (h : w <:+: a ++ c :: b) (hc : c ∉ w) : w <:+: a ∨ w <:+: b := by
  induction a with
  | nil =>
    rcases List.infix_cons_iff.mp h with h | h
    · exact .inl (prefix_of_append_cons (a := []) h hc).isInfix
    · exact .inr h
  | cons x a ih =>
    rcases List.infix_cons_iff.mp h with h | h
    · exact .inl (prefix_of_append_cons (a := x :: a) h hc).isInfix
    · exact (ih h).imp_left fun h => h.trans (List.suffix_cons x a).isInfix

end Infix

namespace Path

variable {p : Path} {n : Name}

theorem isTestTree_div_name (hp : p.isTestTree = false)
    (hn : ¬ Bytes.ofString "test" <:+: n.bytes) : (p / n.toPath).isTestTree = false := by
  rw [← Bool.not_eq_true, isTestTree_iff] at hp ⊢
  rw [bytes_div p (isAbsolute_toPath n)]
  intro h
  by_cases hb : p.bytes = []
  · rw [opened_of_bytes_eq_nil hb] at h
    exact hn h
  · obtain ⟨x, hx, hpx⟩ := exists_opened hb
    rw [hx, List.append_assoc] at h
    rcases infix_of_append_cons h (by decide) with h | h
    · rcases hpx with hpx | hpx
      · exact hp (hpx ▸ h)
      · exact hp (hpx ▸ h.trans (List.prefix_append x [slash]).isInfix)
    · exact hn h

theorem length_lt_div_shown (p : Path) (n : Name) :
    p.bytes.length < (p / n.shown).bytes.length := by
  have hn := List.length_pos_iff.mpr n.shown_ne_nil
  rw [bytes_div p n.isAbsolute_shown, List.length_append, opened]
  split
  · omega
  · rw [List.length_append]
    omega

theorem nul_not_mem_div_shown (h : 0 ∉ p.bytes) (n : Name) : 0 ∉ (p / n.shown).bytes := by
  rw [bytes_div p n.isAbsolute_shown, List.mem_append, opened]
  rintro (h0 | h0)
  · split at h0
    · exact h h0
    · simp [slash, h] at h0
  · rw [n.bytes_shown] at h0
    exact n.nul_not_mem (Utf8.mem_of_mem_encode_decodeLossy h0 (by decide))

end Path

namespace Search

variable {fs : FileSystem} {s : Search} {stage : Path → Path → StagingEvent}
  {descend descend' : Path → Path → Staging} {dir p q parent basedir : Path} {n : Name}
  {ns : List Name} {depth : Nat} {error : InstallError}

/-- One level of a search: it passes a test tree over, or visits the names of the directory and
leaves those below it to `descend`. -/
def level (s : Search) (fs : FileSystem) (stage : Path → Path → StagingEvent)
    (descend : Path → Path → Staging) (parent basedir : Path) : Staging :=
  if parent.isTestTree then .event (.skipped parent)
  else match fs.list (s.root / parent) with
    | .error cause => .fail (.traversal (s.root / parent) cause)
    | .ok names => s.visit fs stage descend (s.root / parent) parent basedir names

theorem level_cases (s : Search) (fs : FileSystem) (stage : Path → Path → StagingEvent)
    (descend : Path → Path → Staging) (p basedir : Path) :
    s.level fs stage descend p basedir = .event (.skipped p) ∨
    (∃ cause, p.isTestTree = false ∧ fs.list (s.root / p) = .error cause ∧
      s.level fs stage descend p basedir = .fail (.traversal (s.root / p) cause)) ∨
    ∃ ns, p.isTestTree = false ∧ fs.list (s.root / p) = .ok ns ∧
      s.level fs stage descend p basedir =
        s.visit fs stage descend (s.root / p) p basedir ns := by
  unfold level
  cases hp : p.isTestTree with
  | true => exact .inl rfl
  | false =>
    right
    cases hl : fs.list (s.root / p) with
    | error cause => exact .inl ⟨cause, rfl, rfl, rfl⟩
    | ok ns => exact .inr ⟨ns, rfl, rfl, rfl⟩

/-- The search of `p` goes on to search `q`, unless it fails before. -/
inductive Calls (s : Search) (fs : FileSystem) : Path → Path → Prop
  | descend {p : Path} {n : Name} {ns : List Name} : p.isTestTree = false → s.recursive = true →
      fs.list (s.root / p) = .ok ns → n ∈ ns → fs.isDirectory (s.root / p / n.toPath) = true →
      Calls s fs (p / n.shown) p

theorem accepted_of_list (h : fs.list p = .ok ns) :
    0 ∉ p.bytes ∧ p.bytes.length < maxPath := by
  obtain ⟨l, hl, -⟩ := bind_eq_ok_iff.mp h
  obtain ⟨h0, -, hlen⟩ := Path.refusal?_eq_none_iff.mp (refusal?_of_locate hl)
  exact ⟨h0, hlen⟩

theorem list_of_overlong (h0 : 0 ∉ p.bytes) (h : maxPath ≤ p.bytes.length) :
    fs.list p = .error .nameTooLong := by
  have hne : p.bytes ≠ [] := by
    intro hb
    rw [hb] at h
    exact absurd h (by decide)
  have hplace : fs.place .existing p = .error .nameTooLong := by
    rw [place, refusal?, if_neg h0, if_neg hne, if_pos h]
  rw [list, locate, hplace]
  rfl

namespace Calls

theorem length_lt (h : s.Calls fs q p) :
    (s.root / p).bytes.length < (s.root / q).bytes.length ∧
      (s.root / p).bytes.length < maxPath := by
  cases h with
  | descend _ _ hl =>
    refine ⟨?_, (accepted_of_list hl).2⟩
    rw [← Path.div_assoc]
    exact Path.length_lt_div_shown ..

theorem nul_not_mem (h : s.Calls fs q p) : 0 ∉ (s.root / q).bytes := by
  cases h with
  | descend _ _ hl =>
    rw [← Path.div_assoc]
    exact Path.nul_not_mem_div_shown (accepted_of_list hl).1 _

end Calls

/-- No search goes on without end. -/
theorem wellFounded_calls (s : Search) (fs : FileSystem) : WellFounded (s.Calls fs) := by
  refine Subrelation.wf ?_ (measure fun p : Path => maxPath - (s.root / p).bytes.length).wf
  intro q p h
  obtain ⟨hlt, hmax⟩ := h.length_lt
  change maxPath - (s.root / q).bytes.length < maxPath - (s.root / p).bytes.length
  omega

theorem visit_congr (h : ∀ n ∈ ns, s.recursive = true → fs.isDirectory (dir / n.toPath) = true →
    descend (parent / n.shown) (basedir / n.shown) =
      descend' (parent / n.shown) (basedir / n.shown)) :
    s.visit fs stage descend dir parent basedir ns =
      s.visit fs stage descend' dir parent basedir ns := by
  induction ns with
  | nil => rfl
  | cons n ns ih =>
    obtain ⟨hn, hns⟩ := List.forall_mem_cons.mp h
    have hname : s.visitName fs stage descend dir parent basedir n =
        s.visitName fs stage descend' dir parent basedir n := by
      unfold visitName
      cases he : fs.stat (dir / n.toPath) with
      | error => rfl
      | ok e =>
        dsimp only
        split
        · rfl
        split
        · next hd =>
          obtain ⟨hd, hr⟩ := Bool.and_eq_true_iff.mp hd
          exact hn hr (by rw [FileSystem.isDirectory, he]; exact hd)
        · rfl
    rw [visit_cons, visit_cons, hname, ih hns]

theorem level_congr (h : ∀ q b, s.Calls fs q p → descend q b = descend' q b) :
    s.level fs stage descend p basedir = s.level fs stage descend' p basedir := by
  unfold level
  split
  · rfl
  next ht =>
  split
  · rfl
  · next ns hl =>
    exact visit_congr fun n hn hr hd => h _ _ (.descend (by simpa using ht) hr hl hn hd)

/-- The depth is enough to get to paths that are too long. -/
def Suffices (s : Search) (depth : Nat) (p : Path) : Prop :=
  maxPath ≤ (s.root / p).bytes.length + depth ∧ (depth = 0 → 0 ∉ (s.root / p).bytes)

theorem Calls.suffices (h : s.Calls fs q p) (hp : s.Suffices (depth + 1) p) :
    s.Suffices depth q := by
  obtain ⟨hlt, -⟩ := h.length_lt
  exact ⟨by have := hp.1; omega, fun _ => h.nul_not_mem⟩

theorem walk_succ (h : s.Suffices depth p) :
    s.walk fs stage (depth + 1) p basedir = s.walk fs stage depth p basedir := by
  induction depth generalizing p basedir with
  | zero =>
    -- a path that is too long is refused with the error of a search that has no depth left
    rw [walk, walk]
    split
    · rfl
    · rw [list_of_overlong (h.2 rfl) (by simpa using h.1)]
  | succ depth ih => exact level_congr fun q b hq => ih (hq.suffices h)

theorem run_eq_level (s : Search) (fs : FileSystem) (stage : Path → Path → StagingEvent)
    (p b : Path) : s.run fs stage p b = s.level fs stage (s.run fs stage) p b := by
  have h : s.Suffices maxPath p := ⟨Nat.le_add_left .., fun h => absurd h (by decide)⟩
  exact (walk_succ h).symm

/-- A search that comes through has listed the directory, unless that is a test tree. -/
theorem run_eq_visit (h : (s.run fs stage p basedir).failure = none)
    (hp : p.isTestTree = false) : ∃ ns, fs.list (s.root / p) = .ok ns ∧
      s.run fs stage p basedir =
        s.visit fs stage (s.run fs stage) (s.root / p) p basedir ns := by
  rw [run_eq_level, level, if_neg (by simp [hp])] at h ⊢
  cases hl : fs.list (s.root / p) with
  | error cause =>
    rw [hl] at h
    cases h
  | ok ns => exact ⟨ns, rfl, rfl⟩

theorem visitName_of_run (hok : (s.run fs stage p basedir).failure = none)
    (hp : p.isTestTree = false) (hl : fs.list (s.root / p) = .ok ns) (hn : n ∈ ns) :
    (s.visitName fs stage (s.run fs stage) (s.root / p) p basedir n).failure = none ∧
      (s.visitName fs stage (s.run fs stage) (s.root / p) p basedir n).actions ⊆
        (s.run fs stage p basedir).actions := by
  obtain ⟨ns', hl', hvisit⟩ := run_eq_visit hok hp
  cases hl.symm.trans hl'
  rw [hvisit] at hok ⊢
  refine ⟨visit_failure_eq_none.mp hok n hn, ?_⟩
  rw [actions_visit hok]
  intro a ha
  exact List.mem_flatMap.mpr ⟨n, hn, ha⟩

theorem failure_run_of_list_ne_ok (h : (s.run fs stage p basedir).failure = some error)
    (hl : ∀ ns, fs.list (s.root / p) ≠ .ok ns) : ∃ cause,
      error = .traversal (s.root / p) cause ∧ p.isTestTree = false ∧
        fs.list (s.root / p) = .error cause := by
  rw [run_eq_level] at h
  rcases s.level_cases fs stage (s.run fs stage) p basedir with
    hs | ⟨cause, hp, hlist, hs⟩ | ⟨ns, -, hlist, -⟩
  · rw [hs] at h
    cases h
  · rw [hs] at h
    exact ⟨cause, (Option.some.inj h).symm, hp, hlist⟩
  · exact absurd hlist (hl ns)

theorem eq_run_iff {f : Path → Path → Staging} :
    (∀ p b, f p b = s.level fs stage f p b) ↔ f = s.run fs stage := by
  constructor
  · intro h
    funext p b
    induction p using (s.wellFounded_calls fs).induction generalizing b with
    | _ p ih =>
      rw [h, run_eq_level]
      exact level_congr fun q b hq => ih q hq b
  · rintro rfl p b
    exact s.run_eq_level fs stage p b

theorem failure_visitName
    (h : (s.visitName fs stage descend dir parent basedir n).failure = some error) :
    (∃ cause, fs.stat (dir / n.toPath) = .error cause ∧
      error = .traversal (dir / n.toPath) cause) ∨
    (s.recursive = true ∧ fs.isDirectory (dir / n.toPath) = true ∧
      (descend (parent / n.shown) (basedir / n.shown)).failure = some error) := by
  rcases s.visitName_cases fs stage descend dir parent basedir n with
    ⟨cause, hs, hn⟩ | ⟨-, -, hn⟩ | ⟨hr, hd, hn⟩ | hn
  · rw [hn] at h
    exact .inl ⟨cause, hs, (Option.some.inj h).symm⟩
  · rw [hn] at h
    cases h
  · rw [hn] at h
    exact .inr ⟨hr, hd, h⟩
  · rw [hn] at h
    cases h

theorem failure_visit (h : (s.visit fs stage descend dir parent basedir ns).failure = some error) :
    ∃ n ∈ ns, (s.visitName fs stage descend dir parent basedir n).failure = some error := by
  induction ns with
  | nil => cases h
  | cons n ns ih =>
    rw [visit_cons] at h
    rcases Staging.failure_andThen h with h | h
    · exact ⟨n, List.mem_cons_self, h⟩
    · obtain ⟨m, hm, h⟩ := ih h
      exact ⟨m, List.mem_cons_of_mem n hm, h⟩

/-- What a level does when it goes wrong: it cannot look at a path, or a search that it calls went
wrong. -/
theorem failure_level (h : (s.level fs stage descend p basedir).failure = some error) :
    (∃ q cause, error = .traversal q cause) ∨
      ∃ q b, s.Calls fs q p ∧ (descend q b).failure = some error := by
  rcases s.level_cases fs stage descend p basedir with
    hs | ⟨cause, -, -, hs⟩ | ⟨ns, hp, hl, hs⟩ <;>
    rw [hs] at h
  · cases h
  · exact .inl ⟨_, cause, (Option.some.inj h).symm⟩
  · obtain ⟨n, hn, h⟩ := failure_visit h
    rcases failure_visitName h with ⟨cause, -, he⟩ | ⟨hr, hd, h⟩
    · exact .inl ⟨_, cause, he⟩
    · exact .inr ⟨_, _, .descend hp hr hl hn hd, h⟩

theorem mem_level {e : StagingEvent} (h : e ∈ (s.level fs stage descend p basedir).events) :
    e = .skipped p ∨ (∃ q b, fs.isFile q = true ∧ e = stage q b) ∨
      ∃ q b, s.Calls fs q p ∧ e ∈ (descend q b).events := by
  rcases s.level_cases fs stage descend p basedir with
    hs | ⟨cause, -, -, hs⟩ | ⟨ns, hp, hl, hs⟩ <;>
    rw [hs] at h
  · exact .inl (List.mem_singleton.mp h)
  · cases h
  · obtain ⟨n, hn, h⟩ := mem_visit h
    rcases mem_visitName h with ⟨hf, -, he⟩ | ⟨hr, hd, h⟩
    · exact .inr (.inl ⟨_, _, hf, he⟩)
    · exact .inr (.inr ⟨_, _, .descend hp hr hl hn hd, h⟩)

theorem failure_run (h : (s.run fs stage p basedir).failure = some error) :
    ∃ q cause, error = .traversal q cause := by
  induction p using (s.wellFounded_calls fs).induction generalizing basedir with
  | _ p ih =>
    rw [run_eq_level] at h
    rcases failure_level h with he | ⟨q, b, hq, h⟩
    · exact he
    · exact ih q hq h

theorem mem_run {e : StagingEvent} (h : e ∈ (s.run fs stage p basedir).events) :
    (∃ q, e = .skipped q) ∨ ∃ q b, fs.isFile q = true ∧ e = stage q b := by
  induction p using (s.wellFounded_calls fs).induction generalizing basedir with
  | _ p ih =>
    rw [run_eq_level] at h
    rcases mem_level h with he | he | ⟨q, b, hq, h⟩
    · exact .inl ⟨p, he⟩
    · exact .inr he
    · exact ih q hq h

/-- Directories that lead on from `parent` without end, each by a name in the one before. The links
behind the names are followed one at a time, and no name mentions "test". -/
structure Endless (s : Search) (fs : FileSystem) (parent : Path) (names : ℕ → Name)
    (ds : ℕ → Location) : Prop where
  start : fs.LeadsTo (s.root / parent) (ds 0)
  step : ∀ k, fs.Leads (ds k) [.name (names k)] (.taken (ds (k + 1)))
  directory : ∀ k, fs.IsDirectory (ds k)
  text : ∀ k, (names k).bytes.toString?.isSome = true
  untested : ∀ k, ¬ Bytes.ofString "test" <:+: (names k).bytes

namespace Endless

variable {names : ℕ → Name} {ds : ℕ → Location}

/-- Without its first directory, the rest is endless as well. -/
theorem next (h : s.Endless fs p names ds) (hp : (s.root / p).bytes ≠ []) :
    s.Endless fs (p / (names 0).toPath) (fun k => names (k + 1)) fun k => ds (k + 1) where
  start := by
    rw [← Path.div_assoc]
    exact h.start.div_name hp (h.step 0)
  step k := h.step (k + 1)
  directory k := h.directory (k + 1)
  text k := h.text (k + 1)
  untested k := h.untested (k + 1)

theorem mem_names (h : s.Endless fs p names ds) : names 0 ∈ fs.names (ds 0) :=
  fs.mem_names.mpr (h.step 0).get?_ne_none

theorem isDirectory {e : Entry} (h : s.Endless fs p names ds) (hp : (s.root / p).bytes ≠ [])
    (he : fs.stat (s.root / p / (names 0).toPath) = .ok e) :
    fs.isDirectory (s.root / p / (names 0).toPath) = true := by
  obtain ⟨l, hl, hget⟩ := stat_leads he
  cases hl.unique (h.start.div_name hp (h.step 0))
  obtain ⟨m, hm⟩ := h.directory 1
  cases hget.symm.trans hm
  exact isDirectory_eq_true_iff.mpr ⟨m, he⟩

theorem failure_ne_none (h : s.Endless fs p names ds) (hr : s.recursive = true)
    (hp : p.isTestTree = false) : (s.run fs stage p basedir).failure ≠ none := by
  intro hok
  -- if it came through, so would the search of the next directory, for which the rest is endless
  induction p using (s.wellFounded_calls fs).induction generalizing basedir names ds with
  | _ p ih =>
    obtain ⟨ns, hl, -⟩ := run_eq_visit hok hp
    obtain ⟨l, hlead, hne, rfl, -⟩ := list_leads hl
    cases hlead.unique h.start
    have hmem := h.mem_names
    obtain ⟨hname, -⟩ := visitName_of_run hok hp hl hmem
    cases he : fs.stat (s.root / p / (names 0).toPath) with
    | error cause =>
      rw [visitName, he] at hname
      cases hname
    | ok e =>
      have hd := h.isDirectory hne he
      have hcall := Calls.descend hp hr hl hmem hd
      rw [visitName_of_isDirectory hd hr] at hname
      rw [(names 0).shown_eq (h.text 0)] at hcall hname
      exact ih _ hcall (h.next hne) (Path.isTestTree_div_name hp (h.untested 0)) hname

end Endless

end Search

/-- Staging a directory ends, through whatever links: no search goes on without end, and what is
staged is all that a search without a bound on its depth can stage. The sources are regular files.
Where directories lead on without end, a path on the way cannot be looked at. -/
theorem Task.staging_directory_ends (fs : FileSystem) (dirs : InstallDirectories)
    (category : Category) (s : Search) (parent basedir : Path) :
    let stage := fun source basedir => dirs.stageFile category source basedir none
    let staging := (Task.directory category s parent basedir).staging fs dirs
    WellFounded (s.Calls fs) ∧
    (∀ f : Path → Path → Staging, (∀ p b, f p b = s.level fs stage f p b) →
      staging = f parent basedir) ∧
    (∀ p b, s.run fs stage p b = s.level fs stage (s.run fs stage) p b) ∧
    (∀ a ∈ staging.actions, ∃ c, a = .copy c ∧ fs.isFile c.source = true) ∧
    ∀ names ds, s.recursive = true → parent.isTestTree = false → s.Endless fs parent names ds →
      ∃ p cause, staging.failure = some (.traversal p cause) := by
  intro stage staging
  refine ⟨s.wellFounded_calls fs, ?_, s.run_eq_level fs stage, ?_, ?_⟩
  · intro f hf
    rw [Search.eq_run_iff.mp hf]
    rfl
  · intro a ha
    obtain ⟨e, he, ha⟩ := List.mem_flatMap.mp ha
    rcases Search.mem_run he with ⟨q, rfl⟩ | ⟨q, b, hf, rfl⟩
    · cases ha
    · cases List.mem_singleton.mp ha
      exact ⟨_, rfl, hf⟩
  · intro names ds hr hp h
    obtain ⟨error, he⟩ := Option.ne_none_iff_exists'.mp (h.failure_ne_none hr hp)
    obtain ⟨p, cause, rfl⟩ := Search.failure_run he
    exact ⟨p, cause, he⟩

namespace Search.Sample

def loopName : Name := (Name.ofBytes? [0x6F]).get rfl

def cyclic : FileSystem :=
  (FileSystem.empty.put [fileName] (.file .newFile [1])).put [loopName] (.link (.ofString "."))

theorem endless_cyclic : search.Endless cyclic ∅ (fun _ => loopName) fun _ => [] where
  start := .slash cyclic.isDirectory_root .done
  step _ := .link cyclic.isDirectory_root rfl (.stay cyclic.isDirectory_root .done)
  directory _ := cyclic.isDirectory_root
  text _ := by decide
  untested _ := by decide

end Search.Sample

open Search in
theorem Task.staging_directory_ends_sample :
    Sample.search.Endless Sample.cyclic ∅ (fun _ => Sample.loopName) (fun _ => []) ∧
      (∃ p cause, (Sample.task.staging Sample.cyclic Sample.installer.dirs).failure =
        some (.traversal p cause)) ∧
      (Sample.task.staging Sample.cyclic Sample.installer.dirs).actions.length =
        FileSystem.maxLinks + 1 := by
  obtain ⟨-, -, -, -, hfail⟩ := Task.staging_directory_ends Sample.cyclic Sample.installer.dirs
    .share Sample.search ∅ ∅
  exact ⟨Sample.endless_cyclic, hfail _ _ rfl (by decide) Sample.endless_cyclic,
    by decide +kernel⟩

end StagedInstall
