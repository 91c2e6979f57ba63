import StagedInstall.Proofs.Staging.Selection

/-! # What a search stages

The files that a search stages are determined by the tree alone (`Finds`): those whose names
match, in directories that can be reached without passing through a test tree. A search that
succeeds stages each of them once, in the lexicographic order of the names on the way
(`Precedes`).
-/

namespace StagedInstall

variable {fs : FileSystem} {s : Search} {dirs : InstallDirectories} {category : Category}
  {depth : Nat} {parent basedir : Path} {d n : Name} {ds p : List Name}

theorem mentions_iff {word b : Bytes} : mentions word b = true ↔ word <:+: b := by
  induction b with
  | nil => rw [mentions, List.isPrefixOf_iff_prefix, List.prefix_nil, List.infix_nil]
  | cons c r ih =>
    rw [mentions, Bool.or_eq_true, List.isPrefixOf_iff_prefix, ih, List.infix_cons_iff]

namespace Path

theorem isTestTree_iff {q : Path} : q.isTestTree = true ↔ Bytes.ofString "test" <:+: q.bytes :=
  mentions_iff

theorem isTestTree_below (h : parent.isTestTree = true) (ns : List Name) :
    (parent.below ns).isTestTree = true :=
  isTestTree_iff.mpr ((isTestTree_iff.mp h).trans (bytes_prefix_below parent ns).isInfix)

end Path

namespace Search

/-- The name `n` belongs to what is to be staged, in the directory that `ds` lead to. -/
structure Finds (s : Search) (fs : FileSystem) (parent : Path) (ds : List Name) (n : Name) :
    Prop where
  directories : ∀ es, es <+: ds → fs.isDirectory ((s.root / parent).below es) = true
  untested : ¬ Bytes.ofString "test" <:+: (parent.below ds).bytes
  file : fs.isFile ((s.root / parent).below (ds ++ [n])) = true
  selected : Fnmatch.isMatch s.pattern n.display = true
  shallow : s.recursive = false → ds = []

theorem finds_nil_iff : s.Finds fs parent [] n ↔
    fs.isDirectory (s.root / parent) = true ∧ parent.isTestTree = false ∧
      fs.isFile (s.root / parent / n.toPath) = true ∧
      Fnmatch.isMatch s.pattern n.display = true := by
  rw [← Bool.not_eq_true, Path.isTestTree_iff]
  constructor
  · intro h
    exact ⟨h.directories [] List.prefix_rfl, h.untested, h.file, h.selected⟩
  · rintro ⟨hd, ht, hf, hm⟩
    refine ⟨?_, ht, hf, hm, fun _ => rfl⟩
    intro es he
    rw [List.prefix_nil.mp he]
    exact hd

theorem finds_cons_iff : s.Finds fs parent (d :: ds) n ↔
    fs.isDirectory (s.root / parent) = true ∧ parent.isTestTree = false ∧ s.recursive = true ∧
      s.Finds fs (parent / d.toPath) ds n := by
  have hroot : s.root / (parent / d.toPath) = s.root / parent / d.toPath :=
    (Path.div_assoc ..).symm
  constructor
  · intro h
    refine ⟨h.directories [] List.nil_prefix, ?_, ?_, ?_⟩
    · rw [← Bool.not_eq_true]
      intro ht
      exact h.untested (Path.isTestTree_iff.mp (Path.isTestTree_below ht (d :: ds)))
    · rw [← Bool.not_eq_false]
      intro hr
      exact List.cons_ne_nil d ds (h.shallow hr)
    · constructor
      case directories =>
        intro es he
        rw [hroot]
        exact h.directories (d :: es) ((List.prefix_cons_inj d).mpr he)
      case untested => exact h.untested
      case file =>
        rw [hroot]
        exact h.file
      case selected => exact h.selected
      case shallow =>
        intro hr
        exact absurd (h.shallow hr) (List.cons_ne_nil d ds)
  · rintro ⟨hd, -, hr, h⟩
    constructor
    case directories =>
      intro es he
      cases es with
      | nil => exact hd
      | cons e es =>
        obtain ⟨hed, hes⟩ := List.cons_prefix_cons.mp he
        have := h.directories es hes
        rwa [hroot, ← hed] at this
    case untested => exact h.untested
    case file =>
      have := h.file
      rwa [hroot] at this
    case selected => exact h.selected
    case shallow =>
      intro hr'
      rw [hr] at hr'
      cases hr'

/-- The names that lead from `parent` to what one of its names contributes. -/
def foundAt (s : Search) (fs : FileSystem) (below : Path → List (List Name)) (parent : Path)
    (n : Name) : List (List Name) :=
  match fs.stat (s.root / parent / n.toPath) with
  | .error _ => []
  | .ok e =>
    if e.isFile && Fnmatch.isMatch s.pattern n.display then [[n]]
    else if e.isDirectory && s.recursive then (below (parent / n.toPath)).map (n :: ·)
    else []

/-- The names that lead from `parent` to the files at most `depth` levels below it, in listing
order. -/
def found (s : Search) (fs : FileSystem) : (depth : Nat) → (parent : Path) → List (List Name)
  | 0, _ => []
  | depth + 1, parent =>
    if parent.isTestTree then []
    else match fs.list (s.root / parent) with
      | .error _ => []
      | .ok ns => ns.flatMap (s.foundAt fs (s.found fs depth) parent)

variable {below : Path → List (List Name)}

theorem mem_foundAt_iff : p ∈ s.foundAt fs below parent n ↔
    (p = [n] ∧ fs.isFile (s.root / parent / n.toPath) = true ∧
      Fnmatch.isMatch s.pattern n.display = true) ∨
    (s.recursive = true ∧ fs.isDirectory (s.root / parent / n.toPath) = true ∧
      ∃ q ∈ below (parent / n.toPath), p = n :: q) := by
  unfold foundAt FileSystem.isFile FileSystem.isDirectory
  cases hs : fs.stat (s.root / parent / n.toPath) with
  | error => simp [Except.toOption]
  | ok e =>
    cases e with
    | file m c =>
      by_cases hm : Fnmatch.isMatch s.pattern n.display = true <;>
        simp [Except.toOption, Entry.isFile, Entry.isDirectory, hm]
    | directory m =>
      by_cases hr : s.recursive = true
      · simp only [Entry.isFile, Entry.isDirectory, Except.toOption, hr, Bool.false_and,
          Bool.false_eq_true, if_false, Bool.and_self, if_true, Option.any_some, List.mem_map,
          false_and, and_false, false_or, true_and, eq_comm (b := p)]
      · simp [Except.toOption, Entry.isFile, Entry.isDirectory, hr]
    | link | device => simp [Except.toOption, Entry.isFile, Entry.isDirectory]

theorem exists_list_of_mem_found (h : p ∈ s.found fs depth parent) :
    ∃ d ns, depth = d + 1 ∧ parent.isTestTree = false ∧ fs.list (s.root / parent) = .ok ns ∧
      ∃ n ∈ ns, p ∈ s.foundAt fs (s.found fs d) parent n := by
  cases depth with
  | zero => cases h
  | succ d =>
    unfold found at h
    split at h
    · cases h
    next ht =>
    split at h
    · cases h
    next ns hl =>
    exact ⟨d, ns, rfl, by simpa using ht, hl, List.mem_flatMap.mp h⟩

theorem finds_of_mem_found (h : p ∈ s.found fs depth parent) :
    ∃ ds n, p = ds ++ [n] ∧ s.Finds fs parent ds n := by
  induction depth generalizing parent p with
  | zero => cases h
  | succ depth ih =>
    obtain ⟨d, ns, hd, ht, hl, n, -, h⟩ := exists_list_of_mem_found h
    cases hd
    obtain ⟨-, -, -, -, hdir⟩ := FileSystem.list_leads hl
    rcases mem_foundAt_iff.mp h with ⟨rfl, hf, hm⟩ | ⟨hr, -, q, hq, rfl⟩
    · exact ⟨[], n, rfl, finds_nil_iff.mpr ⟨hdir, ht, hf, hm⟩⟩
    · obtain ⟨ds, m, rfl, hfinds⟩ := ih hq
      exact ⟨n :: ds, m, rfl, finds_cons_iff.mpr ⟨hdir, ht, hr, hfinds⟩⟩

/-- The lexicographic order of names that lead on from the directory at `dir`: at the first
difference, the directory is listed with the one name in front of the other. -/
inductive Precedes (fs : FileSystem) : Path → List Name → List Name → Prop
  | first {dir n m ns p q} {i j : Nat} : fs.list dir = .ok ns → ns[i]? = some n →
      ns[j]? = some m → i < j → Precedes fs dir (n :: p) (m :: q)
  | cons {dir n p q} : Precedes fs (dir / n.toPath) p q → Precedes fs dir (n :: p) (n :: q)

theorem Precedes.ne {dir : Path} {q : List Name} (h : Precedes fs dir p q) : p ≠ q := by
  induction h with
  | first hl hi hj hij =>
    intro he
    rw [← (List.cons.inj he).1] at hj
    have hlt := (List.getElem?_eq_some_iff.mp hi).1
    have heq := (List.getElem?_inj hlt (FileSystem.nodup_of_list hl)).mp (hi.trans hj.symm)
    exact absurd heq (Nat.ne_of_lt hij)
  | cons _ ih => exact fun he => ih (List.cons.inj he).2

theorem found_sorted (s : Search) (fs : FileSystem) (depth : Nat) (parent : Path) :
    (s.found fs depth parent).Pairwise (Precedes fs (s.root / parent)) := by
  induction depth generalizing parent with
  | zero => exact .nil
  | succ depth ih =>
    unfold found
    split
    · exact .nil
    split
    · exact .nil
    next ns hl =>
    rw [List.pairwise_flatMap]
    constructor
    · intro n _
      unfold foundAt
      split
      · exact .nil
      split
      · exact List.pairwise_singleton _ _
      split
      · apply List.pairwise_map.mpr
        apply (ih (parent / n.toPath)).imp
        intro p q h
        rw [← Path.div_assoc] at h
        exact .cons h
      · exact .nil
    · rw [List.pairwise_iff_getElem]
      intro i j hi hj hij p hp q hq
      have head {n : Name} {p : List Name}
          (h : p ∈ s.foundAt fs (s.found fs depth) parent n) : ∃ r, p = n :: r := by
        rcases mem_foundAt_iff.mp h with ⟨rfl, -⟩ | ⟨-, -, r, -, rfl⟩
        · exact ⟨[], rfl⟩
        · exact ⟨r, rfl⟩
      obtain ⟨p, rfl⟩ := head hp
      obtain ⟨q, rfl⟩ := head hq
      exact .first hl (List.getElem?_eq_getElem hi) (List.getElem?_eq_getElem hj) hij

end Search

/-- The names under which directories are found are UTF-8. -/
def FileSystem.Utf8Directories (fs : FileSystem) : Prop :=
  ∀ (p : Path) (n : Name), fs.isDirectory (p / n.toPath) = true → n.bytes.toString?.isSome = true

theorem FileSystem.utf8Directories_of_names
    (h : ∀ n l, fs.get? (n :: l) ≠ none → n.bytes.toString?.isSome = true) :
    fs.Utf8Directories := by
  intro p n hd
  obtain ⟨m, hs⟩ := isDirectory_eq_true_iff.mp hd
  obtain ⟨k, hk, -⟩ := stat_leads hs
  obtain ⟨d, hn⟩ := hk.exists_get?
  exact h n d hn

namespace Search

variable {stage : Path → Path → StagingEvent} {descend : Path → Path → Staging}

/-- A search that succeeds misses nothing. -/
theorem mem_found_of_finds (hu : fs.Utf8Directories)
    (h : (s.walk fs stage depth parent basedir).failure = none) (hf : s.Finds fs parent ds n) :
    ds ++ [n] ∈ s.found fs depth parent := by
  induction depth generalizing parent basedir ds with
  | zero =>
    have ht : parent.isTestTree = false := by
      cases ds with
      | nil => exact (finds_nil_iff.mp hf).2.1
      | cons d ds => exact (finds_cons_iff.mp hf).2.1
    obtain ⟨d, ns, hd, -, -⟩ := walk_eq_visit h ht
    cases hd
  | succ depth ih =>
    cases ds with
    | nil =>
      obtain ⟨-, ht, hfile, hm⟩ := finds_nil_iff.mp hf
      obtain ⟨d, ns, -, hl, -⟩ := walk_eq_visit h ht
      obtain ⟨m, c, hs⟩ := FileSystem.isFile_eq_true_iff.mp hfile
      rw [found, if_neg (by simp [ht]), hl]
      refine List.mem_flatMap.mpr ⟨n, FileSystem.mem_of_list hl hs, ?_⟩
      exact mem_foundAt_iff.mpr (.inl ⟨rfl, hfile, hm⟩)
    | cons e ds =>
      obtain ⟨-, ht, hr, hf⟩ := finds_cons_iff.mp hf
      obtain ⟨d, ns, hd, hl, hw⟩ := walk_eq_visit h ht
      cases hd
      have hdir : fs.isDirectory (s.root / parent / e.toPath) = true := by
        rw [Path.div_assoc]
        exact hf.directories [] List.nil_prefix
      obtain ⟨m, hs⟩ := FileSystem.isDirectory_eq_true_iff.mp hdir
      have he : e ∈ ns := FileSystem.mem_of_list hl hs
      rw [hw, visit_failure_eq_none] at h
      have h := h e he
      rw [visitName_of_isDirectory hdir hr, e.shown_eq (hu _ e hdir)] at h
      rw [found, if_neg (by simp [ht]), hl]
      refine List.mem_flatMap.mpr ⟨e, he, ?_⟩
      exact mem_foundAt_iff.mpr (.inr ⟨hr, hdir, _, ih h hf, rfl⟩)

theorem actions_stageFile (dirs : InstallDirectories) (category : Category) (dir basedir : Path)
    (n : Name) : (dirs.stageFile category (dir / n.toPath) basedir none).actions =
      [.copy ⟨dir / n.toPath, dirs.dir category / basedir / n.toPath⟩] := by
  rw [InstallDirectories.stageFile, ActionGraph.targetIn, Path.fileName?_div_name]
  rfl

theorem actions_visitName (hu : fs.Utf8Directories)
    (hdescend : ∀ q b : Path, (descend q b).failure = none → (descend q b).actions =
      (below q).map fun p => .copy ⟨(s.root / q).below p, (dirs.dir category / b).below p⟩)
    (h : (s.visitName fs (fun source basedir => dirs.stageFile category source basedir none)
      descend (s.root / parent) parent basedir n).failure = none) :
    (s.visitName fs (fun source basedir => dirs.stageFile category source basedir none)
      descend (s.root / parent) parent basedir n).actions =
      (s.foundAt fs below parent n).map fun p =>
        .copy ⟨(s.root / parent).below p, (dirs.dir category / basedir).below p⟩ := by
  unfold foundAt
  cases hs : fs.stat (s.root / parent / n.toPath) with
  | error cause =>
    rw [visitName, hs]
    rfl
  | ok e =>
    by_cases hf : (e.isFile && Fnmatch.isMatch s.pattern n.display) = true
    · rw [visitName, hs]
      simp only [hf, if_true]
      exact (List.append_nil _).trans (actions_stageFile dirs category (s.root / parent) basedir n)
    by_cases hd : (e.isDirectory && s.recursive) = true
    · obtain ⟨he, hr⟩ := Bool.and_eq_true_iff.mp hd
      have hdir : fs.isDirectory (s.root / parent / n.toPath) = true := by
        rw [FileSystem.isDirectory, hs]
        exact he
      rw [visitName_of_isDirectory hdir hr, n.shown_eq (hu _ n hdir)] at h ⊢
      dsimp only
      rw [if_neg hf, if_pos hd, hdescend _ _ h, List.map_map]
      apply List.map_congr_left
      intro p _
      rw [Function.comp_apply, Path.below_cons, Path.below_cons, ← Path.div_assoc,
        ← Path.div_assoc]
    · rw [visitName, hs]
      simp only [hf, hd]
      rfl

theorem actions_walk (hu : fs.Utf8Directories)
    (h : (s.walk fs (fun source basedir => dirs.stageFile category source basedir none) depth
      parent basedir).failure = none) :
    (s.walk fs (fun source basedir => dirs.stageFile category source basedir none) depth parent
      basedir).actions = (s.found fs depth parent).map fun p =>
        .copy ⟨(s.root / parent).below p, (dirs.dir category / basedir).below p⟩ := by
  induction depth generalizing parent basedir with
  | zero =>
    cases ht : parent.isTestTree with
    | true =>
      rw [walk_of_isTestTree ht]
      rfl
    | false =>
      obtain ⟨d, ns, hd, -, -⟩ := walk_eq_visit h ht
      cases hd
  | succ depth ih =>
    cases ht : parent.isTestTree with
    | true =>
      rw [walk_of_isTestTree ht, found, if_pos ht]
      rfl
    | false =>
      obtain ⟨d, ns, hd, hl, hw⟩ := walk_eq_visit h ht
      cases hd
      rw [hw] at h ⊢
      rw [actions_visit h, found, if_neg (by simp [ht]), hl]
      dsimp only
      rw [List.map_flatMap]
      refine List.flatMap_congr fun n hn => actions_visitName hu (fun q b hq => ih hq) ?_
      exact visit_failure_eq_none.mp h n hn

end Search

namespace Installer

/-- A directory that is staged without an error contributes a copy for each file that is found, in
the order of the listings, and for nothing else. -/
theorem record_directory (i : Installer) (hu : fs.Utf8Directories)
    (h : ((Task.directory category s parent basedir).staging fs i.dirs).failure = none) :
    ∃ ps : List (List Name),
      (i.record ((Task.directory category s parent basedir).staging fs i.dirs)).graph =
        i.graph.append (ps.map fun p =>
          .copy ⟨(s.root / parent).below p, (i.dirs.dir category / basedir).below p⟩) ∧
      (∀ p, p ∈ ps ↔ ∃ ds n, p = ds ++ [n] ∧ s.Finds fs parent ds n) ∧
      ps.Pairwise (Search.Precedes fs (s.root / parent)) ∧
      (∀ q ns, fs.list q = .ok ns → ns.Nodup) ∧
      ps.Pairwise fun p q => ¬ ((i.dirs.dir category / basedir).below p).Same
        ((i.dirs.dir category / basedir).below q) := by
  have hsorted := Search.found_sorted s fs FileSystem.maxPath parent
  refine ⟨s.found fs FileSystem.maxPath parent, ?_, ?_, hsorted, ?_, ?_⟩
  · rw [record]
    exact congrArg i.graph.append (Search.actions_walk hu h)
  · intro p
    constructor
    · exact Search.finds_of_mem_found
    · rintro ⟨ds, n, rfl, hf⟩
      exact Search.mem_found_of_finds hu h hf
  · exact fun q ns hl => FileSystem.nodup_of_list hl
  · exact hsorted.imp fun hpq hs => hpq.ne (Path.below_injective hs)

end Installer

namespace Search.Sample

theorem utf8Directories_tree : tree.Utf8Directories := by
  apply FileSystem.utf8Directories_of_names
  intro n l h
  have hmem : (n :: l) ∈ tree.entries.toList.map Prod.fst := by
    obtain ⟨e, he⟩ := Option.ne_none_iff_exists'.mp h
    exact List.mem_map_of_mem (f := Prod.fst) (tree.entries.mem_toList_iff.mpr he)
  have hall : ∀ k ∈ tree.entries.toList.map Prod.fst, ∀ m ∈ k,
      m.bytes.toString?.isSome = true := by decide
  exact hall _ hmem n List.mem_cons_self

end Search.Sample

open Search in
theorem Installer.record_directory_sample :
    Sample.tree.Utf8Directories ∧
      (Sample.task.staging Sample.tree Sample.installer.dirs).failure = none ∧
      ∃ ps : List (List Name),
        (Sample.installer.record (Sample.task.staging Sample.tree Sample.installer.dirs)).graph =
          Sample.installer.graph.append (ps.map fun p =>
            .copy ⟨(Sample.search.root / ∅).below p,
              (Sample.installer.dirs.dir .share / ∅).below p⟩) ∧
        ∀ p, p ∈ ps ↔ ∃ ds n, p = ds ++ [n] ∧ Sample.search.Finds Sample.tree ∅ ds n := by
  have h : (Sample.task.staging Sample.tree Sample.installer.dirs).failure = none := by decide
  obtain ⟨ps, hg, hm, -⟩ := Sample.installer.record_directory Sample.utf8Directories_tree h
  exact ⟨Sample.utf8Directories_tree, h, ps, hg, hm⟩

end StagedInstall
