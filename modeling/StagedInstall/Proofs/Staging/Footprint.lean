import StagedInstall.Proofs.Staging.Traversal

/-! # What a search depends on

A search sees no more of a tree than the listings of the directories that it enters, and what kind
of entry each of their names leads to. Two searches that see the same go the same way, also when
they start from different roots (`walk_related`). Test trees are never entered, so what is in them
makes no difference (`staging_directory_eq`).
-/

namespace StagedInstall

/-- As what an entry is treated. -/
inductive EntryKind
  | file
  | directory
  | other
  deriving DecidableEq

def Entry.kind : Entry → EntryKind
  | file .. => .file
  | directory _ => .directory
  | link _ | device _ => .other

namespace FileSystem

def kind (fs : FileSystem) (p : Path) : Except Cause EntryKind := (fs.stat p).map Entry.kind

/-- What a search sees of the directory `dir` in `fs` is what it sees of `dir'` in `fs'`. -/
structure AlikeAt (fs : FileSystem) (dir : Path) (fs' : FileSystem) (dir' : Path) : Prop where
  list : fs'.list dir' = fs.list dir
  kind : ∀ ns, fs.list dir = .ok ns →
    ∀ n ∈ ns, fs'.kind (dir' / n.toPath) = fs.kind (dir / n.toPath)

theorem isDirectory_of_kind {fs : FileSystem} {p : Path} (h : fs.kind p = .ok .directory) :
    fs.isDirectory p = true := by
  rw [kind] at h
  cases hs : fs.stat p with
  | error cause =>
    rw [hs] at h
    cases h
  | ok e =>
    rw [hs] at h
    cases e with
    | directory m => exact isDirectory_eq_true_iff.mpr ⟨m, hs⟩
    | file | link | device => cases h

end FileSystem

variable {E : StagingEvent → StagingEvent → Prop} {F : InstallError → InstallError → Prop}

namespace Staging

/-- The same was staged up to `E`, and the same error ended it up to `F`, or none. -/
structure Related (E : StagingEvent → StagingEvent → Prop) (F : InstallError → InstallError → Prop)
    (a b : Staging) : Prop where
  events : List.Forall₂ E a.events b.events
  failure : Option.Rel F a.failure b.failure

namespace Related

variable {a b : Staging}

theorem done : Related E F .done .done := ⟨.nil, .none⟩

theorem event {e e' : StagingEvent} (h : E e e') : Related E F (.event e) (.event e') :=
  ⟨.cons h .nil, .none⟩

theorem fail {e e' : InstallError} (h : F e e') : Related E F (.fail e) (.fail e') :=
  ⟨.nil, .some h⟩

theorem andThen {a' b' : Unit → Staging} (h : Related E F a b)
    (h' : a.failure = none → Related E F (a' ()) (b' ())) :
    Related E F (a.andThen a') (b.andThen b') := by
  obtain ⟨events, failure⟩ := a
  obtain ⟨events', failure'⟩ := b
  obtain ⟨he, hf⟩ := h
  cases hf with
  | some hf => exact ⟨he, .some hf⟩
  | none =>
    obtain ⟨he', hf'⟩ := h' rfl
    exact ⟨List.rel_append he he', hf'⟩

theorem eq (h : Related Eq Eq a b) : a = b := by
  obtain ⟨events, failure⟩ := a
  obtain ⟨events', failure'⟩ := b
  obtain ⟨he, hf⟩ := h
  obtain rfl : events = events' := List.forall₂_eq_eq_eq ▸ he
  cases hf with
  | some hf => rw [hf]
  | none => rfl

end Related

end Staging

namespace Search

variable {fs fs' : FileSystem} {s : Search} {root' : Path} {stage stage' : Path → Path → StagingEvent}
  {descend descend' : Path → Path → Staging} {dir dir' parent basedir : Path} {n : Name}
  {ns : List Name} {depth : Nat}

def under (s : Search) (root : Path) : Search := { s with root := root }

theorem visitName_eq : s.visitName fs stage descend dir parent basedir n =
    match fs.kind (dir / n.toPath) with
    | .error cause => .fail (.traversal (dir / n.toPath) cause)
    | .ok .file =>
      if Fnmatch.isMatch s.pattern n.display then .event (stage (dir / n.toPath) basedir) else .done
    | .ok .directory =>
      if s.recursive then descend (parent / n.shown) (basedir / n.shown) else .done
    | .ok .other => .done := by
  unfold visitName FileSystem.kind
  cases fs.stat (dir / n.toPath) with
  | error => rfl
  | ok e =>
    cases e <;> simp [Except.map, Entry.kind, Entry.isFile, Entry.isDirectory]

theorem visitName_related
    (hk : fs'.kind (dir' / n.toPath) = fs.kind (dir / n.toPath))
    (hfail : ∀ cause,
      F (.traversal (dir / n.toPath) cause) (.traversal (dir' / n.toPath) cause))
    (hstage : E (stage (dir / n.toPath) basedir) (stage' (dir' / n.toPath) basedir))
    (hdescend : s.recursive = true → fs.isDirectory (dir / n.toPath) = true →
      Staging.Related E F (descend (parent / n.shown) (basedir / n.shown))
        (descend' (parent / n.shown) (basedir / n.shown))) :
    Staging.Related E F (s.visitName fs stage descend dir parent basedir n)
      ((s.under root').visitName fs' stage' descend' dir' parent basedir n) := by
  rw [visitName_eq, visitName_eq, hk]
  cases hkind : fs.kind (dir / n.toPath) with
  | error cause => exact .fail (hfail cause)
  | ok k =>
    cases k with
    | file =>
      by_cases hm : Fnmatch.isMatch s.pattern n.display = true
      · have hm' : Fnmatch.isMatch (s.under root').pattern n.display = true := hm
        rw [if_pos hm, if_pos hm']
        exact .event hstage
      · have hm' : ¬ Fnmatch.isMatch (s.under root').pattern n.display = true := hm
        rw [if_neg hm, if_neg hm']
        exact .done
    | directory =>
      by_cases hr : s.recursive = true
      · have hr' : (s.under root').recursive = true := hr
        rw [if_pos hr, if_pos hr']
        exact hdescend hr (FileSystem.isDirectory_of_kind hkind)
      · have hr' : ¬ (s.under root').recursive = true := hr
        rw [if_neg hr, if_neg hr']
        exact .done
    | other => exact .done

theorem visit_related
    (h : ∀ n ∈ ns, Staging.Related E F (s.visitName fs stage descend dir parent basedir n)
      ((s.under root').visitName fs' stage' descend' dir' parent basedir n)) :
    Staging.Related E F (s.visit fs stage descend dir parent basedir ns)
      ((s.under root').visit fs' stage' descend' dir' parent basedir ns) := by
  induction ns with
  | nil => exact .done
  | cons n ns ih =>
    rw [visit_cons, visit_cons]
    obtain ⟨hn, hns⟩ := List.forall_mem_cons.mp h
    exact hn.andThen fun _ => ih hns

theorem walk_related (hskip : ∀ p, E (.skipped p) (.skipped p))
    (hstage : ∀ q b n, s.Enters fs parent q →
      E (stage (s.root / q / Name.toPath n) b) (stage' (root' / q / Name.toPath n) b))
    (hlist : ∀ q cause, s.Enters fs parent q →
      F (.traversal (s.root / q) cause) (.traversal (root' / q) cause))
    (hstat : ∀ q n cause, s.Enters fs parent q →
      F (.traversal (s.root / q / Name.toPath n) cause)
        (.traversal (root' / q / Name.toPath n) cause))
    (h : ∀ q, s.Enters fs parent q → fs.AlikeAt (s.root / q) fs' (root' / q)) :
    Staging.Related E F (s.walk fs stage depth parent basedir)
      ((s.under root').walk fs' stage' depth parent basedir) := by
  induction depth generalizing parent basedir with
  | zero =>
    rw [walk, walk]
    split
    · exact .event (hskip parent)
    · next ht => exact .fail (hlist parent _ (.start (by simpa using ht)))
  | succ depth ih =>
    rw [walk, walk]
    split
    · exact .event (hskip parent)
    next ht =>
    have hstart : s.Enters fs parent parent := .start (by simpa using ht)
    have hroot : (s.under root').root = root' := rfl
    rw [hroot, (h parent hstart).list]
    cases hl : fs.list (s.root / parent) with
    | error cause => exact .fail (hlist parent cause hstart)
    | ok ns =>
      refine visit_related fun n hn => visitName_related ((h parent hstart).kind ns hl n hn)
        (fun cause => hstat parent n cause hstart) (hstage parent basedir n hstart) ?_
      intro hr hd
      have below {q : Path} (hq : s.Enters fs (parent / n.shown) q) : s.Enters fs parent q :=
        hq.of_below hstart.isTestTree_eq hr hl hn hd
      exact ih (fun q b m hq => hstage q b m (below hq)) (fun q cause hq => hlist q cause (below hq))
        (fun q m cause hq => hstat q m cause (below hq)) fun q hq => h q (below hq)

end Search

namespace Path

variable {root q r : Path} {m n : Name}

/-- A slash at the end of a path does not make it a test tree. -/
theorem isTestTree_iff_opened : q.isTestTree = true ↔ Bytes.ofString "test" <:+: q.opened := by
  rw [isTestTree_iff, opened]
  split
  · rfl
  · rw [List.infix_concat_iff, or_iff_right]
    rintro ⟨s, hs⟩
    have hlast := congrArg List.getLast? hs
    have ht : (Bytes.ofString "test").getLast? = some 0x74 := by decide
    rw [List.getLast?_append, List.getLast?_concat, ht, Option.some_or] at hlast
    exact absurd hlast (by decide)

theorem opened_eq_of_div_name (h : q / n.toPath = r / m.toPath) : q.opened = r.opened := by
  have hn : n.toPath = m.toPath := by
    have hf := congrArg fileName? h
    rw [fileName?_div_name, fileName?_div_name] at hf
    exact Option.some.inj hf
  have hb := congrArg bytes h
  rw [hn, bytes_div _ (isAbsolute_toPath m), bytes_div _ (isAbsolute_toPath m)] at hb
  exact List.append_cancel_right hb

/-- Where a file of a directory is spelled below the root, the directory is a test tree if it is
spelled as one. -/
theorem isTestTree_of_div_eq (hr : r.isAbsolute = false)
    (h : root / q / n.toPath = root / r / m.toPath) (ht : r.isTestTree = true) :
    q.isTestTree = true := by
  have ho := opened_eq_of_div_name h
  rw [opened_div root hr] at ho
  rw [isTestTree_iff_opened] at ht ⊢
  by_cases hq : q.isAbsolute = true
  · rw [div_of_isAbsolute root hq] at ho
    rw [ho]
    exact ht.trans (List.suffix_append root.opened r.opened).isInfix
  · rw [Bool.not_eq_true] at hq
    rw [opened_div root hq] at ho
    rwa [List.append_cancel_left ho]

end Path

namespace Task

variable {fs fs' : FileSystem} {dirs : InstallDirectories} {category : Category} {search : Search}
  {parent basedir : Path}

theorem exists_entered {a : Action}
    (h : a ∈ ((directory category search parent basedir).staging fs dirs).actions) :
    ∃ c q n, a = .copy c ∧ search.Enters fs parent q ∧
      c.source = search.root / q / Name.toPath n := by
  obtain ⟨e, he, hae⟩ := Staging.exists_event h
  rcases Search.walk_staged he with ⟨p, rfl⟩ | ⟨q, b, n, hq, -, rfl⟩
  · cases hae
  · obtain rfl := List.mem_singleton.mp hae
    exact ⟨_, q, n, rfl, hq, rfl⟩

/-- What is staged from a directory, and how that ends, depends on nothing but what is seen of the
directories that are entered. No file is staged from a directory whose path below the root mentions
"test". -/
theorem staging_directory_eq (h : ∀ q, search.Enters fs parent q →
      fs.AlikeAt (search.root / q) fs' (search.root / q)) :
    (directory category search parent basedir).staging fs' dirs =
        (directory category search parent basedir).staging fs dirs ∧
      ∀ a ∈ ((directory category search parent basedir).staging fs dirs).actions,
        ∃ c q n, a = .copy c ∧ c.source = search.root / q / Name.toPath n ∧
          search.Enters fs parent q ∧ q.isTestTree = false ∧
          ∀ r m, r.isAbsolute = false → c.source = search.root / r / Name.toPath m →
            r.isTestTree = false := by
  constructor
  · have hrel : Staging.Related Eq Eq
        ((directory category search parent basedir).staging fs dirs)
        ((directory category (search.under search.root) parent basedir).staging fs' dirs) :=
      Search.walk_related (fun _ => rfl) (fun _ _ _ _ => rfl) (fun _ _ _ => rfl)
        (fun _ _ _ _ => rfl) h
    exact hrel.eq.symm
  · intro a ha
    obtain ⟨c, q, n, rfl, hq, hc⟩ := exists_entered ha
    refine ⟨c, q, n, rfl, hc, hq, hq.isTestTree_eq, ?_⟩
    intro r m hr hcr
    rw [← Bool.not_eq_true]
    intro ht
    have hqt := Path.isTestTree_of_div_eq hr (hc.symm.trans hcr) ht
    cases hqt.symm.trans hq.isTestTree_eq

end Task

namespace Search.Sample

def testName : Name := (Name.ofBytes? [0x74, 0x65, 0x73, 0x74]).get rfl

def tested : FileSystem :=
  (FileSystem.empty.put [fileName] (.file .newFile [1])).put [testName]
    (.directory .newDirectory)

def dangling : FileSystem := tested.put [fileName, testName] (.link ⟨[0x78]⟩)

theorem list_tested : tested.list (search.root / ∅) = .ok [fileName, testName] := rfl

theorem alikeAt_dangling {q : Path} (h : search.Enters tested ∅ q) :
    tested.AlikeAt (search.root / q) dangling (search.root / q) := by
  obtain rfl := h.eq_start list_tested (by decide)
  refine ⟨rfl, ?_⟩
  intro ns hl n hn
  cases hl.symm.trans list_tested
  rcases List.mem_pair.mp hn with rfl | rfl <;> rfl

end Search.Sample

open Search in
theorem Task.staging_directory_eq_sample :
    (∀ q, Sample.search.Enters Sample.tested ∅ q → Sample.tested.AlikeAt (Sample.search.root / q)
        Sample.dangling (Sample.search.root / q)) ∧
      Sample.task.staging Sample.dangling Sample.installer.dirs =
        Sample.task.staging Sample.tested Sample.installer.dirs ∧
      (Sample.task.staging Sample.tested Sample.installer.dirs).actions.length = 1 := by
  have h : ∀ q, Sample.search.Enters Sample.tested ∅ q → Sample.tested.AlikeAt
      (Sample.search.root / q) Sample.dangling (Sample.search.root / q) :=
    fun q => Sample.alikeAt_dangling
  exact ⟨h, (Task.staging_directory_eq h).1, by decide⟩

end StagedInstall
