import StagedInstall.Proofs.FileSystem.Listing
import StagedInstall.Proofs.Text.Utf8
import StagedInstall.Staging.Task

/-! # Searching a directory

The search takes the names of a directory one after the other, and what it does for one of them
does not depend on the others (`visit_cons`). When it succeeds it has done its part for each name;
whether it succeeds or not, it stages nothing but matching names of directories that it entered
(`walk_staged_descend`).
-/

namespace StagedInstall

namespace Name

variable (n : Name)

/-- The text of a name as a path: its bytes, with U+FFFD where they are no UTF-8. -/
def shown : Path := .ofString n.display

theorem bytes_shown : n.shown.bytes = Utf8.encode (Utf8.decodeLossy n.bytes) := by
  change Utf8.encode (String.ofList (Utf8.decodeLossy n.bytes)).toList = _
  rw [String.toList_ofList]

theorem shown_ne_nil : n.shown.bytes ≠ [] := by
  rw [bytes_shown]
  exact Utf8.encode_decodeLossy_ne_nil n.ne_nil

/-- A name that is shown in ASCII is shown as it is. -/
theorem eq_of_shown_ascii {b : Bytes} (h : n.shown.bytes = b) (hb : ∀ x ∈ b, x.toNat < 0x80) :
    n.bytes = b := by
  rw [bytes_shown] at h
  rw [← h]
  exact (Utf8.encode_decodeLossy_of_ascii (h ▸ hb)).symm

theorem isName_shown : n.shown.IsName := by
  have hdot : ∀ x ∈ [dot], x.toNat < 0x80 := List.forall_mem_singleton.mpr (by decide)
  refine ⟨?_, not_or.mpr ⟨n.shown_ne_nil, ?_⟩, ?_⟩
  · intro h
    rw [bytes_shown] at h
    exact n.slash_not_mem (Utf8.mem_of_mem_encode_decodeLossy h (by decide))
  · intro h
    exact n.ne_dot (n.eq_of_shown_ascii h hdot)
  · intro h
    exact n.ne_dots (n.eq_of_shown_ascii h (List.forall_mem_cons.mpr ⟨by decide, hdot⟩))

theorem isAbsolute_shown : n.shown.isAbsolute = false := n.isName_shown.isAbsolute_eq

theorem shown_eq (h : n.bytes.toString?.isSome = true) : n.shown = n.toPath := by
  apply Path.ext
  rw [bytes_shown]
  unfold Bytes.toString? at h
  rw [Option.isSome_map] at h
  obtain ⟨cs, hcs⟩ := Option.isSome_iff_exists.mp h
  exact Utf8.encode_decodeLossy hcs

end Name

namespace Path

/-- The path that the search has for the directory below `p` that the names lead to. -/
def descend (p : Path) (ns : List Name) : Path := ns.foldl (fun q n => q / n.shown) p

theorem components_div_descend (a p : Path) (ns : List Name) : (a / p.descend ns).components =
    (a / p).components ++ ns.map fun n => .normal n.shown.bytes := by
  induction ns generalizing p with
  | nil => exact (List.append_nil _).symm
  | cons n ns ih =>
    refine (ih (p / n.shown)).trans ?_
    rw [← div_assoc, n.isName_shown.components_div, List.append_assoc]
    rfl

end Path

namespace Staging

variable {a : Staging} {b : Unit → Staging} {e : StagingEvent} {error : InstallError}

theorem andThen_of_failure (h : a.failure = some error) : a.andThen b = a := by
  unfold andThen
  rw [h]

theorem andThen_of_done (h : a.failure = none) :
    a.andThen b = ⟨a.events ++ (b ()).events, (b ()).failure⟩ := by
  unfold andThen
  rw [h]

theorem andThen_failure_eq_none :
    (a.andThen b).failure = none ↔ a.failure = none ∧ (b ()).failure = none := by
  cases h : a.failure with
  | none => simp [andThen_of_done h]
  | some error => simp [andThen_of_failure h, h]

theorem failure_andThen (h : (a.andThen b).failure = some error) :
    a.failure = some error ∨ (b ()).failure = some error := by
  cases ha : a.failure with
  | none =>
    rw [andThen_of_done ha] at h
    exact .inr h
  | some error' =>
    rw [andThen_of_failure ha, ha] at h
    exact .inl h

theorem actions_andThen (h : a.failure = none) :
    (a.andThen b).actions = a.actions ++ (b ()).actions := by
  rw [andThen_of_done h]
  exact List.flatMap_append

theorem mem_andThen (h : e ∈ (a.andThen b).events) : e ∈ a.events ∨ e ∈ (b ()).events := by
  cases ha : a.failure with
  | none =>
    rw [andThen_of_done ha] at h
    exact List.mem_append.mp h
  | some error =>
    rw [andThen_of_failure ha] at h
    exact .inl h

theorem mem_ofTasks {fs : FileSystem} {dirs : InstallDirectories} {ts : List Task}
    (h : e ∈ (ofTasks fs dirs ts).events) : ∃ t ∈ ts, e ∈ (t.staging fs dirs).events := by
  induction ts with
  | nil => cases h
  | cons t ts ih =>
    rcases mem_andThen h with h | h
    · exact ⟨t, List.mem_cons_self, h⟩
    · obtain ⟨u, hu, h⟩ := ih h
      exact ⟨u, List.mem_cons_of_mem t hu, h⟩

end Staging

namespace Search

section Visit

variable (fs : FileSystem) (s : Search) (stage : Path → Path → StagingEvent)
  (descend : Path → Path → Staging) (dir parent basedir : Path)

def visitName (n : Name) : Staging :=
  match fs.stat (dir / n.toPath) with
  | .error cause => .fail (.traversal (dir / n.toPath) cause)
  | .ok e =>
    if e.isFile && Fnmatch.isMatch s.pattern n.display then
      .event (stage (dir / n.toPath) basedir)
    else if e.isDirectory && s.recursive then descend (parent / n.shown) (basedir / n.shown)
    else .done

theorem visit_cons (n : Name) (ns : List Name) :
    s.visit fs stage descend dir parent basedir (n :: ns) =
      (s.visitName fs stage descend dir parent basedir n).andThen fun _ =>
        s.visit fs stage descend dir parent basedir ns := by
  unfold visitName
  rw [visit]
  cases fs.stat (dir / n.toPath) with
  | error cause => rfl
  | ok e =>
    dsimp only
    by_cases hf : (e.isFile && Fnmatch.isMatch s.pattern n.display) = true
    · rw [if_pos hf, if_pos hf]
    rw [if_neg hf, if_neg hf]
    by_cases hd : (e.isDirectory && s.recursive) = true
    · rw [if_pos hd, if_pos hd]
      rfl
    · rw [if_neg hd, if_neg hd]
      rfl

theorem visitName_cases (n : Name) :
    (∃ cause, fs.stat (dir / n.toPath) = .error cause ∧
      s.visitName fs stage descend dir parent basedir n =
        .fail (.traversal (dir / n.toPath) cause)) ∨
    (fs.isFile (dir / n.toPath) = true ∧ Fnmatch.isMatch s.pattern n.display = true ∧
      s.visitName fs stage descend dir parent basedir n =
        .event (stage (dir / n.toPath) basedir)) ∨
    (s.recursive = true ∧ fs.isDirectory (dir / n.toPath) = true ∧
      s.visitName fs stage descend dir parent basedir n =
        descend (parent / n.shown) (basedir / n.shown)) ∨
    s.visitName fs stage descend dir parent basedir n = .done := by
  unfold visitName FileSystem.isFile FileSystem.isDirectory
  cases fs.stat (dir / n.toPath) with
  | error cause => exact .inl ⟨cause, rfl, rfl⟩
  | ok e =>
    right
    dsimp only
    split
    · next hm =>
      obtain ⟨hf, hm⟩ := Bool.and_eq_true_iff.mp hm
      exact .inl ⟨hf, hm, rfl⟩
    split
    · next hd =>
      obtain ⟨hd, hr⟩ := Bool.and_eq_true_iff.mp hd
      exact .inr (.inl ⟨hr, hd, rfl⟩)
    · exact .inr (.inr rfl)

end Visit

variable {fs : FileSystem} {s : Search} {stage : Path → Path → StagingEvent}
  {descend : Path → Path → Staging} {depth : Nat} {dir parent basedir : Path} {n : Name}
  {ns : List Name} {e : StagingEvent}

theorem visit_failure_eq_none :
    (s.visit fs stage descend dir parent basedir ns).failure = none ↔
      ∀ n ∈ ns, (s.visitName fs stage descend dir parent basedir n).failure = none := by
  induction ns with
  | nil => exact iff_of_true rfl fun _ h => absurd h List.not_mem_nil
  | cons n ns ih =>
    rw [visit_cons, Staging.andThen_failure_eq_none, ih, List.forall_mem_cons]

theorem actions_visit (h : (s.visit fs stage descend dir parent basedir ns).failure = none) :
    (s.visit fs stage descend dir parent basedir ns).actions =
      ns.flatMap fun n => (s.visitName fs stage descend dir parent basedir n).actions := by
  induction ns with
  | nil => rfl
  | cons n ns ih =>
    rw [visit_cons] at h ⊢
    obtain ⟨hn, hns⟩ := Staging.andThen_failure_eq_none.mp h
    rw [Staging.actions_andThen hn, ih hns, List.flatMap_cons]

theorem mem_visit (h : e ∈ (s.visit fs stage descend dir parent basedir ns).events) :
    ∃ n ∈ ns, e ∈ (s.visitName fs stage descend dir parent basedir n).events := by
  induction ns with
  | nil => cases h
  | cons n ns ih =>
    rw [visit_cons] at h
    rcases Staging.mem_andThen h with h | h
    · exact ⟨n, List.mem_cons_self, h⟩
    · obtain ⟨m, hm, h⟩ := ih h
      exact ⟨m, List.mem_cons_of_mem n hm, h⟩

theorem mem_visitName (h : e ∈ (s.visitName fs stage descend dir parent basedir n).events) :
    (fs.isFile (dir / n.toPath) = true ∧ Fnmatch.isMatch s.pattern n.display = true ∧
      e = stage (dir / n.toPath) basedir) ∨
    (s.recursive = true ∧ fs.isDirectory (dir / n.toPath) = true ∧
      e ∈ (descend (parent / n.shown) (basedir / n.shown)).events) := by
  rcases s.visitName_cases fs stage descend dir parent basedir n with
    ⟨cause, -, hn⟩ | ⟨hf, hm, hn⟩ | ⟨hr, hd, hn⟩ | hn
  · rw [hn] at h
    cases h
  · rw [hn] at h
    exact .inl ⟨hf, hm, List.mem_singleton.mp h⟩
  · rw [hn] at h
    exact .inr ⟨hr, hd, h⟩
  · rw [hn] at h
    cases h

theorem visitName_of_isFile (hf : fs.isFile (dir / n.toPath) = true)
    (hm : Fnmatch.isMatch s.pattern n.display = true) :
    s.visitName fs stage descend dir parent basedir n =
      .event (stage (dir / n.toPath) basedir) := by
  obtain ⟨m, c, hs⟩ := FileSystem.isFile_eq_true_iff.mp hf
  rw [visitName, hs]
  simp [Entry.isFile, hm]

theorem visitName_of_isDirectory (hd : fs.isDirectory (dir / n.toPath) = true)
    (hr : s.recursive = true) : s.visitName fs stage descend dir parent basedir n =
      descend (parent / n.shown) (basedir / n.shown) := by
  obtain ⟨m, hs⟩ := FileSystem.isDirectory_eq_true_iff.mp hd
  rw [visitName, hs]
  simp [Entry.isFile, Entry.isDirectory, hr]

theorem walk_of_isTestTree (h : parent.isTestTree = true) :
    s.walk fs stage depth parent basedir = .event (.skipped parent) := by
  cases depth with
  | zero => rw [walk, if_pos h]
  | succ depth => rw [walk, if_pos h]

/-- A search that succeeds has listed the directory, unless that is a test tree. -/
theorem walk_eq_visit (h : (s.walk fs stage depth parent basedir).failure = none)
    (hp : parent.isTestTree = false) :
    ∃ d ns, depth = d + 1 ∧ fs.list (s.root / parent) = .ok ns ∧
      s.walk fs stage depth parent basedir =
        s.visit fs stage (s.walk fs stage d) (s.root / parent) parent basedir ns := by
  cases depth with
  | zero =>
    rw [walk, if_neg (by simp [hp])] at h
    cases h
  | succ d =>
    rw [walk, if_neg (by simp [hp])] at h ⊢
    split at h
    · cases h
    · next ns hl => exact ⟨d, ns, rfl, hl, rfl⟩

/-- The directories that a search from `parent` can enter: those that it finds on its way, unless
their path mentions "test". -/
inductive Enters (s : Search) (fs : FileSystem) (parent : Path) : Path → Prop
  | start : parent.isTestTree = false → Enters s fs parent parent
  | descend {q : Path} {n : Name} {ns : List Name} : Enters s fs parent q → s.recursive = true →
      fs.list (s.root / q) = .ok ns → n ∈ ns → fs.isDirectory (s.root / q / n.toPath) = true →
      (q / n.shown).isTestTree = false → Enters s fs parent (q / n.shown)

namespace Enters

variable {q r : Path} {ns : List Name}

theorem isTestTree_eq (h : s.Enters fs parent q) : q.isTestTree = false := by
  cases h <;> assumption

theorem isTestTree_start (h : s.Enters fs parent q) : parent.isTestTree = false := by
  induction h with
  | start ht => exact ht
  | descend _ _ _ _ _ _ ih => exact ih

theorem trans (h : s.Enters fs parent q) (h' : s.Enters fs q r) : s.Enters fs parent r := by
  induction h' with
  | start => exact h
  | descend _ hr hl hn hd ht ih => exact .descend ih hr hl hn hd ht

theorem of_below (h : s.Enters fs (parent / n.shown) q) (ht : parent.isTestTree = false)
    (hr : s.recursive = true) (hl : fs.list (s.root / parent) = .ok ns) (hn : n ∈ ns)
    (hd : fs.isDirectory (s.root / parent / n.toPath) = true) : s.Enters fs parent q :=
  trans (.descend (.start ht) hr hl hn hd h.isTestTree_start) h

theorem eq_or_exists_div (h : s.Enters fs parent q) :
    q = parent ∨ ∃ r : Path, r.isAbsolute = false ∧ r.bytes ≠ [] ∧ q = parent / r := by
  induction h with
  | start => exact .inl rfl
  | @descend q n ns _ _ _ _ _ _ ih =>
    right
    rcases ih with rfl | ⟨r, hr, -, rfl⟩
    · exact ⟨n.shown, n.isAbsolute_shown, n.shown_ne_nil, rfl⟩
    · refine ⟨r / n.shown, ?_, ?_, Path.div_assoc ..⟩
      · rw [Path.isAbsolute_div _ n.isAbsolute_shown, hr]
      · rw [Path.bytes_div _ n.isAbsolute_shown]
        intro he
        exact n.shown_ne_nil (List.append_eq_nil_iff.mp he).2

theorem eq_start (h : s.Enters fs parent q) (hl : fs.list (s.root / parent) = .ok ns)
    (hn : ∀ n ∈ ns, fs.isDirectory (s.root / parent / n.toPath) = true →
      (parent / n.shown).isTestTree = true) : q = parent := by
  induction h with
  | start => rfl
  | descend _ _ hl' hm hd ht ih =>
    subst ih
    cases hl.symm.trans hl'
    cases (hn _ hm hd).symm.trans ht

theorem isAbsolute_eq (h : s.Enters fs parent q) : q.isAbsolute = parent.isAbsolute := by
  rcases h.eq_or_exists_div with rfl | ⟨r, hr, -, rfl⟩
  · rfl
  · exact Path.isAbsolute_div parent hr

end Enters

/-- Whatever is staged is a matching name in a directory that is entered, and goes below `basedir`
through the same directories. -/
theorem walk_staged_descend (h : e ∈ (s.walk fs stage depth parent basedir).events) :
    (∃ p, e = .skipped p) ∨ ∃ (ds : List Name) (n : Name),
      s.Enters fs parent (parent.descend ds) ∧ Fnmatch.isMatch s.pattern n.display = true ∧
      e = stage (s.root / parent.descend ds / n.toPath) (basedir.descend ds) := by
  induction depth generalizing parent basedir with
  | zero =>
    rw [walk] at h
    split at h
    · exact .inl ⟨parent, List.mem_singleton.mp h⟩
    · cases h
  | succ depth ih =>
    rw [walk] at h
    split at h
    · exact .inl ⟨parent, List.mem_singleton.mp h⟩
    next ht =>
    rw [Bool.not_eq_true] at ht
    split at h
    · cases h
    next ns hl =>
    obtain ⟨n, hn, h⟩ := mem_visit h
    rcases mem_visitName h with ⟨-, hm, he⟩ | ⟨hr, hdir, h⟩
    · exact .inr ⟨[], n, .start ht, hm, he⟩
    · rcases ih h with ⟨p, hp⟩ | ⟨ds, m, hq, hm, he⟩
      · exact .inl ⟨p, hp⟩
      · exact .inr ⟨n :: ds, m, hq.of_below ht hr hl hn hdir, hm, he⟩

theorem walk_staged (h : e ∈ (s.walk fs stage depth parent basedir).events) :
    (∃ p, e = .skipped p) ∨ ∃ (q b : Path) (n : Name), s.Enters fs parent q ∧
      Fnmatch.isMatch s.pattern n.display = true ∧ e = stage (s.root / q / n.toPath) b := by
  rcases walk_staged_descend h with hp | ⟨ds, n, hq, hm, he⟩
  · exact .inl hp
  · exact .inr ⟨_, _, n, hq, hm, he⟩

end Search

end StagedInstall
