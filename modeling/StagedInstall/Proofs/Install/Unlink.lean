import StagedInstall.Proofs.FileSystem.Unlink
import StagedInstall.Proofs.Graph
import StagedInstall.Proofs.Install.Phase
import StagedInstall.Proofs.Install.Removal

/-! # What a removal takes away

Whether a target exists is asked through links, but what is removed is the entry of its own name.
A run takes these entries away and nothing else (`Removes`), and whatever links there are, a target
that it has dealt with does not come back (`Removes.exists?_eq_false`). So a dry run never counts
too few, and without links it is exact (`Removes.length_le`, `Removes.length_eq`). Together they
say what uninstalling does to any tree (`ActionGraph.uninstall_unlinks`).
-/

namespace StagedInstall

open FileSystem RemovalRun

variable {fs F : FileSystem} {x : Location} {t : Path} {ts : List Path} {xs : List Location}

/-- The targets are dealt with one after the other, which takes the entries at `xs` away: each one
named by a target that existed when its turn came. -/
inductive Removes : List Path → FileSystem → FileSystem → List Location → Prop
  | done {fs : FileSystem} : Removes [] fs fs []
  | missing {fs F : FileSystem} {t : Path} {ts : List Path} {xs : List Location} :
      fs.exists? t = false → Removes ts fs F xs → Removes (t :: ts) fs F xs
  | removed {fs F : FileSystem} {x : Location} {t : Path} {ts : List Path} {xs : List Location} :
      fs.exists? t = true → fs.Unlinkable t x → Removes ts (fs.erase x) F xs →
      Removes (t :: ts) fs F (x :: xs)

namespace Removes

theorem extend (h : Removes ts fs F xs) : F.Extends fs := by
  induction h with
  | done => exact .refl _
  | missing _ _ ih => exact ih
  | removed _ hx _ ih => exact ih.trans (erase_extends hx.not_isDirectory)

theorem exists?_eq_false (h : Removes ts fs F xs) (ht : t ∈ ts) : F.exists? t = false := by
  induction h with
  | done => cases ht
  | missing he h ih =>
    rcases List.mem_cons.mp ht with rfl | ht
    · exact h.extend.exists?_eq_false he
    · exact ih ht
  | removed _ hx h ih =>
    rcases List.mem_cons.mp ht with rfl | ht
    · exact h.extend.exists?_eq_false hx.exists?_erase
    · exact ih ht

theorem exists_unlinkable (h : Removes ts fs F xs) (hx : x ∈ xs) :
    ∃ t ∈ ts, fs.Unlinkable t x := by
  induction h with
  | done => cases hx
  | missing _ _ ih =>
    obtain ⟨t, ht, h⟩ := ih hx
    exact ⟨t, List.mem_cons_of_mem _ ht, h⟩
  | @removed fs F y t ts xs _ hy _ ih =>
    rcases List.mem_cons.mp hx with rfl | hx
    · exact ⟨t, List.mem_cons_self, hy⟩
    · obtain ⟨u, hu, h⟩ := ih hx
      have he := erase_extends hy.not_isDirectory
      obtain ⟨e, hex⟩ := Option.ne_none_iff_exists'.mp h.ne_none
      have hget : fs.get? x = (fs.erase y).get? x := (he.get? hex).trans hex.symm
      exact ⟨u, List.mem_cons_of_mem _ hu, h.names.extend he, hget ▸ h.ne_none,
        fun hd => h.not_isDirectory ((isDirectory_congr hget).mp hd)⟩

theorem get?_eq (h : Removes ts fs F xs) (x : Location) :
    F.get? x = if x ∈ xs then none else fs.get? x := by
  induction h with
  | done => rw [if_neg List.not_mem_nil]
  | missing _ _ ih => exact ih
  | @removed fs F y t ts xs _ hy _ ih =>
    rw [ih, get?_erase _ hy.not_isDirectory]
    by_cases hx : x = y
    · subst hx
      rw [if_pos rfl, if_pos List.mem_cons_self, ite_self]
    · rw [if_neg hx]
      simp only [List.mem_cons, hx, false_or]

theorem nodup (h : Removes ts fs F xs) : xs.Nodup := by
  induction h with
  | done => exact .nil
  | missing _ _ ih => exact ih
  | removed _ hx h ih =>
    refine List.nodup_cons.mpr ⟨?_, ih⟩
    intro hm
    obtain ⟨u, -, hu⟩ := h.exists_unlinkable hm
    exact hu.ne_none (by rw [get?_erase _ hx.not_isDirectory, if_pos rfl])

end Removes

/-- Nothing differs but that the entries at `xs` are gone, none of which was a directory. -/
structure LacksOnly (fs F : FileSystem) (xs : List Location) : Prop where
  cwd : F.cwd = fs.cwd
  user : F.user = fs.user
  nodup : xs.Nodup
  removable : ∀ x ∈ xs, fs.get? x ≠ none ∧ ¬ fs.IsDirectory x
  get? : ∀ x, F.get? x = if x ∈ xs then none else fs.get? x

theorem Removes.lacksOnly (h : Removes ts fs F xs) : LacksOnly fs F xs := by
  refine ⟨h.extend.cwd.symm, h.extend.user.symm, h.nodup, ?_, h.get?_eq⟩
  intro x hx
  obtain ⟨t, -, ht⟩ := h.exists_unlinkable hx
  exact ⟨ht.ne_none, ht.not_isDirectory⟩

/-- A path that still leads somewhere has kept the entry that it is the name of. -/
theorem Removes.get?_eq_of_names (h : Removes ts fs F xs) (ht : F.exists? t = true)
    (hx : fs.Names t x) : F.get? x = fs.get? x := by
  obtain ⟨e, he⟩ := exists?_eq_true_iff.mp ht
  obtain ⟨l, hl, -⟩ := stat_leads he
  obtain ⟨s, d, n, hs, -, -⟩ := id hx
  obtain ⟨y, hy, hne⟩ := hl.exists_names hs
  obtain rfl := (hy.extend h.extend).unique hx
  exact (h.extend.get?_eq hne).symm

namespace RemovalRun

/-- How a run can end: all targets are dealt with, or one of them exists and is not removed. -/
inductive Ends (ts : List Path) (fs : FileSystem) (r : RemovalRun) : Prop
  | done {xs : List Location} : r.failure = none → Removes ts fs r.fs xs →
      r.count = xs.length → Ends ts fs r
  | failed {xs : List Location} {pre post : List Path} {t : Path} {cause : Cause} :
      r.failure = some (.file .remove t cause) → ts = pre ++ t :: post → Removes pre fs r.fs xs →
      r.targets.map Prod.fst = pre → r.fs.exists? t = true → Ends ts fs r

theorem ofTargets_ends (fs : FileSystem) (ts : List Path) :
    Ends ts fs (ofTargets false fs ts) := by
  induction ts generalizing fs with
  | nil => exact .done rfl .done rfl
  | cons t ts ih =>
    cases he : fs.exists? t with
    | false =>
      rw [ofTargets_cons_missing he]
      cases ih fs with
      | done hf h hn => exact .done hf (.missing he h) (by simpa [count] using hn)
      | failed hf hts h hos hu =>
        subst hts
        exact .failed hf rfl (.missing he h) (by simp [hos]) hu
    | true =>
      cases hr : fs.removeFile t with
      | error cause =>
        rw [ofTargets_cons_error he hr]
        exact .failed rfl rfl .done rfl he
      | ok fs' =>
        obtain ⟨x, hx, rfl⟩ := unlinkable_of_removeFile hr
        rw [ofTargets_cons_removed he hr]
        cases ih (fs.erase x) with
        | done hf h hn => exact .done hf (.removed he hx h) (by simpa [count] using hn)
        | failed hf hts h hos hu =>
          subst hts
          exact .failed hf rfl (.removed he hx h) (by simp [hos]) hu

theorem ofTargets_dry (fs : FileSystem) (ts : List Path) :
    (ofTargets true fs ts).fs = fs ∧ (ofTargets true fs ts).failure = none ∧
      (ofTargets true fs ts).count = ts.countP fs.exists? := by
  induction ts with
  | nil => exact ⟨rfl, rfl, rfl⟩
  | cons t ts ih =>
    obtain ⟨hfs, hf, hn⟩ := ih
    unfold count at hn ⊢
    cases he : fs.exists? t with
    | false =>
      rw [ofTargets_cons_missing he]
      refine ⟨hfs, hf, ?_⟩
      rw [List.countP_cons_of_neg (by simp), hn, List.countP_cons_of_neg (by simp [he])]
    | true =>
      rw [ofTargets, he]
      refine ⟨hfs, hf, ?_⟩
      rw [List.countP_cons_of_pos (by simp [he]), ← hn]
      simp

end RemovalRun

theorem Removes.length_le (h : Removes ts fs F xs) : xs.length ≤ ts.countP fs.exists? := by
  induction h with
  | done => exact le_rfl
  | missing he _ ih => rwa [List.countP_cons_of_neg (by simp [he])]
  | removed he hx _ ih =>
    rw [List.countP_cons_of_pos he]
    have he := erase_extends hx.not_isDirectory
    exact Nat.succ_le_succ (ih.trans (List.countP_mono_left fun _ _ => he.exists?))

/-- Without links, all targets that exist at the start are removed, unless two of them spell out
one place. -/
theorem Removes.length_eq (h : Removes ts fs F xs) (hl : fs.LinkFree)
    (hd : ts.Pairwise fun t u =>
      ∀ l, t.location? fs.cwd = some l → u.location? fs.cwd ≠ some l) :
    xs.length = ts.countP fs.exists? := by
  induction h with
  | done => rfl
  | missing he _ ih =>
    rw [List.countP_cons_of_neg (by simp [he])]
    exact ih hl (List.pairwise_cons.mp hd).2
  | @removed fs F x t ts xs he hx _ ih =>
    obtain ⟨hdt, hdts⟩ := List.pairwise_cons.mp hd
    have hsame : ts.countP (fs.erase x).exists? = ts.countP fs.exists? := by
      refine List.countP_congr fun u hu => ?_
      rw [hl.exists?_erase hx.not_isDirectory (hdt u hu x (hx.names.location? hl))]
    rw [List.countP_cons_of_pos he, List.length_cons,
      ih (hl.erase hx.not_isDirectory) (fs.erase_cwd x ▸ hdts), hsame]

namespace ActionGraph

variable (g : ActionGraph)

theorem targets_apart (cwd : Location)
    (h : ∀ t ∈ g.targets, t.isAbsolute = true ∧ .parent ∉ t.components) :
    g.targets.Pairwise fun t u => ∀ l, t.location? cwd = some l → u.location? cwd ≠ some l := by
  have hn : g.targets.Pairwise fun t u => t.components ≠ u.components :=
    List.pairwise_map.mp nodup_uniqueBy
  refine hn.imp_of_mem ?_
  intro t u ht hu hne l htl hul
  obtain ⟨hta, htp⟩ := h t ht
  obtain ⟨hua, hup⟩ := h u hu
  exact hne (Path.same_of_location? hta htp hua hup htl hul)

theorem uninstall_of_gone {F : FileSystem} (h : ∀ t ∈ g.targets, F.exists? t = false) :
    (g.uninstall F false).result = .ok 0 ∧ (g.uninstall F false).fs = F := by
  have hrun : ofTargets false F g.targets = ⟨g.targets.map fun t => (t, .missing), F, none⟩ :=
    ofTargets_of_missing h
  refine ⟨?_, ?_⟩
  · change (ofTargets false F g.targets).result = .ok 0
    rw [hrun, result_eq_ok_iff]
    simp [count]
  · change (ofTargets false F g.targets).fs = F
    rw [hrun]

/-- What uninstalling has done when it gives the number `n`: that many entries are gone, each of
them named by a target that existed when it was reached, and a second time there is nothing to
do. -/
structure Removed (g : ActionGraph) (fs F : FileSystem) (n : Nat) : Prop where
  taken : ∃ xs, Removes g.targets fs F xs ∧ LacksOnly fs F xs ∧ xs.length = n
  gone : ∀ t ∈ g.targets, F.exists? t = false
  again : (g.uninstall F false).result = .ok 0 ∧ (g.uninstall F false).fs = F

/-- What uninstalling has done when it stops at the target `t`: it has dealt with those before it
and no others, and `t` is as it was. -/
structure StoppedAt (g : ActionGraph) (fs F : FileSystem) (t : Path) : Prop where
  taken : ∃ pre post xs, g.targets = pre ++ t :: post ∧
    (ofTargets false fs g.targets).targets.map Prod.fst = pre ∧ Removes pre fs F xs ∧
    LacksOnly fs F xs ∧ ∀ u ∈ pre, F.exists? u = false
  found : F.exists? t = true
  stat : F.stat t = fs.stat t
  entry : ∀ x, fs.Names t x → F.get? x = fs.get? x

theorem removed_of_ok {n : Nat} (h : (g.uninstall fs false).result = .ok n) :
    g.Removed fs (g.uninstall fs false).fs n := by
  obtain ⟨hf, hn⟩ := result_eq_ok_iff.mp h
  cases ofTargets_ends fs g.targets with
  | done _ hr hc =>
    have hgone : ∀ t ∈ g.targets, (g.uninstall fs false).fs.exists? t = false :=
      fun t ht => hr.exists?_eq_false ht
    exact ⟨⟨_, hr, hr.lacksOnly, hc.symm.trans hn⟩, hgone, g.uninstall_of_gone hgone⟩
  | failed hf' => cases hf.symm.trans hf'

theorem stoppedAt_of_error {e : InstallError} (h : (g.uninstall fs false).result = .error e) :
    ∃ t cause, e = .file .remove t cause ∧ g.StoppedAt fs (g.uninstall fs false).fs t := by
  change (ofTargets false fs g.targets).result = .error e at h
  cases ofTargets_ends fs g.targets with
  | done hf => rw [result, hf] at h; cases h
  | @failed xs pre post t cause hf hts hr hos he =>
    rw [result, hf] at h
    cases h
    obtain ⟨entry, hs⟩ := exists?_eq_true_iff.mp he
    exact ⟨t, cause, rfl,
      ⟨pre, post, xs, hts, hos, hr, hr.lacksOnly, fun u hu => hr.exists?_eq_false hu⟩, he,
      hs.trans (hr.extend.stat_eq hs).symm, fun x hx => hr.get?_eq_of_names he hx⟩

/-- Uninstalling removes the entries that the targets are names of, as far as they exist when their
turn comes, and nothing else; on an error it stops there. A dry run changes nothing and never
fails. It counts the targets that exist now, so it does not promise too little, and exactly what is
removed if no links can make one of them depend on another. -/
theorem uninstall_unlinks (g : ActionGraph) (fs : FileSystem) :
    (∀ n, (g.uninstall fs false).result = .ok n → g.Removed fs (g.uninstall fs false).fs n) ∧
    (∀ e, (g.uninstall fs false).result = .error e → ∃ t cause, e = .file .remove t cause ∧
      g.StoppedAt fs (g.uninstall fs false).fs t) ∧
    (g.uninstall fs true).fs = fs ∧ ∃ m, (g.uninstall fs true).result = .ok m ∧
      ∀ n, (g.uninstall fs false).result = .ok n → n ≤ m ∧
        (fs.LinkFree → (∀ t ∈ g.targets, t.isAbsolute = true ∧ .parent ∉ t.components) →
          n = m) := by
  obtain ⟨hfs, hf, hm⟩ := ofTargets_dry fs g.targets
  refine ⟨fun n => g.removed_of_ok, fun e => g.stoppedAt_of_error, hfs, _,
    result_eq_ok_iff.mpr ⟨hf, hm⟩, ?_⟩
  intro n h
  obtain ⟨xs, hr, -, rfl⟩ := (g.removed_of_ok h).taken
  exact ⟨hr.length_le, fun hl ht => hr.length_eq hl (g.targets_apart fs.cwd ht)⟩

namespace Sample

def linkName : Name := (Name.ofBytes? [0x6C]).get rfl

def linked : FileSystem :=
  (FileSystem.empty.put [fileName] (.file .newFile [1])).put [linkName] (.link (.ofString "a"))

def through : ActionGraph :=
  ⟨[.copy ⟨.ofString "x", .ofString "/a"⟩, .copy ⟨.ofString "x", .ofString "/l"⟩], []⟩

def rooted : ActionGraph := ⟨[.copy ⟨.ofString "..", .ofString "/"⟩], []⟩

end Sample

open Sample in
/-- The link stays behind when the file goes first, although a dry run counts both of them. -/
theorem uninstall_unlinks_sample :
    (through.uninstall linked false).result = .ok 1 ∧
      (through.uninstall linked true).result = .ok 2 ∧
      through.Removed linked (through.uninstall linked false).fs 1 ∧
      ∃ t, rooted.StoppedAt linked (rooted.uninstall linked false).fs t := by
  have h : (through.uninstall linked false).result = .ok 1 := by decide +kernel
  have he : (rooted.uninstall linked false).result =
      .error (.file .remove (.ofString "/") .isDirectory) := by decide +kernel
  obtain ⟨t, -, -, hstop⟩ := (uninstall_unlinks rooted linked).2.1 _ he
  exact ⟨h, by decide +kernel, (uninstall_unlinks through linked).1 1 h, t, hstop⟩

end ActionGraph

end StagedInstall
