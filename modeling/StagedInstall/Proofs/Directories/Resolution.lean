import StagedInstall.Directories
import StagedInstall.Proofs.Path.Join

/-! # Resolving the directories one by one

Six directories can be set, and they are resolved in a fixed order. What becomes of each of them,
and what is wrong with its setting, depends on that setting, the prefix and the base alone. So
resolving gives what becomes of each (`InstallDirectories.resolve_eq_ok_iff`), unless something is
wrong with one of them: then the first of these is reported
(`InstallDirectories.resolve_eq_error_iff`).
-/

namespace StagedInstall

/-- A directory that can be set. -/
inductive DirectoryField
  | prefixDir
  | execPrefixDir
  | category (c : Category)
  deriving DecidableEq, Repr

namespace DirectoryField

open InstallDirectories (defaultPrefix anchored anchoredOr)

def all : List DirectoryField := prefixDir :: execPrefixDir :: Category.all.map category

theorem mem_all (f : DirectoryField) : f ∈ all := by
  cases f with
  | prefixDir | execPrefixDir => decide
  | category c => cases c <;> decide

def setting (s : Settings) : DirectoryField → Option String
  | prefixDir => s.prefixDir
  | execPrefixDir => s.execPrefixDir
  | category c => c.setting s

def path (d : InstallDirectories) : DirectoryField → Path
  | prefixDir => d.prefixDir
  | execPrefixDir => d.execPrefixDir
  | category c => d.dir c

/-- The text that names the directory. There always is one for the prefix; any other directory
that is set to the empty text is not named by it. -/
def text? (s : Settings) : DirectoryField → Option String
  | prefixDir => some (s.prefixDir.getD defaultPrefix)
  | execPrefixDir => s.execPrefixDir.filter (· ≠ "")
  | category c => (c.setting s).filter (· ≠ "")

def derived (root : Path) : DirectoryField → Path
  | prefixDir | execPrefixDir => root
  | category c => root / .ofString c.directoryName

section Alone

variable (s : Settings) (base : Path) (f : DirectoryField)

def resolved : Path :=
  match f.text? s with
  | some text => base / .ofString text
  | none => f.derived (base / .ofString (s.prefixDir.getD defaultPrefix))

/-- What is wrong with the text that names the directory: a prefix must not be blank, and a
relative text needs an absolute base. -/
def fault? : Option ConfigurationFault :=
  (f.text? s).bind fun text =>
    if f = prefixDir ∧ isBlankText text = true then some .blankPrefix
    else if (Path.ofString text).isAbsolute = true ∨ base.isAbsolute = true then none
    else some (.noAbsoluteDirectory text)

def outcome : Except ConfigurationFault Path :=
  match f.fault? s base with
  | some fault => .error fault
  | none => .ok (f.resolved s base)

end Alone

variable {s s' : Settings} {base : Path} {f : DirectoryField}

theorem fault?_eq_none_iff : f.fault? s base = none ↔ ∀ text, f.text? s = some text →
    (f = prefixDir → isBlankText text = false) ∧
      ((Path.ofString text).isAbsolute = true ∨ base.isAbsolute = true) := by
  unfold fault?
  cases f.text? s with
  | none => simp
  | some text =>
    rw [Option.bind_some]
    by_cases hb : f = prefixDir ∧ isBlankText text = true
    · simp [hb]
    · rw [if_neg hb]
      rw [not_and, Bool.not_eq_true] at hb
      by_cases ha : (Path.ofString text).isAbsolute = true ∨ base.isAbsolute = true
      · simpa [ha] using hb
      · simp [ha]

theorem isAbsolute_resolved (h : ∀ f, fault? s base f = none) (f : DirectoryField) :
    (f.resolved s base).isAbsolute = true := by
  have named {f : DirectoryField} {text : String} (ht : f.text? s = some text) :
      (base / .ofString text).isAbsolute = true := by
    rw [Path.isAbsolute_div_eq, Bool.or_eq_true, or_comm]
    exact (fault?_eq_none_iff.mp (h f) text ht).2
  have hroot := named (f := prefixDir) rfl
  unfold resolved
  cases ht : f.text? s with
  | some text => exact named ht
  | none =>
    cases f with
    | prefixDir | execPrefixDir => exact hroot
    | category c => exact (Path.isAbsolute_div_eq ..).trans (by rw [hroot, Bool.true_or])

theorem resolved_congr (hroot : s'.prefixDir = s.prefixDir) (h : f.setting s' = f.setting s) :
    f.resolved s' base = f.resolved s base := by
  have htext : f.text? s' = f.text? s := by
    cases f with
    | prefixDir => exact congrArg (fun t => some (t.getD defaultPrefix)) hroot
    | execPrefixDir | category => exact congrArg (Option.filter _) h
  rw [resolved, resolved, htext, hroot]

theorem anchored_eq (base : Path) (text : String) : anchored base text =
    if (Path.ofString text).isAbsolute = true ∨ base.isAbsolute = true then
      .ok (base / .ofString text)
    else .error (.noAbsoluteDirectory text) := by
  unfold anchored
  simp only [Path.isAbsolute_div_eq, Bool.or_eq_true, or_comm]

theorem outcome_prefixDir : outcome s base prefixDir =
    if isBlankText (s.prefixDir.getD defaultPrefix) = true then .error .blankPrefix
    else anchored base (s.prefixDir.getD defaultPrefix) := by
  unfold outcome fault? resolved
  rw [anchored_eq]
  simp only [text?, Option.bind_some, true_and]
  by_cases hb : isBlankText (s.prefixDir.getD defaultPrefix) = true
  · rw [if_pos hb, if_pos hb]
  · rw [if_neg hb, if_neg hb]
    by_cases ha : (Path.ofString (s.prefixDir.getD defaultPrefix)).isAbsolute = true ∨
        base.isAbsolute = true
    · rw [if_pos ha, if_pos ha]
    · rw [if_neg ha, if_neg ha]

theorem outcome_eq_anchoredOr (s : Settings) (base : Path) (hf : f ≠ prefixDir) :
    f.outcome s base =
      anchoredOr base (f.derived (base / .ofString (s.prefixDir.getD defaultPrefix)))
        (f.setting s) := by
  have htext : f.text? s = (f.setting s).filter (· ≠ "") := by
    cases f with
    | prefixDir => exact absurd rfl hf
    | execPrefixDir | category => rfl
  unfold outcome fault? resolved
  rw [htext]
  cases f.setting s with
  | none => rfl
  | some text =>
    rw [anchoredOr, anchored_eq]
    by_cases ht : text = ""
    · rw [if_pos ht, ht]
      rfl
    · rw [if_neg ht, Option.filter_some, if_pos (by simpa using ht), Option.bind_some,
        if_neg fun h => hf h.1]
      by_cases ha : (Path.ofString text).isAbsolute = true ∨ base.isAbsolute = true
      · rw [if_pos ha, if_pos ha]
      · rw [if_neg ha, if_neg ha]

end DirectoryField

namespace InstallDirectories

open DirectoryField (outcome fault? resolved)

variable {s s' : Settings} {base : Path} {d d' : InstallDirectories}
  {fault : ConfigurationFault}

def ofFields (path : DirectoryField → Path) : InstallDirectories :=
  ⟨path .prefixDir, path .execPrefixDir, path (.category .program), path (.category .library),
    path (.category .header), path (.category .share)⟩

theorem path_ofFields (path : DirectoryField → Path) (f : DirectoryField) :
    f.path (ofFields path) = path f := by
  cases f with
  | prefixDir | execPrefixDir => rfl
  | category c => cases c <;> rfl

/-- The directories are resolved each for itself, one after the other. -/
theorem resolve_eq_outcomes (s : Settings) (base : Path) : resolve s base = do
    let root ← outcome s base .prefixDir
    let execRoot ← outcome s base .execPrefixDir
    let binDir ← outcome s base (.category .program)
    let libDir ← outcome s base (.category .library)
    let includeDir ← outcome s base (.category .header)
    let shareDir ← outcome s base (.category .share)
    return ⟨root, execRoot, binDir, libDir, includeDir, shareDir⟩ := by
  have hexec := DirectoryField.outcome_eq_anchoredOr (f := .execPrefixDir) s base nofun
  have hcategory (c : Category) :=
    DirectoryField.outcome_eq_anchoredOr (f := .category c) s base nofun
  rw [DirectoryField.outcome_prefixDir, hexec]
  simp only [hcategory]
  unfold resolve
  by_cases hb : isBlankText (s.prefixDir.getD defaultPrefix) = true
  · simp only [if_pos hb]
    rfl
  · simp only [if_neg hb, DirectoryField.anchored_eq base (s.prefixDir.getD defaultPrefix)]
    split
    · rfl
    · rfl

theorem resolve_eq (s : Settings) (base : Path) : resolve s base =
    match DirectoryField.all.findSome? (fault? s base) with
    | some fault => .error fault
    | none => .ok (ofFields (resolved s base)) := by
  rw [resolve_eq_outcomes]
  simp only [DirectoryField.all, Category.all, List.map_cons, List.map_nil, List.findSome?_cons,
    List.findSome?_nil, outcome]
  cases fault? s base .prefixDir <;> cases fault? s base .execPrefixDir <;>
    cases fault? s base (.category .program) <;> cases fault? s base (.category .library) <;>
    cases fault? s base (.category .header) <;> cases fault? s base (.category .share) <;> rfl

theorem resolve_eq_ok_iff : resolve s base = .ok d ↔
    (∀ f, fault? s base f = none) ∧ ∀ f : DirectoryField, f.path d = f.resolved s base := by
  have hnone : DirectoryField.all.findSome? (fault? s base) = none ↔
      ∀ f, fault? s base f = none := by
    rw [List.findSome?_eq_none_iff]
    exact ⟨fun h f => h f f.mem_all, fun h f _ => h f⟩
  rw [resolve_eq]
  constructor
  · intro h
    split at h
    · cases h
    next hn =>
    cases h
    exact ⟨hnone.mp hn, path_ofFields _⟩
  · rintro ⟨hf, hd⟩
    have heq : d = ofFields fun f => f.path d := by
      cases d
      rfl
    rw [hnone.mpr hf, heq]
    exact congrArg (Except.ok ∘ ofFields) (funext hd).symm

theorem resolve_eq_error_iff : resolve s base = .error fault ↔
    ∃ before f after, DirectoryField.all = before ++ f :: after ∧
      fault? s base f = some fault ∧ ∀ g ∈ before, fault? s base g = none := by
  rw [← List.findSome?_eq_some_iff, resolve_eq]
  cases DirectoryField.all.findSome? (fault? s base) <;> simp

theorem isAbsolute_path (h : resolve s base = .ok d) (f : DirectoryField) :
    (f.path d).isAbsolute = true := by
  obtain ⟨hfault, hpath⟩ := resolve_eq_ok_iff.mp h
  rw [hpath]
  exact DirectoryField.isAbsolute_resolved hfault f

theorem isAbsolute_dir (h : resolve s base = .ok d) (c : Category) :
    (d.dir c).isAbsolute = true :=
  isAbsolute_path h (.category c)

theorem dir_of_resolve (h : resolve s base = .ok d) (c : Category) :
    d.dir c = ((c.setting s).filter (· ≠ "")).elim (d.prefixDir / .ofString c.directoryName)
      fun text => base / .ofString text := by
  obtain ⟨-, hpath⟩ := resolve_eq_ok_iff.mp h
  have hroot : d.prefixDir = base / .ofString (s.prefixDir.getD defaultPrefix) := hpath .prefixDir
  have hdir : d.dir c = resolved s base (.category c) := hpath (.category c)
  rw [hdir, hroot, resolved, DirectoryField.text?]
  cases (c.setting s).filter (· ≠ "") with
  | none | some => rfl

/-- The directories are resolved exactly when the prefix is not blank and each text that names one
of them is absolute, or the base is. All of them are absolute then: an absolute text is taken as it
is, a relative one below the base, and where no text names a directory it follows from the prefix.
A directory other than the prefix does not change the others. Otherwise the fault is that of the
first text that is not accepted. -/
theorem resolve_fieldwise (s : Settings) (base : Path) :
    ((∃ d, resolve s base = .ok d) ↔
      isBlankText (s.prefixDir.getD defaultPrefix) = false ∧
      ∀ f text, DirectoryField.text? s f = some text →
        (Path.ofString text).isAbsolute = true ∨ base.isAbsolute = true) ∧
    (∀ d, resolve s base = .ok d → ∀ f : DirectoryField, (f.path d).isAbsolute = true ∧
      (∀ text, f.text? s = some text → f.path d = base / .ofString text ∧
        ((Path.ofString text).isAbsolute = true → f.path d = .ofString text)) ∧
      (f.text? s = none → f.path d = f.derived d.prefixDir)) ∧
    (∀ d s' d', resolve s base = .ok d → resolve s' base = .ok d' → ∀ f : DirectoryField,
      f ≠ .prefixDir → (∀ g, g ≠ f → g.setting s' = g.setting s) →
        ∀ g, g ≠ f → g.path d' = g.path d) ∧
    ∀ fault, resolve s base = .error fault ↔
      ∃ before f after, DirectoryField.all = before ++ f :: after ∧
        f.fault? s base = some fault ∧ ∀ g ∈ before, g.fault? s base = none := by
  refine ⟨?_, ?_, ?_, fun fault => resolve_eq_error_iff⟩
  · constructor
    · rintro ⟨d, h⟩
      have hfault := fun f => DirectoryField.fault?_eq_none_iff.mp ((resolve_eq_ok_iff.mp h).1 f)
      exact ⟨(hfault .prefixDir _ rfl).1 rfl, fun f text ht => (hfault f text ht).2⟩
    · rintro ⟨hb, ha⟩
      refine ⟨ofFields (resolved s base), resolve_eq_ok_iff.mpr ⟨fun f => ?_, path_ofFields _⟩⟩
      refine DirectoryField.fault?_eq_none_iff.mpr fun text ht => ⟨?_, ha f text ht⟩
      rintro rfl
      cases ht
      exact hb
  · intro d h f
    have hpath := (resolve_eq_ok_iff.mp h).2
    refine ⟨isAbsolute_path h f, ?_, ?_⟩
    · intro text ht
      have hf : f.path d = base / .ofString text := by rw [hpath, resolved, ht]
      exact ⟨hf, fun ha => hf.trans (Path.div_of_isAbsolute base ha)⟩
    · intro ht
      have hroot : d.prefixDir = base / .ofString (s.prefixDir.getD defaultPrefix) :=
        hpath .prefixDir
      rw [hpath, resolved, ht, hroot]
  · intro d s' d' h h' f hf hs g hg
    rw [(resolve_eq_ok_iff.mp h).2, (resolve_eq_ok_iff.mp h').2]
    exact DirectoryField.resolved_congr (hs .prefixDir hf.symm) (hs g hg)

end InstallDirectories

namespace InstallDirectories.Sample

def settings : Settings :=
  { prefixDir := "p", binDir := "", libDir := "/l", includeDir := "i" }

def base : Path := .ofString "/b"

def resolved : InstallDirectories where
  prefixDir := .ofString "/b/p"
  execPrefixDir := .ofString "/b/p"
  binDir := .ofString "/b/p/bin"
  libDir := .ofString "/l"
  includeDir := .ofString "/b/i"
  shareDir := .ofString "/b/p/share"

theorem resolve_settings : resolve settings base = .ok resolved := rfl

end InstallDirectories.Sample

open InstallDirectories in
theorem InstallDirectories.resolve_fieldwise_sample :
    resolve Sample.settings Sample.base = .ok Sample.resolved ∧
    (∀ d, resolve { Sample.settings with libDir := "x" } Sample.base = .ok d →
      d.binDir = .ofString "/b/p/bin") ∧
    resolve Sample.settings ∅ = .error (.noAbsoluteDirectory "p") := by
  obtain ⟨-, -, hothers, -⟩ := resolve_fieldwise Sample.settings Sample.base
  obtain ⟨-, -, -, hfault⟩ := resolve_fieldwise Sample.settings ∅
  refine ⟨Sample.resolve_settings, ?_, ?_⟩
  · intro d hd
    refine hothers _ _ d Sample.resolve_settings hd (.category .library) nofun ?_
      (.category .program) nofun
    intro g hg
    cases g with
    | prefixDir | execPrefixDir => rfl
    | category c =>
      cases c with
      | library => exact absurd rfl hg
      | program | header | share => rfl
  · exact (hfault _).mpr ⟨[], .prefixDir, _, rfl, by decide +kernel, nofun⟩

end StagedInstall
