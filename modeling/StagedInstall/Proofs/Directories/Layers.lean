import StagedInstall.Proofs.Directories.Resolution

/-! # Layers of settings

In layers that are put on top of each other, the last one that sets a directory decides about it
(`Settings.setting_ofLayers`), and how the layers are grouped does not matter
(`Settings.ofLayers_flatten`). What the directories are resolved to follows from the layers of the
user's default, the manifest and the command line in that way (`Settings.layered_precedence`).
-/

namespace StagedInstall

namespace Settings

open InstallDirectories (defaultPrefix resolve)

variable {a b : Settings} {layers : List Settings} {f : DirectoryField} {text : String}

theorem ext (h : ∀ f : DirectoryField, f.setting a = f.setting b) : a = b := by
  have hprefix := h .prefixDir
  have hexec := h .execPrefixDir
  have hbin := h (.category .program)
  have hlib := h (.category .library)
  have hinclude := h (.category .header)
  have hshare := h (.category .share)
  cases a
  cases b
  simp only [DirectoryField.setting, Category.setting] at *
  subst_vars
  rfl

theorem setting_unset (f : DirectoryField) : f.setting unset = none := by
  cases f with
  | prefixDir | execPrefixDir => rfl
  | category c => cases c <;> rfl

theorem setting_overriddenBy (f : DirectoryField) (lower upper : Settings) :
    f.setting (lower.overriddenBy upper) = (f.setting upper).or (f.setting lower) := by
  cases f with
  | prefixDir | execPrefixDir => exact Option.orElse_eq_or ..
  | category c => cases c <;> exact Option.orElse_eq_or ..

theorem overriddenBy_assoc (a b c : Settings) :
    (a.overriddenBy b).overriddenBy c = a.overriddenBy (b.overriddenBy c) := by
  apply ext
  intro f
  simp only [setting_overriddenBy, Option.or_assoc]

instance : Std.Associative overriddenBy := ⟨overriddenBy_assoc⟩

theorem unset_overriddenBy (a : Settings) : unset.overriddenBy a = a := by
  apply ext
  intro f
  rw [setting_overriddenBy, setting_unset, Option.or_none]

theorem overriddenBy_unset (a : Settings) : a.overriddenBy unset = a := by
  apply ext
  intro f
  rw [setting_overriddenBy, setting_unset, Option.none_or]

theorem ofLayers_cons (l : Settings) (layers : List Settings) :
    ofLayers (l :: layers) = l.overriddenBy (ofLayers layers) := by
  calc ofLayers (l :: layers)
      = layers.foldl overriddenBy l := by rw [ofLayers, List.foldl_cons, unset_overriddenBy]
    _ = layers.foldl overriddenBy (l.overriddenBy unset) := by rw [overriddenBy_unset]
    _ = l.overriddenBy (ofLayers layers) := List.foldl_assoc

theorem ofLayers_append (lower upper : List Settings) :
    ofLayers (lower ++ upper) = (ofLayers lower).overriddenBy (ofLayers upper) := by
  induction lower with
  | nil => exact (unset_overriddenBy _).symm
  | cons l lower ih =>
    rw [List.cons_append, ofLayers_cons, ofLayers_cons, ih, overriddenBy_assoc]

theorem ofLayers_flatten (groups : List (List Settings)) :
    ofLayers (groups.map ofLayers) = ofLayers groups.flatten := by
  induction groups with
  | nil => rfl
  | cons layers groups ih =>
    rw [List.map_cons, ofLayers_cons, ih, List.flatten_cons, ofLayers_append]

theorem setting_ofLayers (f : DirectoryField) (layers : List Settings) :
    f.setting (ofLayers layers) = layers.reverse.findSome? f.setting := by
  induction layers with
  | nil => exact setting_unset f
  | cons l layers ih =>
    rw [ofLayers_cons, setting_overriddenBy, ih, List.reverse_cons, List.findSome?_append,
      List.findSome?_singleton]

/-- The text of a directory is that of the last layer which sets it. -/
theorem setting_ofLayers_eq_some_iff : f.setting (ofLayers layers) = some text ↔
    ∃ before l after, layers = before ++ l :: after ∧ f.setting l = some text ∧
      ∀ u ∈ after, f.setting u = none := by
  rw [setting_ofLayers, List.findSome?_eq_some_iff]
  constructor
  · rintro ⟨after, l, before, hl, ht, hafter⟩
    refine ⟨before.reverse, l, after.reverse, ?_, ht, by simpa using hafter⟩
    simpa using congrArg List.reverse hl
  · rintro ⟨before, l, after, rfl, ht, hafter⟩
    exact ⟨after.reverse, l, before.reverse, by simp, ht, by simpa using hafter⟩

theorem setting_layered (f : DirectoryField) (default : Option String)
    (manifest commandLine : Settings) : f.setting (layered default manifest commandLine) =
      (f.setting commandLine).or ((f.setting manifest).or (f.setting { prefixDir := default })) := by
  rw [layered, ofLayers_cons, ofLayers_cons, ofLayers_cons]
  simp only [setting_overriddenBy, Option.or_assoc]
  rw [ofLayers, List.foldl_nil, setting_unset, Option.none_or]

/-- Each directory has the text of the last layer that sets it, be it the empty one, and layers can
be grouped at will. The directory of a category is named by the command line or else by the
manifest; if that leaves it unset or empty, it is the one below the prefix, for which the user's
default and `/usr/local` are asked last. The setting of one directory, the executable prefix,
changes no other. -/
theorem layered_precedence :
    (∀ (layers : List Settings) (f : DirectoryField) (text : String),
      f.setting (ofLayers layers) = some text ↔ ∃ before l after,
        layers = before ++ l :: after ∧ f.setting l = some text ∧
          ∀ u ∈ after, f.setting u = none) ∧
    (∀ a b c : Settings,
      (a.overriddenBy b).overriddenBy c = a.overriddenBy (b.overriddenBy c)) ∧
    (∀ a : Settings, unset.overriddenBy a = a ∧ a.overriddenBy unset = a) ∧
    (∀ groups : List (List Settings), ofLayers (groups.map ofLayers) = ofLayers groups.flatten) ∧
    ∀ (base : Path) (default : Option String) (manifest commandLine : Settings)
      (d : InstallDirectories), resolve (layered default manifest commandLine) base = .ok d →
        let root := base / .ofString
          ((commandLine.prefixDir.or (manifest.prefixDir.or default)).getD defaultPrefix)
        d.prefixDir = root ∧
        (∀ c : Category, d.dir c =
          (((c.setting commandLine).or (c.setting manifest)).filter (· ≠ "")).elim
            (root / .ofString c.directoryName) fun text => base / .ofString text) ∧
        ∀ (manifest' commandLine' : Settings) (d' : InstallDirectories),
          resolve (layered default manifest' commandLine') base = .ok d' →
          (∀ f : DirectoryField, f ≠ .execPrefixDir →
            f.setting manifest' = f.setting manifest ∧
              f.setting commandLine' = f.setting commandLine) →
          ∀ f : DirectoryField, f ≠ .execPrefixDir → f.path d' = f.path d := by
  refine ⟨fun layers f text => setting_ofLayers_eq_some_iff, overriddenBy_assoc,
    fun a => ⟨unset_overriddenBy a, overriddenBy_unset a⟩, ofLayers_flatten, ?_⟩
  intro base default manifest commandLine d h root
  obtain ⟨-, hpath⟩ := InstallDirectories.resolve_eq_ok_iff.mp h
  have hprefix : (layered default manifest commandLine).prefixDir =
      commandLine.prefixDir.or (manifest.prefixDir.or default) :=
    setting_layered .prefixDir default manifest commandLine
  have hroot : d.prefixDir = root := (hpath .prefixDir).trans (by
    rw [DirectoryField.resolved, DirectoryField.text?, hprefix])
  refine ⟨hroot, ?_, ?_⟩
  · intro c
    have hsetting : c.setting (layered default manifest commandLine) =
        (c.setting commandLine).or (c.setting manifest) := by
      have hdefault : c.setting { prefixDir := default } = none := by cases c <;> rfl
      have hs := setting_layered (.category c) default manifest commandLine
      simp only [DirectoryField.setting, hdefault, Option.or_none] at hs
      exact hs
    rw [← hsetting, ← hroot]
    exact InstallDirectories.dir_of_resolve h c
  · intro manifest' commandLine' d' h' hs f hf
    have hsetting {f : DirectoryField} (hf : f ≠ .execPrefixDir) :
        f.setting (layered default manifest' commandLine') =
          f.setting (layered default manifest commandLine) := by
      obtain ⟨hm, hc⟩ := hs f hf
      rw [setting_layered, setting_layered, hm, hc]
    rw [hpath, (InstallDirectories.resolve_eq_ok_iff.mp h').2]
    exact DirectoryField.resolved_congr (hsetting (f := .prefixDir) (by decide)) (hsetting hf)

namespace Sample

def manifest : Settings :=
  { prefixDir := "/m", execPrefixDir := "/e", binDir := "b", libDir := "/l" }

def commandLine : Settings := { libDir := "" }

def resolved : InstallDirectories where
  prefixDir := .ofString "/m"
  execPrefixDir := .ofString "/e"
  binDir := .ofString "/b"
  libDir := .ofString "/m/lib"
  includeDir := .ofString "/m/include"
  shareDir := .ofString "/m/share"

theorem resolve_layered :
    resolve (layered (some "/g") manifest commandLine) .root = .ok resolved := rfl

theorem resolve_without_execPrefix :
    resolve (layered (some "/g") { manifest with execPrefixDir := none } commandLine) .root =
      .ok { resolved with execPrefixDir := .ofString "/m" } := rfl

end Sample

theorem layered_precedence_sample :
    resolve (layered (some "/g") Sample.manifest Sample.commandLine) .root = .ok Sample.resolved ∧
      Sample.resolved.dir .library = .ofString "/m/lib" ∧
      ∀ f : DirectoryField, f ≠ .execPrefixDir →
        f.path { Sample.resolved with execPrefixDir := .ofString "/m" } =
          f.path Sample.resolved := by
  obtain ⟨-, -, -, -, h⟩ := layered_precedence
  obtain ⟨-, hdir, hexec⟩ := h .root (some "/g") _ _ _ Sample.resolve_layered
  refine ⟨Sample.resolve_layered, hdir .library, ?_⟩
  refine hexec _ _ _ Sample.resolve_without_execPrefix fun f hf => ⟨?_, rfl⟩
  cases f with
  | prefixDir => rfl
  | execPrefixDir => exact absurd rfl hf
  | category c => cases c <;> rfl

end Settings

end StagedInstall
