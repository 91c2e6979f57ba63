import StagedInstall.Proofs.Graph
import StagedInstall.Proofs.Staging.Containment

/-! # What staging keeps

An installer that starts with an empty graph keeps what it has been made with, whatever is staged
into it: absolute directories, and one alias with those of the categories. Staging only adds to its
actions. Their targets are absolute, and each permission change stands right behind the copy of its
file (`Installer.Sound`), also when an operation ends with an error (`Installer.sound_after`).
-/

namespace StagedInstall

theorem Path.isAbsolute_div_of_left {a : Path} (b : Path) (h : a.isAbsolute = true) :
    (a / b).isAbsolute = true := by
  rw [isAbsolute_div_eq, h, Bool.true_or]

structure InstallDirectories.Absolute (d : InstallDirectories) : Prop where
  prefixDir : d.prefixDir.isAbsolute = true
  execPrefixDir : d.execPrefixDir.isAbsolute = true
  dir (c : Category) : (d.dir c).isAbsolute = true

theorem InstallDirectories.absolute_of_resolve {s : Settings} {base : Path}
    {d : InstallDirectories} (h : resolve s base = .ok d) : d.Absolute :=
  ⟨isAbsolute_path h .prefixDir, isAbsolute_path h .execPrefixDir, isAbsolute_dir h⟩

namespace Action

def target : Action → Path
  | copy c => c.target
  | chmod d => d.target

/-- Each permission change stands right behind a copy to its target. -/
def Paired (as : List Action) : Prop :=
  ∀ pre d post, as = pre ++ chmod d :: post →
    ∃ rest c, pre = rest ++ [copy c] ∧ c.target = d.target

namespace Paired

variable {as bs : List Action}

theorem nil : Paired [] := by
  intro pre d post h
  cases pre <;> cases h

theorem append (ha : Paired as) (hb : Paired bs) : Paired (as ++ bs) := by
  intro pre d post h
  rcases List.append_eq_append_iff.mp h with ⟨rest, rfl, hrest⟩ | ⟨rest, rfl, hrest⟩
  · obtain ⟨before, c, rfl, hc⟩ := hb rest d post hrest
    exact ⟨as ++ before, c, (List.append_assoc ..).symm, hc⟩
  · cases rest with
    | nil =>
      -- the change would open the second list, where nothing stands in front of it
      obtain ⟨before, c, hbefore, -⟩ := hb [] d post hrest.symm
      cases before <;> cases hbefore
    | cons a rest =>
      obtain ⟨rfl, -⟩ := List.cons.inj hrest
      exact ha pre d rest rfl

end Paired

end Action

theorem StagingEvent.paired_actions (e : StagingEvent) : Action.Paired e.actions := by
  cases e with
  | skipped parent => exact .nil
  | staged category c mode =>
    intro pre d post h
    cases mode with
    | none =>
      cases pre with
      | nil => cases h
      | cons a pre => cases pre <;> cases h
    | some m =>
      obtain _ | ⟨a, _ | ⟨b, pre⟩⟩ := pre
      · cases h
      · cases h
        exact ⟨[], c, rfl, rfl⟩
      · cases pre <;> cases h

theorem Staging.paired_actions (s : Staging) : Action.Paired s.actions := by
  have h (es : List StagingEvent) : Action.Paired (es.flatMap StagingEvent.actions) := by
    induction es with
    | nil => exact .nil
    | cons e es ih => exact e.paired_actions.append ih
  exact h s.events

namespace InstallDirectories

variable {dirs : InstallDirectories} {a : Action} {e : StagingEvent}

theorem Absolute.targetIn (h : dirs.Absolute) (category : Category) (source basedir : Path) :
    (ActionGraph.targetIn (dirs.dir category / basedir) source).isAbsolute = true := by
  have hdir := Path.isAbsolute_div_of_left basedir (h.dir category)
  unfold ActionGraph.targetIn
  split
  · exact Path.isAbsolute_div_of_left _ hdir
  · exact hdir

theorem Stages.isAbsolute_target (he : dirs.Stages e) (h : dirs.Absolute) (ha : a ∈ e.actions) :
    a.target.isAbsolute = true := by
  cases he with
  | skipped => cases ha
  | file category source basedir mode =>
    rcases StagingEvent.mem_actions_stageFile.mp ha with rfl | ⟨m, -, rfl⟩
    · exact h.targetIn category source basedir
    · exact h.targetIn category source basedir

end InstallDirectories

namespace ActionGraph

variable {g : ActionGraph} {name : String} {l : List Path}

/-- A directory that is registered under the only alias comes behind the others, unless it is one
of them. -/
theorem aliases_addAlias (d : Path) (h : g.aliases = [(name, uniqueBy Path.components l)]) :
    (g.addAlias name d).aliases = [(name, uniqueBy Path.components (l ++ [d]))] := by
  have hlookup : g.aliases.lookup name = some (uniqueBy Path.components l) := by
    rw [h, List.lookup_cons_self]
  have hdirs : g.aliasDirs name = uniqueBy Path.components l := by
    rw [aliasDirs, hlookup, Option.getD_some]
  have hany : (g.aliasDirs name).any (fun d' => d'.Same d) = true ↔
      d.components ∈ l.map Path.components := by
    rw [hdirs, List.any_eq_true, List.mem_map]
    constructor
    · rintro ⟨d', hd', hs⟩
      exact ⟨d', mem_of_mem_uniqueBy hd', of_decide_eq_true hs⟩
    · rintro ⟨d', hd', hs⟩
      obtain ⟨d'', hd'', hs'⟩ : ∃ d'' ∈ uniqueBy Path.components l,
          d''.components = d'.components := exists_mem_uniqueBy hd'
      exact ⟨d'', hd'', decide_eq_true (hs'.trans hs)⟩
  unfold addAlias
  rw [uniqueBy_concat]
  by_cases hd : d.components ∈ l.map Path.components
  · rw [if_pos (hany.mpr hd), if_pos hd, h]
  · rw [if_neg fun h => hd (hany.mp h), if_neg hd, hlookup,
      if_pos Option.isSome_some, h]
    simp

theorem aliases_foldl_addAlias (ds : List Path)
    (h : g.aliases = [(name, uniqueBy Path.components l)]) :
    (ds.foldl (fun g d => g.addAlias name d) g).aliases =
      [(name, uniqueBy Path.components (l ++ ds))] := by
  induction ds generalizing g l with
  | nil => rw [List.append_nil]; exact h
  | cons d ds ih =>
    rw [List.foldl_cons, ih (aliases_addAlias d h), List.append_assoc]
    rfl

end ActionGraph

namespace Installer

variable {i : Installer} {s : Settings} {base : Path}

/-- The only alias of the installer has the directories of the categories in their order, each of
them once. -/
def HasAliases (i : Installer) : Prop :=
  i.graph.aliases = [(installAlias, uniqueBy Path.components (Category.all.map i.dirs.dir))]

theorem hasAliases_new (h : new s base .empty = .ok i) : i.HasAliases := by
  unfold new at h
  obtain ⟨dirs, -, h⟩ := bind_eq_ok_iff.mp h
  cases h
  have hfirst : (ActionGraph.empty.addAlias installAlias (dirs.dir .program)).aliases =
      [(installAlias, uniqueBy Path.components [dirs.dir .program])] := by
    simp [ActionGraph.addAlias, ActionGraph.aliasDirs, ActionGraph.empty, uniqueBy, uniqueAfter]
  exact ActionGraph.aliases_foldl_addAlias
    [dirs.dir .library, dirs.dir .header, dirs.dir .share] hfirst

/-- What holds of an installer at all times. -/
structure Sound (i : Installer) : Prop where
  directories : i.dirs.Absolute
  aliases : i.HasAliases
  targets : ∀ a ∈ i.graph.actions, a.target.isAbsolute = true
  paired : Action.Paired i.graph.actions

namespace Sound

theorem new (h : new s base .empty = .ok i) : i.Sound := by
  have hactions : i.graph.actions = [] := actions_new h
  obtain ⟨s', base', hdirs⟩ := (Reachable.new h).exists_resolve
  refine ⟨InstallDirectories.absolute_of_resolve hdirs, hasAliases_new h, ?_, ?_⟩
  · rw [hactions]
    exact fun _ h => absurd h List.not_mem_nil
  · rw [hactions]
    exact .nil

theorem record {st : Staging} (h : i.Sound) (hs : ∀ e ∈ st.events, i.dirs.Stages e) :
    (i.record st).Sound where
  directories := h.directories
  aliases := h.aliases
  targets := by
    intro a ha
    rcases List.mem_append.mp ha with ha | ha
    · exact h.targets a ha
    · obtain ⟨e, he, ha⟩ := List.mem_flatMap.mp ha
      exact (hs e he).isAbsolute_target h.directories ha
  paired := h.paired.append st.paired_actions

end Sound

/-- A staging operation, on the tree that it finds. -/
inductive Operation
  | stage (fs : FileSystem) (t : Task)
  | stageAll (fs : FileSystem) (m : Manifest)

namespace Operation

variable (dirs : InstallDirectories)

def staging : Operation → Staging
  | stage fs t => t.staging fs dirs
  | stageAll fs m => .ofTasks fs dirs m.tasks

theorem stages {o : Operation} {e : StagingEvent} (h : e ∈ (o.staging dirs).events) :
    dirs.Stages e := by
  cases o with
  | stage fs t => exact t.stages h
  | stageAll fs m => exact Staging.stages_ofTasks h

end Operation

/-- The installer after operations, those that failed included. -/
def after (i : Installer) (os : List Operation) : Installer :=
  os.foldl (fun i o => i.record (o.staging i.dirs)) i

variable (i : Installer) (o : Operation) (os : List Operation)

theorem after_concat :
    i.after (os ++ [o]) = (i.after os).record (o.staging (i.after os).dirs) := by
  rw [after, List.foldl_append]
  rfl

theorem dirs_after : (i.after os).dirs = i.dirs := by
  induction os using List.reverseRecOn with
  | nil => rfl
  | append_singleton os o ih => rw [after_concat, record, ih]

theorem aliases_after : (i.after os).graph.aliases = i.graph.aliases := by
  induction os using List.reverseRecOn with
  | nil => rfl
  | append_singleton os o ih => rw [after_concat, record, ActionGraph.append, ih]

theorem actions_after_concat : (i.after (os ++ [o])).graph.actions =
    (i.after os).graph.actions ++ (o.staging i.dirs).actions := by
  rw [after_concat, dirs_after]
  rfl

theorem Sound.after {i : Installer} (h : i.Sound) : (i.after os).Sound := by
  induction os using List.reverseRecOn with
  | nil => exact h
  | append_singleton os o ih =>
    rw [after_concat]
    exact ih.record fun e => Operation.stages _

/-- After any operations on an installer that started with an empty graph, it is sound: absolute
directories and targets, each permission change right behind its copy, and the one alias with the
directories of the categories. These and the alias are those at the start, and one more operation
only adds its actions behind the others, also when it fails. -/
theorem sound_after {i : Installer} (h : new s base .empty = .ok i) (os : List Operation) :
    (i.after os).Sound ∧ (i.after os).dirs = i.dirs ∧
      (i.after os).graph.aliases = i.graph.aliases ∧
      ∀ o : Operation, (i.after (os ++ [o])).graph.actions =
        (i.after os).graph.actions ++ (o.staging i.dirs).actions :=
  ⟨(Sound.new h).after os, dirs_after i os, aliases_after i os,
    fun o => actions_after_concat i o os⟩

namespace Reachable.Sample

def lost : Task := .directory .header Search.Sample.search (.ofString "lost") ∅

def nameless : Task := .program (.ofString "..")

end Reachable.Sample

open Reachable.Sample in
theorem sound_after_sample :
    ((Operation.stage Search.Sample.tree lost).staging prefixed.dirs).failure ≠ none ∧
      (prefixed.after [.stage Search.Sample.tree headers, .stage Search.Sample.tree lost,
        .stage .empty nameless]).Sound :=
  ⟨by decide +kernel, (sound_after new_prefixed _).1⟩

end Installer

end StagedInstall
